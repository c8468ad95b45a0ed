import Cs1330.Malloc.Runs

/-!
# What a request gets

For requests up to `INT_MAX`, from any reachable heap: where `mm_malloc` places the block, when it
and `mm_realloc` return `NULL`, and which bytes the move of `mm_realloc` copies. The heap is seen
through `Heap.blocks` and `Heap.freeList`, that is as the code reads it.
-/

namespace Cs1330.Malloc
open Machine Links Tiling

variable {s s' t : Heap} {bs mids mids' xs ys : List Block} {fl fl' : List Int} {b c d n : Block}
  {a base ptr q size : Int}

/-- The bytes of the smallest block for a request. -/
def blockFor (size : Int) : Int := max minBlockSize (align (size + tagsSize))

theorem adjustedSize_eq_blockFor (positive : 0 < size) (bound : size ≤ intMax) : adjustedSize size = blockFor size := by
  simp only [intMax] at bound
  have sum : addLong size tagsSize = size + tagsSize :=
    addLong_eq ⟨by simp only [tagsSize, wordSize]; omega, by simp only [tagsSize, wordSize]; omega⟩
  unfold adjustedSize blockFor
  rw [sum]
  by_cases small : align (size + tagsSize) < minBlockSize
  · rw [if_pos small, max_eq_left (by omega)]
  · rw [if_neg small, max_eq_right (by omega)]

/-! ### Between the sentinels and with them -/

theorem Wf.layout_of_blocks (wf : Wf s mids fl) (blocks : s.blocks = .ok bs) : bs = s.layout mids :=
  Except.ok.inj (blocks.symm.trans wf.blocks_eq)

theorem Wf.list_of_freeList (wf : Wf s mids fl) (list : s.freeList = .ok fl') : fl' = fl :=
  Except.ok.inj (list.symm.trans wf.freeList_eq)

/-- The sentinels are allocated, so a free block of the heap lies between them. -/
theorem free_between (member : b ∈ s.layout mids) (free : b.allocated = false) : b ∈ mids := by
  rcases mem_layout.mp member with rfl | inner | rfl
  · cases free
  · exact inner
  · cases free

/-- The sentinels are smaller than any request, so the search would pass them too. -/
theorem FirstFit.whole (fit : FirstFit mids fl a b) (large : 32 ≤ a) : FirstFit (s.layout mids) fl a b := by
  obtain ⟨mem, free, fits, skipped, after, split, small⟩ := fit
  refine ⟨mem_layout_mid mem, free, fits, skipped, after, split, ?_⟩
  intro c cMem cSkipped
  rcases mem_layout.mp cMem with rfl | inner | rfl
  · show (16 : Int) < a
    omega
  · exact small c inner cSkipped
  · show (16 : Int) < a
    omega

theorem noFit_layout : NoFit (s.layout mids) a ↔ NoFit mids a := by
  constructor
  · intro none c member free
    exact none c (mem_layout_mid member) free
  · intro none c member free
    exact none c (free_between member free) free

/-! ### First fit -/

/-- What `mm_malloc` leaves when it uses the free block `b` for `a` bytes: `d` is handed out, and
when `b` has room for one block more its low part stays free, at the head of the list. -/
structure Reuses (s s' : Heap) (bs : List Block) (fl : List Int) (a : Int) (b d : Block) : Prop where
  first : FirstFit bs fl a b
  brk : s'.memBrk = s.memBrk
  taken : d.allocated = true
  enough : a ≤ d.size
  waste : d.size < a + minBlockSize
  split : minBlockSize ≤ b.size - a → d = ⟨b.addr + (b.size - a), a, true⟩ ∧ s'.flistFirst = b.addr ∧
    s'.freeList = .ok (b.addr :: fl.erase b.addr) ∧
    ∃ xs ys, bs = xs ++ b :: ys ∧ s'.blocks = .ok (xs ++ ⟨b.addr, b.size - a, false⟩ :: d :: ys)
  whole : b.size - a < minBlockSize → d = ⟨b.addr, b.size, true⟩ ∧ s'.freeList = .ok (fl.erase b.addr) ∧
    ∃ xs ys, bs = xs ++ b :: ys ∧ s'.blocks = .ok (xs ++ d :: ys)

/-- What `mm_malloc` leaves when it grows the heap: the new block starts at the old epilogue. -/
structure Extends (s s' : Heap) (bs : List Block) (fl : List Int) (a : Int) : Prop where
  brk : s'.memBrk = s.memBrk + a
  blocks : s'.blocks = .ok (bs.dropLast ++ [⟨s.epilogue, a, true⟩, ⟨s.epilogue + a, 16, true⟩])
  freeList : s'.freeList = .ok fl

theorem Placed.reuses (placed : Placed s fl a mids d s' mids' fl') (final : Wf s' mids' fl') (large : 32 ≤ a)
    (some : ¬NoFit mids a) : ∃ b, Reuses s s' (s.layout mids) fl a b d := by
  have least : minBlockSize = 32 := by decide
  cases placed with
  | whole xs b ys m first fit tight =>
    refine ⟨b, fit.whole large, rfl, rfl, fit.fits, by show b.size < a + minBlockSize; omega, ?_, ?_⟩
    · intro room
      omega
    · intro _
      refine ⟨rfl, final.freeList_eq, s.prologueBlock :: xs, ys ++ [s.epilogueBlock], layout_append s xs (b :: ys), ?_⟩
      rw [final.blocks_eq]
      exact congrArg _ (layout_append s xs _)
  | split xs b ys m first fit room =>
    refine ⟨b, fit.whole large, rfl, rfl, Int.le_refl a, by show a < a + minBlockSize; omega, ?_, ?_⟩
    · intro _
      refine ⟨rfl, final.first, final.freeList_eq, s.prologueBlock :: xs, ys ++ [s.epilogueBlock],
        layout_append s xs (b :: ys), ?_⟩
      rw [final.blocks_eq, ← fit.free]
      exact congrArg _ (layout_append s xs _)
    · intro tight
      omega
  | extend mids m none room => exact (some none).elim

theorem Placed.extended (placed : Placed s fl a mids d s' mids' fl') (final : Wf s' mids' fl')
    (none : NoFit mids a) : d.addr = s.epilogue ∧ Extends s s' (s.layout mids) fl a := by
  cases placed with
  | whole xs b ys m first fit tight => exact (fit.some none).elim
  | split xs b ys m first fit room => exact (fit.some none).elim
  | extend mids m none room =>
    refine ⟨rfl, rfl, ?_, final.freeList_eq⟩
    have front : (s.layout mids).dropLast = s.prologueBlock :: mids := by
      change ((s.prologueBlock :: mids) ++ [s.epilogueBlock]).dropLast = _
      exact List.dropLast_concat
    rw [final.blocks_eq, front]
    simp [Heap.layout, Heap.extension, Heap.extended, Heap.prologueBlock, Heap.epilogueBlock, Heap.withMem]

theorem malloc_firstFit (usable : Usable base) (reachable : Reachable base s) (positive : 0 < size)
    (bound : size ≤ intMax) :
    ∃ bs fl, s.blocks = .ok bs ∧ s.freeList = .ok fl ∧
      ((∃ c ∈ bs, c.allocated = false ∧ blockFor size ≤ c.size) →
        ∃ b d s', mmMalloc size s = .ok (blockPayload d.addr, s') ∧ Reuses s s' bs fl (blockFor size) b d) ∧
      ((∀ c ∈ bs, c.allocated = false → c.size < blockFor size) → s.memBrk + blockFor size ≤ base + maxHeap →
        ∃ s', mmMalloc size s = .ok (blockPayload s.epilogue, s') ∧ Extends s s' bs fl (blockFor size)) := by
  obtain ⟨mids, fl, wf, start⟩ := reachable_wf usable reachable
  refine ⟨s.layout mids, fl, wf.blocks_eq, wf.freeList_eq, ?_⟩
  have extent := wf.region.extent
  have small : size < 2 ^ 31 := by simp only [intMax] at bound; omega
  obtain ⟨large, _⟩ := adjustedSize_bounds positive small
  rw [← adjustedSize_eq_blockFor positive bound]
  rcases wf.run_mmMalloc positive small with ⟨d, s', mids', fl', placed, run, final, _⟩ | ⟨none, full, _⟩
  · constructor
    · rintro ⟨c, member, free, fits⟩
      have some : ¬NoFit mids (adjustedSize size) := by
        intro none
        have := none c (free_between member free) free
        omega
      obtain ⟨b, reuses⟩ := placed.reuses final large some
      exact ⟨b, d, s', run, reuses⟩
    · intro none _
      obtain ⟨addr, grown⟩ := placed.extended final (noFit_layout.mp none)
      rw [addr] at run
      exact ⟨s', run, grown⟩
  · constructor
    · rintro ⟨c, member, free, fits⟩
      have := none c (free_between member free) free
      omega
    · intro _ room
      omega

theorem Wf.run_grow_heap (wf : Wf s mids fl) (positive : 0 < size) (small : size < 2 ^ 31)
    (none : NoFit mids (adjustedSize size)) (room : s.memBrk + adjustedSize size ≤ s.memStartBrk + maxHeap) :
    ∃ s', Wf s' (mids ++ [s.extension (adjustedSize size)]) fl ∧ s'.memStartBrk = s.memStartBrk ∧
      s'.memBrk = s.memBrk + adjustedSize size ∧ mmMalloc size s = .ok (s.epilogue + 8, s') := by
  have extent := wf.region.extent
  rcases wf.run_mmMalloc positive small with ⟨d, s', mids', fl', placed, run, final, _⟩ | ⟨_, full, _⟩
  · cases placed with
    | whole xs b ys m first fit tight => exact (fit.some none).elim
    | split xs b ys m first fit more => exact (fit.some none).elim
    | extend mids m _ _ => exact ⟨_, final, rfl, rfl, run⟩
  · omega

theorem reachable_twoExtended : ∃ s, Reachable 4096 s ∧ Wf s [⟨4112, 56, true⟩, ⟨4168, 56, true⟩] [] ∧
    s.memStartBrk = 4096 ∧ s.memBrk = 4240 := by
  have adjusted : adjustedSize 40 = 56 := by decide
  have limit : maxHeap = 20971520 := by decide
  have legal : ∀ s, Legal s (.malloc 40) := fun _ => ⟨by decide, by decide⟩
  obtain ⟨s, init, wf, start, brk⟩ := run_mmInit usable_4096 ⟨fun _ => 0, 0, 0, 0, 0, 0, 0⟩
  obtain ⟨t, wf₁, start₁, brk₁, first⟩ := wf.run_grow_heap (show (0 : Int) < 40 by decide) (by decide) (by simp [NoFit]) (by omega)
  obtain ⟨u, wf₂, start₂, brk₂, second⟩ := wf₁.run_grow_heap (show (0 : Int) < 40 by decide) (by decide)
    (by simp [NoFit, Heap.extension]) (by omega)
  have last := wf.epilogue_eq
  have last₁ := wf₁.epilogue_eq
  have shape : [s.extension (adjustedSize 40)] ++ [t.extension (adjustedSize 40)] = [⟨4112, 56, true⟩, ⟨4168, 56, true⟩] := by
    simp only [Heap.extension, adjusted, List.cons_append, List.nil_append, List.cons.injEq, Block.mk.injEq, and_true]
    omega
  refine ⟨u, ((Reachable.init init).step (legal s) first).step (legal t) second, ?_, by omega, by omega⟩
  rw [← shape]
  exact wf₂

theorem reachable_freedBlock : ∃ s fl, Reachable 4096 s ∧ Wf s [⟨4112, 56, false⟩, ⟨4168, 56, true⟩] fl ∧
    s.memStartBrk = 4096 ∧ s.memBrk = 4240 := by
  obtain ⟨s, reachable, wf, start, brk⟩ := reachable_twoExtended
  obtain ⟨m, first, fl, run, final, _⟩ := wf.run_mmFree (b := ⟨4112, 56, true⟩) (by simp) rfl
  have shape : coalesceAll (release (· == 4112) [⟨4112, 56, true⟩, ⟨4168, 56, true⟩]) =
      [⟨4112, 56, false⟩, ⟨4168, 56, true⟩] := by decide
  rw [shape] at final
  have legal : Legal s (.free (4112 + 8)) := Or.inr ((wf.owns _).mpr ⟨⟨4112, 56, true⟩, by simp, rfl, rfl⟩)
  exact ⟨_, fl, reachable.step legal ((run_bind run).trans rfl), final, start, brk⟩

/-- A request of 16 bytes splits nothing and takes the freed block of 56; one of 100 grows the heap. -/
theorem malloc_firstFit_freedBlock : ∃ s bs fl, Reachable 4096 s ∧ s.blocks = .ok bs ∧ s.freeList = .ok fl ∧
    (∃ b d s', mmMalloc 16 s = .ok (blockPayload d.addr, s') ∧ Reuses s s' bs fl (blockFor 16) b d) ∧
    ∃ s', mmMalloc 100 s = .ok (blockPayload s.epilogue, s') ∧ Extends s s' bs fl (blockFor 100) := by
  obtain ⟨s, fl, reachable, wf, start, brk⟩ := reachable_freedBlock
  have member : (⟨4112, 56, false⟩ : Block) ∈ s.layout [⟨4112, 56, false⟩, ⟨4168, 56, true⟩] := by simp [Heap.layout]
  have none : ∀ c ∈ s.layout [⟨4112, 56, false⟩, ⟨4168, 56, true⟩], c.allocated = false → c.size < blockFor 100 := by
    have large : blockFor 100 = 120 := by decide
    intro c cMem free
    obtain rfl : c = ⟨4112, 56, false⟩ := by
      have inner := free_between cMem free
      simp only [List.mem_cons, List.not_mem_nil, or_false] at inner
      rcases inner with rfl | rfl
      · rfl
      · cases free
    rw [large]
    decide
  refine ⟨s, _, _, reachable, wf.blocks_eq, wf.freeList_eq, ?_, ?_⟩
  · obtain ⟨_, _, blocks, list, fits, _⟩ := malloc_firstFit usable_4096 reachable (show (0 : Int) < 16 by decide) (by decide)
    obtain rfl := wf.layout_of_blocks blocks
    obtain rfl := wf.list_of_freeList list
    exact fits ⟨_, member, rfl, by decide⟩
  · obtain ⟨_, _, blocks, list, _, grows⟩ := malloc_firstFit usable_4096 reachable (show (0 : Int) < 100 by decide) (by decide)
    obtain rfl := wf.layout_of_blocks blocks
    obtain rfl := wf.list_of_freeList list
    apply grows none
    rw [brk]
    decide

/-! ### Out of memory -/

/-- No free block is large enough and the region has no room for one more. -/
def Exhausted (s : Heap) (bs : List Block) (limit a : Int) : Prop :=
  (∀ c ∈ bs, c.allocated = false → c.size < a) ∧ limit < s.memBrk + a

theorem Wf.malloc_null (wf : Wf s mids fl) (positive : 0 < size) (small : size < 2 ^ 31) :
    ∃ p s', mmMalloc size s = .ok (p, s') ∧
      (p = 0 ↔ Exhausted s (s.layout mids) (s.memStartBrk + maxHeap) (adjustedSize size)) ∧ (p = 0 → s' = s) := by
  have extent := wf.region.extent
  rcases wf.run_mmMalloc positive small with ⟨d, s', mids', fl', placed, run, final, _⟩ | ⟨none, full, run⟩
  · have dMem : d ∈ mids' := (placed.mem_allocated placed.allocated).mpr (Or.inr rfl)
    have dPos := final.addr_pos dMem
    refine ⟨_, s', run, ⟨fun null => by omega, ?_⟩, fun null => by omega⟩
    intro exhausted
    have none := noFit_layout.mp exhausted.1
    have noRoom := exhausted.2
    cases placed with
    | whole xs b ys m first fit tight => exact (fit.some none).elim
    | split xs b ys m first fit more => exact (fit.some none).elim
    | extend mids m _ room => omega
  · exact ⟨0, s, run, ⟨fun _ => ⟨noFit_layout.mpr none, by omega⟩, fun _ => rfl⟩, fun _ => rfl⟩

/-- The move returns `NULL` exactly when its `mm_malloc` does, before anything was written. -/
theorem Wf.moveBlock_null (wf : Wf s mids fl) (member : b ∈ mids) (allocated : b.allocated = true) (positive : 0 < size)
    (small : size < 2 ^ 31) (tight : b.size < adjustedSize size) :
    ∃ q s', moveBlock (b.addr + 8) size s = .ok (q, s') ∧ (q = 0 ↔ ∃ s'', mmMalloc size s = .ok (0, s'')) ∧
      (q = 0 → s' = s) := by
  obtain ⟨_, _, _, payload, _⟩ := adjustedSize_bounds positive small
  have aligned := align_eq (n := size) ⟨by omega, by omega⟩
  rcases wf.run_mmMalloc positive small with ⟨d, t, mids₁, fl₁, placed, malloc, placedWf, frame⟩ | ⟨_, _, malloc⟩
  · have dMem : d ∈ mids₁ := (placed.mem_allocated placed.allocated).mpr (Or.inr rfl)
    have dPos := placedWf.addr_pos dMem
    obtain ⟨s', _, _, _, run, _, _⟩ :=
      placed.run_copy wf placedWf malloc frame member allocated tight payload (by omega)
    refine ⟨_, s', run, ⟨fun null => by omega, ?_⟩, fun null => by omega⟩
    rintro ⟨s'', null⟩
    have same := congrArg Prod.fst (Except.ok.inj (malloc.symm.trans null))
    have zero : d.addr + 8 = 0 := same
    omega
  · exact ⟨0, s, run_moveBlock_null malloc _, ⟨fun _ => ⟨s, malloc⟩, fun _ => rfl⟩, fun _ => rfl⟩

theorem Wf.realloc_null (wf : Wf s mids fl) (member : b ∈ mids) (allocated : b.allocated = true)
    (nMem : n ∈ s.layout mids) (next : n.addr = b.limit) (positive : 0 < size) (small : size < 2 ^ 31) :
    ∃ q s', mmRealloc (b.addr + 8) size s = .ok (q, s') ∧
      (q = 0 ↔ MustMove b n (adjustedSize size) ∧ ∃ s'', mmMalloc size s = .ok (0, s'')) ∧ (q = 0 → s' = s) := by
  have bPos := wf.addr_pos member
  by_cases moves : MustMove b n (adjustedSize size)
  · obtain ⟨q, s', run, null, same⟩ := wf.moveBlock_null member allocated positive small moves.1
    have path := wf.mmRealloc_moves member nMem next (by omega) moves
    exact ⟨q, s', path.trans run, null.trans (by simp only [moves, true_and]), same⟩
  · obtain ⟨s', _, _, _, run, _⟩ := wf.run_inPlace member allocated nMem next (by omega) moves
    exact ⟨_, s', run, ⟨fun null => by omega, fun both => (moves both.1).elim⟩, fun null => by omega⟩

/-- `NULL` means that the heap is exhausted, and then the whole state is as it was. -/
theorem outOfMemory_unchanged (usable : Usable base) (reachable : Reachable base s) (positive : 0 < size)
    (bound : size ≤ intMax) :
    ∃ bs, s.blocks = .ok bs ∧
      (∃ p s', mmMalloc size s = .ok (p, s') ∧ (p = 0 ↔ Exhausted s bs (base + maxHeap) (blockFor size)) ∧
        (p = 0 → s' = s)) ∧
      ∀ ptr, s.Owns ptr → ∃ b ∈ bs, ∃ n ∈ bs, b.allocated = true ∧ ptr = blockPayload b.addr ∧
        n.addr = b.addr + b.size ∧ ∃ q s', mmRealloc ptr size s = .ok (q, s') ∧
          (q = 0 ↔ MustMove b n (blockFor size) ∧ ∃ s'', mmMalloc size s = .ok (0, s'')) ∧
          (q = 0 → s' = s ∧ s'.Owns ptr) := by
  obtain ⟨mids, fl, wf, start⟩ := reachable_wf usable reachable
  refine ⟨s.layout mids, wf.blocks_eq, ?_⟩
  have small : size < 2 ^ 31 := by simp only [intMax] at bound; omega
  rw [← adjustedSize_eq_blockFor positive bound, ← start]
  constructor
  · exact wf.malloc_null positive small
  · intro ptr owned
    obtain ⟨b, member, allocated, rfl⟩ := (wf.owns ptr).mp owned
    obtain ⟨n, nMem, next⟩ := wf.next_mem member
    obtain ⟨q, s', run, null, same⟩ := wf.realloc_null member allocated nMem next positive small
    refine ⟨b, mem_layout_mid member, n, nMem, allocated, rfl, next, q, s', run, null, ?_⟩
    intro isNull
    have unchanged := same isNull
    exact ⟨unchanged, unchanged ▸ owned⟩

theorem outOfMemory_unchanged_large : ∃ s bs, Reachable 4096 s ∧ s.blocks = .ok bs ∧ s.Owns 4120 ∧
    Exhausted s bs (4096 + maxHeap) (blockFor intMax) ∧ mmMalloc intMax s = .ok (0, s) := by
  obtain ⟨s, reachable, wf, start, brk⟩ := reachable_twoExtended
  have owned : s.Owns 4120 := (wf.owns _).mpr ⟨⟨4112, 56, true⟩, by simp, rfl, by decide⟩
  obtain ⟨_, blocks, ⟨p, s', run, null, same⟩, _⟩ :=
    outOfMemory_unchanged usable_4096 reachable (show 0 < intMax by decide) (by decide)
  obtain rfl := wf.layout_of_blocks blocks
  have exhausted : Exhausted s (s.layout [⟨4112, 56, true⟩, ⟨4168, 56, true⟩]) (4096 + maxHeap) (blockFor intMax) := by
    constructor
    · apply noFit_layout.mpr
      simp [NoFit]
    · rw [brk]
      decide
  have isNull := null.mpr exhausted
  refine ⟨s, _, reachable, blocks, owned, exhausted, ?_⟩
  rw [run, isNull, same isNull]

/-! ### The bytes that a move copies -/

/-- `mm_realloc` reaches its `memcpy`: the block at `ptr` must move and `mm_malloc` returned `q`. -/
structure Copies (s : Heap) (ptr size q : Int) (t : Heap) : Prop where
  moves : ∃ bs, s.blocks = .ok bs ∧ ∃ b ∈ bs, ∃ n ∈ bs, ptr = blockPayload b.addr ∧ n.addr = b.addr + b.size ∧
    MustMove b n (adjustedSize size)
  malloc : mmMalloc size s = .ok (q, t)
  nonNull : q ≠ 0

/-- A `memcpy` of `length` bytes from `ptr` to `q` stays inside the two payloads, and these bytes do
not overlap. -/
structure CopyOwned (s t : Heap) (ptr q length : Int) : Prop where
  source : ∃ room, (ptr, room) ∈ s.payloads ∧ length ≤ room
  target : ∃ room, (q, room) ∈ t.payloads ∧ length ≤ room
  disjoint : ptr + length ≤ q ∨ q + length ≤ ptr

theorem Wf.copies_block (wf : Wf s mids fl) (owned : s.Owns ptr) (copies : Copies s ptr size q t) :
    ∃ b ∈ mids, ∃ n ∈ s.layout mids, b.allocated = true ∧ ptr = b.addr + 8 ∧ n.addr = b.limit ∧
      MustMove b n (adjustedSize size) := by
  obtain ⟨c, cMem, allocated, rfl⟩ := (wf.owns ptr).mp owned
  obtain ⟨bs, blocks, b, bMem, n, nMem, same, next, moves⟩ := copies.moves
  obtain rfl := wf.layout_of_blocks blocks
  simp only [blockPayload, wordSize] at same
  obtain rfl := wf.eq_of_addr (mem_layout_mid cMem) bMem (by omega)
  exact ⟨c, cMem, n, nMem, allocated, rfl, next, moves⟩

theorem Copies.run (copies : Copies s ptr size q t) (path : mmRealloc ptr size s = moveBlock ptr size s) :
    mmRealloc ptr size s =
      (do
        modify fun s => s.withMem (memcpy s.mem q ptr (align size).toNat)
        mmFree ptr
        return q : HeapM Int) t := by
  rw [path]
  unfold moveBlock
  rw [run_bind copies.malloc, if_neg copies.nonNull]

/-- The length is computed from the new size, and the path is taken only when that does not fit the
old block: the source always runs past the old payload. -/
theorem Wf.copy_overruns (wf : Wf s mids fl) (owned : s.Owns ptr) (positive : 0 < size) (small : size < 2 ^ 31)
    (copies : Copies s ptr size q t) : ¬CopyOwned s t ptr q (align size) := by
  obtain ⟨b, member, n, _, _, rfl, _, moves⟩ := wf.copies_block owned copies
  rintro ⟨⟨room, held, fits⟩, _, _⟩
  obtain ⟨c, cMem, _, same⟩ := (wf.mem_payloads _).mp held
  have ptrs := congrArg Prod.fst same
  have rooms := congrArg Prod.snd same
  simp only at ptrs rooms
  obtain rfl := wf.eq_of_addr (mem_layout_mid cMem) (mem_layout_mid member) (by omega)
  have large := wf.large c member
  have tight := moves.1
  have payload := align_eq (n := size) ⟨by omega, by omega⟩
  rw [adjustedSize_of_sum (by omega) (by omega)] at tight
  omega

theorem realloc_copy_overruns (usable : Usable base) (reachable : Reachable base s) (owned : s.Owns ptr)
    (positive : 0 < size) (bound : size ≤ intMax) (copies : Copies s ptr size q t) :
    mmRealloc ptr size s =
        (do
          modify fun s => s.withMem (memcpy s.mem q ptr (align size).toNat)
          mmFree ptr
          return q : HeapM Int) t ∧
      ¬CopyOwned s t ptr q (align size) := by
  obtain ⟨mids, fl, wf, _⟩ := reachable_wf usable reachable
  obtain ⟨b, member, n, nMem, _, same, next, moves⟩ := wf.copies_block owned copies
  constructor
  · apply copies.run
    rw [same]
    exact wf.mmRealloc_moves member nMem next (by omega) moves
  · exact wf.copy_overruns owned positive (by simp only [intMax] at bound; omega) copies

/-- The first of two blocks of 56 bytes, asked to hold 1000. -/
theorem copies_twoExtended : ∃ s q t, Reachable 4096 s ∧ s.Owns 4120 ∧ Copies s 4120 1000 q t := by
  obtain ⟨s, reachable, wf, start, brk⟩ := reachable_twoExtended
  have owned : s.Owns 4120 := (wf.owns _).mpr ⟨⟨4112, 56, true⟩, by simp, rfl, by decide⟩
  have last := wf.epilogue_eq
  obtain ⟨t, _, _, _, run⟩ := wf.run_grow_heap (show (0 : Int) < 1000 by decide) (by decide) (by simp [NoFit])
    (by rw [start, brk]; decide)
  refine ⟨s, _, t, reachable, owned, ⟨_, wf.blocks_eq, ⟨4112, 56, true⟩, by simp [Heap.layout], ⟨4168, 56, true⟩,
    by simp [Heap.layout], by decide, by decide, by decide, by simp⟩, run, ?_⟩
  omega

theorem realloc_copy_overruns_1000 : ∃ s q t, Reachable 4096 s ∧ s.Owns 4120 ∧ Copies s 4120 1000 q t ∧
    ¬CopyOwned s t 4120 q (align 1000) := by
  obtain ⟨s, q, t, reachable, owned, copies⟩ := copies_twoExtended
  exact ⟨s, q, t, reachable, owned, copies,
    (realloc_copy_overruns usable_4096 reachable owned (by decide) (by decide) copies).2⟩

theorem copy_past_old_payload : ¬∀ base s ptr size q t, Usable base → Reachable base s → s.Owns ptr → 0 < size →
    size ≤ intMax → Copies s ptr size q t → CopyOwned s t ptr q (align size) := by
  intro claimed
  obtain ⟨s, q, t, reachable, owned, copies⟩ := copies_twoExtended
  obtain ⟨mids, fl, wf, _⟩ := reachable_wf usable_4096 reachable
  exact wf.copy_overruns owned (by decide) (by decide) copies
    (claimed 4096 s 4120 1000 q t usable_4096 reachable owned (by decide) (by decide) copies)

end Cs1330.Malloc
