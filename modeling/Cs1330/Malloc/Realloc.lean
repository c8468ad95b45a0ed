import Cs1330.Malloc.Allocate

/-!
# Reallocating, and the empty heap

`mm_realloc` stays, absorbs the next block or moves; `Resized` lists what each way leaves.
`mm_init` establishes the invariant in any memory.
-/

namespace Cs1330.Malloc
open Machine Links Tiling

variable {s : Heap} {bs mids xs ys : List Block} {fl : List Int} {b c n : Block} {size : Int} {m' : Memory}

/-! ### Writing a payload -/

/-- Only payload bytes of `b` differ. -/
def PayloadWritten (b : Block) (m m' : Memory) : Prop := ∀ x, x < b.addr + 8 ∨ b.limit - 8 ≤ x → m' x = m x

theorem PayloadWritten.same {m : Memory} (written : PayloadWritten b m m') (apart : b.Apart c) : Same c m m' := by
  intro x low high
  apply written
  simp only [Block.Apart, Block.limit] at apart high ⊢
  omega

theorem Tagged.overwrite (tagged : Tagged s bs) (member : b ∈ bs) (written : PayloadWritten b s.mem m') :
    Tagged (s.withMem m') bs := by
  have word : ∀ c ∈ bs, ∀ a, a = c.addr ∨ a = c.limit - 8 → load m' a = load s.mem a := by
    intro c cMem a place
    have size := (tagged.sized c cMem).tags
    apply load_congr
    intro x low high
    by_cases same : b = c
    · subst same
      apply written
      simp only [Block.limit] at place ⊢
      omega
    · apply written.same (tagged.apart_of_ne member cMem same) x
      · simp only [Block.limit] at place
        omega
      · simp only [Block.limit] at place ⊢
        omega
  refine ⟨tagged.region.withMem m', tagged.inside, tagged.sized, ?_, ?_, tagged.apart⟩
  · intro c cMem
    exact (word c cMem _ (Or.inl rfl)).trans (tagged.header c cMem)
  · intro c cMem
    exact (word c cMem _ (Or.inr rfl)).trans (tagged.endTag c cMem)

/-- The client, and `memcpy`, may write anything into the payload of an allocated block. -/
theorem Rep.overwrite (rep : Rep s bs fl) (member : b ∈ bs) (allocated : b.allocated = true)
    (written : PayloadWritten b s.mem m') : Rep (s.withMem m') bs fl := by
  have link : ∀ a ∈ fl, ∀ k, k = 8 ∨ k = 16 → load m' (a + k) = load s.mem (a + k) := by
    intro a aMem k place
    obtain ⟨c, cMem, rfl, cFree⟩ := rep.free a aMem
    have size := (rep.sized c cMem).links cFree
    have different : b ≠ c := by
      intro same
      rw [same, cFree] at allocated
      cases allocated
    apply load_congr
    intro x low high
    apply written.same (rep.apart_of_ne member cMem different) x
    · omega
    · simp only [Block.limit]
      omega
  refine ⟨rep.toTagged.overwrite member written, rep.free, rep.distinct, ?_, rep.first⟩
  apply ring_congr rep.ring
  · exact fun a aMem => link a aMem 8 (Or.inl rfl)
  · exact fun a aMem => link a aMem 16 (Or.inr rfl)

theorem Wf.overwrite (wf : Wf s mids fl) (member : b ∈ mids) (allocated : b.allocated = true)
    (written : PayloadWritten b s.mem m') : Wf (s.withMem m') mids fl :=
  ⟨wf.toRep.overwrite (mem_layout_mid member) allocated written, wf.tiled, wf.coalesced, wf.large, wf.listed⟩

/-! ### Absorbing the next block -/

/-- The tag writes of the in-place branch touch no payload byte of the block that grows. -/
theorem TagsWritten.payload {m : Memory} {word : Int} (written : TagsWritten m m' b.addr (b.merge n).size word)
    (large : 8 ≤ n.size) {x : Int} (low : b.addr + 8 ≤ x) (high : x < b.limit) : m' x = m x := by
  simp only [Block.limit] at high
  exact written.frame x (by omega) (by simp only [Block.merge]; omega)

theorem Rep.run_grow (rep : Rep s (xs ++ b :: n :: ys) fl) (next : b.limit = n.addr) (allocated : b.allocated = true)
    (nFree : n.allocated = false) (listed : Listed (xs ++ b :: n :: ys) fl) :
    ∃ m' first, (do pullFreeBlock n.addr
                    blockSetSizeAndAllocated b.addr (addLong b.size (← blockSize n.addr)) 1 : HeapM Unit) s =
        .ok ((), s.withList m' first) ∧
      Rep (s.withList m' first) (xs ++ b.merge n :: ys) (fl.erase n.addr) ∧
      Listed (xs ++ b.merge n :: ys) (fl.erase n.addr) ∧
      (∀ c ∈ xs ++ ys, c.allocated = true → Same c s.mem m') ∧
      ∀ x, b.addr + 8 ≤ x → x < b.limit → m' x = s.mem x := by
  have bMem : b ∈ xs ++ b :: n :: ys := by simp
  have nMem : n ∈ xs ++ b :: n :: ys := by simp
  have nListed := listed n nMem nFree
  obtain ⟨pull, pulledRep⟩ := rep.run_pull nListed
  have links := rep.linksWritten_pulled nListed
  have nLarge := (rep.sized n nMem).tags
  have bLarge := (rep.sized b bMem).tags
  have bInside := rep.inside b bMem
  have nInside := rep.inside n nMem
  have sub : (xs ++ ys).Sublist (xs ++ b :: n :: ys) := by simp
  have sized : Sized (b.merge n) := by
    have bAligned := (rep.sized b bMem).aligned
    have nAligned := (rep.sized n nMem).aligned
    refine ⟨by simp only [Block.merge]; omega, by simp only [Block.merge]; omega, ?_⟩
    intro free
    exact Bool.noConfusion (allocated.symm.trans free)
  have apart : ∀ d ∈ xs ++ ys, (b.merge n).Apart d := by
    intro d dMem
    have dMem' : d ∈ xs ++ b :: n :: ys := by grind
    have bApart := rep.apart_rest d (by grind)
    have nRest : ∀ e ∈ (xs ++ [b]) ++ ys, n.Apart e := Tagged.apart_rest (by simpa using rep.toTagged)
    have nApart := nRest d (by grind)
    have dTags := (rep.sized d dMem').tags
    exact merge_apart next bApart nApart (by omega)
  have free : FreeBlocks (xs ++ ys) (fl.erase n.addr) := by
    have shifted : Rep (s.withList (pulled s.mem n.addr) ((fl.erase n.addr).headD 0)) ((xs ++ [b]) ++ n :: ys)
        (fl.erase n.addr) := by simpa using pulledRep
    have rest := shifted.free_rest fun again => rep.distinct.not_mem_erase again
    intro a aMem
    obtain ⟨c, cMem, same, cFree⟩ := rest a aMem
    have different : c ≠ b := by
      intro same
      rw [same, allocated] at cFree
      cases cFree
    refine ⟨c, ?_, same, cFree⟩
    simp only [List.mem_append, List.mem_singleton] at cMem ⊢
    tauto
  simp only [Block.limit] at next bInside nInside
  obtain ⟨m', create, created, written⟩ := pulledRep.run_setTags (b := b.merge n) sub
    ⟨bInside.1, by simp only [Block.limit, Block.merge]; show _ ≤ s.memBrk; omega⟩ sized apart free
  refine ⟨m', (fl.erase n.addr).headD 0, ?_, created.perm List.perm_middle.symm, ?_, ?_, ?_⟩
  · have sum := addLong_sizes pulledRep bMem nMem
    rw [run_bind pull, run_bind (pulledRep.run_size nMem), sum]
    simp only [Block.merge, allocated, bit, if_true] at create
    exact create
  · have shifted : Tagged s ((xs ++ [b]) ++ n :: ys) := by simpa using rep.toTagged
    have rest : Listed ((xs ++ [b]) ++ ys) (fl.erase n.addr) := shifted.listed_erase (by simpa using listed)
    exact Listed.replace (b := b) (by simpa using rest) rfl id
  · intro c cMem cAllocated
    have cMem' : c ∈ xs ++ b :: n :: ys := by grind
    exact (links.same rep.toTagged rep.free cMem' cAllocated).trans (written.same sized (apart c cMem))
  · intro x low high
    have pulledSame := links.same rep.toTagged rep.free bMem allocated x (by omega) high
    exact (written.payload (by omega) low high).trans pulledSame

/-! ### Moving a block -/

theorem Wf.addr_pos (wf : Wf s mids fl) (member : b ∈ mids) : 0 < b.addr := by
  have inside := (wf.inside b (mem_layout_mid member)).1
  have positive := wf.region.positive
  omega

/-- What the four ways through `mm_realloc` leave: the pointer, the heap, its layout and its free list. -/
inductive Resized (s : Heap) (fl : List Int) (size : Int) (b : Block) :
    List Block → Int → Heap → List Block → List Int → Prop
  | stay (mids : List Block) (enough : adjustedSize size ≤ b.size) : Resized s fl size b mids (b.addr + 8) s mids fl
  | absorb (xs : List Block) (n : Block) (ys : List Block) (m : Memory) (first : Int) (tight : b.size < adjustedSize size)
      (nFree : n.allocated = false) (enough : adjustedSize size ≤ b.size + n.size) :
      Resized s fl size b (xs ++ b :: n :: ys) (b.addr + 8) (s.withList m first) (xs ++ b.merge n :: ys) (fl.erase n.addr)
  | move (mids : List Block) (d : Block) (t : Heap) (mids' : List Block) (fl' : List Int) (m : Memory) (first : Int)
      (last : List Int) (tight : b.size < adjustedSize size) (placed : Placed s fl (adjustedSize size) mids d t mids' fl') :
      Resized s fl size b mids (d.addr + 8) (t.withList m first) (coalesceAll (release (· == b.addr) mids')) last
  | full (mids : List Block) (tight : b.size < adjustedSize size) (none : NoFit mids (adjustedSize size))
      (room : s.memMaxAddr < s.memBrk + adjustedSize size) : Resized s fl size b mids 0 s mids fl

/-- What `mm_realloc` promises beyond the invariant: other blocks keep their bytes, and the block
keeps those that fit. -/
structure Kept (s : Heap) (mids : List Block) (b : Block) (size q : Int) (m' : Memory) : Prop where
  others : ∀ c ∈ mids, c.allocated = true → c ≠ b → Same c s.mem m'
  copied : q ≠ 0 → ∀ i, 0 ≤ i → i < b.size - 16 → i < size → m' (q + i) = s.mem (b.addr + 8 + i)

/-- The copy and the `mm_free` of the move, once `mm_malloc` has handed out `d`. -/
theorem Placed.run_copy {d : Block} {t : Heap} {mids₁ : List Block} {fl₁ : List Int}
    (placed : Placed s fl (adjustedSize size) mids d t mids₁ fl₁) (wf : Wf s mids fl) (placedWf : Wf t mids₁ fl₁)
    (malloc : mmMalloc size s = .ok (d.addr + 8, t)) (frame : ∀ c ∈ mids, c.allocated = true → Same c s.mem t.mem)
    (member : b ∈ mids) (allocated : b.allocated = true) (tight : b.size < adjustedSize size)
    (payload : align size + 16 ≤ adjustedSize size) (covers : size ≤ align size) :
    ∃ s' mids' fl', Resized s fl size b mids (d.addr + 8) s' mids' fl' ∧
      moveBlock (b.addr + 8) size s = .ok (d.addr + 8, s') ∧ Wf s' mids' fl' ∧
      Kept s mids b size (d.addr + 8) s'.mem := by
  have dMem : d ∈ mids₁ := (placed.mem_allocated placed.allocated).mpr (Or.inr rfl)
  have bMem : b ∈ mids₁ := (placed.mem_allocated allocated).mpr (Or.inl member)
  have dPos := placedWf.addr_pos dMem
  have fits := placed.fits
  have dLarge := placedWf.large d dMem
  have copy : PayloadWritten d t.mem (memcpy t.mem (d.addr + 8) (b.addr + 8) (align size).toNat) := by
    intro x outside
    apply memcpy_outside
    simp only [Block.limit] at outside
    omega
  have copiedWf := placedWf.overwrite dMem placed.allocated copy
  obtain ⟨m', first, last, free, final, freeFrame⟩ := copiedWf.run_mmFree bMem allocated
  refine ⟨_, _, _, Resized.move mids d t mids₁ fl₁ m' first last tight placed, ?_, final, ?_, ?_⟩
  · unfold moveBlock
    rw [run_bind malloc, if_neg (by omega), run_bind (run_modify _ _)]
    exact (run_bind free).trans rfl
  · intro c cMem cAllocated different
    have inPlaced := (placed.mem_allocated cAllocated).mpr (Or.inl cMem)
    have first := frame c cMem cAllocated
    have second := copy.same (placed.apart wf cMem cAllocated)
    exact (first.trans second).trans (freeFrame c inPlaced cAllocated different)
  · intro _ i low inside small
    have apart := placed.apart wf member allocated
    have different : d ≠ b := by
      intro same
      simp only [same, Block.Apart, Block.limit] at apart
      omega
    have dFrame := freeFrame d dMem placed.allocated different (d.addr + 8 + i) (by omega)
      (by simp only [Block.limit]; omega)
    -- The source runs past the old block; only its part inside the old payload is read back.
    have copied := memcpy_inside (m := t.mem) (d := d.addr + 8) (s := b.addr + 8) (i := i) (n := (align size).toNat)
      (k := (b.size - 16).toNat) (by simp only [Block.Apart, Block.limit] at apart; omega) low (by omega) (by omega)
    have source := frame b member allocated (b.addr + 8 + i) (by omega) (by simp only [Block.limit]; omega)
    exact dFrame.trans (copied.trans source)

theorem run_moveBlock_null (malloc : mmMalloc size s = .ok (0, s)) (ptr : Int) : moveBlock ptr size s = .ok (0, s) := by
  unfold moveBlock
  rw [run_bind malloc, if_pos rfl, run_pure]

theorem Wf.run_moveBlock (wf : Wf s mids fl) (member : b ∈ mids) (allocated : b.allocated = true) (positive : 0 < size)
    (bound : size < 2 ^ 31) (tight : b.size < adjustedSize size) :
    ∃ q s' mids' fl', Resized s fl size b mids q s' mids' fl' ∧ moveBlock (b.addr + 8) size s = .ok (q, s') ∧
      Wf s' mids' fl' ∧ Kept s mids b size q s'.mem := by
  obtain ⟨_, _, _, payload, _⟩ := adjustedSize_bounds positive bound
  have aligned := align_eq (n := size) ⟨by omega, by omega⟩
  rcases wf.run_mmMalloc positive bound with ⟨d, t, mids₁, fl₁, placed, malloc, placedWf, frame⟩ | ⟨none, room, malloc⟩
  · exact ⟨_, placed.run_copy wf placedWf malloc frame member allocated tight payload (by omega)⟩
  · refine ⟨0, s, mids, fl, Resized.full mids tight none room, run_moveBlock_null malloc _, wf,
      fun c _ _ _ => Same.refl c _, ?_⟩
    intro nonNull
    exact (nonNull rfl).elim

theorem Wf.run_absorb (wf : Wf s (xs ++ b :: n :: ys) fl) (allocated : b.allocated = true) (nFree : n.allocated = false) :
    ∃ m' first, (do pullFreeBlock n.addr
                    blockSetSizeAndAllocated b.addr (addLong b.size (← blockSize n.addr)) 1 : HeapM Unit) s =
        .ok ((), s.withList m' first) ∧
      Wf (s.withList m' first) (xs ++ b.merge n :: ys) (fl.erase n.addr) ∧
      (∀ c ∈ xs ++ ys, c.allocated = true → Same c s.mem m') ∧
      ∀ x, b.addr + 8 ≤ x → x < b.limit → m' x = s.mem x := by
  have shape : ∀ ds, s.layout (xs ++ (ds ++ ys)) = (s.prologueBlock :: xs) ++ (ds ++ (ys ++ [s.epilogueBlock])) := by
    intro ds
    rw [layout_append, List.append_assoc]
  have old := shape [b, n]
  have new := shape [b.merge n]
  simp only [List.cons_append, List.nil_append] at old new
  have rep := wf.toRep
  have listed := wf.listed
  have coalesced := wf.coalesced
  have tiled := wf.tiled
  rw [old, ← List.cons_append] at rep listed coalesced tiled
  obtain ⟨_, _, _, next, _⟩ := tiled_append.mp tiled
  obtain ⟨m', first, run, final, finalListed, frame, payload⟩ := rep.run_grow next.symm allocated nFree listed
  rw [List.cons_append, ← new] at final finalListed
  refine ⟨m', first, run, ?_, ?_, payload⟩
  · apply Wf.replace_middle [b, n] [b.merge n] wf final finalListed rfl rfl rfl rfl
    · intro lo hi cover
      obtain ⟨start, middle, stop⟩ := cover
      simp only [Tiled, Block.limit, Block.merge] at middle stop ⊢
      exact ⟨start, by omega⟩
    · intro c member
      obtain rfl := List.mem_singleton.mp member
      have bLarge := wf.large b (by simp)
      have nLarge := wf.large n (by simp)
      simp only [Block.merge]
      omega
    · show Coalesced (s.layout (xs ++ b.merge n :: ys))
      rw [new, ← List.cons_append]
      obtain ⟨front, back⟩ := coalesced_append.mp coalesced
      refine coalesced_append.mpr ⟨coalesced_snoc front id, ?_⟩
      exact coalesced_cons back.tail fun _ => allocated
  · intro c member cAllocated
    apply frame c _ cAllocated
    simp only [List.mem_append, List.mem_cons] at member ⊢
    tauto

/-- `mm_realloc` of a live block, with `n` the block after it: stay, absorb `n`, or move. -/
theorem Wf.mmRealloc_eq (wf : Wf s mids fl) (member : b ∈ mids) (nMem : n ∈ s.layout mids) (next : n.addr = b.limit)
    (nonzero : size ≠ 0) :
    mmRealloc (b.addr + 8) size s =
      if adjustedSize size ≤ b.size then .ok (b.addr + 8, s)
      else if n.allocated = false ∧ adjustedSize size ≤ b.size + n.size then
        (do
          pullFreeBlock n.addr
          blockSetSizeAndAllocated b.addr (addLong b.size (← blockSize n.addr)) 1
          return b.addr + 8 : HeapM Int) s
      else moveBlock (b.addr + 8) size s := by
  have bPos := wf.addr_pos member
  have inLayout := mem_layout_mid (s := s) member
  have block : payloadToBlock (b.addr + 8) = b.addr := by simp only [payloadToBlock, wordSize]; omega
  unfold mmRealloc
  rw [if_neg (by omega), if_neg nonzero, block, run_bind (wf.run_size inLayout)]
  by_cases enough : adjustedSize size ≤ b.size
  · rw [if_pos enough, if_pos enough, run_pure]
  rw [if_neg enough, if_neg enough, run_bind (wf.run_next inLayout), ← next, run_bind (wf.run_allocated nMem)]
  cases nState : n.allocated with
  | true => rw [if_neg (by simp [bit]), if_neg (by simp)]
  | false =>
    rw [if_pos (by simp [bit]), run_bind (wf.run_size nMem), addLong_sizes wf.toRep inLayout nMem]
    by_cases grows : b.size + n.size ≥ adjustedSize size
    · rw [if_pos grows, if_pos ⟨rfl, grows⟩]
    · rw [if_neg grows, if_neg (by simp only [true_and]; omega)]

theorem Wf.next_block (wf : Wf s (xs ++ b :: ys) fl) :
    ∃ n vs, ys ++ [s.epilogueBlock] = n :: vs ∧ n ∈ s.layout (xs ++ b :: ys) ∧ n.addr = b.limit := by
  obtain ⟨us, p, n, vs, _, back, whole, _, next⟩ := wf.neighbours
  exact ⟨n, vs, back, by simp [whole], next.symm⟩

theorem Wf.next_mem (wf : Wf s mids fl) (member : b ∈ mids) : ∃ n ∈ s.layout mids, n.addr = b.limit := by
  obtain ⟨xs, ys, rfl⟩ := List.append_of_mem member
  obtain ⟨n, _, _, nMem, next⟩ := wf.next_block
  exact ⟨n, nMem, next⟩

/-- A free block after `b` is not the epilogue. -/
theorem absorbed_inner {vs : List Block} (back : ys ++ [s.epilogueBlock] = n :: vs) (nFree : n.allocated = false) :
    ∃ zs, ys = n :: zs := by
  cases ys with
  | nil =>
    obtain ⟨rfl, _⟩ := List.cons.inj back
    cases nFree
  | cons y zs =>
    obtain ⟨rfl, _⟩ := List.cons.inj back
    exact ⟨zs, rfl⟩

/-- `mm_realloc` can neither keep `b` nor take in the block `n` after it. -/
def MustMove (b n : Block) (a : Int) : Prop := b.size < a ∧ ¬(n.allocated = false ∧ a ≤ b.size + n.size)

theorem Wf.mmRealloc_moves (wf : Wf s mids fl) (member : b ∈ mids) (nMem : n ∈ s.layout mids) (next : n.addr = b.limit)
    (nonzero : size ≠ 0) (moves : MustMove b n (adjustedSize size)) :
    mmRealloc (b.addr + 8) size s = moveBlock (b.addr + 8) size s := by
  have tight := moves.1
  rw [wf.mmRealloc_eq member nMem next nonzero, if_neg (by omega), if_neg moves.2]

theorem Wf.run_inPlace (wf : Wf s mids fl) (member : b ∈ mids) (allocated : b.allocated = true)
    (nMem : n ∈ s.layout mids) (next : n.addr = b.limit) (nonzero : size ≠ 0)
    (stays : ¬MustMove b n (adjustedSize size)) :
    ∃ s' mids' fl', Resized s fl size b mids (b.addr + 8) s' mids' fl' ∧
      mmRealloc (b.addr + 8) size s = .ok (b.addr + 8, s') ∧ Wf s' mids' fl' ∧
      Kept s mids b size (b.addr + 8) s'.mem := by
  rw [wf.mmRealloc_eq member nMem next nonzero]
  by_cases enough : adjustedSize size ≤ b.size
  · refine ⟨_, _, _, Resized.stay _ enough, ?_, wf, fun c _ _ _ => Same.refl c _, fun _ i _ _ _ => rfl⟩
    rw [if_pos enough]
  have tight : b.size < adjustedSize size := by omega
  have absorbs : n.allocated = false ∧ adjustedSize size ≤ b.size + n.size :=
    not_not.mp fun cannot => stays ⟨tight, cannot⟩
  rw [if_neg enough, if_pos absorbs]
  obtain ⟨nFree, grows⟩ := absorbs
  obtain ⟨xs, ys, rfl⟩ := List.append_of_mem member
  obtain ⟨n', vs, back, nMem', next'⟩ := wf.next_block
  obtain rfl := wf.eq_of_addr nMem nMem' (next.trans next'.symm)
  obtain ⟨zs, rfl⟩ := absorbed_inner back nFree
  obtain ⟨m', first, run, final, frame, payload⟩ := wf.run_absorb allocated nFree
  refine ⟨_, _, _, Resized.absorb xs n zs m' first tight nFree grows, ?_, final, ?_, ?_⟩
  · have joined := run_bind (f := fun _ => (return b.addr + 8 : HeapM Int)) run
    simp only [bind_assoc] at joined
    exact joined
  · intro c cMem cAllocated different
    have notNext : c ≠ n := by
      intro same
      rw [same, nFree] at cAllocated
      cases cAllocated
    apply frame c _ cAllocated
    simp only [List.mem_append, List.mem_cons] at cMem ⊢
    grind
  · intro _ i low inside _
    exact payload (b.addr + 8 + i) (by omega) (by simp only [Block.limit]; omega)

theorem Wf.run_mmRealloc (wf : Wf s mids fl) (member : b ∈ mids) (allocated : b.allocated = true) (positive : 0 < size)
    (bound : size < 2 ^ 31) :
    ∃ q s' mids' fl', Resized s fl size b mids q s' mids' fl' ∧ mmRealloc (b.addr + 8) size s = .ok (q, s') ∧
      Wf s' mids' fl' ∧ Kept s mids b size q s'.mem := by
  obtain ⟨n, nMem, next⟩ := wf.next_mem member
  by_cases moves : MustMove b n (adjustedSize size)
  · rw [wf.mmRealloc_moves member nMem next (by omega) moves]
    exact wf.run_moveBlock member allocated positive bound moves.1
  · exact ⟨_, wf.run_inPlace member allocated nMem next (by omega) moves⟩

/-! ### The allocated blocks after `mm_realloc` -/

/-- A successful `mm_realloc` puts one block in the place of the old one. -/
theorem Resized.block {q : Int} {s' : Heap} {mids' : List Block} {fl' : List Int}
    (resized : Resized s fl size b mids q s' mids' fl') (wf : Wf s mids fl) (member : b ∈ mids)
    (allocated : b.allocated = true) (positive : 0 < size) (bound : size < 2 ^ 31) :
    (q = 0 ∧ s' = s ∧ mids' = mids) ∨
      ∃ d, q = d.addr + 8 ∧ d.allocated = true ∧ size + 16 ≤ d.size ∧
        (∀ c ∈ mids, c.allocated = true → c ≠ b → c.addr ≠ d.addr) ∧
        ∀ c, c.allocated = true → (c ∈ mids' ↔ (c ∈ mids ∧ c ≠ b) ∨ c = d) := by
  obtain ⟨large, _, fits, _⟩ := adjustedSize_bounds positive bound
  have inPlace : ∀ c ∈ mids, c.allocated = true → c ≠ b → c.addr ≠ b.addr := by
    intro c cMem _ different same
    exact different (wf.eq_of_addr (mem_layout_mid cMem) (mem_layout_mid member) same)
  cases resized with
  | stay mids enough =>
    refine Or.inr ⟨b, rfl, allocated, by omega, inPlace, ?_⟩
    intro c _
    by_cases same : c = b
    · simp [same, member]
    · simp [same]
  | absorb xs n ys m first tight nFree enough =>
    refine Or.inr ⟨b.merge n, rfl, allocated, by simp only [Block.merge]; omega, inPlace, ?_⟩
    intro c cAllocated
    have notNext : c ≠ n := by
      intro same
      rw [same, nFree] at cAllocated
      cases cAllocated
    have distinct : ∀ d ∈ xs ++ n :: ys, d ≠ b := by
      intro d dMem same
      have shifted : Tagged s ((s.prologueBlock :: xs) ++ b :: ((n :: ys) ++ [s.epilogueBlock])) := by
        simpa [Heap.layout] using wf.toTagged
      have apart := shifted.apart_rest d (by grind)
      have size := wf.large b member
      simp only [same, Block.Apart, Block.limit] at apart
      omega
    have front : c ∈ xs → c ≠ b := fun inXs => distinct c (by simp [inXs])
    have back : c ∈ ys → c ≠ b := fun inYs => distinct c (by simp [inYs])
    simp only [List.mem_append, List.mem_cons]
    grind
  | move mids d t mids' fl' m first last tight placed =>
    have apart := placed.apart wf member allocated
    have dFits := placed.fits
    have fresh : ∀ c ∈ mids, c.allocated = true → c ≠ b → c.addr ≠ d.addr := by
      intro c cMem cAllocated _
      have away := placed.apart wf cMem cAllocated
      have size := wf.large c cMem
      simp only [Block.Apart, Block.limit] at away
      omega
    refine Or.inr ⟨d, rfl, placed.allocated, by omega, fresh, ?_⟩
    intro c cAllocated
    rw [mem_coalesceAll cAllocated, mem_release cAllocated, placed.mem_allocated cAllocated]
    have sameAddr : c ∈ mids → (c.addr = b.addr ↔ c = b) := by
      intro cMem
      exact ⟨wf.eq_of_addr (mem_layout_mid cMem) (mem_layout_mid member), fun same => by rw [same]⟩
    have dAddr : d.addr ≠ b.addr := by
      have size := wf.large b member
      simp only [Block.Apart, Block.limit] at apart
      omega
    simp only [beq_eq_false_iff_ne, ne_eq]
    constructor
    · rintro ⟨cMem | rfl, kept⟩
      · exact Or.inl ⟨cMem, fun same => kept (by rw [same])⟩
      · exact Or.inr rfl
    · rintro (⟨cMem, different⟩ | rfl)
      · exact ⟨Or.inl cMem, fun same => different ((sameAddr cMem).mp same)⟩
      · exact ⟨Or.inr rfl, dAddr⟩
  | full mids tight none room => exact Or.inl ⟨rfl, rfl, rfl⟩

theorem Resized.start {q : Int} {s' : Heap} {mids' : List Block} {fl' : List Int}
    (resized : Resized s fl size b mids q s' mids' fl') : s'.memStartBrk = s.memStartBrk := by
  cases resized with
  | stay mids enough => rfl
  | absorb xs n ys m first tight nFree enough => rfl
  | move mids d t mids' fl' m first last tight placed => exact placed.start
  | full mids tight none room => rfl

/-! ### The empty heap -/

/-- A region as libc's `malloc(MAX_HEAP)` returns it. -/
structure Usable (base : Int) : Prop where
  positive : 0 < base
  addressable : base + maxHeap < 2 ^ 63

theorem run_writeSentinel {a : Int} (low : s.memStartBrk ≤ a) (high : a + 16 ≤ s.memBrk) :
    ∃ m', blockSetSizeAndAllocated a tagsSize 1 s = .ok ((), s.withMem m') ∧ TagsWritten s.mem m' a 16 17 := by
  have header : s.Holds a := ⟨low, by simp only [wordSize]; omega⟩
  have endTag : s.Holds (a + tagsSize - 8) :=
    ⟨by simp only [tagsSize, wordSize]; omega, by simp only [tagsSize, wordSize]; omega⟩
  exact run_blockSetSizeAndAllocated header endTag (by decide) (by decide) (by decide) (Or.inr rfl)

theorem rep_empty (region : Region s) (empty : s.flistFirst = 0) : Rep s [] [] :=
  ⟨⟨region, by simp, by simp, by simp, by simp, List.Pairwise.nil⟩, by simp [FreeBlocks], List.nodup_nil, trivial, empty⟩

theorem sized_sentinel (a : Int) : Sized ⟨a, 16, true⟩ :=
  ⟨Int.le_refl 16, show (16 : Int) % 8 = 0 by decide, fun free => by cases free⟩

theorem wf_sentinels {m₁ m₂ : Memory} (region : Region s) (brk : s.memBrk = s.memStartBrk + 32)
    (prologue : s.prologue = s.memStartBrk) (epilogue : s.epilogue = s.memStartBrk + 16) (empty : s.flistFirst = 0)
    (first : TagsWritten s.mem m₁ s.prologue 16 17) (second : TagsWritten m₁ m₂ s.epilogue 16 17) :
    Wf (s.withMem m₂) [] [] := by
  have front := (rep_empty region empty).replace (b := s.prologueBlock) (List.Sublist.refl _)
    ⟨by simp only [Heap.prologueBlock]; omega, by simp only [Heap.prologueBlock, Block.limit]; omega⟩
    (sized_sentinel _) (by simp) (by simp) first
  have back := front.replace (b := s.epilogueBlock) (List.Sublist.refl _)
    ⟨by show s.memStartBrk ≤ s.epilogue; omega, by show s.epilogue + 16 ≤ s.memBrk; omega⟩ (sized_sentinel _)
    (by
      intro c member
      obtain rfl := List.mem_singleton.mp member
      exact Or.inr (by simp only [Block.limit, Heap.prologueBlock, Heap.epilogueBlock]; omega))
    (by simp) second
  have same : (s.withMem m₂).layout [] = [s.prologueBlock, s.epilogueBlock] := rfl
  refine ⟨?_, ?_, ?_, by simp, ?_⟩
  · rw [same]
    exact back.perm (List.Perm.swap _ _ _)
  · rw [same]
    simp only [Tiled, Block.limit, Heap.prologueBlock, Heap.epilogueBlock, withMem_memStartBrk, withMem_memBrk]
    omega
  · exact List.isChain_cons_cons.mpr ⟨Or.inl rfl, List.isChain_singleton _⟩
  · intro c member free
    rcases mem_layout.mp member with rfl | member | rfl
    · cases free
    · cases member
    · cases free

theorem run_mmInit {base : Int} (usable : Usable base) (s : Heap) :
    ∃ s', mmInit base s = .ok (0, s') ∧ Wf s' [] [] ∧ s'.memStartBrk = base ∧ s'.memBrk = base + 32 := by
  have positive := usable.positive
  have limit : maxHeap = 20971520 := by decide
  -- `flist_first` still holds its old value while the sentinels are written.
  let fresh : Heap := { s with memStartBrk := base, memMaxAddr := base + maxHeap, memBrk := base }
  let grown : Heap := { fresh with memBrk := base + 32, prologue := base }
  have region : Region fresh := ⟨usable.positive, by show base ≤ base + maxHeap; omega, rfl, usable.addressable⟩
  have sbrk : memSbrk (2 * tagsSize) fresh = .ok (base, { fresh with memBrk := base + 32 }) := by
    rw [run_memSbrk region (Int.le_refl _) (by decide) (by decide)]
    exact if_pos (by show base + 32 ≤ base + maxHeap; omega)
  obtain ⟨m₁, first, firstTags⟩ := run_writeSentinel (s := grown) (a := base) (Int.le_refl _)
    (by show base + 16 ≤ base + 32; omega)
  let moved : Heap := { grown.withMem m₁ with epilogue := base + 16 }
  obtain ⟨m₂, second, secondTags⟩ := run_writeSentinel (s := moved) (a := base + 16) (by show base ≤ base + 16; omega)
    (by show base + 16 + 16 ≤ base + 32; omega)
  refine ⟨{ moved.withMem m₂ with flistFirst := 0 }, ?_, ?_, rfl, rfl⟩
  · unfold mmInit memInit
    rw [run_bind (run_modify _ s), run_bind sbrk, run_bind (run_modify _ _), if_neg (by omega)]
    apply (run_bind first).trans
    apply (run_bind (run_modify _ _)).trans
    exact (run_bind second).trans rfl
  · let final : Heap := { grown with epilogue := base + 16, flistFirst := 0 }
    have finalRegion : Region final :=
      ⟨usable.positive, by show base + 32 ≤ base + maxHeap; omega, rfl, usable.addressable⟩
    exact wf_sentinels (s := final) finalRegion rfl rfl rfl rfl firstTags secondTags

end Cs1330.Malloc
