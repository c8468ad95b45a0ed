import Cs1330.Malloc.Search

/-!
# Allocating

`mm_malloc` over the heap invariant: `Placed` lists the three ways in which it hands out a block,
and `Wf.run_mmMalloc` shows that it takes one of them or returns `NULL` and changes nothing.
-/

namespace Cs1330.Malloc
open Machine Links Tiling

variable {s : Heap} {bs mids xs ys : List Block} {fl : List Int} {b c : Block} {a size : Int}

/-! ### Request sizes -/

theorem align_eq {n : Int} (range : InLong (n + 7)) : align n = n + 7 - (n + 7) % 8 := by
  have sum : addLong n (wordSize - 1) = n + 7 := addLong_eq range
  rw [align, sum]
  exact land_high (k := 3) (by decide) range

theorem adjustedSize_of_sum (low : -2 ^ 63 ≤ size) (high : size + 23 < 2 ^ 63) :
    adjustedSize size = max 32 (size + 23 - (size + 23) % 8) := by
  have sum : addLong size tagsSize = size + 16 :=
    addLong_eq ⟨by simp only [tagsSize, wordSize]; omega, by simp only [tagsSize, wordSize]; omega⟩
  have whole := align_eq (n := size + 16) ⟨by omega, by omega⟩
  have least : minBlockSize = 32 := by decide
  unfold adjustedSize
  rw [sum, whole, least]
  by_cases small : size + 16 + 7 - (size + 16 + 7) % 8 < 32
  · rw [if_pos small]
    omega
  · rw [if_neg small]
    omega

/-- The block size for a request: room for the payload and both tags, rounded up. -/
theorem adjustedSize_bounds (positive : 0 < size) (bound : size < 2 ^ 31) :
    32 ≤ adjustedSize size ∧ adjustedSize size % 8 = 0 ∧ size + 16 ≤ adjustedSize size ∧
      align size + 16 ≤ adjustedSize size ∧ adjustedSize size < 2 ^ 32 := by
  have payload := align_eq (n := size) ⟨by omega, by omega⟩
  rw [adjustedSize_of_sum (by omega) (by omega), payload]
  omega

/-! ### Extending the heap -/

/-- The heap with `a` more bytes and the epilogue at its new end. -/
def Heap.extended (s : Heap) (m : Memory) (a : Int) : Heap :=
  { s.withMem m with memBrk := s.memBrk + a, epilogue := s.epilogue + a }

def Heap.extension (s : Heap) (a : Int) : Block := ⟨s.epilogue, a, true⟩

theorem Rep.grow (rep : Rep s bs fl) {k : Int} (more : s.memBrk ≤ k) (room : k ≤ s.memMaxAddr) :
    Rep { s with memBrk := k } bs fl := by
  refine ⟨⟨⟨rep.region.1, room, rep.region.3, rep.region.4⟩, ?_, rep.sized, rep.header, rep.endTag, rep.apart⟩,
    rep.free, rep.distinct, rep.ring, rep.first⟩
  intro b member
  have inside := rep.inside b member
  exact ⟨inside.1, Int.le_trans inside.2 more⟩

theorem Rep.withEpilogue (rep : Rep s bs fl) (e : Int) : Rep { s with epilogue := e } bs fl :=
  ⟨⟨⟨rep.region.1, rep.region.2, rep.region.3, rep.region.4⟩, rep.inside, rep.sized, rep.header, rep.endTag, rep.apart⟩,
    rep.free, rep.distinct, rep.ring, rep.first⟩

theorem Rep.run_extendHeap (rep : Rep s (xs ++ [s.epilogueBlock]) fl) (last : s.epilogue + 16 = s.memBrk)
    (large : 32 ≤ a) (aligned : a % 8 = 0) (small : a < 2 ^ 32) (room : s.memBrk + a ≤ s.memMaxAddr) :
    ∃ m', extendHeap a s = .ok (s.epilogue + 8, s.extended m' a) ∧
      Rep (s.extended m' a) (xs ++ [s.extension a, (s.extended m' a).epilogueBlock]) fl ∧
      ∀ c ∈ xs, Same c s.mem m' := by
  have epilogueMem : s.epilogueBlock ∈ xs ++ [s.epilogueBlock] := by simp
  have inside := rep.inside _ epilogueMem
  have positive := rep.region.positive
  have addr : s.epilogueBlock.addr = s.epilogue := rfl
  rw [addr] at inside
  have grown := rep.grow (k := s.memBrk + a) (by omega) room
  have apart : ∀ c ∈ xs, c.limit ≤ s.epilogue := by
    intro c cMem
    have apart := rep.apart_rest c (by simp [cMem])
    have below := (rep.inside c (by simp [cMem])).2
    have size := (rep.sized c (by simp [cMem])).tags
    simp only [Block.Apart, Block.limit, Heap.epilogueBlock] at apart below ⊢
    omega
  have blockSized : Sized (s.extension a) := ⟨by simp only [Heap.extension]; omega, aligned, fun free => by cases free⟩
  have sub : xs.Sublist (xs ++ [s.epilogueBlock]) := by simp
  obtain ⟨m₁, block, blocked, blockTags⟩ := grown.run_setTags (b := s.extension a) sub
    ⟨inside.1, by simp only [Block.limit, Heap.extension]; omega⟩ blockSized (fun c cMem => Or.inr (apart c cMem))
    (by simpa using rep.free_rest (rep.fresh_of_allocated epilogueMem rfl))
  have moved := blocked.withEpilogue (s.epilogue + a)
  have lastSized : Sized ⟨s.epilogue + a, 16, true⟩ :=
    ⟨Int.le_refl 16, show (16 : Int) % 8 = 0 by decide, fun free => by cases free⟩
  obtain ⟨m', sentinel, final, sentinelTags⟩ := moved.run_setTags (b := ⟨s.epilogue + a, 16, true⟩) (List.Sublist.refl _)
    ⟨by show s.memStartBrk ≤ s.epilogue + a; omega, by show s.epilogue + a + 16 ≤ s.memBrk + a; omega⟩ lastSized
    (by
      intro c cMem
      rcases List.mem_cons.mp cMem with rfl | cMem
      · exact Or.inr (Int.le_refl _)
      · have := apart c cMem
        exact Or.inr (by show c.limit ≤ s.epilogue + a; omega)) moved.free
  refine ⟨m', ?_, ?_, ?_⟩
  · unfold extendHeap
    have sbrk := run_memSbrk (a := a) rep.region (by omega) (by omega) small
    rw [if_pos room] at sbrk
    rw [run_bind sbrk, if_neg (by omega), run_bind (run_get _)]
    apply (run_bind block).trans
    apply (run_bind (blocked.run_next List.mem_cons_self)).trans
    exact (run_bind (run_modify _ _)).trans ((run_bind sentinel).trans rfl)
  · apply final.perm
    apply (List.Perm.swap _ _ _).trans
    have order : ([s.extension a, ⟨s.epilogue + a, 16, true⟩] ++ xs).Perm
        (xs ++ [s.extension a, ⟨s.epilogue + a, 16, true⟩]) := List.perm_append_comm
    exact order
  · intro c cMem
    have below := apart c cMem
    have first := blockTags.same (c := c) blockSized (Or.inr below)
    have second := sentinelTags.same (c := c) lastSized (Or.inr (by show c.limit ≤ s.epilogue + a; omega))
    exact first.trans second

theorem Rep.run_extendHeap_full (rep : Rep s bs fl) (start : s.memStartBrk ≤ s.memBrk) (low : 0 ≤ a)
    (small : a < 2 ^ 32) (full : s.memMaxAddr < s.memBrk + a) : extendHeap a s = .ok (0, s) := by
  unfold extendHeap
  have sbrk := run_memSbrk rep.region start low small
  rw [if_neg (by omega)] at sbrk
  rw [run_bind sbrk, if_pos rfl, run_pure]

/-! ### `mm_malloc` -/

/-- `b` is the first block on the free list with at least `a` bytes. -/
structure FirstFit (mids : List Block) (fl : List Int) (a : Int) (b : Block) : Prop where
  mem : b ∈ mids
  free : b.allocated = false
  fits : a ≤ b.size
  first : ∃ skipped after, fl = skipped ++ b.addr :: after ∧ ∀ c ∈ mids, c.addr ∈ skipped → c.size < a

def NoFit (mids : List Block) (a : Int) : Prop := ∀ c ∈ mids, c.allocated = false → c.size < a

theorem FirstFit.some (fit : FirstFit mids fl a b) : ¬NoFit mids a := by
  intro none
  have small := none b fit.mem fit.free
  have fits := fit.fits
  omega

/-- How a block of `a` bytes is handed out: the block, and the heap, layout and free list after it. -/
inductive Placed (s : Heap) (fl : List Int) (a : Int) : List Block → Block → Heap → List Block → List Int → Prop
  | whole (xs : List Block) (b : Block) (ys : List Block) (m : Memory) (first : Int)
      (fit : FirstFit (xs ++ b :: ys) fl a b) (tight : b.size - a < 32) :
      Placed s fl a (xs ++ b :: ys) { b with allocated := true } (s.withList m first)
        (xs ++ { b with allocated := true } :: ys) (fl.erase b.addr)
  | split (xs : List Block) (b : Block) (ys : List Block) (m : Memory) (first : Int)
      (fit : FirstFit (xs ++ b :: ys) fl a b) (room : 32 ≤ b.size - a) :
      Placed s fl a (xs ++ b :: ys) (highPart b a) (s.withList m first)
        (xs ++ lowPart b a :: highPart b a :: ys) (b.addr :: fl.erase b.addr)
  | extend (mids : List Block) (m : Memory) (none : NoFit mids a) (room : s.memBrk + a ≤ s.memMaxAddr) :
      Placed s fl a mids (s.extension a) (s.extended m a) (mids ++ [s.extension a]) fl

theorem layout_append (s : Heap) (xs ys : List Block) :
    s.layout (xs ++ ys) = (s.prologueBlock :: xs) ++ (ys ++ [s.epilogueBlock]) := by
  simp [Heap.layout]

/-- The invariant after blocks `bs` in the middle were replaced by `cs`. -/
theorem Wf.replace_middle {s' : Heap} {fl' : List Int} (bs cs : List Block) (wf : Wf s (xs ++ (bs ++ ys)) fl)
    (rep : Rep s' (s'.layout (xs ++ (cs ++ ys))) fl') (listed : Listed (s'.layout (xs ++ (cs ++ ys))) fl')
    (prologue : s'.prologue = s.prologue) (epilogue : s'.epilogue = s.epilogue)
    (start : s'.memStartBrk = s.memStartBrk) (brk : s'.memBrk = s.memBrk)
    (cover : ∀ from' to', Tiled from' bs to' → Tiled from' cs to') (large : ∀ c ∈ cs, 32 ≤ c.size)
    (coalesced : Coalesced (s.layout (xs ++ (cs ++ ys)))) : Wf s' (xs ++ (cs ++ ys)) fl' := by
  have same : s'.layout (xs ++ (cs ++ ys)) = s.layout (xs ++ (cs ++ ys)) := by
    simp only [Heap.layout, Heap.prologueBlock, Heap.epilogueBlock, prologue, epilogue]
  refine ⟨rep, ?_, by rw [same]; exact coalesced, ?_, listed⟩
  · have tiled := wf.tiled
    rw [layout_append, List.append_assoc] at tiled
    rw [same, start, brk, layout_append, List.append_assoc]
    exact tiled_replace tiled cover
  · intro c member
    simp only [List.mem_append] at member
    rcases member with inXs | inCs | inYs
    · exact wf.large c (by simp [inXs])
    · exact large c inCs
    · exact wf.large c (by simp [inYs])

theorem FirstFit.run_whole (wf : Wf s (xs ++ b :: ys) fl) (fit : FirstFit (xs ++ b :: ys) fl a b)
    (tight : b.size - a < 32) :
    ∃ m first, takeBlock b.addr a s = .ok (b.addr + 8, s.withList m first) ∧
      Wf (s.withList m first) (xs ++ { b with allocated := true } :: ys) (fl.erase b.addr) ∧
      ∀ c ∈ xs ++ b :: ys, c.allocated = true → Same c s.mem m := by
  have shape : ∀ d, s.layout (xs ++ d :: ys) = (s.prologueBlock :: xs) ++ d :: (ys ++ [s.epilogueBlock]) :=
    fun d => layout_append s xs (d :: ys)
  have rep := wf.toRep
  have listed := wf.listed
  have coalesced := wf.coalesced
  rw [shape] at rep listed coalesced
  obtain ⟨m, first, run, final, finalListed, frame⟩ := rep.run_takeFit fit.free listed fit.fits tight
  rw [← shape] at final finalListed
  refine ⟨m, first, run, ?_, ?_⟩
  · refine Wf.replace_middle [b] [{ b with allocated := true }] wf final finalListed rfl rfl rfl rfl
      (fun _ _ tiled => tiled) ?_ ?_
    · intro c member
      obtain rfl := List.mem_singleton.mp member
      exact wf.large b fit.mem
    · show Coalesced (s.layout (xs ++ { b with allocated := true } :: ys))
      rw [shape]
      exact coalesced_replace coalesced fun _ => rfl
  · intro c member allocated
    apply frame c _ allocated
    simp only [List.mem_append, List.mem_cons] at member ⊢
    rcases member with inXs | rfl | inYs
    · exact Or.inl (Or.inr inXs)
    · rw [fit.free] at allocated
      cases allocated
    · exact Or.inr (Or.inl inYs)

theorem FirstFit.run_split (wf : Wf s (xs ++ b :: ys) fl) (fit : FirstFit (xs ++ b :: ys) fl a b) (large : 32 ≤ a)
    (aligned : a % 8 = 0) (room : 32 ≤ b.size - a) :
    ∃ m first, takeBlock b.addr a s = .ok ((highPart b a).addr + 8, s.withList m first) ∧
      Wf (s.withList m first) (xs ++ lowPart b a :: highPart b a :: ys) (b.addr :: fl.erase b.addr) ∧
      ∀ c ∈ xs ++ b :: ys, c.allocated = true → Same c s.mem m := by
  have shape : ∀ ds, s.layout (xs ++ (ds ++ ys)) = (s.prologueBlock :: xs) ++ (ds ++ (ys ++ [s.epilogueBlock])) := by
    intro ds
    rw [layout_append, List.append_assoc]
  have whole := shape [b]
  have parts := shape [lowPart b a, highPart b a]
  simp only [List.cons_append, List.nil_append] at whole parts
  have rep := wf.toRep
  have listed := wf.listed
  have coalesced := wf.coalesced
  rw [whole, ← List.cons_append] at rep listed coalesced
  obtain ⟨m, first, run, final, finalListed, frame⟩ := rep.run_takeSplit fit.free listed large aligned room
  rw [List.cons_append, ← parts] at final finalListed
  refine ⟨m, first, run, ?_, ?_⟩
  · apply Wf.replace_middle [b] [lowPart b a, highPart b a] wf final finalListed rfl rfl rfl rfl
    · intro lo hi tiled
      obtain ⟨start, stop⟩ := tiled
      simp only [Tiled, Block.limit, lowPart, highPart] at stop ⊢
      exact ⟨start, trivial, by omega⟩
    · intro c member
      simp only [List.mem_cons, List.not_mem_nil, or_false] at member
      rcases member with rfl | rfl
      · exact room
      · exact large
    · show Coalesced (s.layout (xs ++ lowPart b a :: highPart b a :: ys))
      rw [parts, ← List.cons_append]
      obtain ⟨front, back⟩ := coalesced_append.mp coalesced
      refine coalesced_append.mpr ⟨coalesced_snoc front id, ?_⟩
      exact List.isChain_cons_cons.mpr ⟨Or.inr rfl, coalesced_cons back fun _ => rfl⟩
  · intro c member allocated
    apply frame c _ allocated
    simp only [List.mem_append, List.mem_cons] at member ⊢
    rcases member with inXs | rfl | inYs
    · exact Or.inl (Or.inr inXs)
    · rw [fit.free] at allocated
      cases allocated
    · exact Or.inr (Or.inl inYs)

theorem Wf.run_extend (wf : Wf s mids fl) (large : 32 ≤ a) (aligned : a % 8 = 0) (small : a < 2 ^ 32)
    (room : s.memBrk + a ≤ s.memMaxAddr) :
    ∃ m, extendHeap a s = .ok (s.epilogue + 8, s.extended m a) ∧
      Wf (s.extended m a) (mids ++ [s.extension a]) fl ∧ ∀ c ∈ mids, Same c s.mem m := by
  have rep : Rep s ((s.prologueBlock :: mids) ++ [s.epilogueBlock]) fl := wf.toRep
  have last := wf.epilogue_eq
  obtain ⟨m, run, final, frame⟩ := rep.run_extendHeap last large aligned small room
  have shape : (s.extended m a).layout (mids ++ [s.extension a]) =
      (s.prologueBlock :: mids) ++ [s.extension a, (s.extended m a).epilogueBlock] := by
    simp [Heap.layout, Heap.prologueBlock, Heap.extended, Heap.withMem]
  rw [← shape] at final
  refine ⟨m, run, ⟨final, ?_, ?_, ?_, ?_⟩, fun c member => frame c (List.mem_cons_of_mem _ member)⟩
  · have tiled := wf.tiled
    have split : s.layout mids = (s.prologueBlock :: mids) ++ [s.epilogueBlock] := rfl
    rw [split] at tiled
    obtain ⟨mid, front, back⟩ := tiled_append.mp tiled
    rw [shape]
    refine tiled_append.mpr ⟨mid, front, back.1, ?_⟩
    have brk : (s.extended m a).memBrk = s.memBrk + a := rfl
    rw [brk]
    simp only [Tiled, Block.limit, Heap.extension, Heap.epilogueBlock, Heap.extended]
    exact ⟨trivial, by omega⟩
  · rw [shape]
    have coalesced : Coalesced ((s.prologueBlock :: mids) ++ [s.epilogueBlock]) := wf.coalesced
    refine coalesced_append.mpr ⟨coalesced_snoc coalesced fun _ => rfl, ?_⟩
    exact List.isChain_cons_cons.mpr ⟨Or.inl rfl, List.isChain_singleton _⟩
  · intro c member
    simp only [List.mem_append, List.mem_singleton] at member
    rcases member with inMids | rfl
    · exact wf.large c inMids
    · exact large
  · intro c member free
    rcases mem_layout.mp member with rfl | member | rfl
    · cases free
    · simp only [List.mem_append, List.mem_singleton] at member
      rcases member with inMids | rfl
      · exact wf.listed c (mem_layout_mid inMids) free
      · cases free
    · cases free

/-- The search of `mm_malloc` ends: with the first block that fits, or after the whole list. -/
theorem Wf.run_search (wf : Wf s mids fl) (listed : s.flistFirst ≠ 0) :
    (∃ b, FirstFit mids fl a b ∧ searchLoop a s.memHeapsize.toNat s.flistFirst s =
        (do return some (← takeBlock b.addr a) : HeapM (Option Int)) s) ∨
      (NoFit mids a ∧ searchLoop a s.memHeapsize.toNat s.flistFirst s = .ok (none, s)) := by
  have rounds := wf.length_le_heapsize
  have first := wf.first
  cases list : fl with
  | nil =>
    rw [list] at first
    exact (listed first).elim
  | cons head todo =>
    rw [list] at first rounds
    have headFirst : s.flistFirst = head := first
    rw [headFirst]
    rcases wf.run_searchLoop (a := a) todo head [] s.memHeapsize.toNat list rounds with found | missed
    · obtain ⟨b, bMem, skipped, after, split, bFree, fits, small, run⟩ := found
      left
      refine ⟨b, ⟨?_, bFree, fits, skipped, after, split, fun c cMem => small c (mem_layout_mid cMem)⟩, run⟩
      rcases mem_layout.mp bMem with rfl | inMids | rfl
      · cases bFree
      · exact inMids
      · cases bFree
    · right
      refine ⟨fun c cMem cFree => ?_, missed.2⟩
      have inLayout := mem_layout_mid (s := s) cMem
      apply missed.1 c inLayout
      rw [← list]
      exact wf.listed c inLayout cFree

theorem Wf.noFit_of_empty (wf : Wf s mids fl) (empty : s.flistFirst = 0) : NoFit mids a := by
  intro c member free
  have listed := wf.listed c (mem_layout_mid member) free
  have first := wf.first
  cases list : fl with
  | nil => rw [list] at listed; cases listed
  | cons head todo =>
    have positive := wf.addr_pos (a := head) (by simp [list])
    rw [list, empty] at first
    have zero : (0 : Int) = head := first
    omega

/-- What `mm_malloc` does once no listed block fits. -/
theorem Wf.run_noFit (wf : Wf s mids fl) (none : NoFit mids a) (large : 32 ≤ a) (aligned : a % 8 = 0)
    (small : a < 2 ^ 32) :
    (∃ b s' mids' fl', Placed s fl a mids b s' mids' fl' ∧ extendHeap a s = .ok (b.addr + 8, s') ∧ Wf s' mids' fl' ∧
        ∀ c ∈ mids, c.allocated = true → Same c s.mem s'.mem) ∨
      (s.memMaxAddr < s.memBrk + a ∧ extendHeap a s = .ok (0, s)) := by
  by_cases room : s.memBrk + a ≤ s.memMaxAddr
  · obtain ⟨m, run, final, frame⟩ := wf.run_extend large aligned small room
    exact Or.inl ⟨_, _, _, _, Placed.extend mids m none room, run, final, fun c member _ => frame c member⟩
  · have full : s.memMaxAddr < s.memBrk + a := by omega
    have start : s.memStartBrk ≤ s.memBrk := by
      have inside := wf.inside s.prologueBlock (by simp [Heap.layout])
      have limit : s.prologueBlock.limit = s.prologueBlock.addr + 16 := rfl
      omega
    exact Or.inr ⟨full, wf.run_extendHeap_full start (by omega) small full⟩

/-- `mm_malloc` takes the first block that fits, and asks for more memory when none does. -/
theorem Wf.mmMalloc_cases (wf : Wf s mids fl) (nonzero : size ≠ 0) (large : 32 ≤ adjustedSize size)
    (aligned : adjustedSize size % 8 = 0) :
    (¬NoFit mids (adjustedSize size) ∧ ∃ b s' mids' fl', Placed s fl (adjustedSize size) mids b s' mids' fl' ∧
        mmMalloc size s = .ok (b.addr + 8, s') ∧ Wf s' mids' fl' ∧
        ∀ c ∈ mids, c.allocated = true → Same c s.mem s'.mem) ∨
      (NoFit mids (adjustedSize size) ∧ mmMalloc size s = extendHeap (adjustedSize size) s) := by
  unfold mmMalloc
  rw [if_neg nonzero, run_bind (run_get s)]
  by_cases empty : s.flistFirst = 0
  · rw [if_neg (by simp [empty])]
    exact Or.inr ⟨wf.noFit_of_empty empty, rfl⟩
  rw [if_pos empty]
  rcases wf.run_search (a := adjustedSize size) empty with ⟨b, fit, search⟩ | ⟨none, search⟩
  · left
    refine ⟨fit.some, ?_⟩
    obtain ⟨xs, ys, rfl⟩ := List.append_of_mem fit.mem
    by_cases tight : b.size - adjustedSize size < 32
    · obtain ⟨m, first, run, final, frame⟩ := fit.run_whole wf tight
      refine ⟨_, _, _, _, Placed.whole xs b ys m first fit tight, ?_, final, frame⟩
      rw [run_bind (search.trans ((run_bind run).trans rfl))]
      rfl
    · obtain ⟨m, first, run, final, frame⟩ := fit.run_split wf large aligned (by omega)
      refine ⟨_, _, _, _, Placed.split xs b ys m first fit (by omega), ?_, final, frame⟩
      rw [run_bind (search.trans ((run_bind run).trans rfl))]
      rfl
  · rw [run_bind search]
    exact Or.inr ⟨none, rfl⟩

theorem Wf.run_mmMalloc (wf : Wf s mids fl) (positive : 0 < size) (bound : size < 2 ^ 31) :
    (∃ b s' mids' fl', Placed s fl (adjustedSize size) mids b s' mids' fl' ∧ mmMalloc size s = .ok (b.addr + 8, s') ∧
        Wf s' mids' fl' ∧ ∀ c ∈ mids, c.allocated = true → Same c s.mem s'.mem) ∨
      (NoFit mids (adjustedSize size) ∧ s.memMaxAddr < s.memBrk + adjustedSize size ∧ mmMalloc size s = .ok (0, s)) := by
  obtain ⟨large, aligned, _, _, small⟩ := adjustedSize_bounds positive bound
  rcases wf.mmMalloc_cases (by omega) large aligned with ⟨_, placed⟩ | ⟨none, grow⟩
  · exact Or.inl placed
  rw [grow]
  rcases wf.run_noFit none large aligned small with placed | full
  · exact Or.inl placed
  · exact Or.inr ⟨none, full⟩

/-! ### What a placement leaves -/

section
variable {s' : Heap} {mids' : List Block} {fl' : List Int} (placed : Placed s fl a mids b s' mids' fl')
include placed

theorem Placed.allocated : b.allocated = true := by
  cases placed <;> rfl

theorem Placed.start : s'.memStartBrk = s.memStartBrk := by
  cases placed <;> rfl

theorem Placed.brk (large : 0 ≤ a) : s.memBrk ≤ s'.memBrk ∧ s'.memBrk ≤ s.memBrk + a := by
  cases placed with
  | whole xs b ys m first fit tight => exact ⟨Int.le_refl _, by show s.memBrk ≤ s.memBrk + a; omega⟩
  | split xs b ys m first fit room => exact ⟨Int.le_refl _, by show s.memBrk ≤ s.memBrk + a; omega⟩
  | extend mids m none room => exact ⟨by show s.memBrk ≤ s.memBrk + a; omega, Int.le_refl _⟩

/-- The allocated blocks are the old ones and the new one. -/
theorem Placed.mem_allocated (allocated : c.allocated = true) : c ∈ mids' ↔ c ∈ mids ∨ c = b := by
  cases placed with
  | whole xs b ys m first fit tight =>
    have different : c ≠ b := by
      intro same
      rw [same, fit.free] at allocated
      cases allocated
    simp only [List.mem_append, List.mem_cons]
    tauto
  | split xs b ys m first fit room =>
    have notOld : c ≠ b := by
      intro same
      rw [same, fit.free] at allocated
      cases allocated
    have notLow : c ≠ lowPart b a := by
      intro same
      rw [same] at allocated
      exact Bool.noConfusion (fit.free.symm.trans allocated)
    simp only [List.mem_append, List.mem_cons]
    tauto
  | extend mids m none room =>
    simp only [List.mem_append, List.mem_cons, List.not_mem_nil, or_false]

theorem Placed.fits : a ≤ b.size := by
  cases placed with
  | whole xs b ys m first fit tight => exact fit.fits
  | split xs b ys m first fit room => exact Int.le_refl _
  | extend mids m none room => exact Int.le_refl _

/-- The block handed out is disjoint from every block in use. -/
theorem Placed.apart (wf : Wf s mids fl) (member : c ∈ mids) (allocated : c.allocated = true) : b.Apart c := by
  have other : ∀ d ∈ mids, d.allocated = false → d.Apart c := by
    intro d dMem dFree
    apply wf.apart_of_ne (mem_layout_mid dMem) (mem_layout_mid member)
    intro same
    rw [same, allocated] at dFree
    cases dFree
  cases placed with
  | whole xs b ys m first fit tight => exact other b fit.mem fit.free
  | split xs b ys m first fit room =>
    have apart := other b fit.mem fit.free
    simp only [Block.Apart, Block.limit, highPart] at apart ⊢
    omega
  | extend mids m none room => exact Or.inr (wf.bounds member).2

end

end Cs1330.Malloc
