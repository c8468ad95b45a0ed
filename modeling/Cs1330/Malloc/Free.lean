import Cs1330.Malloc.FreeList

/-!
# Freeing

The tag writes of `mm.c` as steps on blocks (`run_setAllocated`, `run_setTags`, `run_merge`), and
`mm_free`: the freed block and its free neighbours become one block.
-/

namespace Cs1330.Malloc
open Machine Links Tiling

variable {s : Heap} {bs xs ys : List Block} {fl : List Int} {b c n p : Block}

theorem Tagged.apart_rest (tagged : Tagged s (xs ++ b :: ys)) : ∀ c ∈ xs ++ ys, b.Apart c :=
  (List.pairwise_cons.mp (tagged.perm List.perm_middle).apart).1

theorem Rep.free_rest (rep : Rep s (xs ++ b :: ys) fl) (fresh : b.addr ∉ fl) : FreeBlocks (xs ++ ys) fl := by
  intro a member
  obtain ⟨c, cMem, rfl, cFree⟩ := rep.free a member
  have different : c ≠ b := by
    rintro rfl
    exact fresh member
  refine ⟨c, ?_, rfl, cFree⟩
  simp only [List.mem_append, List.mem_cons] at cMem ⊢
  tauto

theorem Rep.fresh_of_allocated (rep : Rep s bs fl) (member : b ∈ bs) (allocated : b.allocated = true) :
    b.addr ∉ fl := by
  intro listed
  obtain ⟨c, cMem, same, cFree⟩ := rep.free _ listed
  rw [rep.eq_of_addr cMem member same, allocated] at cFree
  cases cFree

/-! ### Tag writes -/

theorem Rep.run_setAllocated (rep : Rep s (xs ++ b :: ys) fl) (v : Bool) (fresh : b.addr ∉ fl)
    (sized : Sized { b with allocated := v }) :
    ∃ m', blockSetAllocated b.addr (bit v) s = .ok ((), s.withMem m') ∧
      Rep (s.withMem m') (xs ++ { b with allocated := v } :: ys) fl ∧
      TagsWritten s.mem m' b.addr b.size (b.size + bit v) := by
  have member : b ∈ xs ++ b :: ys := by simp
  have old := rep.sized b member
  have small := rep.size_small member
  have aligned := old.aligned
  obtain ⟨m', run, written⟩ := run_blockSetAllocated (rep.holds_header member) (rep.holds_endTag member) (by omega)
    old.tags (by simp only [maxHeap] at small; omega) (bit_cases b.allocated) (rep.header b member)
    (rep.endTag b member) (bit_cases v)
  refine ⟨m', run, ?_, written⟩
  have sub : (xs ++ ys).Sublist (xs ++ b :: ys) := by simp
  have replaced := rep.replace (b := { b with allocated := v }) sub (rep.inside b member)
    sized rep.apart_rest (fun a aMem => Or.inr (rep.free_rest fresh a aMem)) written
  exact replaced.perm List.perm_middle.symm

/-- Writing both tags of a block that takes the place of what `rest` leaves out of the heap. -/
theorem Rep.run_setTags {rest : List Block} (rep : Rep s bs fl) (sub : rest.Sublist bs)
    (inside : s.memStartBrk ≤ b.addr ∧ b.limit ≤ s.memBrk) (sized : Sized b) (apart : ∀ c ∈ rest, b.Apart c)
    (free : FreeBlocks rest fl) :
    ∃ m', blockSetSizeAndAllocated b.addr b.size (bit b.allocated) s = .ok ((), s.withMem m') ∧
      Rep (s.withMem m') (b :: rest) fl ∧ TagsWritten s.mem m' b.addr b.size (tag b) := by
  have size := sized.tags
  have below := rep.region.below
  have extent := rep.region.extent
  simp only [Block.limit] at inside
  simp only [maxHeap] at extent
  obtain ⟨m', run, written⟩ := run_blockSetSizeAndAllocated (s := s) (b := b.addr) ⟨inside.1, by simp only [wordSize]; omega⟩
    ⟨by omega, by simp only [wordSize]; omega⟩ sized.aligned sized.tags (by omega) (bit_cases b.allocated)
  exact ⟨m', run, rep.replace sub inside sized apart (fun a aMem => Or.inr (free a aMem)) written, written⟩

theorem merge_apart {d : Block} (next : b.limit = c.addr) (bApart : b.Apart d) (cApart : c.Apart d)
    (size : 0 < d.size) : (b.merge c).Apart d := by
  simp only [Block.Apart, Block.limit, Block.merge] at *
  omega

/-- `block_set_size(b, size b + size c)` makes `b` and the block after it one block. -/
theorem Rep.run_merge (rep : Rep s (xs ++ b :: c :: ys) fl) (next : b.limit = c.addr) (fresh : c.addr ∉ fl) :
    ∃ m', blockSetSize b.addr (b.size + c.size) s = .ok ((), s.withMem m') ∧
      Rep (s.withMem m') (xs ++ b.merge c :: ys) fl ∧
      TagsWritten s.mem m' b.addr (b.merge c).size (tag (b.merge c)) := by
  have bMem : b ∈ xs ++ b :: c :: ys := by simp
  have cMem : c ∈ xs ++ b :: c :: ys := by simp
  have bSized := rep.sized b bMem
  have cSized := rep.sized c cMem
  have bInside := rep.inside b bMem
  have cInside := rep.inside c cMem
  have bSmall := rep.size_small bMem
  have cSmall := rep.size_small cMem
  obtain ⟨bTags, bAligned, bLinks⟩ := bSized
  obtain ⟨cTags, cAligned, _⟩ := cSized
  simp only [Block.limit] at bInside cInside next
  simp only [maxHeap] at bSmall cSmall
  have holds : s.Holds (b.addr + (b.size + c.size) - 8) := ⟨by omega, by simp only [wordSize]; omega⟩
  obtain ⟨m', run, written⟩ := run_blockSetSize (rep.holds_header bMem) holds (by omega) (by omega) (by omega)
  rw [rep.header b bMem, tag_bit (rep.sized b bMem)] at written
  refine ⟨m', run, ?_, written⟩
  have apart : ∀ d ∈ xs ++ ys, (b.merge c).Apart d := by
    intro d dMem
    have dMem' : d ∈ xs ++ b :: c :: ys := by
      simp only [List.mem_append, List.mem_cons] at dMem ⊢
      tauto
    have dTags := (rep.sized d dMem').tags
    have bApart := rep.apart_rest d (by simp only [List.mem_append, List.mem_cons] at dMem ⊢; tauto)
    have cRest : ∀ e ∈ (xs ++ [b]) ++ ys, c.Apart e :=
      Tagged.apart_rest (by simpa using rep.toTagged)
    have cApart := cRest d (by simp only [List.mem_append, List.mem_cons] at dMem ⊢; tauto)
    exact merge_apart next bApart cApart (by omega)
  have sub : (xs ++ ys).Sublist (xs ++ b :: c :: ys) := by simp
  have replaced := rep.replace (b := b.merge c) sub
    ⟨bInside.1, by simp only [Block.limit, Block.merge]; omega⟩
    ⟨by simp only [Block.merge]; omega, by simp only [Block.merge]; omega,
      fun bFree => by have := bLinks bFree; simp only [Block.merge]; omega⟩ apart ?_ written
  · exact replaced.perm List.perm_middle.symm
  · intro a member
    obtain ⟨d, dMem, rfl, dFree⟩ := rep.free a member
    simp only [List.mem_append, List.mem_cons] at dMem
    rcases dMem with inXs | rfl | rfl | inYs
    · exact Or.inr ⟨d, by simp [inXs], rfl, dFree⟩
    · exact Or.inl ⟨rfl, dFree⟩
    · exact (fresh member).elim
    · exact Or.inr ⟨d, by simp [inYs], rfl, dFree⟩

/-! ### Coalescing -/

/-- Every free block is on the free list. -/
def Listed (bs : List Block) (fl : List Int) : Prop := ∀ b ∈ bs, b.allocated = false → b.addr ∈ fl

theorem Tagged.listed_erase (tagged : Tagged s (xs ++ b :: ys)) (listed : Listed (xs ++ b :: ys) fl) :
    Listed (xs ++ ys) (fl.erase b.addr) := by
  intro d dMem dFree
  have inside : d ∈ xs ++ b :: ys := by
    simp only [List.mem_append, List.mem_cons] at dMem ⊢
    tauto
  have apart := tagged.apart_rest d dMem
  have bSize := (tagged.sized b (by simp)).tags
  have dSize := (tagged.sized d inside).tags
  have different : d.addr ≠ b.addr := by
    simp only [Block.Apart, Block.limit] at apart
    omega
  exact (List.mem_erase_of_ne different).mpr (listed d inside dFree)

theorem Listed.replace (listed : Listed (xs ++ b :: ys) fl) (addr : c.addr = b.addr)
    (state : c.allocated = false → b.allocated = false) : Listed (xs ++ c :: ys) fl := by
  intro d dMem dFree
  simp only [List.mem_append, List.mem_cons] at dMem
  rcases dMem with inXs | rfl | inYs
  · exact listed d (by simp [inXs]) dFree
  · rw [addr]
    exact listed b (by simp) (state dFree)
  · exact listed d (by simp [inYs]) dFree

theorem consFree_allocated (allocated : b.allocated = true) : consFree b ys = b :: ys := by
  cases ys with
  | nil => rfl
  | cons c cs => simp [consFree, allocated]

theorem withList_self (s : Heap) : s.withList s.mem s.flistFirst = s := rfl

theorem addLong_sizes (rep : Rep s bs fl) (bMem : b ∈ bs) (cMem : c ∈ bs) :
    addLong b.size c.size = b.size + c.size := by
  have bSmall := rep.size_small bMem
  have cSmall := rep.size_small cMem
  have bTags := (rep.sized b bMem).tags
  have cTags := (rep.sized c cMem).tags
  simp only [maxHeap] at bSmall cSmall
  exact addLong_eq ⟨by omega, by omega⟩

/-- The step that `coalesce` takes twice: the free block `c`, pulled from the list, becomes part
of the free block `b` before it. -/
theorem Rep.run_absorb (rep : Rep s (xs ++ b :: c :: ys) fl) (next : b.limit = c.addr)
    (listed : Listed (xs ++ b :: c :: ys) fl) (member : c.addr ∈ fl) :
    ∃ m' first, (do pullFreeBlock c.addr; blockSetSize b.addr (addLong (← blockSize b.addr) (← blockSize c.addr))) s =
        .ok ((), s.withList m' first) ∧
      Rep (s.withList m' first) (xs ++ b.merge c :: ys) (fl.erase c.addr) ∧
      Listed (xs ++ b.merge c :: ys) (fl.erase c.addr) ∧
      ∀ d ∈ xs ++ ys, d.allocated = true → Same d s.mem m' := by
  have bMem : b ∈ xs ++ b :: c :: ys := by simp
  have cMem : c ∈ xs ++ b :: c :: ys := by simp
  obtain ⟨pull, pulledRep⟩ := rep.run_pull member
  have links := rep.linksWritten_pulled member
  obtain ⟨m', merge, merged, written⟩ := pulledRep.run_merge next fun again => rep.distinct.not_mem_erase again
  refine ⟨m', (fl.erase c.addr).headD 0, ?_, merged, ?_, ?_⟩
  · rw [run_bind pull, run_bind (pulledRep.run_size bMem), run_bind (pulledRep.run_size cMem),
      addLong_sizes pulledRep bMem cMem, merge]
    rfl
  · have shifted : Tagged s ((xs ++ [b]) ++ c :: ys) := by simpa using rep.toTagged
    have rest : Listed ((xs ++ [b]) ++ ys) (fl.erase c.addr) := shifted.listed_erase (by simpa using listed)
    exact Listed.replace (b := b) (by simpa using rest) rfl id
  · intro d dMem allocated
    have dMem' : d ∈ xs ++ b :: c :: ys := by
      simp only [List.mem_append, List.mem_cons] at dMem ⊢
      tauto
    have mergedSized := merged.sized (b.merge c) (by simp)
    exact (links.same rep.toTagged rep.free dMem' allocated).trans
      (written.same mergedSized (merged.apart_rest d dMem))

theorem Rep.run_coalesceNext (rep : Rep s (xs ++ b :: n :: ys) fl) (next : b.limit = n.addr)
    (bFree : b.allocated = false) (listed : Listed (xs ++ b :: n :: ys) fl) (flag : Bool) (prev block : Int)
    (survivor : (if flag then prev else block) = b.addr) :
    ∃ m' first fl', coalesceNext flag prev block n.addr s = .ok ((), s.withList m' first) ∧
      Rep (s.withList m' first) (xs ++ consFree b (n :: ys)) fl' ∧ Listed (xs ++ consFree b (n :: ys)) fl' ∧
      (∀ d ∈ xs ++ n :: ys, d.allocated = true → Same d s.mem m') ∧ fl'.Sublist fl := by
  have nMem : n ∈ xs ++ b :: n :: ys := by simp
  unfold coalesceNext
  rw [run_bind (rep.run_allocated nMem)]
  cases nState : n.allocated with
  | true =>
    rw [if_neg (by simp [bit]), run_pure]
    refine ⟨s.mem, s.flistFirst, fl, rfl, ?_, ?_, fun d _ _ => Same.refl d _, List.Sublist.refl _⟩
    · rw [withList_self]
      simpa [consFree, nState] using rep
    · simpa [consFree, nState] using listed
  | false =>
    obtain ⟨m', first, run, absorbed, absorbedListed, frame⟩ := rep.run_absorb next listed (listed n nMem nState)
    rw [if_pos (by simp [bit])]
    refine ⟨m', first, fl.erase n.addr, ?_, ?_, ?_, ?_, List.erase_sublist⟩
    · rw [← run]
      cases flag with
      | true => simp only [if_true] at survivor ⊢; rw [survivor]
      | false => simp only [Bool.false_eq_true, if_false] at survivor ⊢; rw [survivor]
    · simpa [consFree, bFree, nState] using absorbed
    · simpa [consFree, bFree, nState] using absorbedListed
    · intro d dMem allocated
      apply frame d _ allocated
      simp only [List.mem_append, List.mem_cons] at dMem ⊢
      rcases dMem with inXs | rfl | inYs
      · exact Or.inl inXs
      · rw [nState] at allocated
        cases allocated
      · exact Or.inr inYs

/-- `coalesce` makes the free block `b` one block with its free neighbours. -/
theorem Rep.run_coalesce (rep : Rep s (xs ++ p :: b :: n :: ys) fl) (prev : p.limit = b.addr) (next : b.limit = n.addr)
    (bFree : b.allocated = false) (listed : Listed (xs ++ p :: b :: n :: ys) fl) :
    ∃ m' first fl', coalesce b.addr s = .ok ((), s.withList m' first) ∧
      Rep (s.withList m' first) (xs ++ consFree p (consFree b (n :: ys))) fl' ∧
      Listed (xs ++ consFree p (consFree b (n :: ys))) fl' ∧
      (∀ d ∈ xs ++ p :: n :: ys, d.allocated = true → Same d s.mem m') ∧ fl'.Sublist fl := by
  have pMem : p ∈ xs ++ p :: b :: n :: ys := by simp
  have bMem : b ∈ xs ++ p :: b :: n :: ys := by simp
  unfold coalesce
  rw [run_bind (rep.run_prev pMem prev), run_bind (rep.run_next bMem), next, run_bind (rep.run_allocated pMem)]
  cases pState : p.allocated with
  | true =>
    have shifted : Rep s ((xs ++ [p]) ++ b :: n :: ys) fl := by simpa using rep
    obtain ⟨m', first, fl', run, final, finalListed, frame, part⟩ := shifted.run_coalesceNext next bFree
      (by simpa using listed) false p.addr b.addr rfl
    rw [if_neg (by simp [bit]), run, consFree_allocated pState]
    refine ⟨m', first, fl', rfl, by simpa using final, by simpa using finalListed, ?_, part⟩
    intro d dMem
    exact frame d (by simpa using dMem)
  | false =>
    obtain ⟨m₁, first₁, run₁, merged, mergedListed, frame₁⟩ := rep.run_absorb prev listed (listed b bMem bFree)
    have mergedNext : (p.merge b).limit = n.addr := by
      simp only [Block.limit, Block.merge] at prev next ⊢
      omega
    obtain ⟨m', first, fl', run, final, finalListed, frame, part⟩ := merged.run_coalesceNext mergedNext pState
      mergedListed true p.addr b.addr rfl
    rw [if_pos (by simp [bit])]
    refine ⟨m', first, fl', ?_, ?_, ?_, ?_, part.trans List.erase_sublist⟩
    · have joined := run_bind (f := fun _ => coalesceNext true p.addr b.addr n.addr) run₁
      simp only [bind_assoc] at joined
      rw [joined, run]
      rfl
    · rw [consFree_merge pState bFree]
      exact final
    · rw [consFree_merge pState bFree]
      exact finalListed
    · intro d dMem allocated
      have dRest : d ∈ xs ++ n :: ys := by
        simp only [List.mem_append, List.mem_cons] at dMem ⊢
        rcases dMem with inXs | rfl | rest
        · exact Or.inl inXs
        · rw [pState] at allocated
          cases allocated
        · exact Or.inr rest
      exact (frame₁ d dRest allocated).trans (frame d dRest allocated)

/-- `mm_free` on an allocated block between two others. -/
theorem Rep.run_mmFree (rep : Rep s (xs ++ p :: b :: n :: ys) fl) (prev : p.limit = b.addr) (next : b.limit = n.addr)
    (allocated : b.allocated = true) (large : 32 ≤ b.size) (listed : Listed (xs ++ p :: b :: n :: ys) fl) :
    ∃ m' first fl', mmFree (b.addr + 8) s = .ok ((), s.withList m' first) ∧
      Rep (s.withList m' first) (xs ++ consFree p (consFree { b with allocated := false } (n :: ys))) fl' ∧
      Listed (xs ++ consFree p (consFree { b with allocated := false } (n :: ys))) fl' ∧
      (∀ d ∈ xs ++ p :: n :: ys, d.allocated = true → Same d s.mem m') ∧ fl'.Sublist (b.addr :: fl) := by
  have bMem : b ∈ xs ++ p :: b :: n :: ys := by simp
  have fresh := rep.fresh_of_allocated bMem allocated
  have sized := rep.sized b bMem
  have positive : 0 < b.addr := by
    have := (rep.inside b bMem).1
    have := rep.region.positive
    omega
  have shifted : Rep s ((xs ++ [p]) ++ b :: n :: ys) fl := by simpa using rep
  obtain ⟨m₁, mark, marked, written⟩ := shifted.run_setAllocated false fresh ⟨sized.tags, sized.aligned, fun _ => large⟩
  have freeMem : { b with allocated := false } ∈ (xs ++ [p]) ++ { b with allocated := false } :: n :: ys := by simp
  obtain ⟨insert, insertedRep⟩ := marked.run_insert freeMem rfl fresh
  have links := (marked.inserted_ring freeMem rfl fresh).2
  rw [List.append_assoc] at insertedRep
  have newListed : Listed (xs ++ p :: { b with allocated := false } :: n :: ys) (b.addr :: fl) := by
    intro d dMem dFree
    simp only [List.mem_append, List.mem_cons] at dMem
    rcases dMem with inXs | rfl | rfl | rest
    · exact List.mem_cons_of_mem _ (listed d (by simp [inXs]) dFree)
    · exact List.mem_cons_of_mem _ (listed d (by simp) dFree)
    · exact List.mem_cons_self
    · exact List.mem_cons_of_mem _ (listed d (by simp [rest]) dFree)
  obtain ⟨m', first, fl', run, final, finalListed, frame, part⟩ := insertedRep.run_coalesce prev next rfl newListed
  refine ⟨m', first, fl', ?_, final, finalListed, ?_, part⟩
  · unfold mmFree
    rw [if_neg (by omega)]
    have block : payloadToBlock (b.addr + 8) = b.addr := by simp only [payloadToBlock, wordSize]; omega
    rw [block, show (0 : Int) = bit false from rfl, run_bind mark]
    exact (run_bind insert).trans run
  · intro d dMem dAllocated
    have dMem' : d ∈ (xs ++ [p]) ++ n :: ys := by simpa using dMem
    have dMarked : d ∈ (xs ++ [p]) ++ { b with allocated := false } :: n :: ys := by
      simp only [List.mem_append, List.mem_cons] at dMem' ⊢
      tauto
    have first := written.same (c := d) sized (shifted.apart_rest d dMem')
    have second := links.same marked.toTagged (marked.freeBlocks_cons freeMem rfl) dMarked dAllocated
    exact (first.trans second).trans (frame d dMem dAllocated)

end Cs1330.Malloc
