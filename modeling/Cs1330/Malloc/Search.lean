import Cs1330.Malloc.Layout
import Mathlib.Data.Int.Interval

/-!
# Taking a block

The search loop of `mm_malloc` visits the free list in order and takes the first block that is
large enough, whole or split; when it finds none, `extend_heap` makes a block where the epilogue
was.
-/

namespace Cs1330.Malloc
open Machine Links Tiling

variable {s : Heap} {bs xs ys : List Block} {fl : List Int} {b : Block} {a : Int}

theorem Listed.insert_allocated (listed : Listed (xs ++ ys) fl) (allocated : b.allocated = true) :
    Listed (xs ++ b :: ys) fl := by
  intro d dMem dFree
  simp only [List.mem_append, List.mem_cons] at dMem
  rcases dMem with inXs | rfl | inYs
  · exact listed d (by simp [inXs]) dFree
  · rw [allocated] at dFree
    cases dFree
  · exact listed d (by simp [inYs]) dFree

theorem Rep.run_takeFit (rep : Rep s (xs ++ b :: ys) fl) (bFree : b.allocated = false)
    (listed : Listed (xs ++ b :: ys) fl) (fits : a ≤ b.size) (tight : b.size - a < 32) :
    ∃ m' first, takeBlock b.addr a s = .ok (b.addr + 8, s.withList m' first) ∧
      Rep (s.withList m' first) (xs ++ { b with allocated := true } :: ys) (fl.erase b.addr) ∧
      Listed (xs ++ { b with allocated := true } :: ys) (fl.erase b.addr) ∧
      ∀ c ∈ xs ++ ys, c.allocated = true → Same c s.mem m' := by
  have bMem : b ∈ xs ++ b :: ys := by simp
  have member := listed b bMem bFree
  have sized := rep.sized b bMem
  have small := rep.size_small bMem
  have size := sized.tags
  simp only [maxHeap] at small
  have remaining : subLong b.size a = b.size - a := subLong_eq ⟨by omega, by omega⟩
  obtain ⟨pull, pulledRep⟩ := rep.run_pull member
  have links := rep.linksWritten_pulled member
  obtain ⟨m', mark, marked, written⟩ := pulledRep.run_setAllocated true
    (fun again => rep.distinct.not_mem_erase again) ⟨sized.tags, sized.aligned, fun free => by cases free⟩
  refine ⟨m', (fl.erase b.addr).headD 0, ?_, marked, ?_, ?_⟩
  · unfold takeBlock
    rw [run_bind (rep.run_size bMem), remaining, if_neg (by simp only [minBlockSize, wordSize]; omega), run_bind pull,
      show (1 : Int) = bit true from rfl, run_bind mark]
    rfl
  · exact (rep.toTagged.listed_erase listed).insert_allocated rfl
  · intro c cMem allocated
    have cMem' : c ∈ xs ++ b :: ys := by
      simp only [List.mem_append, List.mem_cons] at cMem ⊢
      tauto
    exact (links.same rep.toTagged rep.free cMem' allocated).trans (written.same (b := b) sized (rep.apart_rest c cMem))

/-- The two parts of a split block. -/
def lowPart (b : Block) (a : Int) : Block := { b with size := b.size - a }

def highPart (b : Block) (a : Int) : Block := ⟨b.addr + (b.size - a), a, true⟩

/-- A larger free block keeps its low part on the free list and gives its high part away. -/
theorem Rep.run_takeSplit (rep : Rep s (xs ++ b :: ys) fl) (bFree : b.allocated = false)
    (listed : Listed (xs ++ b :: ys) fl) (large : 32 ≤ a) (aligned : a % 8 = 0) (room : 32 ≤ b.size - a) :
    ∃ m' first, takeBlock b.addr a s = .ok ((highPart b a).addr + 8, s.withList m' first) ∧
      Rep (s.withList m' first) (xs ++ lowPart b a :: highPart b a :: ys) (b.addr :: fl.erase b.addr) ∧
      Listed (xs ++ lowPart b a :: highPart b a :: ys) (b.addr :: fl.erase b.addr) ∧
      ∀ c ∈ xs ++ ys, c.allocated = true → Same c s.mem m' := by
  have bMem : b ∈ xs ++ b :: ys := by simp
  have member := listed b bMem bFree
  have small := rep.size_small bMem
  have inside := rep.inside b bMem
  have bAligned := (rep.sized b bMem).aligned
  simp only [maxHeap] at small
  simp only [Block.limit] at inside
  have remaining : subLong b.size a = b.size - a := subLong_eq ⟨by omega, by omega⟩
  have within : ∀ c ∈ xs ++ ys, (lowPart b a).Apart c ∧ (highPart b a).Apart c := by
    intro c cMem
    have apart := rep.apart_rest c cMem
    simp only [Block.Apart, Block.limit, lowPart, highPart] at apart ⊢
    omega
  have lowSized : Sized (lowPart b a) :=
    ⟨by simp only [lowPart]; omega, by simp only [lowPart]; omega, fun _ => room⟩
  have highSized : Sized (highPart b a) :=
    ⟨by simp only [highPart]; omega, aligned, fun free => by cases free⟩
  -- Pull, shrink in place, put back: the high part is a hole until its own tags are written.
  obtain ⟨pull, pulledRep⟩ := rep.run_pull member
  have pullLinks := rep.linksWritten_pulled member
  have sub : (xs ++ ys).Sublist (xs ++ b :: ys) := by simp
  obtain ⟨m₁, shrink, shrunk, shrunkTags⟩ := pulledRep.run_setTags (b := lowPart b a) sub
    ⟨inside.1, by simp only [Block.limit, lowPart]; show _ ≤ s.memBrk; omega⟩ lowSized (fun c cMem => (within c cMem).1)
    (pulledRep.free_rest fun again => rep.distinct.not_mem_erase again)
  have lowMem : lowPart b a ∈ lowPart b a :: (xs ++ ys) := List.mem_cons_self
  have fresh : (lowPart b a).addr ∉ fl.erase b.addr := fun again => rep.distinct.not_mem_erase again
  obtain ⟨insert, insertedRep⟩ := shrunk.run_insert lowMem bFree fresh
  have insertLinks := (shrunk.inserted_ring lowMem bFree fresh).2
  obtain ⟨m', create, created, createdTags⟩ := insertedRep.run_setTags (b := highPart b a) (List.Sublist.refl _)
    ⟨by simp only [highPart]; show s.memStartBrk ≤ _; omega,
      by simp only [Block.limit, highPart]; show _ ≤ s.memBrk; omega⟩ highSized
    (by
      intro c cMem
      rcases List.mem_cons.mp cMem with rfl | cMem
      · exact Or.inr (by simp [Block.limit, lowPart, highPart])
      · exact (within c cMem).2) insertedRep.free
  have order : (highPart b a :: lowPart b a :: (xs ++ ys)).Perm (xs ++ lowPart b a :: highPart b a :: ys) := by
    apply (List.Perm.swap _ _ _).trans
    apply (List.Perm.cons _ (List.perm_middle.symm)).trans
    exact List.perm_middle.symm
  refine ⟨m', b.addr, ?_, created.perm order, ?_, ?_⟩
  · unfold takeBlock
    rw [run_bind (rep.run_size bMem), remaining, if_pos (by simp only [minBlockSize, wordSize]; omega), run_bind pull]
    have shrink' := shrink
    simp only [lowPart, bFree, bit, Bool.false_eq_true, if_false] at shrink'
    rw [run_bind shrink']
    apply (run_bind insert).trans
    apply (run_bind (insertedRep.run_next lowMem)).trans
    exact (run_bind create).trans rfl
  · have rest := (rep.toTagged.listed_erase listed)
    intro d dMem dFree
    simp only [List.mem_append, List.mem_cons] at dMem
    rcases dMem with inXs | rfl | rfl | inYs
    · exact List.mem_cons_of_mem _ (rest d (by simp [inXs]) dFree)
    · exact List.mem_cons_self
    · cases dFree
    · exact List.mem_cons_of_mem _ (rest d (by simp [inYs]) dFree)
  · intro c cMem allocated
    have cOld : c ∈ xs ++ b :: ys := by
      simp only [List.mem_append, List.mem_cons] at cMem ⊢
      tauto
    have first := pullLinks.same rep.toTagged rep.free cOld allocated
    have second := shrunkTags.same lowSized (within c cMem).1
    have third := insertLinks.same shrunk.toTagged (shrunk.freeBlocks_cons lowMem bFree)
      (List.mem_cons_of_mem _ cMem) allocated
    have fourth := createdTags.same highSized (within c cMem).2
    exact ((first.trans second).trans third).trans fourth

/-! ### The search loop -/

theorem Rep.run_fits (rep : Rep s bs fl) (member : b ∈ bs) (bFree : b.allocated = false) :
    (do if (← blockAllocated b.addr) ≠ 0 then return false
        return decide ((← blockSize b.addr) ≥ a) : HeapM Bool) s = .ok (decide (b.size ≥ a), s) := by
  rw [run_bind (rep.run_allocated member), if_neg (by simp [bit, bFree]), run_bind (rep.run_size member), run_pure]

/-- Only the last block of the list links back to the first. -/
theorem Rep.next_ne_first {before todo : List Int} {cur next : Int} (rep : Rep s bs fl)
    (list : fl = before ++ cur :: next :: todo) : next ≠ s.flistFirst := by
  rw [rep.first, list]
  have distinct := rep.distinct
  rw [list] at distinct
  cases before with
  | nil =>
    intro same
    have same : next = cur := same
    simp [same] at distinct
  | cons w ws =>
    intro same
    have same : next = w := same
    simp [same] at distinct

/-- The loop, started at `cur`, takes the first large enough block from there on or reaches the
head of the list again. Induction on the blocks still to visit. -/
theorem Rep.run_searchLoop (rep : Rep s bs fl) (todo : List Int) :
    ∀ (cur : Int) (before : List Int) (rounds : Nat), fl = before ++ cur :: todo → todo.length < rounds →
      (∃ b ∈ bs, ∃ skipped after, cur :: todo = skipped ++ b.addr :: after ∧ b.allocated = false ∧ a ≤ b.size ∧
        (∀ c ∈ bs, c.addr ∈ skipped → c.size < a) ∧
        searchLoop a rounds cur s = (do return some (← takeBlock b.addr a) : HeapM (Option Int)) s) ∨
      ((∀ c ∈ bs, c.addr ∈ cur :: todo → c.size < a) ∧ searchLoop a rounds cur s = .ok (none, s)) := by
  induction todo with
  | nil =>
    intro cur before rounds list bound
    obtain ⟨rounds, rfl⟩ : ∃ n, rounds = n + 1 := ⟨rounds - 1, by simp at bound; omega⟩
    obtain ⟨b, bMem, rfl, bFree⟩ := rep.free cur (by simp [list])
    rw [searchLoop, run_bind (rep.run_fits bMem bFree)]
    by_cases fits : b.size ≥ a
    · refine Or.inl ⟨b, bMem, [], [], rfl, bFree, fits, by simp, ?_⟩
      rw [if_pos (by simpa using fits)]
    · refine Or.inr ⟨?_, ?_⟩
      · intro c cMem same
        have same : c.addr = b.addr := by simpa using same
        rw [rep.eq_of_addr cMem bMem same]
        omega
      · have last : flink s.mem b.addr = s.flistFirst := by
          rw [rep.first, list]
          exact ring_next_last (list ▸ rep.ring)
        rw [if_neg (by simpa using fits), run_bind (rep.run_flink bMem bFree), run_bind (run_get s), last,
          if_neg (by simp), run_pure]
  | cons next todo ih =>
    intro cur before rounds list bound
    obtain ⟨rounds, rfl⟩ : ∃ n, rounds = n + 1 := ⟨rounds - 1, by simp at bound; omega⟩
    obtain ⟨b, bMem, rfl, bFree⟩ := rep.free cur (by simp [list])
    rw [searchLoop, run_bind (rep.run_fits bMem bFree)]
    by_cases fits : b.size ≥ a
    · refine Or.inl ⟨b, bMem, [], next :: todo, rfl, bFree, fits, by simp, ?_⟩
      rw [if_pos (by simpa using fits)]
    · have forward : flink s.mem b.addr = next := ring_next (list ▸ rep.ring)
      have notFirst := rep.next_ne_first list
      have continued : (do
          let cur ← blockFlink b.addr
          if cur ≠ (← get).flistFirst then searchLoop a rounds cur else return none : HeapM (Option Int)) s =
            searchLoop a rounds next s := by
        rw [run_bind (rep.run_flink bMem bFree), run_bind (run_get s), forward, if_pos notFirst]
      rw [if_neg (by simpa using fits), continued]
      have small : ∀ c ∈ bs, c.addr = b.addr → c.size < a := by
        intro c cMem same
        rw [rep.eq_of_addr cMem bMem same]
        omega
      rcases ih next (before ++ [b.addr]) rounds (by simp [list]) (by simp at bound; omega) with found | missed
      · obtain ⟨d, dMem, skipped, after, split, dFree, dFits, dSkipped, run⟩ := found
        refine Or.inl ⟨d, dMem, b.addr :: skipped, after, by rw [split]; rfl, dFree, dFits, ?_, run⟩
        intro c cMem visited
        rcases List.mem_cons.mp visited with same | visited
        · exact small c cMem same
        · exact dSkipped c cMem visited
      · refine Or.inr ⟨?_, missed.2⟩
        intro c cMem visited
        rcases List.mem_cons.mp visited with same | visited
        · exact small c cMem same
        · exact missed.1 c cMem visited

/-- The free list is shorter than the heap, so the search ends before its rounds do. -/
theorem Rep.length_le_heapsize (rep : Rep s bs fl) : fl.length ≤ s.memHeapsize.toNat := by
  have sub : fl.toFinset ⊆ Finset.Ico s.memStartBrk s.memBrk := by
    intro a aMem
    obtain ⟨b, bMem, rfl, _⟩ := rep.free a (by simpa using aMem)
    have inside := rep.inside b bMem
    have size := (rep.sized b bMem).tags
    simp only [Block.limit] at inside
    exact Finset.mem_Ico.mpr ⟨inside.1, by omega⟩
  have card := Finset.card_le_card sub
  rw [List.toFinset_card_of_nodup rep.distinct, Int.card_Ico] at card
  exact card

/-! ### Extending the heap -/

theorem wrap_int_small (low : 0 ≤ a) (high : a < 2 ^ 31) : wrap 32 a = a :=
  Int.bmod_eq_of_le (by norm_num; omega) (by norm_num; omega)

theorem wrap_int_large (low : 2 ^ 31 ≤ a) (high : a < 2 ^ 32) : wrap 32 a < 0 := by
  have value : wrap 32 a = a - 2 ^ 32 := by
    have shift : (a - (2 ^ 32 : Nat)).bmod (2 ^ 32) = wrap 32 a := Int.sub_bmod_right a (2 ^ 32)
    rw [← shift]
    exact Int.bmod_eq_of_le (by norm_num; omega) (by norm_num; omega)
  omega

/-- The condition on which `mem_sbrk` succeeds, the conversion to `int` included. -/
theorem run_memSbrk (region : Region s) (start : s.memStartBrk ≤ s.memBrk) (low : 0 ≤ a) (high : a < 2 ^ 32) :
    memSbrk a s = if s.memBrk + a ≤ s.memMaxAddr then .ok (s.memBrk, { s with memBrk := s.memBrk + a })
      else .ok (-1, s) := by
  have below := region.below
  have extent := region.extent
  simp only [maxHeap] at extent
  unfold memSbrk
  rw [run_bind (run_get s)]
  by_cases small : a < 2 ^ 31
  · rw [wrap_int_small low small]
    by_cases fits : s.memBrk + a ≤ s.memMaxAddr
    · rw [if_neg (by omega), if_pos fits, run_bind (run_set s _), run_pure]
    · rw [if_pos (by omega), if_neg fits, run_pure]
  · have negative := wrap_int_large (a := a) (by omega) high
    rw [if_pos (Or.inl negative), if_neg (by omega), run_pure]

end Cs1330.Malloc
