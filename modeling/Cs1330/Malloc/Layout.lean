import Cs1330.Malloc.Free

/-!
# The heap invariant

`Wf s mids fl`: the blocks `mids` between prologue and epilogue tile the heap, no two adjacent
ones are free, and the ring `fl` lists exactly the free ones. `mm_free` keeps it, and the layout
it leaves is the coalesced layout with one more block released.
-/

namespace Cs1330.Malloc
open Machine Links Tiling

def Heap.prologueBlock (s : Heap) : Block := ⟨s.prologue, 16, true⟩

def Heap.epilogueBlock (s : Heap) : Block := ⟨s.epilogue, 16, true⟩

def Heap.layout (s : Heap) (mids : List Block) : List Block := s.prologueBlock :: (mids ++ [s.epilogueBlock])

structure Wf (s : Heap) (mids : List Block) (fl : List Int) : Prop extends Rep s (s.layout mids) fl where
  tiled : Tiled s.memStartBrk (s.layout mids) s.memBrk
  coalesced : Coalesced (s.layout mids)
  large : ∀ b ∈ mids, 32 ≤ b.size
  listed : Listed (s.layout mids) fl

variable {s : Heap} {mids xs ys : List Block} {fl : List Int} {b c : Block}

theorem mem_layout : b ∈ s.layout mids ↔ b = s.prologueBlock ∨ b ∈ mids ∨ b = s.epilogueBlock := by
  simp [Heap.layout]

theorem mem_layout_mid (member : b ∈ mids) : b ∈ s.layout mids := mem_layout.mpr (Or.inr (Or.inl member))

theorem Wf.prologue_eq (wf : Wf s mids fl) : s.prologue = s.memStartBrk := wf.tiled.1

theorem Wf.epilogue_eq (wf : Wf s mids fl) : s.epilogue + 16 = s.memBrk := by
  obtain ⟨_, rest⟩ := wf.tiled
  obtain ⟨_, _, last⟩ := tiled_append.mp rest
  exact last.2

theorem Wf.bounds (wf : Wf s mids fl) (member : b ∈ mids) : s.memStartBrk + 16 ≤ b.addr ∧ b.limit ≤ s.epilogue := by
  obtain ⟨_, rest⟩ := wf.tiled
  obtain ⟨mid, front, last⟩ := tiled_append.mp rest
  have sized : ∀ c ∈ mids, 0 ≤ c.size := fun c cMem => by have := wf.large c cMem; omega
  have bounds := (tiled_bounds front sized).2 b member
  have start := wf.prologue_eq
  have limit : s.prologueBlock.limit = s.prologue + 16 := rfl
  have addr : s.epilogueBlock.addr = s.epilogue := rfl
  have last := last.1
  constructor <;> omega

theorem Wf.neighbours (wf : Wf s (xs ++ b :: ys) fl) :
    ∃ us p n vs, s.prologueBlock :: xs = us ++ [p] ∧ ys ++ [s.epilogueBlock] = n :: vs ∧
      s.layout (xs ++ b :: ys) = us ++ p :: b :: n :: vs ∧ p.limit = b.addr ∧ b.limit = n.addr := by
  obtain ⟨us, p, front⟩ : ∃ us p, s.prologueBlock :: xs = us ++ [p] :=
    ⟨_, _, (List.dropLast_append_getLast (List.cons_ne_nil _ _)).symm⟩
  obtain ⟨n, vs, back⟩ : ∃ n vs, ys ++ [s.epilogueBlock] = n :: vs := by
    cases ys with
    | nil => exact ⟨_, _, rfl⟩
    | cons y ys => exact ⟨_, _, rfl⟩
  have whole : s.layout (xs ++ b :: ys) = us ++ p :: b :: n :: vs := by
    calc s.layout (xs ++ b :: ys) = (s.prologueBlock :: xs) ++ b :: (ys ++ [s.epilogueBlock]) := by simp [Heap.layout]
      _ = us ++ p :: b :: n :: vs := by rw [front, back]; simp
  have tiled := wf.tiled
  rw [whole] at tiled
  obtain ⟨_, _, _, prev, next, _⟩ := tiled_append.mp tiled
  exact ⟨us, p, n, vs, front, back, whole, prev.symm, next.symm⟩

/-- Releasing one block by its address leaves the others alone. -/
theorem Wf.release_one (wf : Wf s (xs ++ b :: ys) fl) (allocated : b.allocated = true) :
    release (· == b.addr) (s.layout (xs ++ b :: ys)) = s.layout (xs ++ { b with allocated := false } :: ys) ∧
      release (· == b.addr) (xs ++ b :: ys) = xs ++ { b with allocated := false } :: ys := by
  have rest : ∀ c ∈ (s.prologueBlock :: xs) ++ (ys ++ [s.epilogueBlock]), (c.addr == b.addr) = false := by
    intro c member
    have shifted : Tagged s ((s.prologueBlock :: xs) ++ b :: (ys ++ [s.epilogueBlock])) := by
      simpa [Heap.layout] using wf.toTagged
    have apart := shifted.apart_rest c member
    have bSize := (shifted.sized b (by simp)).tags
    have cSize := (shifted.sized c (by simp only [List.mem_append, List.mem_cons] at member ⊢; tauto)).tags
    simp only [Block.Apart, Block.limit] at apart
    simp only [beq_eq_false_iff_ne, ne_eq]
    omega
  have one : b.release (· == b.addr) = { b with allocated := false } := by simp [Block.release, allocated]
  have front : ∀ c ∈ s.prologueBlock :: xs, (c.addr == b.addr) = false :=
    fun c member => rest c (List.mem_append_left _ member)
  have back : ∀ c ∈ ys ++ [s.epilogueBlock], (c.addr == b.addr) = false :=
    fun c member => rest c (List.mem_append_right _ member)
  have frontSame : xs.map (Block.release (· == b.addr)) = xs :=
    release_eq_self fun c member => front c (List.mem_cons_of_mem _ member)
  have backSame : ys.map (Block.release (· == b.addr)) = ys :=
    release_eq_self fun c member => back c (List.mem_append_left _ member)
  have prologueSame : s.prologueBlock.release (· == b.addr) = s.prologueBlock := by
    simp only [Block.release, front _ List.mem_cons_self, Bool.and_false, Bool.false_eq_true, if_false]
  have epilogueSame : s.epilogueBlock.release (· == b.addr) = s.epilogueBlock := by
    simp only [Block.release, back s.epilogueBlock (by simp), Bool.and_false, Bool.false_eq_true, if_false]
  constructor
  · simp only [release, Heap.layout, List.map_cons, List.map_append, List.map_nil, one, frontSame, backSame,
      prologueSame, epilogueSame]
  · simp only [release, List.map_append, List.map_cons, one, frontSame, backSame]

/-- The sentinels are allocated, so coalescing happens between them. -/
theorem coalesceAll_layout (s : Heap) (mids : List Block) :
    coalesceAll (s.layout mids) = s.layout (coalesceAll mids) := by
  have front := coalesceAll_append_allocated (b := s.prologueBlock) [] (mids ++ [s.epilogueBlock]) rfl
  have back := coalesceAll_append_allocated (b := s.epilogueBlock) mids [] rfl
  rw [List.nil_append] at front
  rw [Heap.layout, front, back]
  rfl

/-- `mm_free` of a block between the sentinels: the layout is the old one with the block released,
coalesced, every other allocated block keeps its bytes, and the free list keeps its order behind
the block. -/
theorem Wf.run_mmFree_listed (wf : Wf s mids fl) (member : b ∈ mids) (allocated : b.allocated = true) :
    ∃ m' first fl', mmFree (b.addr + 8) s = .ok ((), s.withList m' first) ∧
      Wf (s.withList m' first) (coalesceAll (release (· == b.addr) mids)) fl' ∧
      (∀ c ∈ mids, c.allocated = true → c ≠ b → Same c s.mem m') ∧ fl'.Sublist (b.addr :: fl) := by
  obtain ⟨xs, ys, rfl⟩ := List.append_of_mem member
  obtain ⟨us, p, n, vs, front, back, whole, prev, next⟩ := wf.neighbours
  have rep := wf.toRep
  have listed := wf.listed
  have coalesced := wf.coalesced
  rw [whole] at rep listed coalesced
  obtain ⟨m', first, fl', run, final, finalListed, frame, part⟩ :=
    rep.run_mmFree prev next allocated (wf.large b member) listed
  obtain ⟨released, releasedMids⟩ := wf.release_one allocated
  have result : us ++ consFree p (consFree { b with allocated := false } (n :: vs)) =
      s.layout (coalesceAll (release (· == b.addr) (xs ++ b :: ys))) := by
    obtain ⟨frontCoalesced, rest⟩ := coalesced_append.mp coalesced
    have backCoalesced : Coalesced (n :: vs) := rest.tail.tail
    rw [← coalesceAll_local frontCoalesced backCoalesced, ← coalesceAll_layout, releasedMids]
    congr 1
    calc us ++ p :: { b with allocated := false } :: n :: vs
        = (us ++ [p]) ++ { b with allocated := false } :: n :: vs := by simp
      _ = s.layout (xs ++ { b with allocated := false } :: ys) := by
          rw [← front, ← back]; simp [Heap.layout]
  refine ⟨m', first, fl', run, ?_, ?_, part⟩
  · rw [result] at final finalListed
    refine ⟨final, ?_, ?_, ?_, finalListed⟩
    · have tiled := coalesceAll_tiled (release_tiled (p := (· == b.addr)) wf.tiled)
      rw [released, coalesceAll_layout, ← releasedMids] at tiled
      exact tiled
    · have canonical := coalesced_coalesceAll (s.layout (release (· == b.addr) (xs ++ b :: ys)))
      rw [coalesceAll_layout] at canonical
      exact canonical
    · exact coalesceAll_size (by decide) (release_size wf.large)
  · intro c cMem cAllocated different
    apply frame c _ cAllocated
    have inLayout := mem_layout_mid (s := s) cMem
    rw [whole] at inLayout
    simp only [List.mem_append, List.mem_cons] at inLayout ⊢
    tauto

theorem Wf.run_mmFree (wf : Wf s mids fl) (member : b ∈ mids) (allocated : b.allocated = true) :
    ∃ m' first fl', mmFree (b.addr + 8) s = .ok ((), s.withList m' first) ∧
      Wf (s.withList m' first) (coalesceAll (release (· == b.addr) mids)) fl' ∧
      ∀ c ∈ mids, c.allocated = true → c ≠ b → Same c s.mem m' := by
  obtain ⟨m', first, fl', run, final, frame, _⟩ := wf.run_mmFree_listed member allocated
  exact ⟨m', first, fl', run, final, frame⟩

end Cs1330.Malloc
