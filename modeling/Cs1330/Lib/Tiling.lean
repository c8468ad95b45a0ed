import Mathlib.Data.List.Chain
import Mathlib.Algebra.Order.BigOperators.Group.List
import Mathlib.Algebra.Order.Ring.Int
import Mathlib.Tactic.Common

/-!
# Tilings by blocks

A heap layout is a list of blocks in address order. `Tiled lo bs hi` says that the blocks
follow each other from `lo` to `hi` without gaps. `coalesceAll` merges every run of adjacent
free blocks; `coalesceAll_release` is the canonical-form argument: releasing blocks and
coalescing gives the same layout however the coalescing is interleaved with the releases.
-/

namespace Tiling

structure Block where
  addr : Int
  size : Int
  allocated : Bool
  deriving DecidableEq, Repr

def Block.limit (b : Block) : Int := b.addr + b.size

def Block.Apart (b c : Block) : Prop := b.limit ≤ c.addr ∨ c.limit ≤ b.addr

theorem Block.Apart.symm {b c : Block} (h : b.Apart c) : c.Apart b := Or.symm h

instance : Std.Symm Block.Apart := ⟨fun _ _ h => h.symm⟩

def Tiled (lo : Int) : List Block → Int → Prop
  | [], hi => lo = hi
  | b :: bs, hi => b.addr = lo ∧ Tiled b.limit bs hi

theorem tiled_append {lo hi : Int} {bs cs : List Block} :
    Tiled lo (bs ++ cs) hi ↔ ∃ mid, Tiled lo bs mid ∧ Tiled mid cs hi := by
  induction bs generalizing lo with
  | nil => simp [Tiled]
  | cons b bs ih => simp [Tiled, ih, and_assoc]

/-- Blocks replaced by others that cover the same range. -/
theorem tiled_replace {lo hi : Int} {bs cs xs ys : List Block} (tiled : Tiled lo (xs ++ (bs ++ ys)) hi)
    (cover : ∀ from' to', Tiled from' bs to' → Tiled from' cs to') : Tiled lo (xs ++ (cs ++ ys)) hi := by
  obtain ⟨start, front, rest⟩ := tiled_append.mp tiled
  obtain ⟨stop, middle, back⟩ := tiled_append.mp rest
  exact tiled_append.mpr ⟨start, front, tiled_append.mpr ⟨stop, cover start stop middle, back⟩⟩

theorem tiled_bounds {lo hi : Int} {bs : List Block} (tiled : Tiled lo bs hi) (sized : ∀ b ∈ bs, 0 ≤ b.size) :
    lo ≤ hi ∧ ∀ b ∈ bs, lo ≤ b.addr ∧ b.limit ≤ hi := by
  induction bs generalizing lo with
  | nil => exact ⟨le_of_eq tiled, by simp⟩
  | cons b bs ih =>
    obtain ⟨start, rest⟩ := tiled
    have size := sized b List.mem_cons_self
    obtain ⟨order, bounds⟩ := ih rest fun c member => sized c (List.mem_cons_of_mem _ member)
    have limit : b.limit = b.addr + b.size := rfl
    refine ⟨by omega, ?_⟩
    intro c member
    rcases List.mem_cons.mp member with rfl | member
    · exact ⟨by omega, order⟩
    · have := bounds c member
      exact ⟨by omega, this.2⟩

theorem tiled_length {lo hi : Int} {bs : List Block} (tiled : Tiled lo bs hi) (sized : ∀ b ∈ bs, 0 < b.size) :
    lo + bs.length ≤ hi := by
  induction bs generalizing lo with
  | nil => exact le_of_eq ((Int.add_zero lo).trans tiled)
  | cons b bs ih =>
    obtain ⟨start, rest⟩ := tiled
    have size := sized b List.mem_cons_self
    have tail := ih rest fun c member => sized c (List.mem_cons_of_mem _ member)
    simp only [Block.limit, List.length_cons] at tail ⊢
    omega

theorem tiled_aligned {k lo hi : Int} {bs : List Block} (tiled : Tiled lo bs hi) (start : k ∣ lo)
    (sized : ∀ b ∈ bs, k ∣ b.size) : ∀ b ∈ bs, k ∣ b.addr := by
  induction bs generalizing lo with
  | nil => simp
  | cons b bs ih =>
    obtain ⟨rfl, rest⟩ := tiled
    have next : k ∣ b.limit := Int.dvd_add start (sized b List.mem_cons_self)
    intro c member
    rcases List.mem_cons.mp member with rfl | member
    · exact start
    · exact ih rest next (fun d dMem => sized d (List.mem_cons_of_mem _ dMem)) c member

/-- No two adjacent blocks are both free. -/
def Coalesced (bs : List Block) : Prop := bs.IsChain fun b c => b.allocated = true ∨ c.allocated = true

theorem coalesced_append {b : Block} {bs cs : List Block} :
    Coalesced (bs ++ b :: cs) ↔ Coalesced (bs ++ [b]) ∧ Coalesced (b :: cs) := List.isChain_split

theorem coalesced_snoc {b c : Block} {bs : List Block} (h : Coalesced (bs ++ [b]))
    (state : b.allocated = true → c.allocated = true) : Coalesced (bs ++ [c]) := by
  refine List.isChain_append.mpr ⟨(List.isChain_append.mp h).1, List.isChain_singleton _, ?_⟩
  intro x last y head
  have old := (List.isChain_append.mp h).2.2 x last b rfl
  obtain rfl : c = y := by simpa using head
  exact old.imp_right state

theorem coalesced_cons {b c : Block} {bs : List Block} (h : Coalesced (b :: bs))
    (state : b.allocated = true → c.allocated = true) : Coalesced (c :: bs) := by
  cases bs with
  | nil => exact List.isChain_singleton _
  | cons d ds =>
    obtain ⟨old, rest⟩ := List.isChain_cons_cons.mp h
    exact List.isChain_cons_cons.mpr ⟨old.imp_left state, rest⟩

theorem coalesced_replace {b c : Block} {bs cs : List Block} (h : Coalesced (bs ++ b :: cs))
    (state : b.allocated = true → c.allocated = true) : Coalesced (bs ++ c :: cs) := by
  obtain ⟨front, back⟩ := coalesced_append.mp h
  exact coalesced_append.mpr ⟨coalesced_snoc front state, coalesced_cons back state⟩

def Block.merge (b c : Block) : Block := { b with size := b.size + c.size }

/-- `b` in front of a coalesced layout. -/
def consFree (b : Block) : List Block → List Block
  | [] => [b]
  | c :: cs => if b.allocated = false ∧ c.allocated = false then b.merge c :: cs else b :: c :: cs

def coalesceAll : List Block → List Block
  | [] => []
  | b :: bs => consFree b (coalesceAll bs)

/-- An allocated block whose address satisfies `p` becomes free. -/
def Block.release (p : Int → Bool) (b : Block) : Block :=
  if b.allocated && p b.addr then { b with allocated := false } else b

def release (p : Int → Bool) (bs : List Block) : List Block := bs.map (Block.release p)

theorem release_of_free {p : Int → Bool} {b : Block} (free : b.allocated = false) : b.release p = b := by
  simp [Block.release, free]

theorem coalesceAll_of_coalesced {bs : List Block} (h : Coalesced bs) : coalesceAll bs = bs := by
  induction bs with
  | nil => rfl
  | cons b bs ih =>
    rw [coalesceAll, ih h.tail]
    cases bs with
    | nil => rfl
    | cons c cs =>
      have := (List.isChain_cons_cons.mp h).1
      rw [consFree, if_neg]
      rintro ⟨bFree, cFree⟩
      simp [bFree, cFree] at this

theorem consFree_merge {b c : Block} {bs : List Block} (bFree : b.allocated = false) (cFree : c.allocated = false) :
    consFree b (consFree c bs) = consFree (b.merge c) bs := by
  cases bs with
  | nil => simp [consFree, bFree, cFree]
  | cons d ds =>
    by_cases dFree : d.allocated = false
    · simp [consFree, Block.merge, bFree, cFree, dFree, add_assoc]
    · simp [consFree, Block.merge, bFree, cFree, dFree]

theorem consFree_head (b : Block) (bs : List Block) :
    ∃ c cs, consFree b bs = c :: cs ∧ c.addr = b.addr ∧ c.allocated = b.allocated := by
  cases bs with
  | nil => exact ⟨b, [], rfl, rfl, rfl⟩
  | cons c cs =>
    rw [consFree]
    split
    · exact ⟨b.merge c, cs, rfl, rfl, rfl⟩
    · exact ⟨b, c :: cs, rfl, rfl, rfl⟩

theorem coalesced_consFree {b : Block} {bs : List Block} (h : Coalesced bs) : Coalesced (consFree b bs) := by
  cases bs with
  | nil => exact List.isChain_singleton _
  | cons c cs =>
    rw [consFree]
    split
    · rename_i both
      exact coalesced_cons h fun allocated => by simp [both.2] at allocated
    · rename_i notBoth
      refine List.isChain_cons_cons.mpr ⟨?_, h⟩
      cases hb : b.allocated <;> cases hc : c.allocated <;> simp_all

theorem coalesced_coalesceAll (bs : List Block) : Coalesced (coalesceAll bs) := by
  induction bs with
  | nil => exact List.isChain_nil
  | cons b bs ih => exact coalesced_consFree ih

theorem coalesceAll_append (bs cs : List Block) :
    coalesceAll (bs ++ cs) = bs.foldr consFree (coalesceAll cs) := by
  induction bs with
  | nil => rfl
  | cons b bs ih => rw [List.cons_append, coalesceAll, ih, List.foldr_cons]

/-- Coalescing around one place of a coalesced layout. -/
theorem coalesceAll_local {b c : Block} {bs cs : List Block} (front : Coalesced (bs ++ [b]))
    (back : Coalesced cs) :
    coalesceAll (bs ++ b :: c :: cs) = bs ++ consFree b (consFree c cs) := by
  have tail : Coalesced (consFree b (consFree c cs)) := coalesced_consFree (coalesced_consFree back)
  have unfolded : coalesceAll (b :: c :: cs) = consFree b (consFree c cs) := by
    rw [coalesceAll, coalesceAll, coalesceAll_of_coalesced back]
  obtain ⟨d, ds, head, _, state⟩ := consFree_head b (consFree c cs)
  have whole : Coalesced (bs ++ d :: ds) :=
    coalesced_append.mpr ⟨coalesced_snoc front fun allocated => state.trans allocated, head ▸ tail⟩
  rw [head] at tail ⊢
  rw [coalesceAll_append, unfolded, head]
  have fixed := coalesceAll_of_coalesced whole
  rwa [coalesceAll_append, coalesceAll_of_coalesced tail] at fixed

/-- An allocated block separates the layouts on its two sides. -/
theorem coalesceAll_append_allocated {b : Block} (bs cs : List Block) (allocated : b.allocated = true) :
    coalesceAll (bs ++ b :: cs) = coalesceAll bs ++ b :: coalesceAll cs := by
  have front : coalesceAll (b :: cs) = b :: coalesceAll cs := by
    rw [coalesceAll]
    cases coalesceAll cs with
    | nil => rfl
    | cons c cs => simp [consFree, allocated]
  induction bs with
  | nil => exact front
  | cons d ds ih =>
    rw [List.cons_append, coalesceAll, ih, coalesceAll]
    cases coalesceAll ds with
    | nil => simp [consFree, allocated]
    | cons e es =>
      simp only [List.cons_append, consFree]
      split <;> rfl

/-- Coalescing before a release does not change what coalescing after it gives. -/
theorem coalesceAll_release (p : Int → Bool) (bs : List Block) :
    coalesceAll (release p (coalesceAll bs)) = coalesceAll (release p bs) := by
  induction bs with
  | nil => rfl
  | cons b bs ih =>
    have unfolded : coalesceAll (release p (b :: bs)) =
        consFree (b.release p) (coalesceAll (release p (coalesceAll bs))) := by
      rw [ih]; rfl
    rw [unfolded, coalesceAll]
    cases coalesceAll bs with
    | nil => rfl
    | cons c cs =>
      rw [consFree]
      split
      · rename_i both
        obtain ⟨bFree, cFree⟩ := both
        have merged : (b.merge c).allocated = false := bFree
        simp only [release, List.map_cons, release_of_free bFree, release_of_free cFree, release_of_free merged,
          coalesceAll]
        rw [consFree_merge bFree cFree]
      · rfl

theorem release_release (p q : Int → Bool) (bs : List Block) :
    release q (release p bs) = release (fun a => p a || q a) bs := by
  simp only [release, List.map_map]
  apply List.map_congr_left
  intro b _
  cases ha : b.allocated <;> cases hp : p b.addr <;> cases hq : q b.addr <;>
    simp [Block.release, ha, hp, hq]

theorem coalesceAll_tiled {lo hi : Int} {bs : List Block} (tiled : Tiled lo bs hi) :
    Tiled lo (coalesceAll bs) hi := by
  induction bs generalizing lo with
  | nil => exact tiled
  | cons b bs ih =>
    obtain ⟨start, rest⟩ := tiled
    have merged := ih rest
    rw [coalesceAll]
    cases hc : coalesceAll bs with
    | nil => rw [hc] at merged; exact ⟨start, merged⟩
    | cons c cs =>
      rw [hc] at merged
      rw [consFree]
      split
      · refine ⟨start, ?_⟩
        have limit : (b.merge c).limit = c.limit := by
          have := merged.1
          simp only [Block.limit, Block.merge] at this ⊢
          omega
        rw [limit]
        exact merged.2
      · exact ⟨start, merged⟩

theorem coalesceAll_free {b : Block} {bs : List Block} (free : ∀ c ∈ b :: bs, c.allocated = false) :
    ∃ size, coalesceAll (b :: bs) = [{ b with size := size }] := by
  induction bs generalizing b with
  | nil => exact ⟨b.size, rfl⟩
  | cons c cs ih =>
    obtain ⟨size, rest⟩ := ih (b := c) fun d member => free d (List.mem_cons_of_mem _ member)
    have bFree := free b List.mem_cons_self
    have cFree := free c (by simp)
    rw [coalesceAll, rest]
    exact ⟨b.size + size, by simp [consFree, Block.merge, bFree, cFree]⟩

theorem mem_consFree {b c : Block} {bs : List Block} (allocated : c.allocated = true) :
    c ∈ consFree b bs ↔ c ∈ b :: bs := by
  cases bs with
  | nil => rfl
  | cons d ds =>
    rw [consFree]
    split
    · rename_i both
      have notMerged : c ≠ b.merge d := by
        rintro rfl
        simp [Block.merge, both.1] at allocated
      have notB : c ≠ b := by
        rintro rfl
        simp [both.1] at allocated
      have notD : c ≠ d := by
        rintro rfl
        simp [both.2] at allocated
      simp [notMerged, notB, notD]
    · rfl

/-- Coalescing neither moves nor adds allocated blocks. -/
theorem mem_coalesceAll {c : Block} {bs : List Block} (allocated : c.allocated = true) :
    c ∈ coalesceAll bs ↔ c ∈ bs := by
  induction bs with
  | nil => rfl
  | cons b bs ih => rw [coalesceAll, mem_consFree allocated, List.mem_cons, ih, List.mem_cons]

theorem mem_release {p : Int → Bool} {c : Block} {bs : List Block} (allocated : c.allocated = true) :
    c ∈ release p bs ↔ c ∈ bs ∧ p c.addr = false := by
  simp only [release, List.mem_map]
  constructor
  · rintro ⟨b, member, rfl⟩
    by_cases released : b.allocated && p b.addr
    · simp [Block.release, released] at allocated
    · have kept : b.release p = b := if_neg (by simpa using released)
      rw [kept] at allocated ⊢
      simp only [allocated, Bool.true_and, Bool.not_eq_true] at released
      exact ⟨member, released⟩
  · rintro ⟨member, kept⟩
    exact ⟨c, member, by simp [Block.release, kept]⟩

theorem release_tiled {p : Int → Bool} {lo hi : Int} {bs : List Block} (tiled : Tiled lo bs hi) :
    Tiled lo (release p bs) hi := by
  induction bs generalizing lo with
  | nil => exact tiled
  | cons b bs ih =>
    obtain ⟨start, rest⟩ := tiled
    have addr : (b.release p).addr = b.addr := by unfold Block.release; split <;> rfl
    have limit : (b.release p).limit = b.limit := by unfold Block.release; split <;> rfl
    exact ⟨addr.trans start, by rw [limit]; exact ih rest⟩

theorem release_eq_self {p : Int → Bool} {bs : List Block} (none : ∀ b ∈ bs, p b.addr = false) :
    release p bs = bs := by
  have unchanged : ∀ b ∈ bs, b.release p = b := fun b member => by simp [Block.release, none b member]
  exact (List.map_congr_left unchanged).trans (List.map_id bs)

theorem coalesceAll_size {k : Int} {bs : List Block} (nonneg : 0 ≤ k) (large : ∀ b ∈ bs, k ≤ b.size) :
    ∀ b ∈ coalesceAll bs, k ≤ b.size := by
  induction bs with
  | nil => simp [coalesceAll]
  | cons b bs ih =>
    have rest := ih fun c member => large c (List.mem_cons_of_mem _ member)
    have first := large b List.mem_cons_self
    rw [coalesceAll]
    cases hc : coalesceAll bs with
    | nil => simpa [consFree] using first
    | cons c cs =>
      rw [hc] at rest
      have second := rest c List.mem_cons_self
      intro d member
      rw [consFree] at member
      split at member
      · rcases List.mem_cons.mp member with rfl | member
        · simp only [Block.merge]; omega
        · exact rest d (List.mem_cons_of_mem _ member)
      · rcases List.mem_cons.mp member with rfl | member
        · exact first
        · exact rest d member

theorem release_size {p : Int → Bool} {k : Int} {bs : List Block} (large : ∀ b ∈ bs, k ≤ b.size) :
    ∀ b ∈ release p bs, k ≤ b.size := by
  intro b member
  obtain ⟨c, cMem, rfl⟩ := List.mem_map.mp member
  have size : (c.release p).size = c.size := by unfold Block.release; split <;> rfl
  rw [size]
  exact large c cMem

/-! ### The same layout elsewhere -/

def Block.shift (k : Int) (b : Block) : Block := { b with addr := b.addr + k }

theorem Block.shift_injective (k : Int) : Function.Injective (Block.shift k) := by
  intro b c same
  cases b
  cases c
  simpa [Block.shift] using same

theorem consFree_shift (k : Int) (b : Block) (bs : List Block) :
    consFree (b.shift k) (bs.map (Block.shift k)) = (consFree b bs).map (Block.shift k) := by
  cases bs with
  | nil => rfl
  | cons c cs =>
    by_cases both : b.allocated = false ∧ c.allocated = false
    · rw [consFree, if_pos both]
      exact if_pos both
    · rw [consFree, if_neg both]
      exact if_neg both

theorem coalesceAll_shift (k : Int) (bs : List Block) :
    coalesceAll (bs.map (Block.shift k)) = (coalesceAll bs).map (Block.shift k) := by
  induction bs with
  | nil => rfl
  | cons b bs ih => rw [List.map_cons, coalesceAll, ih, consFree_shift, coalesceAll]

theorem release_shift {p q : Int → Bool} {k : Int} (same : ∀ a, q (a + k) = p a) (bs : List Block) :
    release q (bs.map (Block.shift k)) = (release p bs).map (Block.shift k) := by
  simp only [release, List.map_map]
  apply List.map_congr_left
  intro b _
  simp only [Function.comp_apply, Block.release, Block.shift, same]
  split <;> rfl

/-! ### Sizes -/

theorem tiled_sum {lo hi : Int} {bs : List Block} (tiled : Tiled lo bs hi) : (bs.map Block.size).sum = hi - lo := by
  induction bs generalizing lo with
  | nil =>
    have same : lo = hi := tiled
    simp [same]
  | cons b bs ih =>
    obtain ⟨rfl, rest⟩ := tiled
    rw [List.map_cons, List.sum_cons, ih rest, Block.limit]
    omega

/-- What is put into different blocks does not take more room than the blocks have. -/
theorem packed_sum {α : Type} {place size : α → Int} {xs : List α} {bs : List Block} (nonneg : ∀ b ∈ bs, 0 ≤ b.size)
    (distinct : xs.Pairwise fun x y => place x ≠ place y)
    (inside : ∀ x ∈ xs, ∃ b ∈ bs, b.addr = place x ∧ size x ≤ b.size) : (xs.map size).sum ≤ (bs.map Block.size).sum := by
  induction xs generalizing bs with
  | nil =>
    apply List.sum_nonneg
    intro n member
    obtain ⟨b, bMem, rfl⟩ := List.mem_map.mp member
    exact nonneg b bMem
  | cons x xs ih =>
    obtain ⟨others, distinct⟩ := List.pairwise_cons.mp distinct
    obtain ⟨b, bMem, start, fits⟩ := inside x List.mem_cons_self
    obtain ⟨front, back, rfl⟩ := List.append_of_mem bMem
    have rest : (xs.map size).sum ≤ ((front ++ back).map Block.size).sum := by
      apply ih _ distinct
      · intro y yMem
        obtain ⟨c, cMem, place, fits⟩ := inside y (List.mem_cons_of_mem _ yMem)
        refine ⟨c, ?_, place, fits⟩
        have other : c ≠ b := by
          rintro rfl
          exact others y yMem (start.symm.trans place)
        simpa [other] using cMem
      · intro c cMem
        exact nonneg c (by rcases List.mem_append.mp cMem with member | member <;> simp [member])
    simp only [List.map_append, List.map_cons, List.sum_append, List.sum_cons] at rest ⊢
    omega

end Tiling
