import Mathlib.Data.List.Lex
import Mathlib.Order.Lattice
import Mathlib.Tactic.Common

/-!
# Search trees with addresses

Binary search trees whose nodes carry the address at which they are stored, and contexts (a tree
with a hole, innermost frame first) for the places that a search passes through. A change at one
place of a tree is a change of what fills the hole.
-/

namespace SearchTree

inductive Tree (A K V : Type) where
  | nil
  | node (addr : A) (left : Tree A K V) (key : K) (value : V) (right : Tree A K V)

inductive Ctx (A K V : Type) where
  | top
  | left (outer : Ctx A K V) (addr : A) (key : K) (value : V) (right : Tree A K V)
  | right (outer : Ctx A K V) (addr : A) (left : Tree A K V) (key : K) (value : V)

variable {A K V : Type}

namespace Tree

def entries : Tree A K V → List (K × V)
  | nil => []
  | node _ l k v r => l.entries ++ (k, v) :: r.entries

def keys (t : Tree A K V) : List K := t.entries.map Prod.fst

def addrs : Tree A K V → List A
  | nil => []
  | node a l _ _ r => a :: (l.addrs ++ r.addrs)

def ptr : Tree A K V → Option A
  | nil => none
  | node a _ _ _ _ => some a

/-- The tree without its addresses. -/
def content : Tree A K V → Tree Unit K V
  | nil => nil
  | node _ l k v r => node () l.content k v r.content

/-- Smaller keys on the left, larger ones on the right, so no key twice. -/
def Ordered [LT K] : Tree A K V → Prop
  | nil => True
  | node _ l k _ r => (∀ j ∈ l.keys, j < k) ∧ (∀ j ∈ r.keys, k < j) ∧ l.Ordered ∧ r.Ordered

def lookup [LinearOrder K] (j : K) : Tree A K V → Option V
  | nil => none
  | node _ l k v r => if j < k then l.lookup j else if j = k then some v else r.lookup j

/-- The tree at which a search for `j` stops. -/
def find [LinearOrder K] (j : K) : Tree A K V → Tree A K V
  | nil => nil
  | node a l k v r => if j < k then l.find j else if j = k then node a l k v r else r.find j

/-- `a` is a proper ancestor of `b`. -/
def Above (a b : A) : Tree A K V → Prop
  | nil => False
  | node c l _ _ r => a = c ∧ b ∈ l.addrs ++ r.addrs ∨ l.Above a b ∨ r.Above a b

/-- The addresses that a search for `j` visits. -/
def path [LinearOrder K] (j : K) : Tree A K V → List A
  | nil => []
  | node a l k _ r => a :: (if j < k then l.path j else if j = k then [] else r.path j)

/-- The addresses along the left children. -/
def chain : Tree A K V → List A
  | nil => []
  | node a l _ _ _ => a :: l.chain

/-- The leftmost node of a tree given by its root, and the tree without it. -/
def popMin (a : A) (k : K) (v : V) (r : Tree A K V) : Tree A K V → A × K × V × Tree A K V
  | nil => (a, k, v, r)
  | node a' l' k' v' r' =>
    let rest := popMin a' k' v' r' l'
    (rest.1, rest.2.1, rest.2.2.1, node a rest.2.2.2 k v r)

/-- Remove the root: a missing child is replaced by the other, otherwise the root takes over the
least entry on its right. -/
def removeRoot : Tree A K V → Tree A K V
  | nil => nil
  | node _ l _ _ nil => l
  | node _ nil _ _ r => r
  | node a l _ _ (node b rl k v rr) =>
    let rest := popMin b k v rr rl
    node a l rest.2.1 rest.2.2.1 rest.2.2.2

@[simp] theorem keys_nil : (nil : Tree A K V).keys = [] := rfl

@[simp] theorem keys_node (a : A) (l : Tree A K V) (k : K) (v : V) (r : Tree A K V) :
    (node a l k v r).keys = l.keys ++ k :: r.keys := by
  simp [keys, entries]

theorem mem_keys {t : Tree A K V} {j : K} : j ∈ t.keys ↔ ∃ v, (j, v) ∈ t.entries := by
  simp [keys]

theorem Above.mem {a b : A} {t : Tree A K V} (above : t.Above a b) : b ∈ t.addrs := by
  induction t with
  | nil => cases above
  | node c l k v r ihl ihr =>
    rw [addrs, List.mem_cons, List.mem_append]
    rcases above with ⟨_, below⟩ | left | right
    · exact Or.inr (List.mem_append.mp below)
    · exact Or.inr (Or.inl (ihl left))
    · exact Or.inr (Or.inr (ihr right))

/-- A tree is ordered when reading it from left to right gives increasing keys. -/
theorem ordered_iff [Preorder K] (t : Tree A K V) : t.Ordered ↔ t.keys.Pairwise (· < ·) := by
  induction t with
  | nil => simp [Ordered]
  | node a l k v r ihl ihr =>
    rw [Ordered, keys_node, List.pairwise_append, List.pairwise_cons, ihl, ihr]
    constructor
    · rintro ⟨below, above, left, right⟩
      refine ⟨left, ⟨above, right⟩, ?_⟩
      intro i iMem j jMem
      rcases List.mem_cons.mp jMem with rfl | jMem
      · exact below i iMem
      · exact lt_trans (below i iMem) (above j jMem)
    · rintro ⟨left, ⟨above, right⟩, cross⟩
      exact ⟨fun j jMem => cross j jMem k List.mem_cons_self, above, left, right⟩

end Tree

/-! ### Contexts -/

namespace Ctx
open SearchTree.Tree

def plug : Ctx A K V → Tree A K V → Tree A K V
  | top, t => t
  | left c a k v r, t => c.plug (node a t k v r)
  | right c a l k v, t => c.plug (node a l k v t)

def before : Ctx A K V → List (K × V)
  | top => []
  | left c _ _ _ _ => c.before
  | right c _ l k v => c.before ++ (l.entries ++ [(k, v)])

def after : Ctx A K V → List (K × V)
  | top => []
  | left c _ k v r => (k, v) :: (r.entries ++ c.after)
  | right c _ _ _ _ => c.after

def addrs : Ctx A K V → List A
  | top => []
  | left c a _ _ r => a :: (r.addrs ++ c.addrs)
  | right c a l _ _ => a :: (l.addrs ++ c.addrs)

/-- The nodes above the hole. -/
def spine : Ctx A K V → List A
  | top => []
  | left c a _ _ _ => c.spine ++ [a]
  | right c a _ _ _ => c.spine ++ [a]

/-- A search for `j` comes to the hole. -/
def Follows [LT K] (j : K) : Ctx A K V → Prop
  | top => True
  | left c _ k _ _ => j < k ∧ c.Follows j
  | right c _ _ k _ => k < j ∧ c.Follows j

/-- The node whose child pointer is the hole, or `root` when the hole is the whole tree. -/
def owner (root : A) : Ctx A K V → A
  | top => root
  | left _ a _ _ _ => a
  | right _ a _ _ _ => a

theorem entries_plug (c : Ctx A K V) (t : Tree A K V) : (c.plug t).entries = c.before ++ t.entries ++ c.after := by
  induction c generalizing t with
  | top => simp [plug, before, after]
  | left c a k v r ih => simp [plug, before, after, ih, entries]
  | right c a l k v ih => simp [plug, before, after, ih, entries]

theorem addrs_plug (c : Ctx A K V) (t : Tree A K V) : (c.plug t).addrs.Perm (c.addrs ++ t.addrs) := by
  induction c generalizing t with
  | top => simp [plug, addrs]
  | left c a k v r ih =>
    apply (ih (node a t k v r)).trans
    simp only [Tree.addrs, addrs, List.cons_append]
    refine List.perm_middle.trans (List.Perm.cons a ?_)
    apply (List.perm_append_comm_assoc _ _ _).trans
    exact List.perm_append_comm.trans (List.Perm.append_right _ List.perm_append_comm)
  | right c a l k v ih =>
    apply (ih (node a l k v t)).trans
    simp only [Tree.addrs, addrs, List.cons_append]
    refine List.perm_middle.trans (List.Perm.cons a ?_)
    rw [← List.append_assoc]
    exact List.Perm.append_right _ List.perm_append_comm

theorem mem_addrs_plug {c : Ctx A K V} {t : Tree A K V} {a : A} : a ∈ (c.plug t).addrs ↔ a ∈ c.addrs ∨ a ∈ t.addrs := by
  rw [(addrs_plug c t).mem_iff, List.mem_append]

theorem mem_spine {c : Ctx A K V} {a : A} (member : a ∈ c.spine) : a ∈ c.addrs := by
  induction c with
  | top => cases member
  | left c b k v r ih =>
    simp only [spine, List.mem_append, List.mem_singleton] at member
    simp only [addrs, List.mem_cons, List.mem_append]
    rcases member with outer | rfl
    · exact Or.inr (Or.inr (ih outer))
    · exact Or.inl rfl
  | right c b l k v ih =>
    simp only [spine, List.mem_append, List.mem_singleton] at member
    simp only [addrs, List.mem_cons, List.mem_append]
    rcases member with outer | rfl
    · exact Or.inr (Or.inr (ih outer))
    · exact Or.inl rfl

theorem owner_mem (root : A) (c : Ctx A K V) : c.owner root = root ∧ c = top ∨ c.owner root ∈ c.spine := by
  cases c with
  | top => exact Or.inl ⟨rfl, rfl⟩
  | left c a k v r => exact Or.inr (by simp [owner, spine])
  | right c a l k v => exact Or.inr (by simp [owner, spine])

section
variable [LinearOrder K] {j : K}

theorem path_plug {c : Ctx A K V} (follows : c.Follows j) (t : Tree A K V) :
    (c.plug t).path j = c.spine ++ t.path j := by
  induction c generalizing t with
  | top => rfl
  | left c a k v r ih =>
    rw [plug, ih follows.2, path, if_pos follows.1, spine, List.append_assoc]
    rfl
  | right c a l k v ih =>
    rw [plug, ih follows.2, path, if_neg (not_lt_of_gt follows.1), if_neg follows.1.ne', spine, List.append_assoc]
    rfl

/-- A search that leaves the way to the hole does not see what fills it. -/
theorem path_plug_other {c : Ctx A K V} (leaves : ¬c.Follows j) (t u : Tree A K V) :
    (c.plug t).path j = (c.plug u).path j := by
  induction c generalizing t u with
  | top => exact (leaves trivial).elim
  | left c a k v r ih =>
    by_cases outer : c.Follows j
    · have notLess : ¬j < k := fun less => leaves ⟨less, outer⟩
      rw [plug, plug, path_plug outer, path_plug outer, path, path, if_neg notLess, if_neg notLess]
    · exact ih outer _ _
  | right c a l k v ih =>
    by_cases outer : c.Follows j
    · have notMore : ¬k < j := fun more => leaves ⟨more, outer⟩
      rw [plug, plug, path_plug outer, path_plug outer, path, path]
      by_cases less : j < k
      · rw [if_pos less, if_pos less]
      · have same : j = k := le_antisymm (not_lt.mp notMore) (not_lt.mp less)
        rw [if_neg less, if_neg less, if_pos same, if_pos same]
    · exact ih outer _ _

theorem lookup_plug {c : Ctx A K V} (follows : c.Follows j) (t : Tree A K V) : (c.plug t).lookup j = t.lookup j := by
  induction c generalizing t with
  | top => rfl
  | left c a k v r ih => rw [plug, ih follows.2, lookup, if_pos follows.1]
  | right c a l k v ih =>
    rw [plug, ih follows.2, lookup, if_neg (not_lt_of_gt follows.1), if_neg follows.1.ne']

theorem find_plug {c : Ctx A K V} (follows : c.Follows j) (t : Tree A K V) : (c.plug t).find j = t.find j := by
  induction c generalizing t with
  | top => rfl
  | left c a k v r ih => rw [plug, ih follows.2, find, if_pos follows.1]
  | right c a l k v ih =>
    rw [plug, ih follows.2, find, if_neg (not_lt_of_gt follows.1), if_neg follows.1.ne']

theorem follows_before {c : Ctx A K V} {t : Tree A K V} (ordered : (c.plug t).Ordered) (follows : c.Follows j) :
    (∀ e ∈ c.before, e.1 < j) ∧ ∀ e ∈ c.after, j < e.1 := by
  induction c generalizing t with
  | top => simp [before, after]
  | left c a k v r ih =>
    obtain ⟨low, high⟩ := ih ordered follows.2
    refine ⟨low, ?_⟩
    have sorted := (ordered_iff _).mp ordered
    simp only [plug, keys, entries_plug, entries, List.map_append, List.map_cons] at sorted
    intro e member
    simp only [after, List.mem_cons, List.mem_append] at member
    rcases member with rfl | inRight | inAfter
    · exact follows.1
    · apply lt_trans follows.1
      have part := (List.pairwise_append.mp (List.pairwise_append.mp sorted).1).2.1
      have cons := (List.pairwise_append.mp part).2.1
      exact (List.pairwise_cons.mp cons).1 e.1 (List.mem_map_of_mem inRight)
    · exact high e inAfter
  | right c a l k v ih =>
    obtain ⟨low, high⟩ := ih ordered follows.2
    refine ⟨?_, high⟩
    have sorted := (ordered_iff _).mp ordered
    simp only [plug, keys, entries_plug, entries, List.map_append, List.map_cons] at sorted
    intro e member
    simp only [before, List.mem_append, List.mem_singleton] at member
    rcases member with inBefore | inLeft | rfl
    · exact low e inBefore
    · refine lt_trans ?_ follows.1
      have part := (List.pairwise_append.mp (List.pairwise_append.mp sorted).1).2.1
      exact (List.pairwise_append.mp part).2.2 e.1 (List.mem_map_of_mem inLeft) k List.mem_cons_self
    · exact follows.1

end

end Ctx

/-! ### Removing the root -/

namespace Tree
open Ctx

/-- The address that `removeRoot` no longer uses. -/
def victim : Tree A K V → Option A
  | nil => none
  | node a _ _ _ nil => some a
  | node a nil _ _ _ => some a
  | node _ _ _ _ (node b rl k v rr) => some (popMin b k v rr rl).1

theorem entries_popMin (a : A) (k : K) (v : V) (r l : Tree A K V) :
    (node a l k v r).entries =
      ((popMin a k v r l).2.1, (popMin a k v r l).2.2.1) :: (popMin a k v r l).2.2.2.entries := by
  induction l generalizing a k v r with
  | nil => rfl
  | node a' l' k' v' r' ihl _ =>
    rw [entries, ihl]
    simp [popMin, entries]

theorem addrs_popMin (a : A) (k : K) (v : V) (r l : Tree A K V) :
    (node a l k v r).addrs.Perm ((popMin a k v r l).1 :: (popMin a k v r l).2.2.2.addrs) := by
  induction l generalizing a k v r with
  | nil => exact List.Perm.refl _
  | node a' l' k' v' r' ihl _ =>
    have inner := ihl a' k' v' r'
    simp only [popMin, addrs] at inner ⊢
    apply (List.Perm.cons a (List.Perm.append_right _ inner)).trans
    exact List.Perm.swap _ _ _

theorem popMin_mem_chain (a : A) (k : K) (v : V) (r l : Tree A K V) : (popMin a k v r l).1 ∈ (node a l k v r).chain := by
  induction l generalizing a k v r with
  | nil => simp [popMin, chain]
  | node a' l' k' v' r' ihl _ => exact List.mem_cons_of_mem _ (ihl a' k' v' r')

theorem chain_subset (t : Tree A K V) : ∀ a ∈ t.chain, a ∈ t.addrs := by
  induction t with
  | nil => simp [chain]
  | node b l k v r ihl _ =>
    intro a member
    simp only [chain, List.mem_cons] at member
    simp only [addrs, List.mem_cons, List.mem_append]
    rcases member with rfl | member
    · exact Or.inl rfl
    · exact Or.inr (Or.inl (ihl a member))

theorem removeRoot_noLeft (a : A) (k : K) (v : V) (r : Tree A K V) : (node a nil k v r).removeRoot = r := by
  cases r <;> rfl

theorem removeRoot_both {a b c : A} {ll lr rl rr : Tree A K V} {k lk rk : K} {v lv rv : V} :
    (node a (node c ll lk lv lr) k v (node b rl rk rv rr)).removeRoot =
      node a (node c ll lk lv lr) (popMin b rk rv rr rl).2.1 (popMin b rk rv rr rl).2.2.1 (popMin b rk rv rr rl).2.2.2 := rfl

theorem entries_removeRoot (a : A) (l : Tree A K V) (k : K) (v : V) (r : Tree A K V) :
    (node a l k v r).removeRoot.entries = l.entries ++ r.entries := by
  cases r with
  | nil => simp [removeRoot, entries]
  | node b rl rk rv rr =>
    cases l with
    | nil => simp [removeRoot, entries]
    | node c ll lk lv lr => rw [entries_popMin b rk rv rr rl]; rfl

theorem addrs_removeRoot (a : A) (l : Tree A K V) (k : K) (v : V) (r : Tree A K V) :
    ∃ d, (node a l k v r).victim = some d ∧ (node a l k v r).addrs.Perm (d :: (node a l k v r).removeRoot.addrs) := by
  cases r with
  | nil => exact ⟨a, rfl, by simp [removeRoot, addrs]⟩
  | node b rl rk rv rr =>
    cases l with
    | nil => exact ⟨a, rfl, by simp [removeRoot, addrs]⟩
    | node c ll lk lv lr =>
      refine ⟨_, rfl, ?_⟩
      have inner := addrs_popMin b rk rv rr rl
      rw [removeRoot_both, addrs, addrs]
      apply (List.Perm.cons a (List.Perm.append_left _ inner)).trans
      exact (List.Perm.cons a List.perm_middle).trans (List.Perm.swap _ _ _)

section
variable [LinearOrder K] {j : K} {p : A}

theorem path_subset (t : Tree A K V) : ∀ a ∈ t.path j, a ∈ t.addrs := by
  induction t with
  | nil => simp [path]
  | node b l k v r ihl ihr =>
    intro a member
    simp only [path, List.mem_cons] at member
    simp only [addrs, List.mem_cons, List.mem_append]
    rcases member with rfl | member
    · exact Or.inl rfl
    · split at member
      · exact Or.inr (Or.inl (ihl a member))
      · split at member
        · cases member
        · exact Or.inr (Or.inr (ihr a member))

/-- A search for a key below every key goes along the left children. -/
theorem path_min {a : A} {k : K} {v : V} {r l : Tree A K V} (ordered : (node a l k v r).Ordered)
    (least : j ≤ (popMin a k v r l).2.1) (member : p ∈ (node a l k v r).path j) : p ∈ (node a l k v r).chain := by
  induction l generalizing a k v r with
  | nil =>
    have notMore : ¬k < j := not_lt.mpr least
    rw [path] at member
    by_cases less : j < k
    · simpa [less, path, chain] using member
    · have same : j = k := le_antisymm (not_lt.mp notMore) (not_lt.mp less)
      simpa [same, chain] using member
  | node a' l' k' v' r' ihl _ =>
    obtain ⟨below, _, inner, _⟩ := ordered
    have minMem : (popMin a' k' v' r' l').2.1 ∈ (node a' l' k' v' r').keys := by
      simp [keys, entries_popMin]
    have less : j < k := lt_of_le_of_lt least (below _ minMem)
    rw [path, if_pos less, List.mem_cons] at member
    rw [chain, List.mem_cons]
    rcases member with rfl | member
    · exact Or.inl rfl
    · exact Or.inr (ihl inner least member)

theorem path_popMin {a : A} {k : K} {v : V} {r l : Tree A K V} (more : (popMin a k v r l).2.1 < j)
    (member : p ∈ (node a l k v r).path j) (other : p ≠ (popMin a k v r l).1) : p ∈ (popMin a k v r l).2.2.2.path j := by
  induction l generalizing a k v r with
  | nil =>
    have more : k < j := more
    rw [path, if_neg (not_lt_of_gt more), if_neg more.ne', List.mem_cons] at member
    exact member.resolve_left other
  | node a' l' k' v' r' ihl _ =>
    simp only [popMin] at more other ⊢
    rw [path, List.mem_cons] at member ⊢
    rcases member with rfl | member
    · exact Or.inl rfl
    · right
      by_cases less : j < k
      · rw [if_pos less] at member ⊢
        exact ihl more member other
      · rw [if_neg less] at member ⊢
        exact member

/-- Removing a root that lacks a child keeps every other search under way. -/
theorem path_removeRoot_one {a : A} {l : Tree A K V} {k : K} {v : V} {r : Tree A K V} (one : l = nil ∨ r = nil)
    (member : p ∈ (node a l k v r).path j) (notRoot : p ≠ a) : p ∈ (node a l k v r).removeRoot.path j := by
  rw [path, List.mem_cons] at member
  have member := member.resolve_left notRoot
  cases r with
  | nil =>
    rw [removeRoot]
    by_cases less : j < k
    · rwa [if_pos less] at member
    · rw [if_neg less] at member
      split at member <;> cases member
  | node b rl rk rv rr =>
    obtain rfl : l = nil := by simpa using one
    rw [removeRoot_noLeft]
    by_cases less : j < k
    · rw [if_pos less] at member
      cases member
    · rw [if_neg less] at member
      split at member
      · cases member
      · exact member

/-- Removing a root with two children keeps the searches that are not on the way to its successor. -/
theorem path_removeRoot_two {a : A} {l : Tree A K V} {k : K} {v : V} {r : Tree A K V}
    (ordered : (node a l k v r).Ordered) (both : l ≠ nil ∧ r ≠ nil) (member : p ∈ (node a l k v r).path j)
    (notRoot : p ≠ a) (off : p ∉ r.chain) : p ∈ (node a l k v r).removeRoot.path j := by
  rw [path, List.mem_cons] at member
  have member := member.resolve_left notRoot
  cases r with
  | nil => exact (both.2 rfl).elim
  | node b rl rk rv rr =>
    cases l with
    | nil => exact (both.1 rfl).elim
    | node c ll lk lv lr =>
      obtain ⟨_, above, _, right⟩ := ordered
      have minMem : (popMin b rk rv rr rl).2.1 ∈ (node b rl rk rv rr).keys := by
        simp [keys, entries_popMin]
      have larger := above _ minMem
      rw [removeRoot_both, path, List.mem_cons]
      right
      by_cases less : j < k
      · rw [if_pos less] at member
        rw [if_pos (lt_trans less larger)]
        exact member
      · rw [if_neg less] at member
        by_cases same : j = k
        · rw [if_pos same] at member
          cases member
        · rw [if_neg same] at member
          have more : (popMin b rk rv rr rl).2.1 < j := by
            by_contra least
            exact off (path_min right (not_lt.mp least) member)
          have other : p ≠ (popMin b rk rv rr rl).1 := by
            intro equal
            exact off (equal ▸ popMin_mem_chain b rk rv rr rl)
          rw [if_neg (not_lt_of_gt more), if_neg more.ne']
          exact path_popMin more member other

theorem mem_entries_of_lookup {t : Tree A K V} {v : V} (found : t.lookup j = some v) : (j, v) ∈ t.entries := by
  induction t with
  | nil => cases found
  | node a l k w r ihl ihr =>
    rw [lookup] at found
    rw [entries, List.mem_append, List.mem_cons]
    split at found
    · exact .inl (ihl found)
    · split at found
      · rename_i same
        exact .inr (.inl (by rw [same, Option.some.inj found]))
      · exact .inr (.inr (ihr found))

theorem lookup_eq_some {t : Tree A K V} {v : V} (ordered : t.Ordered) : t.lookup j = some v ↔ (j, v) ∈ t.entries := by
  induction t with
  | nil => simp [lookup, entries]
  | node a l k w r ihl ihr =>
    obtain ⟨below, above, left, right⟩ := ordered
    have inLeft : (j, v) ∈ l.entries → j < k := fun member => below j (mem_keys.mpr ⟨v, member⟩)
    have inRight : (j, v) ∈ r.entries → k < j := fun member => above j (mem_keys.mpr ⟨v, member⟩)
    simp only [lookup, entries, List.mem_append, List.mem_cons, Prod.mk.injEq]
    rcases lt_trichotomy j k with less | rfl | more
    · rw [if_pos less, ihl left]
      have notRight : (j, v) ∉ r.entries := fun member => lt_asymm less (inRight member)
      have different : j ≠ k := ne_of_lt less
      simp [notRight, different]
    · rw [if_neg (lt_irrefl j), if_pos rfl]
      have notLeft : (j, v) ∉ l.entries := fun member => lt_irrefl j (inLeft member)
      have notRight : (j, v) ∉ r.entries := fun member => lt_irrefl j (inRight member)
      simp [notLeft, notRight, eq_comm]
    · rw [if_neg (not_lt_of_gt more), if_neg (ne_of_gt more), ihr right]
      have notLeft : (j, v) ∉ l.entries := fun member => lt_asymm more (inLeft member)
      have different : j ≠ k := ne_of_gt more
      simp [notLeft, different]

/-- A node that a search visits fills a hole that the search comes to. -/
theorem path_ctx {t : Tree A K V} {c : Ctx A K V} (follows : c.Follows j) (member : p ∈ t.path j) :
    ∃ (c' : Ctx A K V) (l : Tree A K V) (k : K) (v : V) (r : Tree A K V),
      c.plug t = c'.plug (node p l k v r) ∧ c'.Follows j := by
  induction t generalizing c with
  | nil => cases member
  | node a l k v r ihl ihr =>
    rw [path, List.mem_cons] at member
    rcases member with rfl | member
    · exact ⟨c, l, k, v, r, rfl, follows⟩
    · by_cases less : j < k
      · rw [if_pos less] at member
        exact ihl (c := c.left a k v r) ⟨less, follows⟩ member
      · rw [if_neg less] at member
        by_cases same : j = k
        · rw [if_pos same] at member
          cases member
        · rw [if_neg same] at member
          have more : k < j := lt_of_le_of_ne (not_lt.mp less) (Ne.symm same)
          exact ihr (c := c.right a l k v) ⟨more, follows⟩ member

/-! ### Changing what fills a hole -/

theorem ordered_insert {c : Ctx A K V} {a : A} {v : V} (ordered : (c.plug nil).Ordered) (follows : c.Follows j) :
    (c.plug (node a nil j v nil)).Ordered := by
  obtain ⟨low, high⟩ := follows_before ordered follows
  rw [ordered_iff, keys, entries_plug] at ordered ⊢
  simp only [entries, List.append_nil, List.nil_append, List.map_append, List.map_cons, List.map_nil,
    List.append_assoc] at ordered ⊢
  obtain ⟨front, back, cross⟩ := List.pairwise_append.mp ordered
  refine List.pairwise_append.mpr ⟨front, List.Pairwise.cons ?_ back, ?_⟩
  · intro k member
    obtain ⟨e, eMem, rfl⟩ := List.mem_map.mp member
    exact high e eMem
  · intro i iMem k kMem
    rcases List.mem_cons.mp kMem with rfl | kMem
    · obtain ⟨e, eMem, rfl⟩ := List.mem_map.mp iMem
      exact low e eMem
    · exact cross i iMem k kMem

theorem ordered_remove {c : Ctx A K V} {a : A} {l r : Tree A K V} {k : K} {v : V}
    (ordered : (c.plug (node a l k v r)).Ordered) : (c.plug (node a l k v r).removeRoot).Ordered := by
  rw [ordered_iff, keys, entries_plug] at ordered ⊢
  refine ordered.sublist ?_
  apply List.Sublist.map
  rw [entries_removeRoot, entries]
  refine List.Sublist.append_right ?_ _
  refine List.Sublist.append_left ?_ _
  exact List.Sublist.append_left (List.sublist_cons_self _ _) _

theorem ordered_plug {c : Ctx A K V} {t : Tree A K V} (ordered : (c.plug t).Ordered) : t.Ordered := by
  rw [ordered_iff, keys, entries_plug] at ordered
  rw [ordered_iff, keys]
  refine ordered.sublist (List.Sublist.map _ ?_)
  exact (List.sublist_append_right _ _).trans (List.sublist_append_left _ _)

theorem lookup_insert {c : Ctx A K V} {a : A} {v : V} (ordered : (c.plug nil).Ordered) (follows : c.Follows j) (i : K) :
    (c.plug (node a nil j v nil)).lookup i = if i = j then some v else (c.plug nil).lookup i := by
  have inserted := ordered_insert (a := a) (v := v) ordered follows
  by_cases same : i = j
  · subst same
    rw [if_pos rfl, lookup_eq_some inserted, entries_plug]
    simp [entries]
  · rw [if_neg same]
    apply Option.ext
    intro w
    rw [lookup_eq_some inserted, lookup_eq_some ordered, entries_plug, entries_plug]
    simp [entries, same]

theorem lookup_remove {c : Ctx A K V} {a : A} {l r : Tree A K V} {v : V} (ordered : (c.plug (node a l j v r)).Ordered)
    (i : K) : (c.plug (node a l j v r).removeRoot).lookup i =
      if i = j then none else (c.plug (node a l j v r)).lookup i := by
  have removed := ordered_remove ordered
  by_cases same : i = j
  · subst same
    rw [if_pos rfl]
    -- The key list is strictly increasing, so the removed key occurs nowhere else in it.
    have sorted := (ordered_iff _).mp ordered
    have split : (c.plug (node a l i v r)).keys =
        (c.before ++ l.entries).map Prod.fst ++ i :: (r.entries ++ c.after).map Prod.fst := by
      simp [keys, entries_plug, entries]
    rw [split] at sorted
    obtain ⟨_, back, cross⟩ := List.pairwise_append.mp sorted
    have above := (List.pairwise_cons.mp back).1
    rw [Option.eq_none_iff_forall_ne_some]
    intro w found
    rw [lookup_eq_some removed, entries_plug, entries_removeRoot] at found
    have key : (i, w) ∈ c.before ++ l.entries ∨ (i, w) ∈ r.entries ++ c.after := by
      rw [← List.mem_append]
      simpa [or_assoc] using found
    rcases key with low | high
    · exact lt_irrefl i (cross i (List.mem_map_of_mem low) i List.mem_cons_self)
    · exact lt_irrefl i (above i (List.mem_map_of_mem high))
  · rw [if_neg same]
    apply Option.ext
    intro w
    rw [lookup_eq_some removed, lookup_eq_some ordered, entries_plug, entries_plug,
      entries_removeRoot, entries]
    simp [same]

end

/-! ### How far a search can still go -/

section
variable [DecidableEq A] {p : A}

/-- The number of nodes under `p`. -/
def under (p : A) : Tree A K V → Nat
  | nil => 0
  | node a l _ _ r => if a = p then l.addrs.length + r.addrs.length else l.under p + r.under p

theorem under_root (a : A) (l : Tree A K V) (k : K) (v : V) (r : Tree A K V) :
    (node a l k v r).under a = l.addrs.length + r.addrs.length := if_pos rfl

theorem under_le (p : A) (t : Tree A K V) : t.under p ≤ t.addrs.length := by
  induction t with
  | nil => exact Nat.le_refl _
  | node a l k v r ihl ihr =>
    simp only [under, addrs, List.length_cons, List.length_append]
    split <;> omega

theorem under_lt {t : Tree A K V} (member : p ∈ t.addrs) : t.under p < t.addrs.length := by
  cases t with
  | nil => cases member
  | node a l k v r =>
    have left := under_le p l
    have right := under_le p r
    simp only [under, addrs, List.length_cons, List.length_append]
    split <;> omega

theorem under_absent {t : Tree A K V} (absent : p ∉ t.addrs) : t.under p = 0 := by
  induction t with
  | nil => rfl
  | node a l k v r ihl ihr =>
    simp only [addrs, List.mem_cons, List.mem_append, not_or] at absent
    rw [under, if_neg (Ne.symm absent.1), ihl absent.2.1, ihr absent.2.2]

theorem under_plug {c : Ctx A K V} (outside : p ∉ c.addrs) (t : Tree A K V) : (c.plug t).under p = t.under p := by
  induction c generalizing t with
  | top => rfl
  | left c a k v r ih =>
    simp only [Ctx.addrs, List.mem_cons, List.mem_append, not_or] at outside
    rw [plug, ih outside.2.2, under, if_neg (Ne.symm outside.1), under_absent outside.2.1, Nat.add_zero]
  | right c a l k v ih =>
    simp only [Ctx.addrs, List.mem_cons, List.mem_append, not_or] at outside
    rw [plug, ih outside.2.2, under, if_neg (Ne.symm outside.1), under_absent outside.2.1, Nat.zero_add]

/-- `t'` has at most `n` nodes more than `t`, as a whole and under each address. -/
def GrowsBy (n : Nat) (t t' : Tree A K V) : Prop := t'.addrs.length ≤ t.addrs.length + n ∧ ∀ p, t'.under p ≤ t.under p + n

theorem GrowsBy.plug {n : Nat} {t t' : Tree A K V} (grows : GrowsBy n t t') (c : Ctx A K V) :
    GrowsBy n (c.plug t) (c.plug t') := by
  induction c generalizing t t' with
  | top => exact grows
  | left c a k v r ih =>
    refine ih ⟨?_, fun p => ?_⟩
    · have size := grows.1
      simp only [addrs, List.length_cons, List.length_append]
      omega
    · have size := grows.1
      have fewer := grows.2 p
      simp only [under]
      split <;> omega
  | right c a l k v ih =>
    refine ih ⟨?_, fun p => ?_⟩
    · have size := grows.1
      simp only [addrs, List.length_cons, List.length_append]
      omega
    · have size := grows.1
      have fewer := grows.2 p
      simp only [under]
      split <;> omega

theorem growsBy_insert (c : Ctx A K V) (a : A) (k : K) (v : V) : GrowsBy 1 (c.plug nil) (c.plug (node a nil k v nil)) := by
  refine GrowsBy.plug ⟨?_, fun p => ?_⟩ c
  · simp [addrs]
  · simp [under, addrs]

theorem growsBy_left (a : A) (l : Tree A K V) (k : K) (v : V) (r : Tree A K V) : GrowsBy 0 (node a l k v r) l := by
  refine ⟨by simp [addrs, Nat.le_succ_of_le], fun p => ?_⟩
  have fewer := under_le p l
  rw [under]
  split <;> omega

theorem growsBy_right (a : A) (l : Tree A K V) (k : K) (v : V) (r : Tree A K V) : GrowsBy 0 (node a l k v r) r := by
  refine ⟨by simp [addrs, Nat.le_succ_of_le], fun p => ?_⟩
  have fewer := under_le p r
  rw [under]
  split <;> omega

theorem growsBy_popMin (a : A) (k : K) (v : V) (r l : Tree A K V) : GrowsBy 0 (node a l k v r) (popMin a k v r l).2.2.2 := by
  induction l generalizing a k v r with
  | nil => exact growsBy_right a nil k v r
  | node a' l' k' v' r' ihl _ => exact (ihl a' k' v' r').plug (Ctx.left .top a k v r)

theorem growsBy_removeRoot (c : Ctx A K V) (a : A) (l : Tree A K V) (k : K) (v : V) (r : Tree A K V) :
    GrowsBy 0 (c.plug (node a l k v r)) (c.plug (node a l k v r).removeRoot) := by
  refine GrowsBy.plug ?_ c
  cases r with
  | nil => exact growsBy_left a l k v nil
  | node b rl rk rv rr =>
    cases l with
    | nil =>
      rw [removeRoot_noLeft]
      exact growsBy_right a nil k v _
    | node d ll lk lv lr =>
      rw [removeRoot_both]
      obtain ⟨size, fewer⟩ := growsBy_popMin b rk rv rr rl
      refine ⟨?_, fun p => ?_⟩
      · simp only [addrs, List.length_cons, List.length_append] at size ⊢
        omega
      · have inRight := fewer p
        simp only [under, addrs, List.length_cons, List.length_append] at size inRight ⊢
        split <;> omega

end

end Tree

end SearchTree
