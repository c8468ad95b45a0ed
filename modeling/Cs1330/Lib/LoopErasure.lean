import Cs1330.Lib.Graph
import Mathlib.Logic.Relation

/-!
# Tours and loop erasure

A tour is a walk each of whose steps goes to a vertex for the first time, or back over the step by
which the vertex was first entered. These first steps are the edges of a tree, so that erasing the
loops of a tour gives the same path in whatever order they are erased.
-/

namespace LoopErasure

variable {α : Type} {R S : α → α → Prop} {walk walk' path before : List α} {a b x y : α}

/-- The first occurrence of `b` is the one right after this occurrence of `a`. -/
def Entered (walk : List α) (a b : α) : Prop := ∃ before after, walk = before ++ a :: b :: after ∧ b ∉ before ++ [a]

/-- A tour whose steps to new vertices are in `R`. -/
inductive Tour (R : α → α → Prop) : List α → Prop
  | start (a : α) : Tour R [a]
  | enter {before : List α} {a b : α} : Tour R (before ++ [a]) → R a b → b ∉ before ++ [a] → Tour R (before ++ [a] ++ [b])
  | back {before : List α} {a b : α} : Tour R (before ++ [a]) → Entered (before ++ [a]) b a → Tour R (before ++ [a] ++ [b])

/-! ### First steps -/

theorem Entered.append (entered : Entered walk a b) (later : List α) : Entered (walk ++ later) a b := by
  obtain ⟨before, after, rfl, new⟩ := entered
  exact ⟨before, after ++ later, by simp, new⟩

theorem entered_new (new : b ∉ before ++ [a]) : Entered (before ++ [a] ++ [b]) a b :=
  ⟨before, [], by simp, new⟩

theorem Entered.mem (entered : Entered walk a b) : a ∈ walk ∧ b ∈ walk := by
  obtain ⟨before, after, rfl, _⟩ := entered
  simp

theorem Entered.ne (entered : Entered walk a b) : a ≠ b := by
  obtain ⟨before, after, rfl, new⟩ := entered
  rintro rfl
  simp at new

/-- The last step is a first step, or all first steps were there before. -/
theorem entered_concat (entered : Entered (before ++ [a] ++ [b]) x y) :
    Entered (before ++ [a]) x y ∨ x = a ∧ y = b ∧ b ∉ before ++ [a] := by
  obtain ⟨earlier, after, split, new⟩ := entered
  rcases List.eq_nil_or_concat after with rfl | ⟨after, last, rfl⟩
  · have parts : before ++ [a] ++ [b] = (earlier ++ [x]) ++ [y] := by rw [split]; simp
    obtain ⟨same, isLast⟩ := List.append_inj' parts rfl
    obtain ⟨_, isNext⟩ := List.append_inj' same rfl
    obtain rfl := List.singleton_inj.mp isLast
    obtain rfl := List.singleton_inj.mp isNext
    exact .inr ⟨rfl, rfl, by rw [same]; exact new⟩
  · have parts : before ++ [a] ++ [b] = (earlier ++ x :: y :: after) ++ [last] := by rw [split]; simp
    obtain ⟨same, _⟩ := List.append_inj' parts rfl
    exact .inl ⟨earlier, after, same, new⟩

theorem not_entered_start : ¬Entered [a] x y := by
  rintro ⟨earlier, after, split, _⟩
  have count := congrArg List.length split
  simp at count
  omega

theorem Tour.entered (tour : Tour R walk) : Entered walk x y → R x y := by
  induction tour with
  | start a => exact fun entered => absurd entered not_entered_start
  | enter _ step _ ih =>
    intro entered
    rcases entered_concat entered with earlier | ⟨rfl, rfl, _⟩
    · exact ih earlier
    · exact step
  | back _ first ih =>
    intro entered
    rcases entered_concat entered with earlier | ⟨_, rfl, new⟩
    · exact ih earlier
    · exact absurd first.mem.1 new

/-- Each step of a tour is a first step, or goes back over one. -/
theorem Tour.isChain (tour : Tour R walk) : walk.IsChain fun a b => Entered walk a b ∨ Entered walk b a := by
  have widen : ∀ {walk : List α} (later : List α), walk.IsChain (fun a b => Entered walk a b ∨ Entered walk b a) →
      walk.IsChain fun a b => Entered (walk ++ later) a b ∨ Entered (walk ++ later) b a := by
    intro walk later chain
    apply chain.imp
    rintro a b (first | first)
    · exact .inl (first.append later)
    · exact .inr (first.append later)
  induction tour with
  | start a => exact .singleton a
  | enter _ _ new ih =>
    refine List.isChain_append.mpr ⟨widen _ ih, .singleton _, ?_⟩
    intro x isLast y isFirst
    obtain rfl : x = _ := by simpa using isLast.symm
    obtain rfl : y = _ := by simpa using isFirst.symm
    exact .inl (entered_new new)
  | back _ first ih =>
    refine List.isChain_append.mpr ⟨widen _ ih, .singleton _, ?_⟩
    intro x isLast y isFirst
    obtain rfl : x = _ := by simpa using isLast.symm
    obtain rfl : y = _ := by simpa using isFirst.symm
    exact .inr (first.append _)

/-! ### The tree of first steps -/

def treeOf (walk : List α) : SimpleGraph α where
  Adj a b := Entered walk a b ∨ Entered walk b a
  symm.symm _ _ := Or.symm
  loopless.irrefl _ := by
    rintro (entered | entered)
    · exact entered.ne rfl
    · exact entered.ne rfl

theorem treeOf_enter (new : b ∉ before ++ [a]) : treeOf (before ++ [a] ++ [b]) = treeOf (before ++ [a]) ⊔ SimpleGraph.edge a b := by
  ext x y
  constructor
  · rintro (entered | entered)
    · rcases entered_concat entered with earlier | ⟨rfl, rfl, _⟩
      · exact .inl (.inl earlier)
      · exact .inr ((SimpleGraph.edge_adj _ _ _ _).mpr ⟨.inl ⟨rfl, rfl⟩, entered.ne⟩)
    · rcases entered_concat entered with earlier | ⟨rfl, rfl, _⟩
      · exact .inl (.inr earlier)
      · exact .inr ((SimpleGraph.edge_adj _ _ _ _).mpr ⟨.inr ⟨rfl, rfl⟩, entered.ne.symm⟩)
  · rintro ((entered | entered) | added)
    · exact .inl (entered.append [b])
    · exact .inr (entered.append [b])
    · rcases ((SimpleGraph.edge_adj _ _ _ _).mp added).1 with ⟨rfl, rfl⟩ | ⟨rfl, rfl⟩
      · exact .inl (entered_new new)
      · exact .inr (entered_new new)

theorem treeOf_back (old : b ∈ before ++ [a]) : treeOf (before ++ [a] ++ [b]) = treeOf (before ++ [a]) := by
  have same : ∀ x y, Entered (before ++ [a] ++ [b]) x y ↔ Entered (before ++ [a]) x y := by
    intro x y
    constructor
    · intro entered
      rcases entered_concat entered with earlier | ⟨_, _, new⟩
      · exact earlier
      · exact absurd old new
    · exact fun entered => entered.append [b]
  ext x y
  exact or_congr (same x y) (same y x)

theorem Tour.isAcyclic (tour : Tour R walk) : (treeOf walk).IsAcyclic := by
  induction tour with
  | start a =>
    have empty : treeOf [a] = ⊥ := by
      ext x y
      simp [treeOf, not_entered_start]
    rw [empty]
    exact SimpleGraph.isAcyclic_bot
  | @enter before a b _ _ new ih =>
    rw [treeOf_enter new]
    apply ih.sup_pendant
    · rintro rfl
      simp at new
    · rintro c (entered | entered)
      · exact new entered.mem.1
      · exact new entered.mem.2
  | back _ first ih =>
    rw [treeOf_back first.mem.1]
    exact ih

/-! ### Erasing loops -/

/-- The segment between two occurrences of a vertex is deleted. -/
inductive Erases : List α → List α → Prop
  | segment (before : List α) (a : α) (loop after : List α) : Erases (before ++ a :: loop ++ a :: after) (before ++ a :: after)

/-- Segments are deleted until no vertex occurs twice. -/
def Erasure (walk path : List α) : Prop := Relation.ReflTransGen Erases walk path ∧ path.Nodup

theorem Erases.length_lt (erases : Erases walk walk') : walk'.length < walk.length := by
  cases erases with
  | segment before a loop after =>
    simp only [List.length_append, List.length_cons]
    omega

theorem Erases.isChain (erases : Erases walk walk') (chain : walk.IsChain S) : walk'.IsChain S := by
  cases erases with
  | segment before a loop after =>
    rw [List.append_assoc] at chain
    obtain ⟨first, second, joint⟩ := List.isChain_append.mp chain
    refine List.isChain_append.mpr ⟨first, (List.isChain_append.mp second).2.1, ?_⟩
    intro x isLast y isFirst
    exact joint x isLast y (by simpa using isFirst)

theorem Erases.ends (erases : Erases walk walk') : walk'.head? = walk.head? ∧ walk'.getLast? = walk.getLast? := by
  cases erases with
  | segment before a loop after =>
    constructor
    · cases before <;> simp
    · rw [List.getLast?_append_cons, List.getLast?_append_cons]

theorem exists_loop (twice : ¬walk.Nodup) : ∃ walk', Erases walk walk' := by
  induction walk with
  | nil => exact absurd List.nodup_nil twice
  | cons x rest ih =>
    by_cases again : x ∈ rest
    · obtain ⟨loop, after, rfl⟩ := List.append_of_mem again
      exact ⟨_, .segment [] x loop after⟩
    · obtain ⟨rest', erases⟩ := ih fun distinct => twice (List.nodup_cons.mpr ⟨again, distinct⟩)
      cases erases with
      | segment before a loop after => exact ⟨_, .segment (x :: before) a loop after⟩

theorem exists_erasure (walk : List α) : ∃ path, Erasure walk path := by
  induction count : walk.length using Nat.strong_induction_on generalizing walk with
  | _ n ih =>
    subst count
    by_cases distinct : walk.Nodup
    · exact ⟨walk, .refl, distinct⟩
    · obtain ⟨walk', erases⟩ := exists_loop distinct
      obtain ⟨path, erasure, simple⟩ := ih _ erases.length_lt walk' rfl
      exact ⟨path, .head erases erasure, simple⟩

theorem erased_isChain (erased : Relation.ReflTransGen Erases walk path) (chain : walk.IsChain S) : path.IsChain S := by
  induction erased with
  | refl => exact chain
  | tail _ erases ih => exact erases.isChain ih

theorem erased_ends (erased : Relation.ReflTransGen Erases walk path) :
    path.head? = walk.head? ∧ path.getLast? = walk.getLast? := by
  induction erased with
  | refl => exact ⟨rfl, rfl⟩
  | tail _ erases ih => exact ⟨erases.ends.1.trans ih.1, erases.ends.2.trans ih.2⟩

theorem simple_unique {G : SimpleGraph α} (acyclic : G.IsAcyclic) {path path' : List α} (chain : path.IsChain G.Adj)
    (chain' : path'.IsChain G.Adj) (simple : path.Nodup) (simple' : path'.Nodup) (first : path.head? = path'.head?)
    (last : path.getLast? = path'.getLast?) : path = path' := by
  by_cases empty : path = []
  · rw [empty] at first ⊢
    exact (List.head?_eq_none_iff.mp first.symm).symm
  · have nonempty : path' ≠ [] := by
      rintro rfl
      exact empty (List.head?_eq_none_iff.mp first)
    have starts : path.head empty = path'.head nonempty := by
      rw [List.head?_eq_some_head empty, List.head?_eq_some_head nonempty] at first
      exact Option.some.inj first
    have stops : path.getLast empty = path'.getLast nonempty := by
      rw [List.getLast?_eq_some_getLast empty, List.getLast?_eq_some_getLast nonempty] at last
      exact Option.some.inj last
    let p := (SimpleGraph.Walk.ofSupport path empty chain).copy starts stops
    let p' := SimpleGraph.Walk.ofSupport path' nonempty chain'
    have support : p.support = path := by simp [p]
    have support' : p'.support = path' := SimpleGraph.Walk.support_ofSupport nonempty chain'
    have isPath : p.IsPath := SimpleGraph.Walk.IsPath.mk' (by rw [support]; exact simple)
    have isPath' : p'.IsPath := SimpleGraph.Walk.IsPath.mk' (by rw [support']; exact simple')
    have same := (acyclic.subsingleton_path _ _).elim ⟨p, isPath⟩ ⟨p', isPath'⟩
    calc
      path = p.support := support.symm
      _ = p'.support := congrArg (fun q : G.Path _ _ => q.1.support) same
      _ = path' := support'

/-- The loops of a tour can be erased in any order: the result is the simple path over first steps. -/
theorem Tour.erasure_iff (tour : Tour R walk) (simple : path.Nodup) (steps : path.IsChain (Entered walk))
    (first : path.head? = walk.head?) (last : path.getLast? = walk.getLast?) (path' : List α) :
    Erasure walk path' ↔ path' = path := by
  have unique : ∀ path', Erasure walk path' → path' = path := by
    rintro path' ⟨erased, simple'⟩
    obtain ⟨starts, stops⟩ := erased_ends erased
    exact simple_unique tour.isAcyclic (erased_isChain erased tour.isChain) (steps.imp fun _ _ => Or.inl) simple' simple
      (starts.trans first.symm) (stops.trans last.symm)
  constructor
  · exact unique path'
  · rintro rfl
    obtain ⟨other, erasure⟩ := exists_erasure walk
    rw [← unique other erasure]
    exact erasure

end LoopErasure
