import Mathlib.Combinatorics.SimpleGraph.Acyclic

/-!
# Growing trees

A tree grows by edges to vertices that have none: such an edge closes no cycle and connects the
new vertex to everything that its other end is connected to.
-/

namespace SimpleGraph

variable {V : Type} {G : SimpleGraph V} {a b v : V}

theorem not_reachable_of_isolated (different : a ≠ b) (isolated : ∀ c, ¬G.Adj b c) : ¬G.Reachable a b := by
  rintro ⟨walk⟩
  cases walk.reverse with
  | nil => exact different rfl
  | cons adjacent _ => exact isolated _ adjacent

theorem IsAcyclic.sup_pendant (acyclic : G.IsAcyclic) (different : a ≠ b) (isolated : ∀ c, ¬G.Adj b c) :
    (G ⊔ edge a b).IsAcyclic :=
  acyclic.sup_edge_of_not_reachable (not_reachable_of_isolated different isolated)

theorem reachable_sup_pendant (different : a ≠ b) (linked : G.Reachable v a) : (G ⊔ edge a b).Reachable v b := by
  have adjacent : (G ⊔ edge a b).Adj a b := Or.inr ((edge_adj _ _ _ _).mpr ⟨Or.inl ⟨rfl, rfl⟩, different⟩)
  exact (linked.mono le_sup_left).trans adjacent.reachable

end SimpleGraph
