import Mathlib.Data.Fintype.Card
import Mathlib.Data.Set.Finite.Basic
import Mathlib.Logic.Relation
import Mathlib.Tactic.Common

/-!
# Descents without an end

From a place with finitely many places below it every descent ends if and only if none of these
places lies below itself.
-/

namespace Relation

variable {α : Type} {r : α → α → Prop} {a b : α}

theorem not_self_of_acc (ends : Acc r a) : ¬r a a := by
  induction ends with
  | intro a _ ih => exact fun self => ih a self self

theorem not_transGen_of_acc (ends : Acc (flip r) a) : ¬TransGen r a a :=
  fun cycle => not_self_of_acc ends.transGen (transGen_swap.mpr cycle)

theorem acc_of_reflTransGen (ends : Acc (flip r) a) (below : ReflTransGen r a b) : Acc (flip r) b := by
  induction below with
  | refl => exact ends
  | tail _ step ih => exact ih.inv step

theorem acc_of_no_cycle (finite : {b | ReflTransGen r a b}.Finite) (acyclic : ∀ b, ReflTransGen r a b → ¬TransGen r b b) :
    Acc (flip r) a := by
  have : Finite {b // ReflTransGen r a b} := finite.to_subtype
  let under (x y : {b // ReflTransGen r a b}) : Prop := TransGen r y.1 x.1
  have : IsTrans _ under := ⟨fun _ _ _ first second => second.trans first⟩
  have : Std.Irrefl under := ⟨fun x => acyclic x.1 x.2⟩
  have founded : WellFounded under := Finite.wellFounded_of_trans_of_irrefl under
  have all : ∀ x : {b // ReflTransGen r a b}, Acc (flip r) x.1 := by
    intro x
    induction x using founded.induction with
    | _ x ih => exact Acc.intro _ fun b step => ih ⟨b, x.2.tail step⟩ (.single step)
  exact all ⟨a, .refl⟩

theorem acc_iff_no_cycle (finite : {b | ReflTransGen r a b}.Finite) :
    Acc (flip r) a ↔ ∀ b, ReflTransGen r a b → ¬TransGen r b b :=
  ⟨fun ends _ below => not_transGen_of_acc (acc_of_reflTransGen ends below), acc_of_no_cycle finite⟩

end Relation
