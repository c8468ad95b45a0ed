import Mathlib.Data.List.Nodup

/-!
# Doubly linked lists

`Chain next prev before xs after`: the cells `xs` follow one another along `next` and back along
`prev`, from `before` to `after`. A whole list is a chain from `none` to `none`. A cell is added in
front or taken out anywhere by changing the links of its neighbours only.
-/

namespace Links

variable {ι : Type} {next prev next' prev' : ι → Option ι} {before after : Option ι} {x : ι} {xs ys : List ι}

def Chain (next prev : ι → Option ι) : Option ι → List ι → Option ι → Prop
  | _, [], _ => True
  | before, x :: xs, after => prev x = before ∧ next x = xs.head?.or after ∧ Chain next prev (some x) xs after

theorem chain_append : Chain next prev before (xs ++ ys) after ↔
    Chain next prev before xs (ys.head?.or after) ∧ Chain next prev (xs.getLast?.or before) ys after := by
  induction xs generalizing before with
  | nil => simp [Chain]
  | cons x xs ih =>
    have last : (x :: xs).getLast?.or before = xs.getLast?.or (some x) := by
      cases xs with
      | nil => rfl
      | cons y ys => simp [List.getLast?_cons]
    have first : (xs ++ ys).head?.or after = xs.head?.or (ys.head?.or after) := by
      rw [List.head?_append, Option.or_assoc]
    simp only [List.cons_append, Chain, ih, last, first]
    tauto

theorem Chain.congr (chain : Chain next prev before xs after) (forward : ∀ y ∈ xs, next' y = next y)
    (back : ∀ y ∈ xs, prev' y = prev y) : Chain next' prev' before xs after := by
  induction xs generalizing before with
  | nil => trivial
  | cons x xs ih =>
    obtain ⟨isPrev, isNext, rest⟩ := chain
    refine ⟨(back x List.mem_cons_self).trans isPrev, (forward x List.mem_cons_self).trans isNext, ih rest ?_ ?_⟩
    · exact fun y member => forward y (List.mem_cons_of_mem _ member)
    · exact fun y member => back y (List.mem_cons_of_mem _ member)

/-- The same cells with another successor behind the last. -/
theorem Chain.retarget_end {target : Option ι} (chain : Chain next prev before xs after) (back : ∀ y ∈ xs, prev' y = prev y)
    (forward : ∀ y ∈ xs, y ∉ xs.getLast? → next' y = next y) (last : ∀ y ∈ xs.getLast?, next' y = target)
    (distinct : xs.Nodup) : Chain next' prev' before xs target := by
  induction xs generalizing before with
  | nil => trivial
  | cons x xs ih =>
    obtain ⟨isPrev, isNext, rest⟩ := chain
    obtain ⟨fresh, distinct⟩ := List.nodup_cons.mp distinct
    refine ⟨(back x List.mem_cons_self).trans isPrev, ?_, ?_⟩
    · cases xs with
      | nil => simpa using last x
      | cons y ys =>
        refine (forward x List.mem_cons_self ?_).trans isNext
        intro isLast
        rw [List.getLast?_cons_cons] at isLast
        exact fresh (List.mem_of_getLast? isLast)
    · cases xs with
      | nil => trivial
      | cons y ys =>
        rw [List.getLast?_cons_cons] at forward last
        exact ih rest (fun z member => back z (List.mem_cons_of_mem _ member))
          (fun z member => forward z (List.mem_cons_of_mem _ member)) last distinct

/-- The same cells with another predecessor in front of the first. -/
theorem Chain.retarget_start {source : Option ι} (chain : Chain next prev before xs after)
    (forward : ∀ y ∈ xs, next' y = next y) (back : ∀ y ∈ xs, y ∉ xs.head? → prev' y = prev y)
    (first : ∀ y ∈ xs.head?, prev' y = source) (distinct : xs.Nodup) : Chain next' prev' source xs after := by
  cases xs with
  | nil => trivial
  | cons x xs =>
    obtain ⟨_, isNext, rest⟩ := chain
    have fresh := (List.nodup_cons.mp distinct).1
    refine ⟨first x rfl, (forward x List.mem_cons_self).trans isNext, rest.congr ?_ ?_⟩
    · exact fun y member => forward y (List.mem_cons_of_mem _ member)
    · intro y member
      apply back y (List.mem_cons_of_mem _ member)
      intro isFirst
      obtain rfl := Option.some.inj isFirst
      exact fresh member

theorem Chain.neighbours (chain : Chain next prev none (xs ++ x :: ys) none) :
    prev x = xs.getLast? ∧ next x = ys.head? := by
  obtain ⟨_, isPrev, isNext, _⟩ := chain_append.mp chain
  simpa using And.intro isPrev isNext

theorem Chain.push (chain : Chain next prev none xs none) (distinct : xs.Nodup) (isPrev : prev' x = none)
    (isNext : next' x = xs.head?) (first : ∀ y ∈ xs.head?, prev' y = some x) (forward : ∀ y ∈ xs, next' y = next y)
    (back : ∀ y ∈ xs, y ∉ xs.head? → prev' y = prev y) : Chain next' prev' none (x :: xs) none :=
  ⟨isPrev, by simpa using isNext, chain.retarget_start forward back first distinct⟩

/-- Taking out a cell: its neighbours are linked to each other. -/
theorem Chain.unlink (chain : Chain next prev none (xs ++ x :: ys) none) (distinct : (xs ++ x :: ys).Nodup)
    (first : ∀ y ∈ next x, prev' y = prev x) (last : ∀ y ∈ prev x, next' y = next x)
    (back : ∀ y ∈ xs ++ ys, y ∉ next x → prev' y = prev y) (forward : ∀ y ∈ xs ++ ys, y ∉ prev x → next' y = next y) :
    Chain next' prev' none (xs ++ ys) none := by
  obtain ⟨isPrev, isNext⟩ := chain.neighbours
  rw [isNext] at first last back
  rw [isPrev] at first last forward
  obtain ⟨front, _, _, rest⟩ := chain_append.mp chain
  obtain ⟨frontDistinct, restDistinct, apart⟩ := List.nodup_append.mp distinct
  refine chain_append.mpr ⟨?_, ?_⟩
  · refine front.retarget_end ?_ ?_ ?_ frontDistinct
    · intro y member
      apply back y (List.mem_append_left _ member)
      intro isFirst
      exact apart y member y (List.mem_cons_of_mem _ (List.mem_of_head? isFirst)) rfl
    · exact fun y member => forward y (List.mem_append_left _ member)
    · simpa using last
  · refine rest.retarget_start ?_ ?_ ?_ (List.nodup_cons.mp restDistinct).2
    · intro y member
      apply forward y (List.mem_append_right _ member)
      intro isLast
      exact apart y (List.mem_of_getLast? isLast) y (List.mem_cons_of_mem _ member) rfl
    · exact fun y member => back y (List.mem_append_right _ member)
    · simpa using first

end Links
