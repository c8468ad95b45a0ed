import Cs1330.Db.Includes

/-!
# Printing

What `db_print_recurs` writes for a tree, and the locks that it takes on the way. Every command
leaves a tree of words, so the text says where a line ends and what stands on it: trees that print
alike have the same shape and entries.
-/

namespace Cs1330.Db
open SearchTree SearchTree.Tree

variable {s : Store} {t : KeyTree}

/-! ### The text -/

def printed : Nat → KeyTree → CString
  | lvl, .nil => printSpaces lvl ++ text "(null)\n"
  | lvl, .node _ l k v r =>
    printSpaces lvl ++ (k ++ text " " ++ v ++ text "\n") ++ printed (lvl + 1) l ++ printed (lvl + 1) r

/-- The text for the whole database, whose root has no left child. -/
def printedRoot (t : KeyTree) : CString := printSpaces 0 ++ text "(root)\n" ++ printed 1 .nil ++ printed 1 t

/-- What is recorded while a tree is printed. -/
def printOps : KeyTree → List Op
  | .nil => []
  | .node a l _ _ r =>
    .lock .read a :: .read a :: .read a :: .read a :: (printOps l ++ .read a :: (printOps r ++ [.unlock a]))

theorem traces_dbPrintRecurs (t : KeyTree) : ∀ (rounds lvl : Nat), Stored s.nodes t → head ∉ t.addrs →
    t.addrs.length < rounds → Traces (dbPrintRecurs rounds t.ptr lvl) s (printed lvl t) s (printOps t) := by
  induction t with
  | nil =>
    intro rounds lvl _ _ bound
    obtain ⟨rounds, rfl⟩ : ∃ k, rounds = k + 1 := ⟨rounds - 1, by omega⟩
    exact Traces.pure _ _
  | node a l k v r ihl ihr =>
    intro rounds lvl stored notHead bound
    simp only [addrs, List.length_cons, List.length_append] at bound
    simp only [addrs, List.mem_cons, List.mem_append, not_or] at notHead
    obtain ⟨rounds, rfl⟩ : ∃ k, rounds = k + 1 := ⟨rounds - 1, by omega⟩
    obtain ⟨root, left, right⟩ := stored
    have line : Traces (printLine a) s (k ++ text " " ++ v ++ text "\n") s [.read a, .read a] := by
      rw [printLine, if_neg (Ne.symm notHead.1)]
      apply (traces_node root).cons
      exact (traces_node root).cons (Traces.pure _ _)
    rw [ptr, dbPrintRecurs]
    apply (traces_rwlock root).cons
    apply line.bind
    apply (traces_node root).cons
    apply (ihl rounds (lvl + 1) left notHead.2.1 (by omega)).bind
    apply (traces_node root).cons
    apply (ihr rounds (lvl + 1) right notHead.2.2 (by omega)).bind
    exact (traces_unlock root).cons (Traces.pure _ _)

theorem Shape.traces_dbPrintRecurs (shape : Shape s t) : Traces (dbPrintRecurs (s.fresh + 1) (some head) 0) s
    (printedRoot t) s (.lock .read head :: .read head :: .read head :: (printOps t ++ [.unlock head])) := by
  have line : Traces (printLine head) s (text "(root)\n") s [] := by
    rw [printLine, if_pos rfl]
    exact Traces.pure _ _
  have length := shape.length_lt_fresh
  have left : Traces (dbPrintRecurs s.fresh none 1) s (printed 1 .nil) s [] :=
    Db.traces_dbPrintRecurs .nil s.fresh 1 trivial (by simp [addrs]) (Nat.lt_of_le_of_lt (Nat.zero_le _) length)
  rw [dbPrintRecurs]
  apply (traces_rwlock shape.root).cons
  apply line.silent
  apply (traces_node shape.root).cons
  apply left.silent
  apply (traces_node shape.root).cons
  apply (Db.traces_dbPrintRecurs t s.fresh 1 shape.stored shape.head_notMem length).bind
  exact (traces_unlock shape.root).cons (Traces.pure _ _)

/-! ### Reading it back -/

theorem word_cancel {w w' x x' : CString} {c c' : UInt8} (plain : ∀ b ∈ w, isspace b = false)
    (plain' : ∀ b ∈ w', isspace b = false) (space : isspace c = true) (space' : isspace c' = true)
    (equal : w ++ c :: x = w' ++ c' :: x') : w = w' ∧ c = c' ∧ x = x' := by
  induction w generalizing w' with
  | nil =>
    cases w' with
    | nil => exact ⟨rfl, List.cons.inj equal⟩
    | cons b w' =>
      rw [(List.cons.inj equal).1, plain' b List.mem_cons_self] at space
      cases space
  | cons b w ih =>
    cases w' with
    | nil =>
      rw [← (List.cons.inj equal).1, plain b List.mem_cons_self] at space'
      cases space'
    | cons b' w' =>
      obtain ⟨same, rest⟩ := List.cons.inj equal
      obtain ⟨words, others⟩ := ih (fun b member => plain b (List.mem_cons_of_mem _ member))
        (fun b member => plain' b (List.mem_cons_of_mem _ member)) rest
      exact ⟨by rw [same, words], others⟩

theorem printed_nil (lvl : Nat) (rest : CString) :
    printed lvl .nil ++ rest = printSpaces lvl ++ (text "(null)" ++ byte '\n' :: rest) := by
  simp [printed, text]

theorem printed_node (lvl : Nat) (a : NodeId) (l : KeyTree) (k v : CString) (r : KeyTree) (rest : CString) :
    printed lvl (.node a l k v r) ++ rest =
      printSpaces lvl ++ (k ++ byte ' ' :: (v ++ byte '\n' :: (printed (lvl + 1) l ++ (printed (lvl + 1) r ++ rest)))) := by
  simp [printed, text]

/-- The text of a tree of words says what the tree is and where its text ends, whatever comes
behind it. Induction on one of two trees that print alike. -/
theorem printed_cancel {t u : KeyTree} {lvl : Nat} {rest rest' : CString}
    (tokens : ∀ e ∈ t.entries, Token e.1 ∧ Token e.2) (tokens' : ∀ e ∈ u.entries, Token e.1 ∧ Token e.2)
    (equal : printed lvl t ++ rest = printed lvl u ++ rest') : t.content = u.content ∧ rest = rest' := by
  have null : ∀ b ∈ text "(null)", isspace b = false := by decide +kernel
  have newline : isspace (byte '\n') = true := by decide
  have blank : isspace (byte ' ') = true := by decide
  have different : byte '\n' ≠ byte ' ' := by decide
  induction t generalizing u lvl rest rest' with
  | nil =>
    cases u with
    | nil => exact ⟨rfl, List.append_cancel_left equal⟩
    | node b l' k' v' r' =>
      rw [printed_nil, printed_node] at equal
      have key' := (tokens' (k', v') (by simp [entries])).1
      exact absurd (word_cancel null key'.2 newline blank (List.append_cancel_left equal)).2.1 different
  | node a l k v r ihl ihr =>
    obtain ⟨key, value⟩ := tokens (k, v) (by simp [entries])
    cases u with
    | nil =>
      rw [printed_nil, printed_node] at equal
      exact absurd (word_cancel key.2 null blank newline (List.append_cancel_left equal)).2.1.symm different
    | node b l' k' v' r' =>
      obtain ⟨key', value'⟩ := tokens' (k', v') (by simp [entries])
      rw [printed_node, printed_node] at equal
      obtain ⟨rfl, _, equal⟩ := word_cancel key.2 key'.2 blank blank (List.append_cancel_left equal)
      obtain ⟨rfl, _, equal⟩ := word_cancel value.2 value'.2 newline newline equal
      obtain ⟨left, equal⟩ := ihl (fun e member => tokens e (by simp [entries, member]))
        (fun e member => tokens' e (by simp [entries, member])) equal
      obtain ⟨right, equal⟩ := ihr (fun e member => tokens e (by simp [entries, member]))
        (fun e member => tokens' e (by simp [entries, member])) equal
      exact ⟨by rw [content, content, left, right], equal⟩

/-- Two databases that commands have made print, and if they print alike they are the same tree. -/
theorem dbPrintRecurs_faithful {s₁ s₂ : Store} (reached₁ : Reached s₁) (reached₂ : Reached s₂) :
    ∃ t₁ t₂ text₁ text₂ s₁' s₂', Shape s₁ t₁ ∧ Shape s₂ t₂ ∧
      dbPrintRecurs (s₁.fresh + 1) (some head) 0 s₁ = .ok (text₁, s₁') ∧
      dbPrintRecurs (s₂.fresh + 1) (some head) 0 s₂ = .ok (text₂, s₂') ∧
      (text₁ = text₂ → t₁.content = t₂.content) := by
  obtain ⟨t₁, filled₁⟩ := reached₁.filled
  obtain ⟨t₂, filled₂⟩ := reached₂.filled
  refine ⟨t₁, t₂, _, _, _, _, filled₁.toShape, filled₂.toShape, filled₁.toShape.traces_dbPrintRecurs s₁.ops,
    filled₂.toShape.traces_dbPrintRecurs s₂.ops, ?_⟩
  intro equal
  have trees : printed 1 t₁ ++ [] = printed 1 t₂ ++ [] := by
    rw [List.append_nil, List.append_nil]
    exact List.append_cancel_left equal
  exact (printed_cancel filled₁.tokens filled₂.tokens trees).1

/-- A key and a value that look like the lines of the null child and of the root. -/
theorem dbPrintRecurs_faithful_null : ∃ s₁ s₂ added₁ added₂,
    interpretCommand (fun _ => none) maxLen 1 (text "a (null) (root)") Store.empty = .ok (added₁, s₁) ∧
    interpretCommand (fun _ => none) maxLen 1 (text "a (root) (null)") Store.empty = .ok (added₂, s₂) ∧
    ∃ t₁ t₂ text₁ text₂ s₁' s₂', Shape s₁ t₁ ∧ Shape s₂ t₂ ∧
      dbPrintRecurs (s₁.fresh + 1) (some head) 0 s₁ = .ok (text₁, s₁') ∧
      dbPrintRecurs (s₂.fresh + 1) (some head) 0 s₂ = .ok (text₂, s₂') ∧
      (text₁ = text₂ → t₁.content = t₂.content) := by
  have runs : ∀ command ∈ [text "a (null) (root)", text "a (root) (null)"],
      ∃ s added, interpretCommand (fun _ => none) maxLen 1 command Store.empty = .ok (added, s) := by
    simp only [List.forall_mem_cons]
    exact ⟨⟨_, _, rfl⟩, ⟨_, _, rfl⟩, by simp⟩
  obtain ⟨s₁, added₁, run₁⟩ := runs _ List.mem_cons_self
  obtain ⟨s₂, added₂, run₂⟩ := runs (text "a (root) (null)") (by simp)
  exact ⟨s₁, s₂, added₁, added₂, run₁, run₂, dbPrintRecurs_faithful (.command (.empty []) run₁) (.command (.empty []) run₂)⟩

end Cs1330.Db
