import Cs1330.Lib.Acyclic
import Cs1330.Db.Nesting

/-!
# Files that name files

What a command does to a tree of words, for every command, response buffer and outcome of `malloc`,
and when it comes to an end: an `f` command does unless a file that it comes to leads back to itself.
-/

namespace Cs1330.Db
open SearchTree SearchTree.Tree Relation

variable {files : CString → Option CString} {len depth depth' : Nat} {command contents response name : CString}
  {s s' : Store} {t : KeyTree}

/-! ### Trees of words -/

/-- A word as `%255s` reads it. -/
structure Word (w : CString) : Prop where
  token : Token w
  short : w.length < maxLen

theorem word_of_scan {input word rest : CString} (scanned : scanWord 255 input = some (word, rest)) : Word word := by
  simp only [scanWord] at scanned
  split at scanned
  · cases scanned
  · rename_i nonempty
    obtain ⟨rfl, _⟩ := Prod.mk.inj (Option.some.inj scanned)
    refine ⟨⟨nonempty, ?_⟩, ?_⟩
    · intro c member
      simpa using List.mem_takeWhile_imp member
    · exact Nat.lt_of_le_of_lt ((List.takeWhile_prefix _).length_le.trans (List.length_take_le _ _)) (by decide)

/-- A search tree whose keys and values are words. -/
structure Filled (s : Store) (t : KeyTree) : Prop extends Shape s t where
  tokens : ∀ e ∈ t.entries, Token e.1 ∧ Token e.2

theorem filled_empty (mallocs : List Bool) : Filled { Store.empty with mallocs := mallocs } .nil :=
  ⟨⟨rfl, trivial, shape_empty.distinct, shape_empty.bound, trivial, shape_empty.short⟩, by simp [entries]⟩

theorem Filled.withOps (filled : Filled s t) (ops : List Op) : Filled (s.withOps ops) t :=
  ⟨filled.toShape.withOps ops, filled.tokens⟩

/-- A call that leaves a tree of words, whatever was recorded before. -/
def Fills {α : Type} (x : DbM α) (s : Store) : Prop := ∃ a s', (∀ ops, Runs x (s.withOps ops) a s') ∧ ∃ t', Filled s' t'

theorem Filled.fills_pure {α : Type} (filled : Filled s t) (a : α) : Fills (pure a : DbM α) s :=
  ⟨a, s, fun _ => Runs.pure _ _, t, filled⟩

/-- The end of a command only makes up the response. -/
theorem Fills.respond {α β : Type} {x : DbM α} {f : α → DbM β} (fills : Fills x s) (responds : ∀ a, ∃ b, f a = pure b) :
    Fills (x >>= f) s := by
  obtain ⟨a, s', run, filled⟩ := fills
  obtain ⟨b, isPure⟩ := responds a
  refine ⟨b, s', fun ops => (run ops).bind fun ops => ?_, filled⟩
  rw [isPure]
  exact Runs.pure _ _

theorem Filled.fills_dbQuery (filled : Filled s t) (key : CString) (len : Nat) : Fills (dbQuery key len) s := by
  obtain ⟨_, _, _, _, run⟩ := filled.toShape.traces_dbQuery key len
  exact ⟨_, s, run.runs, t, filled⟩

theorem Filled.fills_dbAdd {key value : CString} (filled : Filled s t) (keyWord : Word key) (valueWord : Word value) :
    Fills (dbAdd key value) s := by
  obtain ⟨result, s', _, _, _, addition, _, run⟩ := filled.toShape.traces_dbAdd key value
  obtain ⟨_, _, t', shape', lookups⟩ := addition.shape filled.toShape keyWord.short valueWord.short
  refine ⟨result, s', run.runs, t', shape', ?_⟩
  intro e member
  have bound := (lookup_eq_some shape'.ordered).mpr member
  rw [lookups] at bound
  split at bound
  · rename_i added
    rw [added.2, ← Option.some.inj bound]
    exact ⟨keyWord.token, valueWord.token⟩
  · exact filled.tokens e (mem_entries_of_lookup bound)

theorem Filled.fills_dbRemove (filled : Filled s t) (key : CString) : Fills (dbRemove key) s := by
  obtain ⟨s', t', run, shape', _, lookups⟩ := filled.toShape.runs_dbRemove key
  refine ⟨_, s', run, t', shape', ?_⟩
  intro e member
  have bound := (lookup_eq_some shape'.ordered).mpr member
  rw [lookups] at bound
  split at bound
  · cases bound
  · exact filled.tokens e (mem_entries_of_lookup bound)

/-- A command that reads no file makes one call on the tree at most. -/
theorem Filled.fills_unopened (filled : Filled s t) (unopened : opened files command = none) :
    Fills (interpretCommand files len (depth + 1) command) s := by
  cases command with
  | nil => exact filled.fills_pure _
  | cons c rest =>
    rw [interpretCommand]
    by_cases single : (c :: rest).length ≤ 1
    · rw [if_pos single]
      exact filled.fills_pure _
    simp only [if_neg single]
    cases scanned : scanWord 255 rest with
    | none =>
      split_ifs
      · exact filled.fills_pure _
      · exact filled.fills_pure _
      · exact filled.fills_pure _
      · exact filled.fills_pure _
      · exact filled.fills_pure _
    | some word =>
      obtain ⟨name, after⟩ := word
      have isWord := word_of_scan scanned
      by_cases isQuery : c = byte 'q'
      · simp only [if_pos isQuery]
        apply (filled.fills_dbQuery name len).respond
        intro response
        split
        · exact ⟨_, rfl⟩
        · exact ⟨_, rfl⟩
      simp only [if_neg isQuery]
      by_cases isAdd : c = byte 'a'
      · simp only [if_pos isAdd]
        cases scannedValue : scanWord 255 after with
        | none => exact filled.fills_pure _
        | some value =>
          apply (filled.fills_dbAdd isWord (word_of_scan scannedValue)).respond
          intro result
          split
          · exact ⟨_, rfl⟩
          · exact ⟨_, rfl⟩
      simp only [if_neg isAdd]
      by_cases isRemove : c = byte 'd'
      · simp only [if_pos isRemove]
        apply (filled.fills_dbRemove name).respond
        intro result
        split
        · exact ⟨_, rfl⟩
        · exact ⟨_, rfl⟩
      simp only [if_neg isRemove]
      by_cases isFile : c = byte 'f'
      · have nonempty : rest ≠ [] := by
          rintro rfl
          exact single (Nat.le_refl 1)
        have missing : files name = none := by
          simpa only [opened, if_pos (And.intro isFile nonempty), scanned, Option.bind_some] using unopened
        simp only [if_pos isFile, missing]
        exact filled.fills_pure _
      · simp only [if_neg isFile]
        exact filled.fills_pure _

theorem Filled.fills : ∀ {depth : Nat} {command : CString} {s : Store} {t : KeyTree}, Filled s t →
    Nests files depth command → Fills (interpretCommand files len depth command) s := by
  intro depth
  induction depth with
  | zero =>
    intro command s t _ nests
    cases nests
  | succ depth ih =>
    intro command s t filled nests
    cases opens : opened files command with
    | none => exact filled.fills_unopened opens
    | some contents =>
      rw [interpretCommand_opened opens]
      have each : ∀ line ∈ fileLines contents, ∀ {s}, (∃ t, Filled s t) → Fills (interpretCommand files len depth line) s := by
        intro line member s holds
        obtain ⟨t, filled⟩ := holds
        exact ih filled (nests contents opens line member)
      obtain ⟨s', run, filled'⟩ := runs_lines each ⟨t, filled⟩
      exact Fills.respond ⟨_, s', run, filled'⟩ fun _ => ⟨_, rfl⟩

theorem Filled.returns (filled : Filled s t) (nests : Nests files depth command) :
    ∃ response s', interpretCommand files len depth command s = .ok (response, s') ∧ ∃ t', Filled s' t' := by
  obtain ⟨response, s', run, t', filled'⟩ := filled.fills nests
  obtain ⟨ops, ran⟩ := run s.ops
  exact ⟨response, s'.withOps ops, ran, t', filled'.withOps ops⟩

theorem Filled.returned (filled : Filled s t) (run : interpretCommand files len depth command s = .ok (response, s')) :
    ∃ t', Filled s' t' := by
  obtain ⟨response', s'', again, filled'⟩ := filled.returns (nests_of_returns run)
  obtain ⟨_, rfl⟩ := Prod.mk.inj (Except.ok.inj (run.symm.trans again))
  exact filled'

/-- The databases that `interpret_command` can make of the empty one. The files may change from
one command to the next. -/
inductive Reached : Store → Prop
  | empty (mallocs : List Bool) : Reached { Store.empty with mallocs := mallocs }
  | command {s s' : Store} {files : CString → Option CString} {len depth : Nat} {command response : CString} : Reached s →
      interpretCommand files len depth command s = .ok (response, s') → Reached s'

theorem Reached.filled (reached : Reached s) : ∃ t, Filled s t := by
  induction reached with
  | empty mallocs => exact ⟨_, filled_empty mallocs⟩
  | command _ run ih =>
    obtain ⟨t, filled⟩ := ih
    exact filled.returned run

/-! ### When a command comes to an end -/

/-- The name in an `f` command. -/
def named : CString → Option CString
  | [] => none
  | c :: rest => if c = byte 'f' ∧ rest ≠ [] then (scanWord 255 rest).map Prod.fst else none

theorem opened_eq (files : CString → Option CString) (command : CString) :
    opened files command = (named command).bind files := by
  cases command with
  | nil => rfl
  | cons c rest =>
    rw [opened, named]
    split
    · rw [Option.bind_map]
      rfl
    · rfl

/-- On a line of the file `a` stands an `f` command for the file `b`, which is there. -/
def Includes (files : CString → Option CString) (a b : CString) : Prop :=
  files b ≠ none ∧ ∃ contents, files a = some contents ∧ ∃ line ∈ fileLines contents, named line = some b

theorem Nests.mono : ∀ {depth depth' : Nat} {command : CString}, depth ≤ depth' → Nests files depth command →
    Nests files depth' command := by
  intro depth
  induction depth with
  | zero =>
    intro depth' command _ nests
    cases nests
  | succ depth ih =>
    intro depth' command deeper nests
    obtain ⟨depth', rfl⟩ : ∃ k, depth' = k + 1 := ⟨depth' - 1, by omega⟩
    intro contents opens line member
    exact ih (by omega) (nests contents opens line member)

theorem nests_all {lines : List CString} (each : ∀ line ∈ lines, ∃ depth, Nests files depth line) :
    ∃ depth, ∀ line ∈ lines, Nests files depth line := by
  induction lines with
  | nil => exact ⟨0, by simp⟩
  | cons line lines ih =>
    obtain ⟨first, nests⟩ := each line List.mem_cons_self
    obtain ⟨rest, nestsRest⟩ := ih fun line member => each line (List.mem_cons_of_mem _ member)
    refine ⟨max first rest, ?_⟩
    intro l member
    rcases List.mem_cons.mp member with rfl | member
    · exact nests.mono (le_max_left _ _)
    · exact (nestsRest l member).mono (le_max_right _ _)

theorem Nests.acc : ∀ {depth : Nat} {command name : CString}, Nests files depth command → named command = some name →
    Acc (flip (Includes files)) name := by
  intro depth
  induction depth with
  | zero =>
    intro command name nests
    cases nests
  | succ depth ih =>
    intro command name nests isName
    refine Acc.intro name fun b includes => ?_
    obtain ⟨_, contents, found, line, member, isB⟩ := includes
    have opens : opened files command = some contents := by rw [opened_eq, isName, Option.bind_some, found]
    exact ih (nests contents opens line member) isB

theorem nests_of_acc (ends : Acc (flip (Includes files)) name) :
    ∀ contents ∈ files name, ∃ depth, ∀ line ∈ fileLines contents, Nests files depth line := by
  induction ends with
  | intro name _ ih =>
    intro contents found
    apply nests_all
    intro line member
    cases opens : opened files line with
    | none => exact ⟨1, fun contents opened => by cases opens.symm.trans opened⟩
    | some inner =>
      rw [opened_eq] at opens
      obtain ⟨b, isB, foundB⟩ := Option.bind_eq_some_iff.mp opens
      obtain ⟨depth, nests⟩ := ih b ⟨by simp [foundB], contents, found, line, member, isB⟩ inner foundB
      refine ⟨depth + 1, fun contents' opens' => ?_⟩
      rw [opened_eq, opens] at opens'
      obtain rfl := Option.some.inj opens'
      exact nests

/-- No file that the command comes to leads back to itself. -/
def Straight (files : CString → Option CString) (command : CString) : Prop :=
  ∀ name, named command = some name → ∀ b, ReflTransGen (Includes files) name b → ¬TransGen (Includes files) b b

theorem below_finite (finite : {name | files name ≠ none}.Finite) (name : CString) :
    {b | ReflTransGen (Includes files) name b}.Finite := by
  apply (finite.insert name).subset
  intro b below
  rcases ReflTransGen.cases_tail below with rfl | ⟨_, _, there, _⟩
  · exact Set.mem_insert _ _
  · exact Set.mem_insert_of_mem _ there

theorem nests_iff (finite : {name | files name ≠ none}.Finite) (command : CString) :
    (∃ depth, Nests files depth command) ↔ Straight files command := by
  constructor
  · intro ⟨depth, nests⟩ name isName
    exact (acc_iff_no_cycle (below_finite finite name)).mp (nests.acc isName)
  · intro straight
    cases isName : named command with
    | none =>
      refine ⟨1, fun contents opens => ?_⟩
      rw [opened_eq, isName] at opens
      cases opens
    | some name =>
      have ends := (acc_iff_no_cycle (below_finite finite name)).mpr (straight name isName)
      cases found : files name with
      | none =>
        refine ⟨1, fun contents opens => ?_⟩
        rw [opened_eq, isName, Option.bind_some, found] at opens
        cases opens
      | some contents =>
        obtain ⟨depth, nests⟩ := nests_of_acc ends contents found
        refine ⟨depth + 1, fun contents' opens => ?_⟩
        rw [opened_eq, isName, Option.bind_some, found] at opens
        obtain rfl := Option.some.inj opens
        exact nests

/-- Over finitely many files a command returns if and only if it cannot come to a file that leads
back to itself. -/
theorem interpretCommand_returns_iff (finite : {name | files name ≠ none}.Finite) (reached : Reached s) (len : Nat)
    (command : CString) :
    (∃ depth response s', interpretCommand files len depth command s = .ok (response, s')) ↔ Straight files command := by
  rw [← nests_iff finite]
  constructor
  · intro ⟨depth, response, s', run⟩
    exact ⟨depth, nests_of_returns run⟩
  · intro ⟨depth, nests⟩
    obtain ⟨t, filled⟩ := reached.filled
    obtain ⟨response, s', run, _⟩ := filled.returns nests
    exact ⟨depth, response, s', run⟩

/-- A file `x` with one line. -/
def oneFile (line : String) (name : CString) : Option CString := if name = text "x" then some (text line) else none

theorem oneFile_finite (line : String) : {name | oneFile line name ≠ none}.Finite := by
  apply (Set.finite_singleton (text "x")).subset
  intro name there
  by_contra other
  exact there (if_neg other)

theorem interpretCommand_returns_iff_query : Straight (oneFile "q k\n") (text "f x") :=
  (interpretCommand_returns_iff (oneFile_finite "q k\n") (.empty []) maxLen (text "f x")).mp ⟨2, _, _, rfl⟩

/-- The file `x` names itself: the calls nest without a bound. The process runs out of descriptors or of stack, of
which the model has neither. -/
theorem self_naming_file_never_ends : {name | oneFile "f x\n" name ≠ none}.Finite ∧
    ∀ depth response s', interpretCommand (oneFile "f x\n") maxLen depth (text "f x") Store.empty ≠ .ok (response, s') := by
  refine ⟨oneFile_finite "f x\n", ?_⟩
  intro depth response s' run
  have ends := (nests_of_returns run).acc (show named (text "f x") = some (text "x") by decide)
  have includes : Includes (oneFile "f x\n") (text "x") (text "x") :=
    ⟨by decide, text "f x\n", by decide, text "f x\n", by decide, by decide⟩
  exact not_transGen_of_acc ends (.single includes)

end Cs1330.Db
