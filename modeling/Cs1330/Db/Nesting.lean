import Cs1330.Lib.Run
import Cs1330.Db.Commands

/-!
# Commands from files

An `f` command interprets the lines of a file, which may be `f` commands again. A call of
`interpret_command` on a line that `fgets` delivered returns exactly when this nesting comes to an
end; it then leaves a database of tokens and a response that is one line.
-/

namespace Cs1330.Db

variable {files : CString → Option CString} {len depth : Nat} {command contents response : CString} {s s' : Store}
  {t : KeyTree} {m : Bindings}

/-- The contents of the file that an `f` command reads. -/
def opened (files : CString → Option CString) : CString → Option CString
  | [] => none
  | c :: rest => if c = byte 'f' ∧ rest ≠ [] then (scanWord 255 rest).bind fun word => files word.1 else none

def fileLines (contents : CString) : List CString :=
  (linesOf 256 (contents.length + 1) contents).map fun line => line.takeWhile (· ≠ 0)

/-- The `f` commands from this one on nest less than `depth` deep. -/
def Nests (files : CString → Option CString) : Nat → CString → Prop
  | 0, _ => False
  | depth + 1, command => ∀ contents ∈ opened files command, ∀ line ∈ fileLines contents, Nests files depth line

theorem forIn_lines {α : Type} (xs : List α) (f : α → CString) (body : CString → DbM CString) :
    (forIn xs PUnit.unit fun x _ => do let _ ← body (f x); pure (ForInStep.yield PUnit.unit)) =
      (xs.map f).forM (fun line => do let _ ← body line; return ()) := by
  induction xs with
  | nil => rfl
  | cons x xs ih =>
    rw [List.forIn_cons, List.map_cons]
    change _ = (do let _ ← body (f x); return ()) >>= fun _ => (xs.map f).forM (fun line => do let _ ← body line; return ())
    rw [← ih]
    simp only [bind_assoc, pure_bind]

theorem interpretCommand_opened (opens : opened files command = some contents) :
    interpretCommand files len (depth + 1) command = do
      (fileLines contents).forM (fun line => do let _ ← interpretCommand files len depth line; return ())
      return snprintf len (text "file processed") := by
  cases command with
  | nil => cases opens
  | cons c rest =>
    simp only [opened] at opens
    by_cases isFile : c = byte 'f' ∧ rest ≠ []
    · rw [if_pos isFile] at opens
      obtain ⟨rfl, nonempty⟩ := isFile
      obtain ⟨⟨name, after⟩, scanned, found⟩ := Option.bind_eq_some_iff.mp opens
      have long : ¬(byte 'f' :: rest).length ≤ 1 := by
        rw [List.length_cons]
        have := List.length_pos_iff.mpr nonempty
        omega
      have letters : byte 'f' ≠ byte 'q' ∧ byte 'f' ≠ byte 'a' ∧ byte 'f' ≠ byte 'd' := by decide
      rw [interpretCommand, if_neg long]
      simp only [if_neg letters.1, if_neg letters.2.1, if_neg letters.2.2, scanned, found, ↓reduceIte]
      rw [fileLines, ← forIn_lines]
    · rw [if_neg isFile] at opens
      cases opens

/-! ### A call that returns -/

theorem forM_ok {σ ε α : Type} {xs : List α} {f : α → StateT σ (Except ε) PUnit} :
    ∀ {s s' : σ} {a : PUnit}, xs.forM f s = .ok (a, s') → ∀ x ∈ xs, ∃ b s₁ s₂, f x s₁ = .ok (b, s₂) := by
  induction xs with
  | nil =>
    intro s s' a _ x member
    cases member
  | cons y xs ih =>
    intro s s' a run x member
    obtain ⟨b, s₁, first, rest⟩ := Run.bind run
    rcases List.mem_cons.mp member with rfl | later
    · exact ⟨b, s, s₁, first⟩
    · exact ih rest x later

theorem nests_of_returns : ∀ {depth : Nat} {command : CString} {s s' : Store} {response : CString},
    interpretCommand files len depth command s = .ok (response, s') → Nests files depth command := by
  intro depth
  induction depth with
  | zero =>
    intro command s s' response run
    cases run
  | succ depth ih =>
    intro command s s' response run contents opens line member
    rw [interpretCommand_opened opens] at run
    obtain ⟨_, _, looped, _⟩ := Run.bind run
    obtain ⟨_, _, _, one⟩ := forM_ok looped line member
    obtain ⟨_, _, interpreted, _⟩ := Run.bind one
    exact ih interpreted

/-! ### What a call leaves -/

/-- A response that reaches the client as one line. -/
structure Reply (response : CString) : Prop where
  nonempty : response ≠ []
  plain : byte '\n' ∉ response
  noNul : 0 ∉ response
  short : response.length ≤ 255

instance (response : CString) : Decidable (Reply response) :=
  decidable_of_iff (response ≠ [] ∧ byte '\n' ∉ response ∧ 0 ∉ response ∧ response.length ≤ 255)
    ⟨fun ⟨a, b, c, d⟩ => ⟨a, b, c, d⟩, fun ⟨a, b, c, d⟩ => ⟨a, b, c, d⟩⟩

/-- The store holds a map to C strings that are tokens. -/
structure Serving (s : Store) (t : KeyTree) (m : Bindings) : Prop extends Holds s t m where
  noNul : ∀ k v, m k = some v → 0 ∉ v

theorem Serving.reply_answer (serving : Serving s t m) (command : Command) : Reply (answer m command) := by
  cases command with
  | query key =>
    rw [answer]
    cases bound : m key with
    | none => decide
    | some v =>
      have token := serving.tokens key v bound
      have entry := (SearchTree.Tree.lookup_eq_some serving.shape.ordered).mp ((serving.lookup key).trans bound)
      refine ⟨token.1, ?_, serving.noNul key v bound, Nat.le_of_lt_succ (serving.shape.short _ entry).2⟩
      intro member
      cases token.2 _ member
  | add key value =>
    rw [answer]
    split
    · decide
    · decide
  | remove key =>
    rw [answer]
    split
    · decide
    · decide
  | illFormed =>
    rw [answer]
    decide

theorem firstWord_noNul {rest : CString} (noNul : 0 ∉ rest) : 0 ∉ firstWord rest := by
  intro member
  exact noNul ((List.dropWhile_suffix _).subset ((List.takeWhile_prefix _).subset member))

theorem afterWord_noNul {rest : CString} (noNul : 0 ∉ rest) : 0 ∉ afterWord rest := by
  intro member
  exact noNul ((List.dropWhile_suffix _).subset ((List.dropWhile_suffix _).subset member))

theorem parse_noNul {key value : CString} (noNul : 0 ∉ command) (parsed : parse command = .add key value) : 0 ∉ value := by
  cases command with
  | nil => cases parsed
  | cons c rest =>
    have restNoNul : 0 ∉ rest := fun member => noNul (List.mem_cons_of_mem c member)
    simp only [parse] at parsed
    split_ifs at parsed
    obtain ⟨_, rfl⟩ := Command.add.inj parsed
    exact firstWord_noNul (afterWord_noNul restNoNul)

/-- The words of a command have no NUL, so neither have the values it adds. -/
theorem effect_noNul (noNul : 0 ∉ command) (values : ∀ k v, m k = some v → 0 ∉ v) :
    ∀ k v, effect m (parse command) k = some v → 0 ∉ v := by
  intro k v bound
  cases parsed : parse command with
  | query key =>
    rw [parsed] at bound
    exact values k v bound
  | illFormed =>
    rw [parsed] at bound
    exact values k v bound
  | add key value =>
    rw [parsed, effect] at bound
    split at bound
    · rw [Function.update_apply] at bound
      split at bound
      · rw [← Option.some.inj bound]
        exact parse_noNul noNul parsed
      · exact values k v bound
    · exact values k v bound
  | remove key =>
    rw [parsed, effect, Function.update_apply] at bound
    split at bound
    · cases bound
    · exact values k v bound

/-- The commands that neither reach the database nor read a file. -/
theorem interpretCommand_message (depth : Nat) (unopened : opened files command = none) (other : ∀ rest, command ≠ byte 'q' :: rest ∧
    command ≠ byte 'a' :: rest ∧ command ≠ byte 'd' :: rest) :
    ∃ response, Reply response ∧ interpretCommand files maxLen (depth + 1) command = pure response := by
  have illFormed : Reply (snprintf maxLen (text "ill-formed command")) := by decide
  cases command with
  | nil => exact ⟨_, illFormed, rfl⟩
  | cons c rest =>
    obtain ⟨notQ, notA, notD⟩ := other rest
    have notQ : c ≠ byte 'q' := fun same => notQ (by rw [same])
    have notA : c ≠ byte 'a' := fun same => notA (by rw [same])
    have notD : c ≠ byte 'd' := fun same => notD (by rw [same])
    rw [interpretCommand]
    by_cases single : (c :: rest).length ≤ 1
    · rw [if_pos single]
      exact ⟨_, illFormed, rfl⟩
    · simp only [if_neg single, if_neg notQ, if_neg notA, if_neg notD]
      by_cases isFile : c = byte 'f'
      · have nonempty : rest ≠ [] := by
          rintro rfl
          exact single (Nat.le_refl 1)
        simp only [opened, if_pos (And.intro isFile nonempty)] at unopened
        simp only [if_pos isFile]
        cases scanned : scanWord 255 rest with
        | none => exact ⟨_, illFormed, rfl⟩
        | some word =>
          rw [scanned] at unopened
          have missing : files word.1 = none := unopened
          simp only [missing]
          exact ⟨snprintf maxLen (text "bad file name"), by decide, rfl⟩
      · simp only [if_neg isFile]
        exact ⟨_, illFormed, rfl⟩

/-! ### The lines of a file -/

theorem linesOf_length {size n : Nat} {line : CString} :
    ∀ {input : CString}, line ∈ linesOf size n input → line.length ≤ size - 1 := by
  induction n with
  | zero =>
    intro input member
    cases member
  | succ n ih =>
    intro input member
    cases input with
    | nil => cases member
    | cons c input =>
      rcases List.mem_cons.mp member with rfl | later
      · exact fgets_length size (c :: input)
      · exact ih later

theorem fileLines_short {line : CString} (member : line ∈ fileLines contents) : line.length ≤ 255 ∧ 0 ∉ line := by
  obtain ⟨raw, inFile, rfl⟩ := List.mem_map.mp member
  constructor
  · exact Nat.le_trans (List.takeWhile_prefix _).length_le (linesOf_length inFile)
  · intro nul
    simpa using List.mem_takeWhile_imp nul

/-! ### Every call that can return does -/

/-- What a call of `interpret_command` does to a store, whatever was locked before. -/
def Serves (x : DbM CString) (s : Store) : Prop :=
  ∃ response s' t' m', (∀ ops, Runs x (s.withOps ops) response s') ∧ Serving s' t' m' ∧ Reply response

/-- The loop over the lines of a file keeps what each of its calls keeps. -/
theorem runs_lines {Inv : Store → Prop} {lines : List CString} {x : CString → DbM CString}
    (each : ∀ line ∈ lines, ∀ {s}, Inv s → ∃ response s', (∀ ops, Runs (x line) (s.withOps ops) response s') ∧ Inv s') :
    ∀ {s}, Inv s → ∃ s', (∀ ops, Runs (lines.forM fun line => do let _ ← x line; return ()) (s.withOps ops) PUnit.unit s') ∧
      Inv s' := by
  induction lines with
  | nil =>
    intro s holds
    exact ⟨s, fun ops => Runs.pure _ _, holds⟩
  | cons line lines ih =>
    intro s holds
    obtain ⟨response, s₁, run, holds₁⟩ := each line List.mem_cons_self holds
    obtain ⟨s', rest, holds'⟩ := ih (fun line member => each line (List.mem_cons_of_mem _ member)) holds₁
    refine ⟨s', fun ops => ?_, holds'⟩
    have first : Runs (do let _ ← x line; return PUnit.unit) (s.withOps ops) PUnit.unit s₁ :=
      (run ops).bind fun ops => Runs.pure _ _
    exact first.bind fun ops => rest ops

theorem Serving.serves : ∀ {depth : Nat} {command : CString} {s : Store} {t : KeyTree} {m : Bindings}, Serving s t m →
    command.length ≤ 255 → 0 ∉ command → Nests files depth command → Serves (interpretCommand files maxLen depth command) s := by
  intro depth
  induction depth with
  | zero =>
    intro command s t m _ _ _ nests
    cases nests
  | succ depth ih =>
    intro command s t m serving short noNul nests
    cases opens : opened files command with
    | some contents =>
      rw [interpretCommand_opened opens]
      have each : ∀ line ∈ fileLines contents, ∀ {s}, (∃ t m, Serving s t m) → ∃ response s',
          (∀ ops, Runs (interpretCommand files maxLen depth line) (s.withOps ops) response s') ∧ ∃ t' m', Serving s' t' m' := by
        intro line member s holds
        obtain ⟨t, m, serving⟩ := holds
        obtain ⟨short, noNul⟩ := fileLines_short member
        obtain ⟨response, s', t', m', run, serving', _⟩ := ih serving short noNul (nests contents opens line member)
        exact ⟨response, s', run, t', m', serving'⟩
      obtain ⟨s', run, t', m', serving'⟩ := runs_lines each ⟨t, m, serving⟩
      refine ⟨_, s', t', m', fun ops => ?_, serving', show Reply (snprintf maxLen (text "file processed")) by decide⟩
      exact (run ops).bind fun ops => Runs.pure _ _
    | none =>
      by_cases plain : Plain command
      · obtain ⟨s', t', run, holds⟩ := serving.toHolds.runs_interpretCommand files depth plain
        exact ⟨_, s', t', _, run, ⟨holds, effect_noNul noNul serving.noNul⟩, serving.reply_answer _⟩
      · obtain ⟨response, reply, isMessage⟩ := interpretCommand_message depth opens (by
          intro rest
          refine ⟨?_, ?_, ?_⟩ <;> rintro rfl
          · exact plain ⟨short, _, rest, rfl, .inl rfl⟩
          · exact plain ⟨short, _, rest, rfl, .inr (.inl rfl)⟩
          · exact plain ⟨short, _, rest, rfl, .inr (.inr rfl)⟩)
        rw [isMessage]
        exact ⟨response, s, t, m, fun ops => Runs.pure _ _, serving, reply⟩

theorem Serving.withOps (serving : Serving s t m) (ops : List Op) : Serving (s.withOps ops) t m :=
  ⟨⟨serving.shape.withOps ops, serving.mallocs, serving.lookup, serving.tokens⟩, serving.noNul⟩

theorem Serving.returns (serving : Serving s t m) (short : command.length ≤ 255) (noNul : 0 ∉ command)
    (nests : Nests files depth command) : ∃ response s', interpretCommand files maxLen depth command s = .ok (response, s') ∧
      Reply response ∧ ∃ t' m', Serving s' t' m' := by
  obtain ⟨response, s', t', m', run, serving', reply⟩ := serving.serves short noNul nests
  obtain ⟨ops, ran⟩ := run s.ops
  exact ⟨response, s'.withOps ops, ran, reply, t', m', serving'.withOps ops⟩

theorem Serving.returned (serving : Serving s t m) (short : command.length ≤ 255) (noNul : 0 ∉ command)
    (run : interpretCommand files maxLen depth command s = .ok (response, s')) :
    Reply response ∧ ∃ t' m', Serving s' t' m' := by
  obtain ⟨response', s'', again, reply, serving'⟩ := serving.returns short noNul (nests_of_returns run)
  obtain ⟨rfl, rfl⟩ := Prod.mk.inj (Except.ok.inj (run.symm.trans again))
  exact ⟨reply, serving'⟩

theorem serving_empty : Serving Store.empty .nil fun _ => none :=
  ⟨holds_empty, fun _ _ impossible => by cases impossible⟩

theorem Serving.interpretAll {commands : List CString} : ∀ {s s' : Store} {t : KeyTree} {m : Bindings}
    {responses : List CString}, Serving s t m → (∀ command ∈ commands, command.length ≤ 255 ∧ 0 ∉ command) →
      interpretAll files maxLen depth commands s = .ok (responses, s') → ∃ t' m', Serving s' t' m' := by
  induction commands with
  | nil =>
    intro s s' t m responses serving _ run
    cases run
    exact ⟨t, m, serving⟩
  | cons command commands ih =>
    intro s s' t m responses serving short run
    obtain ⟨response, s₁, first, run⟩ := Run.bind run
    obtain ⟨rest, s₂, later, run⟩ := Run.bind run
    obtain ⟨_, rfl⟩ := Run.pure run
    obtain ⟨fits, noNul⟩ := short command List.mem_cons_self
    obtain ⟨_, t₁, m₁, serving₁⟩ := serving.returned fits noNul first
    exact ih serving₁ (fun command member => short command (List.mem_cons_of_mem _ member)) later

end Cs1330.Db
