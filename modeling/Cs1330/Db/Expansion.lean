import Cs1330.Db.Includes

/-!
# A file stands for its lines

An `f` command does to the map what the lines of its file do when they are typed, the lines of the
files named there in their place. Together with the atomic commands this is all of the language.
-/

namespace Cs1330.Db

variable {files : CString → Option CString} {depth : Nat} {command contents : CString} {commands : List CString}
  {s : Store} {t : KeyTree} {m : Bindings}

/-- The commands that stand on a line and, file by file, below it. -/
def expand (files : CString → Option CString) : Nat → CString → List CString
  | 0, _ => []
  | depth + 1, command =>
    match opened files command with
    | none => [command]
    | some contents => (fileLines contents).flatMap (expand files depth)

def reply (files : CString → Option CString) (m : Bindings) (command : CString) : CString :=
  match opened files command with
  | some _ => text "file processed"
  | none =>
    match named command with
    | some _ => text "bad file name"
    | none => answer m (parse command)

def replies (files : CString → Option CString) (depth : Nat) : Bindings → List CString → List CString
  | _, [] => []
  | m, command :: commands => reply files m command :: replies files depth (bindings m (expand files depth command)) commands

instance decidableNests (files : CString → Option CString) : ∀ depth command, Decidable (Nests files depth command)
  | 0, _ => isFalse id
  | depth + 1, command =>
    match opens : opened files command with
    | none => isTrue fun contents opened => by cases opens.symm.trans opened
    | some contents =>
      have := decidableNests files depth
      decidable_of_iff (∀ line ∈ fileLines contents, Nests files depth line)
        ⟨fun each contents' opened => by rwa [← Option.some.inj (opens.symm.trans opened)],
          fun nests => nests contents opens⟩

theorem bindings_append (m : Bindings) (first second : List CString) :
    bindings m (first ++ second) = bindings (bindings m first) second :=
  List.foldl_append

theorem Nests.expand_eq : ∀ {depth depth' : Nat} {command : CString}, Nests files depth command → depth ≤ depth' →
    expand files depth' command = expand files depth command := by
  intro depth
  induction depth with
  | zero =>
    intro depth' command nests _
    cases nests
  | succ depth ih =>
    intro depth' command nests deeper
    obtain ⟨depth', rfl⟩ : ∃ k, depth' = k + 1 := ⟨depth' - 1, by omega⟩
    rw [expand, expand]
    cases opens : opened files command with
    | none => rfl
    | some contents =>
      apply List.flatMap_congr
      intro line member
      exact ih (nests contents opens line member) (by omega)

theorem replies_append (files : CString → Option CString) (depth : Nat) (m : Bindings) (first second : List CString) :
    replies files depth m (first ++ second) =
      replies files depth m first ++ replies files depth (bindings m (first.flatMap (expand files depth))) second := by
  induction first generalizing m with
  | nil => rfl
  | cons command first ih =>
    rw [List.cons_append, replies, ih, replies, List.flatMap_cons, bindings_append, List.cons_append]

theorem replies_length (files : CString → Option CString) (depth : Nat) (m : Bindings) (commands : List CString) :
    (replies files depth m commands).length = commands.length := by
  induction commands generalizing m with
  | nil => rfl
  | cons command commands ih => rw [replies, List.length_cons, List.length_cons, ih]

theorem named_eq_none {c : UInt8} {rest : CString} (other : c ≠ byte 'f') : named (c :: rest) = none :=
  if_neg fun both => other both.1

/-- A command that is neither atomic nor a file to read says so, and the words in it do nothing. -/
theorem interpretCommand_other (depth : Nat) (short : command.length ≤ 255) (unopened : opened files command = none)
    (other : ¬Plain command) :
    interpretCommand files maxLen (depth + 1) command = pure (reply files m command) ∧ parse command = .illFormed := by
  cases command with
  | nil => exact ⟨rfl, rfl⟩
  | cons c rest =>
    have letters : c ≠ byte 'q' ∧ c ≠ byte 'a' ∧ c ≠ byte 'd' := by
      refine ⟨?_, ?_, ?_⟩ <;> rintro rfl
      · exact other ⟨short, _, rest, rfl, .inl rfl⟩
      · exact other ⟨short, _, rest, rfl, .inr (.inl rfl)⟩
      · exact other ⟨short, _, rest, rfl, .inr (.inr rfl)⟩
    obtain ⟨notQ, notA, notD⟩ := letters
    have parsed : parse (c :: rest) = .illFormed := by
      rw [parse, if_neg notQ, if_neg notA, if_neg notD, ite_self]
    refine ⟨?_, parsed⟩
    simp only [reply, unopened, parsed, answer]
    rw [interpretCommand]
    by_cases isFile : c = byte 'f'
    · by_cases empty : rest = []
      · rw [empty, isFile]
        rfl
      have long : ¬(c :: rest).length ≤ 1 := by
        have := List.length_pos_iff.mpr empty
        rw [List.length_cons]
        omega
      simp only [opened, if_pos (And.intro isFile empty)] at unopened
      simp only [named, if_pos (And.intro isFile empty), if_neg long, if_neg notQ, if_neg notA, if_neg notD, if_pos isFile]
      cases scanned : scanWord 255 rest with
      | none => rfl
      | some word =>
        rw [scanned] at unopened
        have missing : files word.1 = none := unopened
        simp only [missing]
        rfl
    · simp only [named_eq_none isFile, if_neg notQ, if_neg notA, if_neg notD, if_neg isFile, ite_self]
      rfl

theorem named_plain (plain : Plain command) : named command = none := by
  obtain ⟨_, c, rest, rfl, letter⟩ := plain
  apply named_eq_none
  rintro rfl
  revert letter
  decide

/-! ### One command -/

/-- The call answers `response` and takes the map from `m` to `m'`. -/
def Maps (x : DbM CString) (s : Store) (response : CString) (m' : Bindings) : Prop :=
  ∃ s' t', (∀ ops, Runs x (s.withOps ops) response s') ∧ Holds s' t' m'

/-- The lines of a file one after another, each from the map that those before it left. -/
theorem maps_lines {x : CString → DbM CString} {below : CString → List CString} {lines : List CString}
    (each : ∀ line ∈ lines, ∀ {s t m}, Holds s t m →
      ∃ response, Maps (x line) s response (bindings m (below line))) :
    ∀ {s t m}, Holds s t m →
      ∃ s' t', (∀ ops, Runs (lines.forM fun line => do let _ ← x line; return ()) (s.withOps ops) PUnit.unit s') ∧
        Holds s' t' (bindings m (lines.flatMap below)) := by
  induction lines with
  | nil =>
    intro s t m holds
    exact ⟨s, t, fun ops => Runs.pure _ _, holds⟩
  | cons line lines ih =>
    intro s t m holds
    obtain ⟨response, s₁, t₁, run, holds₁⟩ := each line List.mem_cons_self holds
    obtain ⟨s', t', rest, holds'⟩ := ih (fun line member => each line (List.mem_cons_of_mem _ member)) holds₁
    rw [List.flatMap_cons, bindings_append]
    refine ⟨s', t', fun ops => ?_, holds'⟩
    have first : Runs (do let _ ← x line; return PUnit.unit) (s.withOps ops) PUnit.unit s₁ :=
      (run ops).bind fun ops => Runs.pure _ _
    exact first.bind fun ops => rest ops

theorem Holds.maps_unopened (holds : Holds s t m) (depth : Nat) (short : command.length ≤ 255)
    (unopened : opened files command = none) :
    Maps (interpretCommand files maxLen (depth + 1) command) s (reply files m command) (effect m (parse command)) := by
  by_cases plain : Plain command
  · obtain ⟨s', t', run, holds'⟩ := holds.runs_interpretCommand files depth plain
    have isAnswer : reply files m command = answer m (parse command) := by
      simp only [reply, unopened, named_plain plain]
    rw [isAnswer]
    exact ⟨s', t', run, holds'⟩
  · obtain ⟨isReply, parsed⟩ := interpretCommand_other (m := m) depth short unopened plain
    rw [isReply, parsed]
    exact ⟨s, t, fun ops => Runs.pure _ _, holds⟩

theorem Holds.maps : ∀ {depth : Nat} {command : CString} {s : Store} {t : KeyTree} {m : Bindings}, Holds s t m →
    command.length ≤ 255 → Nests files depth command →
      Maps (interpretCommand files maxLen depth command) s (reply files m command)
        (bindings m (expand files depth command)) := by
  intro depth
  induction depth with
  | zero =>
    intro command s t m _ _ nests
    cases nests
  | succ depth ih =>
    intro command s t m holds short nests
    cases opens : opened files command with
    | none =>
      rw [expand, opens]
      exact holds.maps_unopened depth short opens
    | some contents =>
      have each : ∀ line ∈ fileLines contents, ∀ {s t m}, Holds s t m →
          ∃ response, Maps (interpretCommand files maxLen depth line) s response (bindings m (expand files depth line)) := by
        intro line member s t m holds
        exact ⟨_, ih holds (fileLines_short member).1 (nests contents opens line member)⟩
      obtain ⟨s', t', run, holds'⟩ := maps_lines each holds
      rw [interpretCommand_opened opens, expand, opens]
      simp only [reply, opens]
      exact ⟨s', t', fun ops => (run ops).bind fun ops => Runs.pure _ _, holds'⟩

/-! ### Sessions -/

theorem Holds.runs_session : ∀ {commands : List CString} {s : Store} {t : KeyTree} {m : Bindings}, Holds s t m →
    (∀ command ∈ commands, command.length ≤ 255 ∧ Nests files depth command) →
      ∃ s' t', (∀ ops,
          Runs (interpretAll files maxLen depth commands) (s.withOps ops) (replies files depth m commands) s') ∧
        Holds s' t' (bindings m (commands.flatMap (expand files depth))) := by
  intro commands
  induction commands with
  | nil =>
    intro s t m holds _
    exact ⟨s, t, fun ops => Runs.pure _ _, holds⟩
  | cons command commands ih =>
    intro s t m holds each
    obtain ⟨short, nests⟩ := each command List.mem_cons_self
    obtain ⟨s₁, t₁, run, holds₁⟩ := holds.maps short nests
    obtain ⟨s', t', rest, holds'⟩ := ih holds₁ fun command member => each command (List.mem_cons_of_mem _ member)
    rw [List.flatMap_cons, bindings_append]
    refine ⟨s', t', fun ops => ?_, holds'⟩
    exact (run ops).bind fun ops => (rest ops).bind fun ops => Runs.pure _ _

/-- Every command of a session that has come to its end did so itself. -/
theorem nests_of_interpretAll : ∀ {commands : List CString} {s s' : Store} {responses : List CString},
    interpretAll files maxLen depth commands s = .ok (responses, s') → ∀ command ∈ commands, Nests files depth command := by
  intro commands
  induction commands with
  | nil =>
    intro s s' responses _ command member
    cases member
  | cons first commands ih =>
    intro s s' responses run command member
    obtain ⟨response, s₁, now, run⟩ := Run.bind run
    obtain ⟨rest, s₂, later, _⟩ := Run.bind run
    rcases List.mem_cons.mp member with rfl | member
    · exact nests_of_returns now
    · exact ih later command member

/-- Commands of which none comes to a file that leads back to itself leave the map that the atomic
commands on their lines leave, in the order in which the files name them. -/
theorem interpretAll_expands (finite : {name | files name ≠ none}.Finite)
    (short : ∀ command ∈ commands, command.length ≤ 255)
    (straight : ∀ command ∈ commands, Straight files command) :
    ∃ enough, ∀ depth, enough ≤ depth → ∃ s' t,
      interpretAll files maxLen depth commands Store.empty = .ok (replies files depth (fun _ => none) commands, s') ∧
      Shape s' t ∧ ∀ key, t.lookup key = bindings (fun _ => none) (commands.flatMap (expand files depth)) key := by
  have each : ∀ command ∈ commands, ∃ depth, Nests files depth command := fun command member =>
    (nests_iff finite command).mpr (straight command member)
  obtain ⟨enough, nests⟩ := nests_all each
  refine ⟨enough, fun depth deep => ?_⟩
  obtain ⟨s', t, run, holds⟩ := holds_empty.runs_session fun command member =>
    ⟨short command member, (nests command member).mono deep⟩
  obtain ⟨ops, ran⟩ := run []
  exact ⟨s'.withOps ops, t, ran, holds.shape.withOps ops, holds.lookup⟩

/-- The file `x` has three lines, of which the second names the file `y`. -/
def twoFiles (name : CString) : Option CString :=
  if name = text "x" then some (text "a k 1\nf y\na k 3\n")
  else if name = text "y" then some (text "d k\na k 2")
  else none

theorem interpretAll_expands_nested : ∃ enough, ∀ depth, enough ≤ depth → ∃ s' t,
    interpretAll twoFiles maxLen depth [text "f x", text "q k"] Store.empty =
      .ok (replies twoFiles depth (fun _ => none) [text "f x", text "q k"], s') ∧
    Shape s' t ∧ ∀ key, t.lookup key =
      bindings (fun _ => none) ([text "f x", text "q k"].flatMap (expand twoFiles depth)) key := by
  have finite : {name | twoFiles name ≠ none}.Finite := by
    apply (Set.toFinite {text "x", text "y"}).subset
    intro name there
    by_contra other
    simp only [Set.mem_insert_iff, Set.mem_singleton_iff, not_or] at other
    exact there (by rw [twoFiles, if_neg other.1, if_neg other.2])
  apply interpretAll_expands finite
  · decide
  · intro command member
    rcases List.mem_pair.mp member with rfl | rfl
    · exact (nests_iff finite _).mp ⟨3, by decide +kernel⟩
    · exact (nests_iff finite _).mp ⟨1, by decide +kernel⟩

example : replies twoFiles 3 (fun _ => none) [text "f x", text "f z", text "q k"] =
    [text "file processed", text "bad file name", text "2"] := by
  decide +kernel

end Cs1330.Db
