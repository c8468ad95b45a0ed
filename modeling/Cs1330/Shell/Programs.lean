import Cs1330.Shell.Refusals

/-!
# What a program is started with

A child is what its calls leave in it up to `execv`: the file descriptors, its process group, the
terminal, its signals. A well-formed line gives its program exactly the files that it names.
-/

namespace Cs1330.Shell

open Run (Keeps)

inductive Description where
  /-- what the shell has at this descriptor -/
  | inherited (fd : Nat)
  | opened (path : CString) (mode : OpenMode)
  deriving DecidableEq, Repr

/-- A forked process; `fds` holds what its descriptors refer to, from 0 on. -/
structure Child where
  fds : List (Option Description)
  ownGroup : Bool := false
  terminal : Bool := false
  defaultSignals : Bool := false
  /-- the file and the arguments passed to `execv` -/
  program : Option (CString × List CString) := none
  errors : List CString := []
  exited : Option Int := none
  deriving DecidableEq, Repr

/-- `open` takes the lowest descriptor that is free. -/
def openLowest (fds : List (Option Description)) (d : Description) : List (Option Description) :=
  match fds.findIdx? Option.isNone with
  | some fd => fds.set fd (some d)
  | none => fds ++ [some d]

/-- A call that succeeds; what a failed one leaves is never used, because `exit` follows. -/
def Child.perform (c : Child) : ChildCall → Child
  | .setpgid => { c with ownGroup := true }
  | .tcsetpgrp _ => { c with terminal := true }
  | .close fd => { c with fds := c.fds.set fd.toNat none }
  | .openFile (some path) mode => { c with fds := openLowest c.fds (.opened path mode) }
  -- `open` of `NULL` fails
  | .openFile none _ => c
  | .defaultSignals => { c with defaultSignals := true }
  | .execv path args => { c with program := some (path, args) }
  | .print _ line => { c with errors := c.errors ++ [line] }
  | .exit code => { c with exited := some code }

def Child.run (c : Child) (calls : List ChildCall) : Child := calls.foldl Child.perform c

/-- The descriptors with the files of the redirections at 0 and 1. -/
def redirected (fds : List (Option Description)) (inp : Option CString) (out : Option (Bool × CString)) :
    List (Option Description) :=
  let fds := match inp with
    | some f => fds.set 0 (some (.opened f .read))
    | none => fds
  match out with
  | some (append, g) => fds.set 1 (some (.opened g (if append then .append else .truncate)))
  | none => fds

/-- The first redirection whose file cannot be opened, with the words of `strerror`. -/
def refused (inp : Option CString) (out : Option (Bool × CString)) (answers : ChildAnswers) : Option (CString × CString) :=
  match inp, answers.input with
  | some f, some error => some (f, error)
  | _, _ =>
    match out, answers.output with
    | some (_, g), some error => some (g, error)
    | _, _ => none

variable {items : List Item} {ws : List CString} {inp : Option CString} {out : Option (Bool × CString)} {p : Parser}
  {name line : CString} {s s' : State} {u : Unit} {answers : Answers} {d₀ d₁ : Description}
  {rest : List (Option Description)}

/-- What the shell intends a child to be when it calls `execv`. -/
def Child.intended (fds : List (Option Description)) (background : Bool) (inp : Option CString)
    (out : Option (Bool × CString)) (name : CString) (args : List CString) : Child :=
  { fds := redirected fds inp out, ownGroup := true, terminal := !background, defaultSignals := true,
    program := some (name, args) }

/-- What has become of a child behind its last call: it is as intended, and gone if `execv` failed, or
it has reported the file that cannot be opened and has not called `execv`. -/
def Child.Started (c : Child) (fds : List (Option Description)) (background : Bool) (inp : Option CString)
    (out : Option (Bool × CString)) (name : CString) (args : List CString) (answers : ChildAnswers) : Prop :=
  match refused inp out answers with
  | none =>
    c = match answers.execv with
      | none => Child.intended fds background inp out name args
      | some error =>
        { Child.intended fds background inp out name args with
          errors := [perrorText (some (text "execv")) error], exited := some 1 }
  | some (file, error) => c.program = none ∧ c.errors = [perrorText (some file) error] ∧ c.exited = some 1

theorem childCalls_started (same : p.forget = First.Parser.redirected ws inp out) (background : Bool)
    (flag : p.isBgJob = if background then 1 else 0) (pid : Int) (answers : ChildAnswers) :
    (Child.run { fds := some d₀ :: some d₁ :: rest } (childCalls p name pid answers)).Started
      (some d₀ :: some d₁ :: rest) background inp out name ws answers := by
  have args : p.args = ws := congrArg First.Parser.args same
  have inputRedir : p.inputRedir = if inp.isSome then 1 else 0 := congrArg First.Parser.inputRedir same
  have outputRedir : p.outputRedir = (First.Parser.redirected ws inp out).outputRedir := congrArg First.Parser.outputRedir same
  have inputFile : p.inputFile = inp := congrArg First.Parser.inputFile same
  have outputFile : p.outputFile = out.map Prod.snd := congrArg First.Parser.outputFile same
  obtain ⟨noInput, noOutput, noExecv⟩ := answers
  unfold childCalls
  rw [args, inputRedir, outputRedir, inputFile, outputFile, flag]
  cases inp with
  | none =>
    cases out with
    | none => cases background <;> cases noInput <;> cases noOutput <;> cases noExecv <;> rfl
    | some file =>
      obtain ⟨append, g⟩ := file
      cases noOutput with
      | none => cases background <;> cases append <;> cases noInput <;> cases noExecv <;> rfl
      | some error => cases background <;> cases append <;> cases noInput <;> exact ⟨rfl, rfl, rfl⟩
  | some f =>
    cases noInput with
    | some error =>
      cases out with
      | none => cases background <;> exact ⟨rfl, rfl, rfl⟩
      | some file =>
        obtain ⟨append, g⟩ := file
        cases background <;> cases append <;> exact ⟨rfl, rfl, rfl⟩
    | none =>
      cases out with
      | none => cases background <;> cases noOutput <;> cases noExecv <;> rfl
      | some file =>
        obtain ⟨append, g⟩ := file
        cases noOutput with
        | none => cases background <;> cases append <;> cases noExecv <;> rfl
        | some error => cases background <;> cases append <;> exact ⟨rfl, rfl, rfl⟩

def Call.NoFork (call : Call) : Prop := ∀ pid calls, call ≠ .fork pid calls

/-- A line of words and redirections starts its first word as a program with all the words as
arguments, in its own process group, in the terminal unless it is a background job, and with the
files of the redirections, and no others, at the descriptors 0 and 1; a file that cannot be opened
is reported and the program is not started. -/
theorem launched_program {final : Bool} (arranged : Arranged items (name :: ws) inp out)
    (each : ∀ item ∈ items, IsWord item.operand) (few : ws.length < 99) (toks : tokens line = lineTokens items final)
    (program : name ∉ builtins) (forks : answers.forked ≠ -1) (run : executeCommand line answers s = .ok (u, s')) :
    ∃ child after, s'.trace = s.trace ++ .fork answers.forked child :: after ∧ (∀ pid calls, .fork pid calls ∉ after) ∧
      ∀ d₀ d₁ rest, (Child.run { fds := some d₀ :: some d₁ :: rest } child).Started
        (some d₀ :: some d₁ :: rest) final inp out name (name :: ws) answers.child := by
  obtain ⟨p, parsed, same, flag⟩ := parse_lineTokens arranged each (Nat.succ_lt_succ few) toks
  have args : p.args = name :: ws := congrArg First.Parser.args same
  have silent : p.messages = [] := congrArg First.Parser.messages same
  unfold executeCommand at run
  obtain ⟨q, s₁, parses, goes⟩ := Run.bind run
  obtain rfl := Except.ok.inj ((parse_ok parses).symm.trans parsed)
  have start : s₁ = s := by
    unfold parse at parses
    rw [parsed] at parses
    simp only [silent] at parses
    cases parses
    rfl
  rw [start] at goes
  simp only [args] at goes
  obtain ⟨_, s₂, launched, checked⟩ := Run.bind goes
  rw [runCommand_program program] at launched
  unfold launch at launched
  obtain ⟨_, s₃, forked, later⟩ := Run.bind launched
  have trace : s₃.trace = s.trace ++ [.fork answers.forked (childCalls q name answers.forked answers.child)] := by
    unfold fork at forked
    obtain ⟨_, _, got, forked⟩ := Run.bind forked
    cases got
    rw [if_neg forks] at forked
    split at forked <;> cases forked
    rfl
  have prints : ∀ stream line, Call.NoFork (.print stream line) := fun _ _ _ _ => Call.noConfusion
  have waits : ∀ target options result, Call.NoFork (.waitpid target options result) := fun _ _ _ _ _ => Call.noConfusion
  have terminal : ∀ group, Call.NoFork (.tcsetpgrp group) := fun _ _ _ => Call.noConfusion
  have second : Adds Call.NoFork s₃ s₂ := by
    split at later
    · obtain ⟨_, s₄, waited, later⟩ := Run.bind later
      obtain ⟨_, s₅, handled, taken⟩ := Run.bind later
      have first := trans_of (Adds _) (waitpid_adds (waits _ _ _) waited) (handleLaunched_adds prints _ _ handled)
      exact trans_of (Adds _) first (Keeps.of_get.bind (fun _ => record_adds (terminal _)) taken)
    · exact addNewJob_adds prints _ _ _ _ later
  have third : Adds Call.NoFork s₂ s' := checkBackgroundJob_adds prints (fun _ => waits _ _ _) _ checked
  obtain ⟨after, grown, none⟩ := trans_of (Adds _) second third
  refine ⟨_, after, ?_, ?_, fun d₀ d₁ rest => childCalls_started same final flag answers.forked _⟩
  · rw [grown, trace, List.append_assoc]
    rfl
  · intro pid calls member
    exact none _ member pid calls rfl

/-- `< f` before the command and `>> g` behind it, in the background. -/
theorem launched_program_cat : ∃ s child after, executeCommand (text "< f /bin/cat -n >> g &\n") { forked := 7 } (State.initial 1) =
      .ok ((), s) ∧ s.trace = .fork 7 child :: after ∧
    ∀ d₀ d₁ rest, Child.run { fds := some d₀ :: some d₁ :: rest } child =
      { fds := some (.opened (text "f") .read) :: some (.opened (text "g") .append) :: rest, ownGroup := true,
        defaultSignals := true, program := some (text "/bin/cat", [text "/bin/cat", text "-n"]) } := by
  have arranged : Arranged [.input (text "f"), .word (text "/bin/cat"), .word (text "-n"), .output true (text "g")]
      [text "/bin/cat", text "-n"] (some (text "f")) (some (true, text "g")) := ⟨rfl, rfl, rfl⟩
  have each : ∀ item ∈ [Item.input (text "f"), .word (text "/bin/cat"), .word (text "-n"), .output true (text "g")],
      IsWord item.operand := by
    intro item member
    simp only [List.mem_cons, List.not_mem_nil, or_false] at member
    rcases member with rfl | rfl | rfl | rfl <;>
      exact ⟨⟨by decide +kernel, by decide +kernel⟩, by decide +kernel, by decide +kernel⟩
  have seen : (executeCommand (text "< f /bin/cat -n >> g &\n") { forked := 7 } (State.initial 1)).map (fun ended => ended.2.jid) =
      .ok 2 := by decide +kernel
  obtain ⟨⟨_, s⟩, run, _⟩ := Run.except_map seen
  have toks : tokens (text "< f /bin/cat -n >> g &\n") =
      lineTokens [.input (text "f"), .word (text "/bin/cat"), .word (text "-n"), .output true (text "g")] true := by
    decide +kernel
  have forks : (7 : Int) ≠ -1 := by decide
  obtain ⟨child, after, trace, _, started⟩ :=
    launched_program arranged each (by decide) toks (by decide +kernel) forks run
  exact ⟨s, child, after, run, trace, started⟩

end Cs1330.Shell
