import Cs1330.Shell.Children
import Cs1330.Shell.Redirections

/-!
# Lines that should be refused

The parsers have no error result, and `fg` and `bg` go on after their errors. What such a line
does is read off the calls it adds to the trace.
-/

namespace Cs1330.Shell

open Run (Keeps Stops)

/-! ### Calls added to the trace -/

/-- The trace got longer by calls that satisfy `P`. -/
def Adds (P : Call → Prop) (s s' : State) : Prop := ∃ calls, s'.trace = s.trace ++ calls ∧ ∀ call ∈ calls, P call

variable {P : Call → Prop} {s s' s'' : State} {u : Unit} {command : CString} {answers : Answers}

instance addsRefl : Std.Refl (Adds P) := ⟨fun _ => ⟨[], (List.append_nil _).symm, by simp⟩⟩

instance addsTrans : IsTrans State (Adds P) where
  trans _ _ _ first second := by
    obtain ⟨calls, trace, each⟩ := first
    obtain ⟨more, later, eachMore⟩ := second
    refine ⟨calls ++ more, by rw [later, trace, List.append_assoc], ?_⟩
    intro call member
    rcases List.mem_append.mp member with member | member
    · exact each call member
    · exact eachMore call member

theorem record_adds {call : Call} (allowed : P call) : Keeps (Adds P) (record call) :=
  .of_modify fun _ => ⟨[call], rfl, by simpa using allowed⟩

theorem setJobList_adds (jobList : JobList) : Keeps (Adds P) (setJobList jobList) :=
  .of_modify fun _ => ⟨[], (List.append_nil _).symm, by simp⟩

theorem waitpid_adds {target : Int} {options : WaitOptions} {result : Option (Int × Status)}
    (allowed : P (.waitpid target options result)) : Keeps (Adds P) (waitpid target options result) := by
  intro s u s' run
  unfold waitpid at run
  obtain ⟨_, _, got, run⟩ := Run.bind run
  cases got
  split at run
  · cases run
    exact ⟨[_], rfl, by simpa using allowed⟩
  · cases run

/-- What is added in the end was added on the way, if nothing is taken back. -/
theorem Adds.middle {call : Call} {before after : List Call} {Q : Call → Prop} (first : Adds Q s s')
    (trace : s''.trace = s'.trace ++ (before ++ call :: after)) (whole : Adds P s s'') : P call := by
  obtain ⟨calls, grown, each⟩ := whole
  obtain ⟨early, start, _⟩ := first
  have same : calls = early ++ (before ++ call :: after) := by
    rw [trace, start, List.append_assoc] at grown
    exact (List.append_cancel_left grown).symm
  exact each call (by simp [same])

section

variable (prints : ∀ stream line, P (.print stream line))
include prints

theorem print_adds (stream : Stream) (line : CString) : Keeps (Adds P) (print stream line) := record_adds (prints stream line)

theorem parse_adds (command : CString) : Keeps (Adds P) (parse command) := by
  unfold parse
  split
  · exact .of_throw _
  · exact (Keeps.forM fun _ => print_adds prints _ _).bind fun _ => .of_pure _

theorem First.parse_adds (command : CString) : Keeps (Adds P) (First.parse command) := by
  unfold First.parse
  split
  · exact .of_throw _
  · exact (Keeps.forM fun _ => print_adds prints _ _).bind fun _ => .of_pure _

theorem complain_adds (wrong : Bool) (line : CString) : Keeps (Adds P) (complain wrong line) := by
  unfold complain
  split
  · exact print_adds prints _ _
  · exact .of_pure _

theorem namedJob_adds (name : String) (p : Parser) : Keeps (Adds P) (namedJob name p) :=
  (complain_adds prints _ _).bind fun _ => (argument_keeps p 1).bind fun _ => Keeps.of_get.bind fun _ =>
    (complain_adds prints _ _).bind fun _ => .of_pure _

theorem handleReport_adds (curPid : Int) (status : Status) : Keeps (Adds P) (handleReport curPid status) := by
  unfold handleReport
  refine Keeps.of_get.bind ?_
  intro s
  cases status with
  | exited code => exact (print_adds prints _ _).bind fun _ => setJobList_adds _
  | signaled signal => exact (print_adds prints _ _).bind fun _ => setJobList_adds _
  | stopped signal => exact (setJobList_adds _).bind fun _ => print_adds prints _ _
  | continued => exact (setJobList_adds _).bind fun _ => print_adds prints _ _

theorem addNewJob_adds (pid : Int) (state : ProcessState) (command : CString) (line : Int → String) :
    Keeps (Adds P) (addNewJob pid state command line) := by
  unfold addNewJob
  refine Keeps.of_get.bind fun s => (setJobList_adds _).bind fun _ => (print_adds prints _ _).bind fun _ => ?_
  exact .of_modify fun _ => ⟨[], (List.append_nil _).symm, by simp⟩

theorem handleLaunched_adds (command : CString) (result : Option (Int × Status)) :
    Keeps (Adds P) (handleLaunched command result) := by
  unfold handleLaunched
  split
  · exact (print_adds prints _ _).bind fun _ => Keeps.of_get.bind fun _ => setJobList_adds _
  · exact addNewJob_adds prints _ _ _ _
  · exact .of_pure _
  · exact .of_pure _
  · exact .of_pure _

theorem checkBackgroundJob_adds (waits : ∀ result, P (.waitpid (-1) checkOptions result))
    (reported : List (Int × Status)) : Keeps (Adds P) (checkBackgroundJob reported) := by
  induction reported with
  | nil => exact waitpid_adds (waits _)
  | cons report rest ih =>
    obtain ⟨curPid, status⟩ := report
    exact (waitpid_adds (waits _)).bind fun _ => (handleReport_adds prints _ _).bind fun _ => ih

end

/-! ### How a command can stop -/

def Impossible (stop : Stop) : Prop := stop = .impossible

theorem waitpid_stops (target : Int) (options : WaitOptions) (result : Option (Int × Status)) :
    Stops Impossible (waitpid target options result) := by
  unfold waitpid
  refine Stops.of_get.bind ?_
  intro s s' e run
  split at run
  · cases run
  · cases run
    rfl

theorem fork_stops (pid : Int) (child : List ChildCall) : Stops Impossible (fork pid child) := by
  unfold fork
  refine Stops.of_get.bind ?_
  intro s s' e run
  split at run
  · cases run
  · split at run
    · cases run
    · cases run
      rfl

theorem handleReport_stops (curPid : Int) (status : Status) : Stops Impossible (handleReport curPid status) := by
  unfold handleReport
  refine Stops.of_get.bind ?_
  intro s
  cases status <;> exact (Stops.of_modify _).bind fun _ => Stops.of_modify _

theorem checkBackgroundJob_stops (reported : List (Int × Status)) : Stops Impossible (checkBackgroundJob reported) := by
  induction reported with
  | nil => exact waitpid_stops _ _ _
  | cons report rest ih =>
    obtain ⟨curPid, status⟩ := report
    exact (waitpid_stops _ _ _).bind fun _ => (handleReport_stops _ _).bind fun _ => ih

theorem handleLaunched_stops (command : CString) (result : Option (Int × Status)) :
    Stops Impossible (handleLaunched command result) := by
  unfold handleLaunched
  split
  · exact (Stops.of_modify _).bind fun _ => Stops.of_get.bind fun _ => Stops.of_modify _
  · exact Stops.of_get.bind fun _ => (Stops.of_modify _).bind fun _ => (Stops.of_modify _).bind fun _ => Stops.of_modify _
  · exact .of_pure _
  · exact .of_pure _
  · exact .of_pure _

theorem launch_stops (p : Parser) (command : CString) (answers : Answers) : Stops Impossible (launch p command answers) := by
  unfold launch
  refine (fork_stops _ _).bind fun _ => ?_
  split
  · exact (waitpid_stops _ _ _).bind fun _ => (handleLaunched_stops _ _).bind fun _ => Stops.of_get.bind fun _ =>
      Stops.of_modify _
  · exact Stops.of_get.bind fun _ => (Stops.of_modify _).bind fun _ => (Stops.of_modify _).bind fun _ => Stops.of_modify _

theorem First.launch_stops (p : First.Parser) (command : CString) (answers : Answers) :
    Stops Impossible (First.launch p command answers) :=
  (fork_stops _ _).bind fun _ => waitpid_stops _ _ _

theorem returns_of_possible {α : Type} {x : ShellM α} (stops : Stops Impossible x) (possible : x s ≠ .error .impossible) :
    ∃ a s', x s = .ok (a, s') := by
  rcases stops.returns s with returned | ⟨stop, run, rfl⟩
  · exact returned
  · exact (possible run).elim

theorem print_stops (messages : List Message) :
    Stops (fun _ => False) (messages.forM fun message => print .stderr message.text) :=
  Stops.forM fun _ => Stops.of_modify _

theorem parse_run {p : Parser} (parsed : parseLine command = .ok p) (s : State) : ∃ s₁, parse command s = .ok (p, s₁) := by
  unfold parse
  rw [parsed]
  rcases (print_stops p.messages).returns s with ⟨_, s₁, run⟩ | ⟨_, _, impossible⟩
  · exact ⟨s₁, Run.except_seq run⟩
  · exact impossible.elim

theorem parse_overflow {write : Overflow} (leaves : parseLine command = .error write) (s : State) :
    parse command s = .error (.overflow write) := by
  unfold parse
  rw [leaves]
  rfl

theorem First.parse_run {p : First.Parser} (parsed : First.parseLine command = .ok p) (s : State) :
    ∃ s₁, First.parse command s = .ok (p, s₁) := by
  unfold First.parse
  rw [parsed]
  rcases (print_stops p.messages).returns s with ⟨_, s₁, run⟩ | ⟨_, _, impossible⟩
  · exact ⟨s₁, Run.except_seq run⟩
  · exact impossible.elim

theorem First.parse_overflow {write : Overflow} (leaves : First.parseLine command = .error write) (s : State) :
    First.parse command s = .error (.overflow write) := by
  unfold First.parse
  rw [leaves]
  rfl

/-- A failed `fork` starts no child, so its calls are not in the trace either. -/
theorem fork_trace {pid : Int} {child : List ChildCall} (run : fork pid child s = .ok (u, s')) :
    ∃ calls, s'.trace = s.trace ++ [.fork pid calls] ∧ (pid = -1 → calls = []) := by
  unfold fork at run
  obtain ⟨_, _, got, run⟩ := Run.bind run
  cases got
  split at run
  · cases run
    exact ⟨[], rfl, fun _ => rfl⟩
  · rename_i succeeds
    split at run
    · cases run
      exact ⟨child, rfl, fun failed => (succeeds failed).elim⟩
    · cases run

/-! ### Ill-formed lines -/

/-- Words and redirections in any order, at most one redirection of each direction, and in the
second shell an ampersand at the end. -/
def First.WellFormed (toks : List CString) : Prop :=
  ∃ items, First.Parser.Single items ∧ (∀ item ∈ items, redirection item.operand = false) ∧
    toks = items.flatMap Item.tokens

def WellFormed (toks : List CString) : Prop :=
  ∃ items final, First.Parser.Single items ∧
    (∀ item ∈ items, redirection item.operand = false ∧ ampersand item.operand = false) ∧ toks = lineTokens items final

/-- The call starts no child and opens no file. -/
def Call.StartsNothing : Call → Prop
  | .fork pid child => pid = -1 ∧ ∀ path mode, .openFile path mode ∉ child
  | .print _ _ | .chdir _ | .link _ _ | .unlink _ | .tcsetpgrp _ | .kill _ _ | .waitpid _ _ _ => True

def First.builtins : List CString := ["cd", "ln", "rm", "exit"].map text

/-- `execute_command` returned without running a builtin, starting a child or opening a file. -/
structure NotExecuted (builtins args : List CString) (s : State) (result : Except Stop (Unit × State)) : Prop where
  noBuiltin : ∀ name ∈ args.head?, name ∉ builtins
  returns : ∃ s', result = .ok ((), s') ∧ Adds Call.StartsNothing s s'

/-- There is no argument, or the arguments name a program that cannot be forked. -/
def NothingToRun (builtins args : List CString) (answers : Answers) : Prop :=
  args = [] ∨ args.length < argsSize ∧ (∀ name ∈ args.head?, name ∉ builtins) ∧ answers.forked = -1

instance (names args : List CString) (answers : Answers) : Decidable (NothingToRun names args answers) :=
  inferInstanceAs (Decidable (_ ∨ _))

theorem fork_startsNothing {pid : Int} {child : List ChildCall} (failed : pid = -1) :
    Keeps (Adds Call.StartsNothing) (fork pid child) := by
  intro s u s' run
  obtain ⟨calls, trace, none⟩ := fork_trace run
  refine ⟨_, trace, ?_⟩
  intro call member
  obtain rfl := List.mem_singleton.mp member
  refine ⟨failed, ?_⟩
  rw [none failed]
  simp

/-- A program that a shell launches: it forks first of all. -/
structure Launches (answers : Answers) (x : ShellM Unit) : Prop where
  stops : Stops Impossible x
  failed : answers.forked = -1 → Keeps (Adds Call.StartsNothing) x
  forks : ∀ {s s' u}, x s = .ok (u, s') → ∃ calls after, s'.trace = s.trace ++ .fork answers.forked calls :: after

theorem launch_launches (p : Parser) (command : CString) (answers : Answers) : Launches answers (launch p command answers) := by
  have rest : ∀ {Q : Call → Prop}, (∀ stream line, Q (.print stream line)) →
      (∀ target options result, Q (.waitpid target options result)) → (∀ group, Q (.tcsetpgrp group)) → Keeps (Adds Q) (if p.isBgJob = 0 then do
        waitpid answers.forked ⟨false, true, true⟩ answers.waited
        handleLaunched command answers.waited
        takeTerminal
      else addNewJob answers.forked .running command fun jid => s!"[{jid}] ({answers.forked})\n") := by
    intro Q prints waits terminal
    split
    · refine (waitpid_adds (waits _ _ _)).bind fun _ => (handleLaunched_adds prints _ _).bind fun _ => ?_
      exact Keeps.of_get.bind fun _ => record_adds (terminal _)
    · exact addNewJob_adds prints _ _ _ _
  refine ⟨launch_stops _ _ _, ?_, ?_⟩
  · intro failed
    exact (fork_startsNothing failed).bind fun _ => rest (fun _ _ => trivial) (fun _ _ _ => trivial) fun _ => trivial
  · intro s s' u run
    unfold launch at run
    obtain ⟨_, s₁, forked, run⟩ := Run.bind run
    obtain ⟨calls, trace, _⟩ := fork_trace forked
    obtain ⟨after, later, _⟩ := rest (Q := fun _ => True) (fun _ _ => trivial) (fun _ _ _ => trivial) (fun _ => trivial) run
    exact ⟨calls, after, by rw [later, trace, List.append_assoc]; rfl⟩

theorem First.launch_launches (p : First.Parser) (command : CString) (answers : Answers) :
    Launches answers (First.launch p command answers) := by
  refine ⟨First.launch_stops _ _ _, ?_, ?_⟩
  · intro failed
    exact (fork_startsNothing failed).bind fun _ => waitpid_adds trivial
  · intro s s' u run
    unfold First.launch at run
    obtain ⟨_, s₁, forked, run⟩ := Run.bind run
    obtain ⟨calls, trace, _⟩ := fork_trace forked
    obtain ⟨after, later, _⟩ := waitpid_adds (P := fun _ => True) trivial run
    exact ⟨calls, after, by rw [later, trace, List.append_assoc]; rfl⟩

theorem First.runCommand_program {p : First.Parser} {name : CString} (program : name ∉ First.builtins) :
    First.runCommand p name answers = First.launch p name answers := by
  simp only [First.builtins, List.map_cons, List.map_nil, List.mem_cons, List.not_mem_nil, or_false, not_or] at program
  obtain ⟨cd, ln, rm, exit⟩ := program
  unfold First.runCommand
  rw [if_neg cd, if_neg ln, if_neg rm, if_neg exit]

/-- The part of `execute_command` behind the parser, for the arguments `args`. -/
def dispatch (run : CString → ShellM Unit) (last : ShellM Unit) : List CString → ShellM Unit
  | [] => last
  | name :: _ => do
    run name
    last

theorem dispatch_notExecuted {names args : List CString} {run : CString → ShellM Unit} {last : ShellM Unit} {s₁ : State}
    (programs : ∀ name, name ∉ names → Launches answers (run name)) (lastStops : Stops Impossible last)
    (lastAdds : Keeps (Adds Call.StartsNothing) last) (early : Adds Call.StartsNothing s s₁)
    (fits : args.length < argsSize) (possible : dispatch run last args s₁ ≠ .error .impossible) :
    NotExecuted names args s (dispatch run last args s₁) ↔ NothingToRun names args answers := by
  cases args with
  | nil =>
    obtain ⟨_, s', returned⟩ := returns_of_possible lastStops possible
    have whole := trans_of (Adds _) early (lastAdds returned)
    exact iff_of_true ⟨by simp, s', returned, whole⟩ (Or.inl rfl)
  | cons name rest =>
    constructor
    · intro ⟨noBuiltin, s', returned, whole⟩
      obtain ⟨_, s₂, commanded, checked⟩ := Run.bind returned
      obtain ⟨calls, after, trace⟩ := (programs name (noBuiltin name rfl)).forks commanded
      obtain ⟨more, later, _⟩ := lastAdds checked
      have grown : s'.trace = s₁.trace ++ ([] ++ .fork answers.forked calls :: (after ++ more)) := by
        rw [later, trace, List.append_assoc]
        rfl
      have forked : Call.StartsNothing (.fork answers.forked calls) := early.middle grown whole
      exact Or.inr ⟨fits, noBuiltin, forked.1⟩
    · intro nothing
      obtain ⟨_, noBuiltin, failed⟩ := nothing.resolve_left (List.cons_ne_nil _ _)
      have program := programs name (noBuiltin name rfl)
      obtain ⟨_, s', returned⟩ := returns_of_possible (program.stops.bind fun _ => lastStops) possible
      have late := (program.failed failed).bind (fun _ => lastAdds) returned
      exact ⟨noBuiltin, s', returned, trans_of (Adds _) early late⟩

theorem overflow_executed {names args : List CString} {write : Overflow} :
    ¬NotExecuted names args s (.error (.overflow write)) := by
  intro ⟨_, _, run, _⟩
  cases run

theorem full_runs {names args : List CString} (full : argsSize ≤ args.length) : ¬NothingToRun names args answers := by
  intro nothing
  rcases nothing with rfl | ⟨fits, _⟩
  · exact absurd full (by decide)
  · omega

theorem notExecuted_iff (possible : executeCommand command answers s ≠ .error .impossible) :
    NotExecuted builtins (lineArguments command) s (executeCommand command answers s) ↔
      NothingToRun builtins (lineArguments command) answers := by
  have prints : ∀ stream line, Call.StartsNothing (.print stream line) := fun _ _ => trivial
  obtain ⟨stays, leaves⟩ := parseLine_arguments command
  by_cases fits : (lineArguments command).length < argsSize
  · obtain ⟨p, parses, args, _⟩ := stays fits
    obtain ⟨s₁, parsed⟩ := parse_run parses s
    have run : executeCommand command answers s =
        dispatch (fun name => runCommand p name answers) (checkBackgroundJob answers.reported) (lineArguments command) s₁ := by
      refine (Run.seq parsed).trans ?_
      rw [← args]
      cases p.args <;> simp [dispatch]
    rw [run] at possible ⊢
    apply dispatch_notExecuted _ (checkBackgroundJob_stops _) (checkBackgroundJob_adds prints (fun _ => trivial) _)
      (parse_adds prints _ parsed) fits possible
    intro name program
    rw [runCommand_program program]
    exact launch_launches _ _ _
  · have full := Nat.le_of_not_lt fits
    have run : executeCommand command answers s = .error (.overflow ⟨argsSize⟩) :=
      Run.seq_error (parse_overflow (leaves full) s)
    rw [run]
    exact iff_of_false overflow_executed (full_runs full)

theorem First.notExecuted_iff (possible : First.executeCommand command answers s ≠ .error .impossible) :
    NotExecuted First.builtins (arguments (tokens command)) s (First.executeCommand command answers s) ↔
      NothingToRun First.builtins (arguments (tokens command)) answers := by
  have prints : ∀ stream line, Call.StartsNothing (.print stream line) := fun _ _ => trivial
  obtain ⟨stays, leaves⟩ := First.parseLine_arguments command
  by_cases fits : (arguments (tokens command)).length < argsSize
  · obtain ⟨p, parses, args, _⟩ := stays fits
    obtain ⟨s₁, parsed⟩ := First.parse_run parses s
    have run : First.executeCommand command answers s =
        dispatch (fun name => First.runCommand p name answers) (pure ()) (arguments (tokens command)) s₁ := by
      refine (Run.seq parsed).trans ?_
      rw [← args]
      cases p.args <;> simp [dispatch]
    rw [run] at possible ⊢
    apply dispatch_notExecuted _ (Stops.of_pure _) (Keeps.of_pure _) (First.parse_adds prints _ parsed) fits possible
    intro name program
    rw [First.runCommand_program program]
    exact First.launch_launches _ _ _
  · have full := Nat.le_of_not_lt fits
    have run : First.executeCommand command answers s = .error (.overflow ⟨argsSize⟩) :=
      Run.seq_error (First.parse_overflow (leaves full) s)
    rw [run]
    exact iff_of_false overflow_executed (full_runs full)

/-- The item of an operator and the file behind it. -/
def Item.redirect (operator file : CString) : Item :=
  if operator = text "<" then .input file else .output (operator == text ">>") file

/-- The items that the tokens spell, if they spell any. -/
def readItems : List CString → Option (List Item)
  | [] => some []
  | [token] => if redirection token then none else some [.word token]
  | token :: next :: rest =>
    if redirection token then
      if redirection next then none
      else (readItems rest).map (Item.redirect token next :: ·)
    else (readItems (next :: rest)).map (.word token :: ·)

theorem readItems_cons (item : Item) (plain : redirection item.operand = false) (toks : List CString) :
    readItems (item.tokens ++ toks) = (readItems toks).map (item :: ·) := by
  cases item with
  | word w =>
    have plain : redirection w = false := plain
    cases toks <;> simp [Item.tokens, readItems, plain]
  | input f =>
    have plain : redirection f = false := plain
    have operator : redirection (text "<") = true ∧ Item.redirect (text "<") f = .input f := ⟨by decide, rfl⟩
    simp [Item.tokens, readItems, plain, operator]
  | output append g =>
    have plain : redirection g = false := plain
    have operator : redirection (Item.operator append) = true ∧
        Item.redirect (Item.operator append) g = .output append g := by
      cases append <;> exact ⟨by decide, rfl⟩
    simp [Item.tokens, readItems, plain, operator]

theorem readItems_tokens {items : List Item} (plain : ∀ item ∈ items, redirection item.operand = false) :
    readItems (items.flatMap Item.tokens) = some items := by
  induction items with
  | nil => rfl
  | cons item items ih =>
    rw [List.flatMap_cons, readItems_cons item (plain item List.mem_cons_self),
      ih fun item member => plain item (List.mem_cons_of_mem _ member)]
    rfl

theorem First.WellFormed.read {toks : List CString} (wellFormed : First.WellFormed toks) :
    ∃ items, readItems toks = some items ∧ First.Parser.Single items := by
  obtain ⟨items, single, plain, rfl⟩ := wellFormed
  exact ⟨items, readItems_tokens plain, single⟩

theorem WellFormed.read {toks : List CString} (wellFormed : WellFormed toks) :
    ∃ items, readItems (withoutAmpersands toks) = some items ∧ First.Parser.Single items := by
  obtain ⟨items, final, single, plain, rfl⟩ := wellFormed
  have kept := withoutAmpersands_lineTokens final fun item member => (plain item member).2
  exact ⟨items, by rw [kept]; exact readItems_tokens fun item member => (plain item member).1, single⟩

/-- What both shells do with an ill-formed line. -/
theorem illFormed_notExecuted_iff (s : State) (command : CString) (answers : Answers) :
    (First.executeCommand command answers s ≠ .error .impossible →
      ((¬First.WellFormed (tokens command) →
          NotExecuted First.builtins (arguments (tokens command)) s (First.executeCommand command answers s)) ↔
        First.WellFormed (tokens command) ∨ NothingToRun First.builtins (arguments (tokens command)) answers)) ∧
    (executeCommand command answers s ≠ .error .impossible →
      ((¬WellFormed (tokens command) →
          NotExecuted builtins (lineArguments command) s (executeCommand command answers s)) ↔
        WellFormed (tokens command) ∨ NothingToRun builtins (lineArguments command) answers)) := by
  constructor
  · intro possible
    rw [First.notExecuted_iff possible]
    exact ⟨fun refused => (Classical.em _).imp_right refused, fun either illFormed => either.resolve_left illFormed⟩
  · intro possible
    rw [notExecuted_iff possible]
    exact ⟨fun refused => (Classical.em _).imp_right refused, fun either illFormed => either.resolve_left illFormed⟩

/-- Two operators and no argument: neither shell does anything. -/
theorem illFormed_notExecuted_operators :
    NotExecuted First.builtins [] (State.initial 1) (First.executeCommand (text "< >\n") {} (State.initial 1)) ∧
      NotExecuted builtins [] (State.initial 1) (executeCommand (text "< >\n") {} (State.initial 1)) := by
  have unread : readItems (tokens (text "< >\n")) = none ∧ readItems (withoutAmpersands (tokens (text "< >\n"))) = none := by
    decide +kernel
  have firstIll : ¬First.WellFormed (tokens (text "< >\n")) := by
    intro wellFormed
    obtain ⟨items, read, _⟩ := wellFormed.read
    rw [unread.1] at read
    cases read
  have ill : ¬WellFormed (tokens (text "< >\n")) := by
    intro wellFormed
    obtain ⟨items, read, _⟩ := wellFormed.read
    rw [unread.2] at read
    cases read
  obtain ⟨first, second⟩ := illFormed_notExecuted_iff (State.initial 1) (text "< >\n") {}
  exact ⟨(first (by decide +kernel)).mpr (Or.inr (Or.inl rfl)) firstIll, (second (by decide +kernel)).mpr (Or.inr (Or.inl rfl)) ill⟩

/-- The trace at a return. -/
def traceOf (result : Except Stop (Unit × State)) : Option (List Call) := result.toOption.map fun r => r.2.trace

/-- The line `/bin/echo a > f > g`, and a kernel that lets the child run. -/
def twoOutputs : Line := ⟨text "/bin/echo a > f > g\n", { forked := 7, waited := some (7, .exited 0) }⟩

theorem twoOutputs_executed :
    ¬First.WellFormed (tokens twoOutputs.command) ∧ ¬WellFormed (tokens twoOutputs.command) ∧
      ¬NotExecuted First.builtins (arguments (tokens twoOutputs.command)) (State.initial 1)
        (First.executeCommand twoOutputs.command twoOutputs.answers (State.initial 1)) ∧
      ¬NotExecuted builtins (lineArguments twoOutputs.command) (State.initial 1)
        (executeCommand twoOutputs.command twoOutputs.answers (State.initial 1)) ∧
      traceOf (First.executeCommand twoOutputs.command twoOutputs.answers (State.initial 1)) =
        some [.print .stderr Message.multipleOutputFiles.text,
          .fork 7 [.close 1, .openFile (some (text "g")) .truncate, .execv (text "/bin/echo") [text "/bin/echo", text "a"]],
          .waitpid 7 First.waitOptions (some (7, .exited 0))] ∧
      traceOf (executeCommand twoOutputs.command twoOutputs.answers (State.initial 1)) =
        some [.print .stderr Message.multipleOutputFiles.text,
          .fork 7 [.setpgid, .tcsetpgrp 7, .close 1, .openFile (some (text "g")) .truncate, .defaultSignals,
            .execv (text "/bin/echo") [text "/bin/echo", text "a"]],
          .waitpid 7 ⟨false, true, true⟩ (some (7, .exited 0)), .tcsetpgrp 1, .waitpid (-1) checkOptions none] := by
  have spelled : readItems (tokens twoOutputs.command) =
      some [.word (text "/bin/echo"), .word (text "a"), .output false (text "f"), .output false (text "g")] := by
    decide +kernel
  have noAmpersands : withoutAmpersands (tokens twoOutputs.command) = tokens twoOutputs.command := by decide +kernel
  have firstRuns : ¬NothingToRun First.builtins (arguments (tokens twoOutputs.command)) twoOutputs.answers := by
    decide +kernel
  have secondRuns : ¬NothingToRun builtins (lineArguments twoOutputs.command) twoOutputs.answers := by decide +kernel
  refine ⟨?_, ?_, fun refused => firstRuns ((First.notExecuted_iff (by decide +kernel)).mp refused),
    fun refused => secondRuns ((notExecuted_iff (by decide +kernel)).mp refused), by decide +kernel, by decide +kernel⟩
  · intro wellFormed
    obtain ⟨items, read, single⟩ := wellFormed.read
    rw [spelled] at read
    obtain rfl := Option.some.inj read
    exact absurd single.2 (by decide)
  · intro wellFormed
    obtain ⟨items, read, single⟩ := wellFormed.read
    rw [noAmpersands, spelled] at read
    obtain rfl := Option.some.inj read
    exact absurd single.2 (by decide)

end Cs1330.Shell
