import Cs1330.Shell.First

/-!
# Lines of both shells

Lines are looked at through their tokens. `arguments` says which tokens become arguments,
without the variables of the parser; `forget` takes a parser of the second shell to one of the
first, and every round of the loop agrees with it.
-/

namespace Cs1330.Shell

/-! ### The tokens of a line -/

def Blank (gap : CString) : Prop := ∀ c ∈ gap, delimiter c = true

def IsToken (token : CString) : Prop := token ≠ [] ∧ ∀ c ∈ token, delimiter c = false

/-- Each token stands behind a gap that is not empty, and one more gap may follow. -/
inductive Gapped : List CString → CString → Prop
  | last {gap : CString} : Blank gap → Gapped [] gap
  | token {gap token tail : CString} {rest : List CString} : gap ≠ [] → Blank gap → Gapped rest tail →
      Gapped (token :: rest) (gap ++ (token ++ tail))

/-- The tokens with gaps between them; the line may begin with the first one. -/
def Spaced (toks : List CString) (line : CString) : Prop := Gapped toks (byte ' ' :: line)

variable {line gap token : CString} {toks : List CString}

theorem tokens_append_cons (s t : CString) {c : UInt8} (cut : delimiter c = true) :
    tokens (s ++ c :: t) = tokens s ++ tokens t := by
  unfold tokens
  rw [List.splitOnP_append_cons s t cut, List.filter_append]

theorem tokens_gap (blank : Blank gap) (s : CString) : tokens (gap ++ s) = tokens s := by
  induction gap with
  | nil => rfl
  | cons c gap ih =>
    have cut := tokens_append_cons [] (gap ++ s) (blank c List.mem_cons_self)
    exact cut.trans (ih fun d member => blank d (List.mem_cons_of_mem _ member))

theorem tokens_token (isToken : IsToken token) : tokens token = [token] := by
  unfold tokens
  rw [List.splitOnP_eq_singleton isToken.2]
  simp [isToken.1]

theorem Gapped.start (gapped : Gapped toks line) : line = [] ∨ ∃ c rest, line = c :: rest ∧ delimiter c = true := by
  cases gapped with
  | last blank =>
    cases line with
    | nil => exact Or.inl rfl
    | cons c rest => exact Or.inr ⟨c, rest, rfl, blank c List.mem_cons_self⟩
  | @token gap token tail rest nonempty blank later =>
    cases gap with
    | nil => exact (nonempty rfl).elim
    | cons c gap => exact Or.inr ⟨c, gap ++ (token ++ tail), rfl, blank c List.mem_cons_self⟩

theorem Gapped.tokens_eq (gapped : Gapped toks line) (each : ∀ token ∈ toks, IsToken token) : tokens line = toks := by
  induction gapped with
  | @last gap blank => simpa [tokens] using tokens_gap blank []
  | @token gap token tail rest nonempty blank later ih =>
    have isToken := each token List.mem_cons_self
    have after := ih fun token member => each token (List.mem_cons_of_mem _ member)
    rw [tokens_gap blank]
    rcases later.start with rfl | ⟨c, tail, rfl, cut⟩
    · rw [List.append_nil, tokens_token isToken, ← after]
      rfl
    · have skip : tokens (c :: tail) = tokens tail := tokens_append_cons [] tail cut
      rw [tokens_append_cons token tail cut, tokens_token isToken, ← after, skip]
      rfl

theorem Spaced.tokens_eq (spaced : Spaced toks line) (each : ∀ token ∈ toks, IsToken token) : tokens line = toks := by
  have skip : tokens (byte ' ' :: line) = tokens line := tokens_append_cons [] line (by decide)
  rw [← skip]
  exact Gapped.tokens_eq spaced each

/-! ### The arguments of a line -/

/-- The operators that are followed by the name of a file. -/
def redirection (token : CString) : Bool := token == text "<" || token == text ">" || token == text ">>"

def ampersand (token : CString) : Bool := token == text "&"

/-- The arguments among the tokens, when a file name is still due or not. -/
def argumentsFrom : Bool → List CString → List CString
  | _, [] => []
  | due, token :: rest =>
    if redirection token then argumentsFrom true rest
    else if due then argumentsFrom false rest
    else token :: argumentsFrom false rest

/-- The arguments that the first shell takes from the tokens: those that are no operator and do
not follow one. -/
def arguments (toks : List CString) : List CString := argumentsFrom false toks

namespace First.Parser

variable {p : Parser}

/-- The parser waits for the name of a file. -/
def due (p : Parser) : Bool := p.skipNext != .argument

theorem token_redirection (operator : redirection token = true) :
    ∃ q, p.token token = .ok q ∧ q.args = p.args ∧ q.argCount = p.argCount ∧ q.due = true := by
  have output : ∀ kind, (p.redirectOutput kind).args = p.args ∧ (p.redirectOutput kind).argCount = p.argCount ∧
      (p.redirectOutput kind).due = true := by
    intro kind
    unfold redirectOutput
    by_cases again : p.outputRedir ≠ 0 <;> simp [again, report, due]
  have input : p.redirectInput.args = p.args ∧ p.redirectInput.argCount = p.argCount ∧ p.redirectInput.due = true := by
    unfold redirectInput
    by_cases again : p.inputRedir ≠ 0 <;> simp [again, report, due]
  unfold Parser.token
  simp only [redirection, Bool.or_eq_true, beq_iff_eq] at operator
  split
  · exact ⟨_, rfl, output 1⟩
  · split
    · exact ⟨_, rfl, output 2⟩
    · split
      · exact ⟨_, rfl, input⟩
      · tauto

theorem token_word (word : redirection token = false) : p.token token = p.word token := by
  simp only [redirection, Bool.or_eq_false_iff, beq_eq_false_iff_ne] at word
  unfold Parser.token
  rw [if_neg word.1.2, if_neg word.2, if_neg word.1.1]

theorem word_due (token : CString) (waiting : p.due = true) :
    ∃ q, p.word token = .ok q ∧ q.args = p.args ∧ q.argCount = p.argCount ∧ q.due = false := by
  unfold word
  cases next : p.skipNext with
  | argument => simp [due, next] at waiting
  | inputFile => exact ⟨_, rfl, rfl, rfl, rfl⟩
  | outputFile => exact ⟨_, rfl, rfl, rfl, rfl⟩

theorem word_argument (free : p.due = false) : p.word token =
    if p.argCount < argsSize then .ok { p with args := p.args ++ [token], argCount := p.argCount + 1 }
    else .error ⟨p.argCount⟩ := by
  have next : p.skipNext = .argument := by simpa [due] using free
  unfold word
  rw [next]

/-- What the loop leaves in `args`: it stays inside the array when there is room for every
argument, and writes behind its end otherwise. -/
theorem foldlM_arguments (toks : List CString) : ∀ p : Parser, p.argCount ≤ argsSize →
    (p.argCount + (argumentsFrom p.due toks).length ≤ argsSize →
      ∃ q, toks.foldlM Parser.token p = .ok q ∧ q.args = p.args ++ argumentsFrom p.due toks ∧
        q.argCount = p.argCount + (argumentsFrom p.due toks).length) ∧
    (argsSize < p.argCount + (argumentsFrom p.due toks).length → toks.foldlM Parser.token p = .error ⟨argsSize⟩) := by
  induction toks with
  | nil =>
    intro p room
    refine ⟨fun _ => ⟨p, rfl, (List.append_nil _).symm, rfl⟩, ?_⟩
    intro more
    simp only [argumentsFrom, List.length_nil] at more
    omega
  | cons token rest ih =>
    intro p room
    -- a token that is no argument changes neither the words nor their number
    have skip : ∀ q : Parser, p.token token = .ok q → q.args = p.args → q.argCount = p.argCount →
        argumentsFrom p.due (token :: rest) = argumentsFrom q.due rest →
        (p.argCount + (argumentsFrom p.due (token :: rest)).length ≤ argsSize →
          ∃ r, (token :: rest).foldlM Parser.token p = .ok r ∧ r.args = p.args ++ argumentsFrom p.due (token :: rest) ∧
            r.argCount = p.argCount + (argumentsFrom p.due (token :: rest)).length) ∧
        (argsSize < p.argCount + (argumentsFrom p.due (token :: rest)).length →
          (token :: rest).foldlM Parser.token p = .error ⟨argsSize⟩) := by
      intro q run args count same
      have tail := ih q (count ▸ room)
      rw [args, count, ← same] at tail
      rw [List.foldlM_cons, run]
      exact tail
    by_cases operator : redirection token = true
    · obtain ⟨q, run, args, count, waiting⟩ := p.token_redirection operator
      exact skip q run args count (by rw [argumentsFrom, if_pos operator, waiting])
    · have isWord : redirection token = false := by simpa using operator
      cases free : p.due with
      | true =>
        obtain ⟨q, run, args, count, done⟩ := word_due token free
        rw [← free]
        exact skip q ((token_word isWord).trans run) args count
          (by rw [argumentsFrom, if_neg operator, free, if_pos rfl, done])
      | false =>
        have list : argumentsFrom false (token :: rest) = token :: argumentsFrom false rest := by
          simp [argumentsFrom, isWord]
        rw [list, List.foldlM_cons, token_word isWord, word_argument free, List.length_cons]
        by_cases fits : p.argCount < argsSize
        · have next : ({ p with args := p.args ++ [token], argCount := p.argCount + 1 } : Parser).due = false := free
          obtain ⟨stays, leaves⟩ := ih { p with args := p.args ++ [token], argCount := p.argCount + 1 } fits
          rw [next] at stays leaves
          rw [if_pos fits]
          constructor
          · intro enough
            obtain ⟨q, run, args, count⟩ := stays (by show p.argCount + 1 + _ ≤ _; omega)
            exact ⟨q, run, args.trans (List.append_assoc _ _ _), count.trans (by show p.argCount + 1 + _ = _; omega)⟩
          · intro more
            exact leaves (by show _ < p.argCount + 1 + _; omega)
        · rw [if_neg fits]
          refine ⟨fun _ => by omega, fun _ => ?_⟩
          have full : p.argCount = argsSize := by omega
          rw [full]
          rfl

end First.Parser

/-! ### The second shell's parser -/

/-- The tokens that the first shell's parser would get: without the ampersands. -/
def withoutAmpersands (toks : List CString) : List CString := toks.filter fun token => !ampersand token

namespace Parser

/-- The variables that the first shell has too. -/
def forget (p : Parser) : First.Parser :=
  ⟨p.args, p.argCount, p.inputRedir, p.outputRedir, p.inputFile, p.outputFile, p.skipNext, p.messages⟩

variable {p : Parser}

theorem redirectOutput_forget (kind : Int) : (p.redirectOutput kind).forget = p.forget.redirectOutput kind := by
  unfold redirectOutput First.Parser.redirectOutput
  by_cases again : p.outputRedir ≠ 0 <;> simp [again, forget, report, First.Parser.report]

theorem redirectInput_forget : p.redirectInput.forget = p.forget.redirectInput := by
  unfold redirectInput First.Parser.redirectInput
  by_cases again : p.inputRedir ≠ 0 <;> simp [again, forget, report, First.Parser.report]

theorem word_forget : (p.word token).map forget = p.forget.word token := by
  have next : p.forget.skipNext = p.skipNext := rfl
  unfold word First.Parser.word
  rw [next]
  cases p.skipNext with
  | argument =>
    by_cases fits : p.argCount < argsSize <;> simp [fits, forget, Except.map]
  | inputFile => rfl
  | outputFile => rfl

theorem token_forget (p : Parser) (token : CString) :
    (p.token token).map forget = if ampersand token then .ok p.forget else p.forget.token token := by
  unfold Parser.token First.Parser.token
  by_cases output : token = text ">"
  · rw [if_pos output, if_pos output, ← redirectOutput_forget, output]
    rfl
  · by_cases append : token = text ">>"
    · rw [if_neg output, if_pos append, if_neg output, if_pos append, ← redirectOutput_forget, append]
      rfl
    · by_cases input : token = text "<"
      · rw [if_neg output, if_neg append, if_pos input, if_neg output, if_neg append, if_pos input,
          ← redirectInput_forget, input]
        rfl
      · rw [if_neg output, if_neg append, if_neg input, if_neg output, if_neg append, if_neg input]
        by_cases amp : token = text "&"
        · rw [if_pos amp, amp]
          rfl
        · have other : ampersand token = false := by simpa [ampersand] using amp
          rw [if_neg amp, other, word_forget]
          rfl

theorem foldlM_forget (toks : List CString) : ∀ p : Parser,
    (toks.foldlM Parser.token p).map forget = (withoutAmpersands toks).foldlM First.Parser.token p.forget := by
  induction toks with
  | nil => intro p; rfl
  | cons token rest ih =>
    intro p
    have step := p.token_forget token
    rw [List.foldlM_cons]
    by_cases amp : ampersand token = true
    · have skipped : withoutAmpersands (token :: rest) = withoutAmpersands rest := by simp [withoutAmpersands, amp]
      rw [if_pos amp] at step
      rw [skipped]
      cases run : p.token token with
      | error write =>
        rw [run] at step
        cases step
      | ok q =>
        rw [run] at step
        have same : q.forget = p.forget := Except.ok.inj step
        rw [← same]
        exact ih q
    · have kept : withoutAmpersands (token :: rest) = token :: withoutAmpersands rest := by simp [withoutAmpersands, amp]
      rw [if_neg amp] at step
      rw [kept, List.foldlM_cons, ← step]
      cases run : p.token token with
      | error write => rfl
      | ok q => exact ih q

theorem finish_forget : p.finish.map forget = p.forget.finish := by
  unfold finish First.Parser.finish
  have count : p.forget.argCount = p.argCount := rfl
  rw [count]
  by_cases fits : p.argCount < argsSize
  · rw [if_pos fits, if_pos fits]
    by_cases last : p.ampPos = some p.argCount <;> simp [last, forget, Except.map]
  · rw [if_neg fits, if_neg fits]
    rfl

end Parser

/-- The second parser does on a line what the first does on its tokens without the ampersands. -/
theorem parseCommand_forget (command : CString) (start : Parser) :
    (parseCommand command start).map Parser.forget =
      (do First.Parser.finish (← (withoutAmpersands (tokens command)).foldlM First.Parser.token start.forget)) := by
  have fold := Parser.foldlM_forget (tokens command) start
  unfold parseCommand
  cases run : (tokens command).foldlM Parser.token start with
  | error write =>
    rw [run] at fold
    rw [← fold]
    rfl
  | ok p =>
    rw [run] at fold
    rw [← fold]
    exact p.finish_forget

theorem parseCommand_extends (line : CString) (argCount : Nat) (inputRedir outputRedir isBgJob : Int) :
    ((∀ token ∈ tokens line, token ≠ text "&") →
      (parseCommand line (.initial argCount inputRedir outputRedir isBgJob)).map Parser.forget =
        First.parseCommand line (.initial argCount inputRedir outputRedir)) ∧
    ∀ line', tokens line' = withoutAmpersands (tokens line) →
      (parseCommand line (.initial argCount inputRedir outputRedir isBgJob)).map Parser.forget =
        First.parseCommand line' (.initial argCount inputRedir outputRedir) := by
  have deleted : ∀ line', tokens line' = withoutAmpersands (tokens line) →
      (parseCommand line (.initial argCount inputRedir outputRedir isBgJob)).map Parser.forget =
        First.parseCommand line' (.initial argCount inputRedir outputRedir) := by
    intro line' same
    have both := parseCommand_forget line (.initial argCount inputRedir outputRedir isBgJob)
    rw [← same] at both
    exact both
  refine ⟨?_, deleted⟩
  intro plain
  apply deleted line
  symm
  rw [withoutAmpersands, List.filter_eq_self]
  intro token member
  simpa [ampersand] using plain token member

/-- The ampersand between a redirection and its file is no file name. -/
theorem parseCommand_extends_pending :
    (parseCommand (text "cat < & f &\n") (.initial 0 0 0 0)).map Parser.forget =
      First.parseCommand (text "cat <  f \n") (.initial 0 0 0) :=
  (parseCommand_extends (text "cat < & f &\n") 0 0 0 0).2 (text "cat <  f \n") (by decide +kernel)

/-! ### The array of arguments -/

theorem First.finish_arguments (toks : List CString) :
    ((arguments toks).length < argsSize →
      ∃ p, (do First.Parser.finish (← toks.foldlM First.Parser.token (.initial 0 0 0))) = Except.ok p ∧
        p.args = arguments toks ∧ p.argCount = (arguments toks).length) ∧
    (argsSize ≤ (arguments toks).length →
      (do First.Parser.finish (← toks.foldlM First.Parser.token (.initial 0 0 0))) = Except.error ⟨argsSize⟩) := by
  obtain ⟨stays, leaves⟩ := First.Parser.foldlM_arguments toks (.initial 0 0 0) (Nat.zero_le _)
  have free : (First.Parser.initial 0 0 0).due = false := rfl
  have none : (First.Parser.initial 0 0 0).argCount = 0 := rfl
  have whole : argumentsFrom false toks = arguments toks := rfl
  rw [free, none, Nat.zero_add, whole] at stays leaves
  constructor
  · intro fits
    obtain ⟨p, run, args, count⟩ := stays (Nat.le_of_lt fits)
    refine ⟨p, ?_, args, count⟩
    rw [run]
    show p.finish = .ok p
    rw [First.Parser.finish, count, if_pos fits]
  · intro full
    rcases Nat.lt_or_eq_of_le full with more | last
    · rw [leaves more]
      rfl
    · obtain ⟨p, run, _, count⟩ := stays (Nat.le_of_eq last.symm)
      rw [run]
      show p.finish = _
      rw [First.Parser.finish, count, if_neg (by omega)]
      exact congrArg (fun n => Except.error (Overflow.mk n)) last.symm

theorem First.parseLine_arguments (line : CString) :
    ((arguments (tokens line)).length < argsSize →
      ∃ p, First.parseLine line = .ok p ∧ p.args = arguments (tokens line) ∧
        p.argCount = (arguments (tokens line)).length) ∧
    (argsSize ≤ (arguments (tokens line)).length → First.parseLine line = .error ⟨argsSize⟩) :=
  First.finish_arguments (tokens line)

/-- The arguments that the second shell takes from a line. -/
def lineArguments (line : CString) : List CString := arguments (withoutAmpersands (tokens line))

theorem parseLine_arguments (line : CString) :
    ((lineArguments line).length < argsSize →
      ∃ p, parseLine line = .ok p ∧ p.args = lineArguments line ∧ p.argCount = (lineArguments line).length) ∧
    (argsSize ≤ (lineArguments line).length → parseLine line = .error ⟨argsSize⟩) := by
  have both := parseCommand_forget line (.initial 0 0 0 0)
  obtain ⟨stays, leaves⟩ := First.finish_arguments (withoutAmpersands (tokens line))
  constructor
  · intro fits
    obtain ⟨q, run, args, count⟩ := stays fits
    rw [show (Parser.initial 0 0 0 0).forget = First.Parser.initial 0 0 0 from rfl, run] at both
    unfold parseLine
    cases parsed : parseCommand line (.initial 0 0 0 0) with
    | error write =>
      rw [parsed] at both
      cases both
    | ok p =>
      rw [parsed] at both
      have same : p.forget = q := Except.ok.inj both
      exact ⟨p, rfl, (congrArg First.Parser.args same).trans args, (congrArg First.Parser.argCount same).trans count⟩
  · intro full
    rw [show (Parser.initial 0 0 0 0).forget = First.Parser.initial 0 0 0 from rfl, leaves full] at both
    unfold parseLine
    cases parsed : parseCommand line (.initial 0 0 0 0) with
    | error write =>
      rw [parsed] at both
      exact congrArg Except.error (Except.error.inj both)
    | ok p =>
      rw [parsed] at both
      cases both

/-- No write to `args` leaves the array exactly when the line has at most 99 arguments. -/
theorem args_fit_iff (line : CString) :
    ((∃ p, First.parseLine line = .ok p) ↔ (arguments (tokens line)).length < argsSize) ∧
    ((∃ p, parseLine line = .ok p) ↔ (lineArguments line).length < argsSize) := by
  constructor
  · obtain ⟨stays, leaves⟩ := First.parseLine_arguments line
    constructor
    · intro ⟨p, parsed⟩
      by_contra full
      rw [leaves (Nat.le_of_not_lt full)] at parsed
      cases parsed
    · intro fits
      obtain ⟨p, parsed, _⟩ := stays fits
      exact ⟨p, parsed⟩
  · obtain ⟨stays, leaves⟩ := parseLine_arguments line
    constructor
    · intro ⟨p, parsed⟩
      by_contra full
      rw [leaves (Nat.le_of_not_lt full)] at parsed
      cases parsed
    · intro fits
      obtain ⟨p, parsed, _⟩ := stays fits
      exact ⟨p, parsed⟩

def maxInputSize : Nat := 1024

/-- A line of 100 words. -/
def crowded : CString := (List.replicate 100 (text "a ")).flatten ++ text "\n"

theorem crowded_overflows : (fgets maxInputSize crowded).1 = crowded ∧
    First.parseLine crowded = .error ⟨100⟩ ∧ parseLine crowded = .error ⟨100⟩ := by
  have delivered : (fgets maxInputSize crowded).1 = crowded := by decide +kernel
  have words : (arguments (tokens crowded)).length = 100 := by decide +kernel
  have sameWords : (lineArguments crowded).length = 100 := by decide +kernel
  exact ⟨delivered, (First.parseLine_arguments crowded).2 (Nat.le_of_eq words.symm),
    (parseLine_arguments crowded).2 (Nat.le_of_eq sameWords.symm)⟩

end Cs1330.Shell
