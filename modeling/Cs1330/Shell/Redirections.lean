import Cs1330.Lib.Run
import Cs1330.Shell.Lines

/-!
# Words and redirections

A well-formed line is a list of items, each of them a word or a redirection with its file, in
any order. The parser takes an item as a whole: between two items it never waits for a file.
-/

namespace Cs1330.Shell

inductive Item where
  | word (w : CString)
  /-- `< f` -/
  | input (f : CString)
  /-- `> g` or `>> g` -/
  | output (append : Bool) (g : CString)
  deriving DecidableEq, Repr

namespace Item

def operator (append : Bool) : CString := text (if append then ">>" else ">")

/-- The value of `output_redir`. -/
def kind (append : Bool) : Int := if append then 2 else 1

def tokens : Item → List CString
  | word w => [w]
  | input f => [text "<", f]
  | output append g => [operator append, g]

/-- The token that is no operator. -/
def operand : Item → CString
  | word w => w
  | input f => f
  | output _ g => g

def word? : Item → Option CString
  | word w => some w
  | input _ | output _ _ => none

def input? : Item → Option CString
  | input f => some f
  | word _ | output _ _ => none

def output? : Item → Option (Bool × CString)
  | output append g => some (append, g)
  | word _ | input _ => none

end Item

def words (items : List Item) : List CString := items.filterMap Item.word?

def inputs (items : List Item) : List CString := items.filterMap Item.input?

def outputs (items : List Item) : List (Bool × CString) := items.filterMap Item.output?

variable {items : List Item} {item : Item} {line : CString}

namespace First.Parser

variable {p : Parser}

/-- The variables after one item, when its redirection is the first of its direction. -/
def take (p : Parser) : Item → Parser
  | .word w => { p with args := p.args ++ [w], argCount := p.argCount + 1 }
  | .input f => { p with inputRedir := 1, inputFile := some f }
  | .output append g => { p with outputRedir := Item.kind append, outputFile := some g }

/-- A redirection of this direction has not been seen yet. -/
def Open (p : Parser) (items : List Item) : Prop :=
  (inputs items ≠ [] → p.inputRedir = 0) ∧ (outputs items ≠ [] → p.outputRedir = 0)

theorem take_item (ready : p.skipNext = .argument) (plain : redirection item.operand = false)
    (first : p.Open [item]) (room : p.argCount + (words [item]).length ≤ argsSize) :
    item.tokens.foldlM Parser.token p = .ok (p.take item) := by
  have free : p.due = false := by simp [due, ready]
  cases item with
  | word w =>
    have fits : p.argCount < argsSize := room
    have plainWord : redirection w = false := plain
    rw [Item.tokens, List.foldlM_cons, token_word plainWord, word_argument free, if_pos fits]
    rfl
  | input f =>
    have unread : p.inputRedir = 0 := first.1 (List.cons_ne_nil _ _)
    have operator : p.token (text "<") = .ok { p with inputRedir := 1, skipNext := .inputFile } := by
      have named : p.token (text "<") = .ok p.redirectInput := rfl
      rw [named, redirectInput, if_neg (not_not.mpr unread)]
    have plainFile : redirection f = false := plain
    rw [Item.tokens, List.foldlM_cons, operator]
    show [f].foldlM Parser.token { p with inputRedir := 1, skipNext := .inputFile } = _
    rw [List.foldlM_cons, token_word plainFile]
    show Except.ok { p with inputRedir := 1, inputFile := some f, skipNext := .argument } = _
    rw [take, ← ready]
  | output append g =>
    have unread : p.outputRedir = 0 := first.2 (List.cons_ne_nil _ _)
    have operator : p.token (Item.operator append) =
        .ok { p with outputRedir := Item.kind append, skipNext := .outputFile } := by
      have named : p.token (Item.operator append) = .ok (p.redirectOutput (Item.kind append)) := by
        cases append <;> rfl
      rw [named, redirectOutput, if_neg (not_not.mpr unread)]
    have plainFile : redirection g = false := plain
    rw [Item.tokens, List.foldlM_cons, operator]
    show [g].foldlM Parser.token { p with outputRedir := Item.kind append, skipNext := .outputFile } = _
    rw [List.foldlM_cons, token_word plainFile]
    show Except.ok { p with outputRedir := Item.kind append, outputFile := some g, skipNext := .argument } = _
    rw [take, ← ready]

theorem take_ready (ready : p.skipNext = .argument) (item : Item) : (p.take item).skipNext = .argument := by
  cases item <;> exact ready

theorem take_argCount (item : Item) : (p.take item).argCount = p.argCount + (words [item]).length := by
  cases item <;> rfl

/-- At most one redirection of each direction. -/
def Single (items : List Item) : Prop := (inputs items).length ≤ 1 ∧ (outputs items).length ≤ 1

theorem take_open {items : List Item} (single : Single (item :: items)) (unused : p.Open (item :: items)) :
    (p.take item).Open items := by
  obtain ⟨oneInput, oneOutput⟩ := single
  cases item with
  | word w => exact unused
  | input f =>
    refine ⟨fun more => ?_, unused.2⟩
    have length : (inputs (.input f :: items)).length = (inputs items).length + 1 := rfl
    have := List.length_pos_iff.mpr more
    omega
  | output append g =>
    refine ⟨unused.1, fun more => ?_⟩
    have length : (outputs (.output append g :: items)).length = (outputs items).length + 1 := rfl
    have := List.length_pos_iff.mpr more
    omega

theorem Single.tail {items : List Item} (single : Single (item :: items)) : Single items := by
  cases item with
  | word w => exact single
  | input f => exact ⟨Nat.le_of_succ_le single.1, single.2⟩
  | output append g => exact ⟨single.1, Nat.le_of_succ_le single.2⟩

theorem foldlM_items (items : List Item) : ∀ p : Parser, p.skipNext = .argument →
    (∀ item ∈ items, redirection item.operand = false) → Single items → p.Open items →
    p.argCount + (words items).length ≤ argsSize →
    (items.flatMap Item.tokens).foldlM Parser.token p = .ok (items.foldl take p) := by
  induction items with
  | nil => intro p _ _ _ _ _; rfl
  | cons item items ih =>
    intro p ready plain single unused room
    have wordCount : (words (item :: items)).length = (words [item]).length + (words items).length := by
      rw [← List.length_append]
      exact congrArg List.length (show words ([item] ++ items) = words [item] ++ words items from List.filterMap_append)
    have alone : p.Open [item] := by
      cases item with
      | word w => exact ⟨fun more => (more rfl).elim, fun more => (more rfl).elim⟩
      | input f => exact ⟨fun _ => unused.1 (List.cons_ne_nil _ _), fun more => (more rfl).elim⟩
      | output append g => exact ⟨fun more => (more rfl).elim, fun _ => unused.2 (List.cons_ne_nil _ _)⟩
    have first := take_item ready (plain item List.mem_cons_self) alone (by omega)
    rw [List.flatMap_cons, List.foldlM_append, first]
    exact ih (p.take item) (take_ready ready item) (fun item member => plain item (List.mem_cons_of_mem _ member))
      single.tail (take_open single unused) (by rw [take_argCount]; omega)

theorem foldl_take (items : List Item) : ∀ p : Parser, items.foldl take p =
    { p with
      args := p.args ++ words items
      argCount := p.argCount + (words items).length
      inputRedir := if inputs items = [] then p.inputRedir else 1
      outputRedir := ((outputs items).getLast?.map fun out => Item.kind out.1).getD p.outputRedir
      inputFile := (inputs items).getLast?.or p.inputFile
      outputFile := ((outputs items).getLast?.map Prod.snd).or p.outputFile } := by
  induction items with
  | nil => intro p; simp [words, inputs, outputs]
  | cons item items ih =>
    intro p
    rw [List.foldl_cons, ih]
    cases item with
    | word w =>
      have one : words (.word w :: items) = w :: words items := rfl
      have same : inputs (.word w :: items) = inputs items ∧ outputs (.word w :: items) = outputs items := ⟨rfl, rfl⟩
      rw [one, same.1, same.2]
      simp only [take, List.append_assoc, List.singleton_append, List.length_cons, Nat.add_assoc, Nat.add_comm 1]
    | input f =>
      have one : inputs (.input f :: items) = f :: inputs items := rfl
      have same : words (.input f :: items) = words items ∧ outputs (.input f :: items) = outputs items := ⟨rfl, rfl⟩
      rw [one, same.1, same.2]
      simp [take, List.getLast?_cons]
    | output append g =>
      have one : outputs (.output append g :: items) = (append, g) :: outputs items := rfl
      have same : words (.output append g :: items) = words items ∧ inputs (.output append g :: items) = inputs items :=
        ⟨rfl, rfl⟩
      rw [one, same.1, same.2]
      simp [take, List.getLast?_cons]
      cases (outputs items).getLast? <;> exact ⟨rfl, rfl⟩

end First.Parser

/-! ### Both parsers on a well-formed line -/

/-- The result for the words `ws`, an input file and an output file. -/
def First.Parser.redirected (ws : List CString) (inp : Option CString) (out : Option (Bool × CString)) : First.Parser where
  args := ws
  argCount := ws.length
  inputRedir := if inp.isSome then 1 else 0
  outputRedir := match out with
    | none => 0
    | some (append, _) => Item.kind append
  inputFile := inp
  outputFile := out.map Prod.snd
  skipNext := .argument
  messages := []

/-- The items are the words `ws` in their order, with the two redirections anywhere among them. -/
structure Arranged (items : List Item) (ws : List CString) (inp : Option CString) (out : Option (Bool × CString)) : Prop where
  args : words items = ws
  inputFile : inputs items = inp.toList
  outputFile : outputs items = out.toList

variable {ws : List CString} {inp : Option CString} {out : Option (Bool × CString)}

theorem Arranged.single (arranged : Arranged items ws inp out) : First.Parser.Single items := by
  refine ⟨?_, ?_⟩
  · rw [arranged.inputFile]
    cases inp <;> simp
  · rw [arranged.outputFile]
    cases out <;> simp

theorem Arranged.foldlM (arranged : Arranged items ws inp out) (plain : ∀ item ∈ items, redirection item.operand = false)
    (few : ws.length < argsSize) :
    (do First.Parser.finish (← (items.flatMap Item.tokens).foldlM First.Parser.token (.initial 0 0 0))) =
      Except.ok (First.Parser.redirected ws inp out) := by
  have count : (words items).length < argsSize := by rw [arranged.args]; exact few
  have room : (First.Parser.initial 0 0 0).argCount + (words items).length ≤ argsSize := by
    show 0 + (words items).length ≤ argsSize
    omega
  have fold := First.Parser.foldlM_items items (.initial 0 0 0) rfl plain arranged.single ⟨fun _ => rfl, fun _ => rfl⟩ room
  have result : items.foldl First.Parser.take (.initial 0 0 0) = First.Parser.redirected ws inp out := by
    rw [First.Parser.foldl_take, arranged.args, arranged.inputFile, arranged.outputFile]
    cases inp <;> cases out <;> simp [First.Parser.initial, First.Parser.redirected]
  rw [fold, result]
  exact if_pos few

/-- A word of both shells. -/
structure IsWord (w : CString) : Prop where
  token : IsToken w
  plain : redirection w = false
  noAmpersand : ampersand w = false

theorem isToken_operator {operator : CString} (known : operator = text "<" ∨ operator = text ">" ∨ operator = text ">>" ∨
    operator = text "&") : IsToken operator := by
  rcases known with rfl | rfl | rfl | rfl <;> exact ⟨by decide +kernel, by decide +kernel⟩

theorem Item.isToken (isWord : IsWord item.operand) : ∀ token ∈ item.tokens, IsToken token := by
  intro token member
  cases item with
  | word w =>
    obtain rfl := List.mem_singleton.mp member
    exact isWord.token
  | input f =>
    rcases List.mem_pair.mp member with rfl | rfl
    · exact isToken_operator (Or.inl rfl)
    · exact isWord.token
  | output append g =>
    rcases List.mem_pair.mp member with rfl | rfl
    · cases append
      · exact isToken_operator (Or.inr (Or.inl rfl))
      · exact isToken_operator (Or.inr (Or.inr (Or.inl rfl)))
    · exact isWord.token

theorem Item.noAmpersand (plain : ampersand item.operand = false) : ∀ token ∈ item.tokens, ampersand token = false := by
  intro token member
  cases item with
  | word w =>
    obtain rfl := List.mem_singleton.mp member
    exact plain
  | input f =>
    rcases List.mem_pair.mp member with rfl | rfl
    · decide
    · exact plain
  | output append g =>
    rcases List.mem_pair.mp member with rfl | rfl
    · cases append <;> decide
    · exact plain

namespace Parser

variable {p q : Parser} {toks : List CString}

/-- The variables that only the second shell has. -/
def background (p : Parser) : Option Nat × Int := (p.ampPos, p.isBgJob)

theorem token_background {token : CString} (other : ampersand token = false) (run : p.token token = .ok q) :
    q.background = p.background := by
  have different : token ≠ text "&" := by simpa [ampersand] using other
  unfold Parser.token at run
  split at run
  · obtain rfl := Except.ok.inj run
    unfold redirectOutput
    split <;> rfl
  · split at run
    · obtain rfl := Except.ok.inj run
      unfold redirectOutput
      split <;> rfl
    · split at run
      · obtain rfl := Except.ok.inj run
        unfold redirectInput
        split <;> rfl
      · unfold word at run
        split at run
        · split at run
          · obtain rfl := Except.ok.inj run
            rfl
          · cases run
        · obtain rfl := Except.ok.inj run
          rfl
        · obtain rfl := Except.ok.inj run
          rfl

theorem foldlM_background (toks : List CString) : ∀ p q : Parser, (∀ token ∈ toks, ampersand token = false) →
    toks.foldlM Parser.token p = .ok q → q.background = p.background := by
  induction toks with
  | nil =>
    intro p q _ run
    obtain rfl := Except.ok.inj run
    rfl
  | cons token rest ih =>
    intro p q plain run
    rw [List.foldlM_cons] at run
    obtain ⟨p', first, later⟩ := Run.except_bind run
    rw [ih p' q (fun token member => plain token (List.mem_cons_of_mem _ member)) later]
    exact token_background (plain token List.mem_cons_self) first

end Parser

/-- The tokens of a line for the second shell, with an ampersand at its end or not. -/
def lineTokens (items : List Item) (final : Bool) : List CString :=
  items.flatMap Item.tokens ++ if final then [text "&"] else []

theorem withoutAmpersands_lineTokens (final : Bool) (plain : ∀ item ∈ items, ampersand item.operand = false) :
    withoutAmpersands (lineTokens items final) = items.flatMap Item.tokens := by
  have all : withoutAmpersands (items.flatMap Item.tokens) = items.flatMap Item.tokens := by
    rw [withoutAmpersands, List.filter_eq_self]
    intro token member
    obtain ⟨item, itemMem, tokenMem⟩ := List.mem_flatMap.mp member
    simp [Item.noAmpersand (plain item itemMem) token tokenMem]
  have none : (if final then [text "&"] else []).filter (fun token => !ampersand token) = [] := by
    cases final <;> decide
  rw [lineTokens, withoutAmpersands, List.filter_append, none, List.append_nil]
  exact all

theorem parse_lineTokens {final : Bool} (arranged : Arranged items ws inp out) (each : ∀ item ∈ items, IsWord item.operand)
    (few : ws.length < argsSize) (toks : tokens line = lineTokens items final) :
    ∃ p, parseLine line = .ok p ∧ p.forget = First.Parser.redirected ws inp out ∧
      p.isBgJob = if final then 1 else 0 := by
  have noAmpersand : ∀ token ∈ items.flatMap Item.tokens, ampersand token = false := by
    intro token member
    obtain ⟨item, itemMem, tokenMem⟩ := List.mem_flatMap.mp member
    exact Item.noAmpersand (each item itemMem).noAmpersand token tokenMem
  have kept : withoutAmpersands (tokens line) = items.flatMap Item.tokens := by
    rw [toks]
    exact withoutAmpersands_lineTokens final fun item member => (each item member).noAmpersand
  have both := parseCommand_forget line (.initial 0 0 0 0)
  rw [kept, show (Parser.initial 0 0 0 0).forget = First.Parser.initial 0 0 0 from rfl,
    arranged.foldlM (fun item member => (each item member).plain) few] at both
  unfold parseLine
  cases parsed : parseCommand line (.initial 0 0 0 0) with
  | error write =>
    rw [parsed] at both
    cases both
  | ok p =>
    rw [parsed] at both
    have same : p.forget = First.Parser.redirected ws inp out := Except.ok.inj both
    refine ⟨p, rfl, same, ?_⟩
    -- before the last ampersand nothing has touched `amp_pos`
    unfold parseCommand at parsed
    rw [toks, lineTokens, List.foldlM_append] at parsed
    obtain ⟨last, loop, finish⟩ := Run.except_bind parsed
    obtain ⟨before, front, back⟩ := Run.except_bind loop
    have untouched := Parser.foldlM_background _ _ _ noAmpersand front
    have nothing : before.ampPos = none ∧ before.isBgJob = 0 := ⟨congrArg Prod.fst untouched, congrArg Prod.snd untouched⟩
    unfold Parser.finish at finish
    cases final with
    | false =>
      obtain rfl := Except.ok.inj back
      split at finish
      · obtain rfl := Except.ok.inj finish
        rw [nothing.1, if_neg (by simp)]
        exact nothing.2
      · cases finish
    | true =>
      obtain rfl := Except.ok.inj back
      split at finish
      · obtain rfl := Except.ok.inj finish
        simp
      · cases finish

/-- Wherever the redirections stand among the words, and whatever blanks separate the tokens,
both shells read the same. -/
theorem parse_redirections (arranged : Arranged items ws inp out) (each : ∀ item ∈ items, IsWord item.operand)
    (few : ws.length ≤ 99) :
    (∀ line, Spaced (items.flatMap Item.tokens) line → First.parseLine line = .ok (First.Parser.redirected ws inp out)) ∧
    ∀ final line, Spaced (lineTokens items final) line → ∃ p, parseLine line = .ok p ∧
      p.forget = First.Parser.redirected ws inp out ∧ (p.isBgJob = 1 ↔ final = true) := by
  have room : ws.length < argsSize := Nat.lt_succ_of_le few
  have isToken : ∀ token ∈ items.flatMap Item.tokens, IsToken token := by
    intro token member
    obtain ⟨item, itemMem, tokenMem⟩ := List.mem_flatMap.mp member
    exact Item.isToken (each item itemMem) token tokenMem
  constructor
  · intro line spaced
    have parsed := arranged.foldlM (fun item member => (each item member).plain) room
    rw [← spaced.tokens_eq isToken] at parsed
    exact parsed
  · intro final line spaced
    have toks : tokens line = lineTokens items final := by
      apply spaced.tokens_eq
      intro token member
      rcases List.mem_append.mp member with member | member
      · exact isToken token member
      · cases final with
        | false => cases member
        | true =>
          obtain rfl := List.mem_singleton.mp member
          exact isToken_operator (Or.inr (Or.inr (Or.inr rfl)))
    obtain ⟨p, parsed, same, background⟩ := parse_lineTokens arranged each room toks
    refine ⟨p, parsed, same, ?_⟩
    rw [background]
    cases final <;> simp

/-- An input redirection before the command, an appending one among its arguments. -/
theorem parse_redirections_cat : ∃ p, parseLine (text "< f cat\t>> g  -n &\n") = .ok p ∧
    p.forget = First.Parser.redirected [text "cat", text "-n"] (some (text "f")) (some (true, text "g")) ∧
    p.isBgJob = 1 := by
  have arranged : Arranged [.input (text "f"), .word (text "cat"), .output true (text "g"), .word (text "-n")]
      [text "cat", text "-n"] (some (text "f")) (some (true, text "g")) := ⟨rfl, rfl, rfl⟩
  have each : ∀ item ∈ [Item.input (text "f"), .word (text "cat"), .output true (text "g"), .word (text "-n")],
      IsWord item.operand := by
    intro item member
    simp only [List.mem_cons, List.not_mem_nil, or_false] at member
    rcases member with rfl | rfl | rfl | rfl <;> exact ⟨⟨by decide +kernel, by decide +kernel⟩, by decide +kernel, by decide +kernel⟩
  have blank : Blank (text " ") ∧ Blank (text "\t") ∧ Blank (text "  ") ∧ Blank (text "\n") := by
    unfold Blank
    decide +kernel
  have spaced : Spaced (lineTokens [.input (text "f"), .word (text "cat"), .output true (text "g"), .word (text "-n")] true)
      (text "< f cat\t>> g  -n &\n") := by
    show Gapped _ (text " " ++ (text "<" ++ (text " " ++ (text "f" ++ (text " " ++ (text "cat" ++ (text "\t" ++ (text ">>" ++
      (text " " ++ (text "g" ++ (text "  " ++ (text "-n" ++ (text " " ++ (text "&" ++ text "\n"))))))))))))))
    exact .token (by decide) blank.1 (.token (by decide) blank.1 (.token (by decide) blank.1 (.token (by decide) blank.2.1
      (.token (by decide) blank.1 (.token (by decide) blank.2.2.1 (.token (by decide) blank.1 (.last blank.2.2.2)))))))
  obtain ⟨p, parsed, same, background⟩ := (parse_redirections arranged each (by decide)).2 true _ spaced
  exact ⟨p, parsed, same, background.mpr rfl⟩

end Cs1330.Shell
