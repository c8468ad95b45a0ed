import Cs1330.Lib.CString
import Cs1330.Lib.Word

/-!
# Command lines

`parse_command` of the second shell. The parser has no error result: a repeated redirection is
reported on `stderr` and the loop goes on. `args` has room for 100 entries and no write to it is
checked, so a write behind its end is an error of the model.
-/

namespace Cs1330.Shell

/-- The delimiters `" \t\n"` of the `strtok` calls. -/
def delimiter (c : UInt8) : Bool := c == 32 || c == 9 || c == 10

/-- What `strtok` returns for a line, call after call. -/
def tokens (command : CString) : List CString :=
  (command.splitOnP delimiter).filter fun token => !token.isEmpty

/-- What the next word is taken for. -/
inductive SkipNext where
  | argument | inputFile | outputFile
  deriving DecidableEq, Repr

inductive Message where
  | multipleOutputFiles | multipleInputFiles
  deriving DecidableEq, Repr

def Message.text : Message → CString
  | multipleOutputFiles => Cs1330.text "syntax error: multiple output files\n"
  | multipleInputFiles => Cs1330.text "syntax error: multiple input files\n"

/-- The number of entries of `args`. -/
def argsSize : Nat := 100

/-- A write to an entry that `args` does not have. -/
structure Overflow where
  index : Nat
  deriving DecidableEq, Repr

/-- The variables of the loop. `args` holds the words that were stored; the next one goes to
the entry `argCount`. -/
structure Parser where
  args : List CString
  argCount : Nat
  /-- 0, or 1 after `<` -/
  inputRedir : Int
  /-- 0, 1 after `>` or 2 after `>>` -/
  outputRedir : Int
  inputFile : Option CString
  outputFile : Option CString
  isBgJob : Int
  ampPos : Option Nat
  skipNext : SkipNext
  messages : List Message
  deriving DecidableEq, Repr

namespace Parser

def initial (argCount : Nat) (inputRedir outputRedir isBgJob : Int) : Parser :=
  ⟨[], argCount, inputRedir, outputRedir, none, none, isBgJob, none, .argument, []⟩

def report (p : Parser) (message : Message) : Parser := { p with messages := p.messages ++ [message] }

def redirectOutput (p : Parser) (kind : Int) : Parser :=
  let reported := if p.outputRedir ≠ 0 then p.report .multipleOutputFiles else p
  { reported with outputRedir := kind, skipNext := .outputFile }

def redirectInput (p : Parser) : Parser :=
  let reported := if p.inputRedir ≠ 0 then p.report .multipleInputFiles else p
  { reported with inputRedir := 1, skipNext := .inputFile }

def word (p : Parser) (token : CString) : Except Overflow Parser :=
  match p.skipNext with
  | .argument =>
    if p.argCount < argsSize then .ok { p with args := p.args ++ [token], argCount := p.argCount + 1 }
    else .error ⟨p.argCount⟩
  | .inputFile => .ok { p with inputFile := some token, skipNext := .argument }
  | .outputFile => .ok { p with outputFile := some token, skipNext := .argument }

/-- One round of the loop. -/
def token (p : Parser) (token : CString) : Except Overflow Parser :=
  if token = text ">" then .ok (p.redirectOutput 1)
  else if token = text ">>" then .ok (p.redirectOutput 2)
  else if token = text "<" then .ok p.redirectInput
  else if token = text "&" then .ok { p with ampPos := some p.argCount }
  else p.word token

/-- Behind the loop: the terminating `NULL` and the test of `amp_pos`. -/
def finish (p : Parser) : Except Overflow Parser :=
  if p.argCount < argsSize then .ok (if p.ampPos = some p.argCount then { p with isBgJob := 1 } else p)
  else .error ⟨p.argCount⟩

end Parser

/-- `parse_command`, from the values that its counters and flags have at the call. -/
def parseCommand (command : CString) (start : Parser) : Except Overflow Parser := do
  let p ← (tokens command).foldlM Parser.token start
  p.finish

/-- The call in `execute_command`. -/
def parseLine (command : CString) : Except Overflow Parser :=
  parseCommand command (Parser.initial 0 0 0 0)

/-! ### Numbers in arguments -/

/-- The decimal digits at the start of a string, as a number. -/
def digits (s : CString) : Nat :=
  (s.takeWhile fun c => byte '0' ≤ c && c ≤ byte '9').foldl (fun n c => 10 * n + (c.toNat - 48)) 0

/-- `atoi`: `strtol` in base ten, which stays in the range of `long`, and its conversion to
`int`. -/
def atoi (s : CString) : Int :=
  let s := s.dropWhile isspace
  let value : Int :=
    match s with
    | c :: rest => if c = byte '-' then -(digits rest : Int) else if c = byte '+' then digits rest else digits s
    | [] => 0
  Machine.wrap 32 (max (-2 ^ 63) (min (2 ^ 63 - 1) value))

end Cs1330.Shell
