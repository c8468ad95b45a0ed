import Cs1330.Shell.Execute

/-!
# The first shell

`sh.c` of the first shell. Its `parse_command` is an older copy of the second shell's, without
the ampersand. It has neither a job list nor process groups, so those fields of the state are
never touched here.
-/

namespace Cs1330.Shell.First

/-- The variables of the loop, as in the second shell. -/
structure Parser where
  args : List CString
  argCount : Nat
  inputRedir : Int
  outputRedir : Int
  inputFile : Option CString
  outputFile : Option CString
  skipNext : SkipNext
  messages : List Message
  deriving DecidableEq, Repr

namespace Parser

def initial (argCount : Nat) (inputRedir outputRedir : Int) : Parser :=
  ⟨[], argCount, inputRedir, outputRedir, none, none, .argument, []⟩

def report (p : Parser) (message : Message) : Parser := { p with messages := p.messages ++ [message] }

def redirectOutput (p : Parser) (kind : Int) : Parser :=
  let reported := if p.outputRedir ≠ 0 then p.report .multipleOutputFiles else p
  { reported with outputRedir := kind, skipNext := .outputFile }

def redirectInput (p : Parser) : Parser :=
  let reported := if p.inputRedir ≠ 0 then p.report .multipleInputFiles else p
  { reported with inputRedir := 1, skipNext := .inputFile }

def word (p : Parser) (token : CString) : Except Overflow Parser :=
  match p.skipNext with
  | .argument =>
    if p.argCount < argsSize then .ok { p with args := p.args ++ [token], argCount := p.argCount + 1 }
    else .error ⟨p.argCount⟩
  | .inputFile => .ok { p with inputFile := some token, skipNext := .argument }
  | .outputFile => .ok { p with outputFile := some token, skipNext := .argument }

/-- One round of the loop. -/
def token (p : Parser) (token : CString) : Except Overflow Parser :=
  if token = text ">" then .ok (p.redirectOutput 1)
  else if token = text ">>" then .ok (p.redirectOutput 2)
  else if token = text "<" then .ok p.redirectInput
  else p.word token

/-- The terminating `NULL`. -/
def finish (p : Parser) : Except Overflow Parser :=
  if p.argCount < argsSize then .ok p else .error ⟨p.argCount⟩

end Parser

def parseCommand (command : CString) (start : Parser) : Except Overflow Parser := do
  let p ← (tokens command).foldlM Parser.token start
  p.finish

def parseLine (command : CString) : Except Overflow Parser := parseCommand command (Parser.initial 0 0 0)

/-! ### Executing a line -/

def argument (p : Parser) (i : Nat) : ShellM CString :=
  match p.args[i]? with
  | some arg => pure arg
  | none => throw .nullArgument

def oneArgument (name : String) (call : CString → Call) (p : Parser) (answers : Answers) : ShellM Unit :=
  if p.argCount ≠ 2 then print .stderr (text s!"{name}: syntax error\n")
  else do orPerror (call (← argument p 1)) name answers.error

def cd : Parser → Answers → ShellM Unit := oneArgument "cd" .chdir

def rm : Parser → Answers → ShellM Unit := oneArgument "rm" .unlink

def ln (p : Parser) (answers : Answers) : ShellM Unit :=
  if p.argCount ≠ 3 then print .stderr (text "ln: syntax error\n")
  else do orPerror (.link (← argument p 1) (← argument p 2)) "ln" answers.error

/-- The branch `pid == 0`, without the process group and the signals of the second shell. -/
def childCalls (p : Parser) (name : CString) (answers : ChildAnswers) : List ChildCall :=
  let input := if p.inputRedir ≠ 0 then [.close 0, .openFile p.inputFile .read] else []
  let outputMode : List OpenMode :=
    if p.outputRedir = 1 then [.truncate] else if p.outputRedir = 2 then [.append] else []
  let output := if p.outputRedir ≠ 0 then .close 1 :: outputMode.map (.openFile p.outputFile) else []
  let execv := [.execv name p.args]
  let fails (file : Option CString) (error : CString) := [.print .stderr (perrorText file error), .exit 1]
  match (if p.inputRedir ≠ 0 then answers.input else none),
      (if outputMode ≠ [] then answers.output else none), answers.execv with
  | some error, _, _ => input ++ fails p.inputFile error
  | none, some error, _ => input ++ output ++ fails p.outputFile error
  | none, none, some error => input ++ output ++ execv ++ fails (some (text "execv")) error
  | none, none, none => input ++ output ++ execv

/-- The options of `waitpid(pid, &status, 0)`. -/
def waitOptions : WaitOptions := ⟨false, false, false⟩

def launch (p : Parser) (command : CString) (answers : Answers) : ShellM Unit := do
  fork answers.forked (childCalls p command answers.child)
  waitpid answers.forked waitOptions answers.waited

def runCommand (p : Parser) (command : CString) (answers : Answers) : ShellM Unit :=
  if command = text "cd" then cd p answers
  else if command = text "ln" then ln p answers
  else if command = text "rm" then rm p answers
  else if command = text "exit" then exit 0
  else launch p command answers

def parse (command : CString) : ShellM Parser :=
  match parseLine command with
  | .error write => throw (.overflow write)
  | .ok p => do
    p.messages.forM fun message => print .stderr message.text
    return p

def executeCommand (command : CString) (answers : Answers) : ShellM Unit := do
  let p ← parse command
  match p.args with
  | [] => pure ()
  | name :: _ => runCommand p name answers

end Cs1330.Shell.First
