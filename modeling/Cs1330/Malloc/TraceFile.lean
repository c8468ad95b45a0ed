import Cs1330.Lib.Decimal
import Cs1330.Malloc.Consistent

/-!
# Trace files

`read_trace` of `mdriver.c` and `traces/checktrace.pl`, on the bytes of a trace file. The script
prints the file again with a `free` request for each block that is still outstanding.
-/

namespace Cs1330.Malloc
open Machine

/-! ### `read_trace` -/

/-- How `read_trace` ends without a trace. -/
inductive ReadFault where
  /-- a numeral that `fscanf` cannot store: the standard leaves the result undefined -/
  | outOfRange
  /-- a header field of which nothing was read is used -/
  | unset
  /-- a word that does not fit into `type` -/
  | longType
  /-- `unix_error("malloc .. failed in read_trace")` -/
  | noMemory
  /-- a request is written behind the end of `trace->ops` -/
  | beyondOps (opIndex : Nat)
  /-- `Bogus type character` -/
  | bogusType (c : UInt8)
  /-- the assertion on `max_index` or on `op_index` -/
  | assertion
  deriving DecidableEq, Repr

/-- `fscanf(tracefile, "%d", &field)`; `none` when nothing is stored in the field. -/
def scanField (input : CString) : Except ReadFault (Option Int × CString) :=
  match scanInteger input with
  | (some n, rest) => if -2 ^ 31 ≤ n ∧ n ≤ intMax then .ok (some n, rest) else .error .outOfRange
  | (none, rest) => .ok (none, rest)

/-- The `%u` conversion into a variable that holds `old`, and whether it was one. -/
def scanUnsigned (old : Int) (input : CString) : Except ReadFault (Bool × Int × CString) :=
  match scanInteger input with
  | (some n, rest) => if -2 ^ 32 < n ∧ n < 2 ^ 32 then .ok (true, n % 2 ^ 32, rest) else .error .outOfRange
  | (none, rest) => .ok (false, old, rest)

/-- `fscanf(tracefile, "%u %u", &index, &size)`. -/
def scanPair (index size : Int) (input : CString) : Except ReadFault (Int × Int × CString) := do
  let first ← scanUnsigned index input
  if first.1 then
    let second ← scanUnsigned size first.2.2
    return (first.2.1, second.2.1, second.2.2)
  else return (first.2.1, size, first.2.2)

/-- `fscanf(tracefile, "%ud", &index)`: the `d` is to be matched. -/
def scanFreed (index : Int) (input : CString) : Except ReadFault (Int × CString) := do
  let read ← scanUnsigned index input
  if read.1 ∧ read.2.2.head? = some (byte 'd') then return (read.2.1, read.2.2.tail)
  else return read.2

/-- The variables of the loop: `index`, `size`, `max_index`, and the requests stored so far. -/
structure Reading where
  index : Int
  size : Int
  maxIndex : Int
  ops : List TraceOp
  deriving DecidableEq, Repr

/-- `trace->ops[op_index] = op`, in an array of `num_ops`. -/
def Reading.store (r : Reading) (numOps : Int) (op : TraceOp) : Except ReadFault Reading :=
  if r.ops.length < numOps then .ok { r with ops := r.ops ++ [op] } else .error (.beyondOps r.ops.length)

/-- The `switch` on the type character; the fields of a request are of type `int`. -/
def Reading.request (r : Reading) (numOps : Int) (type : CString) (input : CString) :
    Except ReadFault (Reading × CString) :=
  match type.head? with
  | some c =>
    if c = byte 'a' then do
      let read ← scanPair r.index r.size input
      let stored ← r.store numOps (.alloc (wrap 32 read.1) (wrap 32 read.2.1))
      return (⟨read.1, read.2.1, max r.maxIndex read.1, stored.ops⟩, read.2.2)
    else if c = byte 'r' then do
      let read ← scanPair r.index r.size input
      let stored ← r.store numOps (.realloc (wrap 32 read.1) (wrap 32 read.2.1))
      return (⟨read.1, read.2.1, max r.maxIndex read.1, stored.ops⟩, read.2.2)
    else if c = byte 'f' then do
      let read ← scanFreed r.index input
      let stored ← r.store numOps (.free (wrap 32 read.1))
      return ({ stored with index := read.1 }, read.2)
    else .error (.bogusType c)
  | none => .error (.bogusType 0)

/-- `while (fscanf(tracefile, "%s", type) != EOF)`; a round takes a byte of the input at least. -/
def readRequests (numOps : Int) : Nat → Reading → CString → Except ReadFault Reading
  | 0, r, _ => .ok r
  | rounds + 1, r, input => do
    match scanWord (input.length + 1) input with
    | none => return r
    | some (type, rest) =>
      if type.length < 1024 then
        let next ← r.request numOps type rest
        readRequests numOps rounds next.1 next.2
      else throw .longType

/-- What `read_trace` stores: `num_ids` and the requests. -/
structure TraceRead where
  numIds : Int
  ops : List TraceOp
  deriving DecidableEq, Repr

def readTrace (input : CString) : Except ReadFault TraceRead := do
  let suggHeapsize ← scanField input
  let numIds ← scanField suggHeapsize.2
  let numOps ← scanField numIds.2
  let weight ← scanField numOps.2
  match numIds.1, numOps.1 with
  | some numIds, some numOps =>
    if numOps < 0 ∨ numIds < 0 then throw .noMemory
    else
      let r ← readRequests numOps (weight.2.length + 1) ⟨0, 0, 0, []⟩ weight.2
      if wrap 32 r.maxIndex = numIds - 1 ∧ r.ops.length = numOps then return ⟨numIds, r.ops⟩
      else throw .assertion
  | _, _ => throw .unset

/-! ### `checktrace.pl` -/

/-- The messages that the script dies with; a line number stands in the first ones. -/
inductive Died where
  | reallocWithoutAlloc (linenum : Nat)
  | allocateTwice (linenum : Nat)
  | reusedId (linenum : Nat) (id : CString)
  | freeingUnallocated (linenum : Nat)
  | freeingFreed (linenum : Nat)
  | invalidResidue
  deriving DecidableEq, Repr

/-- A scalar that is true in a condition. -/
def truthy : Option CString → Bool
  | none => false
  | some s => s ≠ [] ∧ s ≠ [byte '0']

/-- `%HASH`: each id with the command that entered it. -/
abbrev Hash := List (CString × CString)

def Hash.delete (hash : Hash) (id : CString) : Hash := hash.filter fun entry => entry.1 ≠ id

def Hash.store (hash : Hash) (id cmd : CString) : Hash := (id, cmd) :: hash.delete id

/-- One line of the loop, from its words on. -/
def Hash.request (hash : Hash) (linenum : Nat) (cmd id : CString) : Except Died Hash :=
  if cmd = text "r" then
    if truthy (hash.lookup id) then .ok hash else .error (.reallocWithoutAlloc linenum)
  else if cmd = text "a" ∧ hash.lookup id = some (text "a") then .error (.allocateTwice linenum)
  else if cmd = text "a" ∧ hash.lookup id = some (text "f") then .error (.reusedId linenum id)
  else if cmd = text "f" ∧ hash.lookup id = none then .error (.freeingUnallocated linenum)
  -- `!` binds more tightly than `eq`: the empty string or 1 is compared
  else if cmd = text "f" ∧ (if truthy (hash.lookup id) then [] else text "1") = text "f" then .error (.freeingFreed linenum)
  else if cmd = text "f" then .ok (hash.delete id)
  else .ok (hash.store id cmd)

/-- The loop over the lines behind the header: the lines that are not blank, and `%HASH`. -/
def checkLines : Nat → Hash → List CString → Except Died (List CString × Hash)
  | _, hash, [] => .ok ([], hash)
  | linenum, hash, line :: rest =>
    let fields := words line
    let cmd := fields[0]?
    if truthy cmd then do
      let hash ← hash.request (linenum + 1) (cmd.getD []) (fields[1]?.getD [])
      let checked ← checkLines (linenum + 1) hash rest
      return (line :: checked.1, checked.2)
    else checkLines (linenum + 1) hash rest

/-- An integer as `print` writes it. -/
def signed (n : Int) : CString := if n < 0 then byte '-' :: decimal n.natAbs else decimal n.natAbs

/-- `$old_num_ops + $new_ops`, for a header line that is not a fraction. -/
def addOps (oldNumOps : CString) (newOps : Nat) : Int := (scanInteger oldNumOps).1.getD 0 + newOps

def printLines (list : List CString) : CString := list.flatMap fun line => line ++ [byte '\n']

/-- `sort keys %HASH` -/
def Hash.sortedKeys (hash : Hash) : List CString := (hash.map Prod.fst).mergeSort fun a b => decide (a ≤ b)

/-- What the script prints for an input; `-s` asks for the summary. -/
def checktracePl (summary : Bool) (input : CString) : Except Died CString := do
  let header := (lines input).take 4
  let checked ← checkLines 4 [] ((lines input).drop 4)
  let hash := checked.2
  if summary then
    return if hash = [] then text "Balanced trace.\n" else text "Unbalanced tree.\n"
  else if hash.all fun entry => entry.2 = text "a" ∨ entry.2 = text "r" then
    return printLines ([header[0]?.getD [], header[1]?.getD [], signed (addOps (header[2]?.getD []) hash.length),
      header[3]?.getD []] ++ checked.1 ++ hash.sortedKeys.map fun key => text "f " ++ key)
  else throw .invalidResidue

/-! ### The format -/

def TraceOp.line : TraceOp → CString
  | .alloc index size => text "a" ++ byte ' ' :: (decimal index.toNat ++ byte ' ' :: decimal size.toNat)
  | .realloc index size => text "r" ++ byte ' ' :: (decimal index.toNat ++ byte ' ' :: decimal size.toNat)
  | .free index => text "f" ++ byte ' ' :: decimal index.toNat

/-- The fields of the request are in the range of `int`, and not negative. -/
def TraceOp.Printable (op : TraceOp) : Prop := (0 ≤ op.index ∧ op.index ≤ intMax) ∧ op.Natural

/-- A header of four numbers and the requests. -/
structure TraceFile where
  suggHeapsize : Nat
  numIds : Nat
  numOps : Nat
  weight : Nat
  ops : List TraceOp

namespace TraceFile

def text (f : TraceFile) : CString :=
  printLines ([decimal f.suggHeapsize, decimal f.numIds, decimal f.numOps, decimal f.weight] ++ f.ops.map TraceOp.line)

structure Printable (f : TraceFile) : Prop where
  suggHeapsize : f.suggHeapsize ≤ intMax
  numIds : f.numIds ≤ intMax
  numOps : f.numOps ≤ intMax
  weight : f.weight ≤ intMax
  ops : ∀ op ∈ f.ops, op.Printable

end TraceFile

/-- The ids that are outstanding behind the requests. -/
def outstandingIds (ops : List TraceOp) : List Int := ops.foldl tally []

/-- The outstanding ids, in the order of their numerals. -/
def residue (ops : List TraceOp) : List Int :=
  (outstandingIds ops).mergeSort fun i j => decide (decimal i.toNat ≤ decimal j.toNat)

def TraceFile.balanced (f : TraceFile) : TraceFile :=
  { f with numOps := f.numOps + (residue f.ops).length, ops := f.ops ++ (residue f.ops).map .free }

/-- `max_index` behind the requests. -/
def highest (ops : List TraceOp) (init : Int) : Int :=
  ops.foldl (fun high op => match op with
    | .alloc index _ => max high index
    | .realloc index _ => max high index
    | .free _ => high) init

/-- The header has the right number of requests and of ids. -/
def TraceFile.Counted (f : TraceFile) : Prop := f.numOps = f.ops.length ∧ f.numIds = highest f.ops 0 + 1

end Cs1330.Malloc
