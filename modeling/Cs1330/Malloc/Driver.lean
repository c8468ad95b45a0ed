import Cs1330.Lib.Run
import Cs1330.Malloc.Runs

/-!
# The driver of the allocator

`mdriver.c`: the list of payload ranges, the reports of `malloc_error`, and the checks that
`eval_mm_valid` and the REPL put around each call of the allocator. Plain `char` is signed.
-/

namespace Cs1330.Malloc
open Machine
open Run (Keeps)

/-- `range_t`: the first and the last byte of a payload. -/
structure Range where
  lo : Int
  hi : Int
  ordered : lo ≤ hi
  deriving DecidableEq, Repr

def Range.Contains (p : Range) (a : Int) : Prop := p.lo ≤ a ∧ a ≤ p.hi

instance (p : Range) (a : Int) : Decidable (p.Contains a) := inferInstanceAs (Decidable (_ ∧ _))

/-- The range of a payload of `size` bytes at `lo`. -/
def payloadRange (lo size : Int) (positive : 0 < size) : Range := ⟨lo, lo + size - 1, by omega⟩

/-- What `malloc_error` prints: the place in the trace file, the format and its arguments. -/
structure Report where
  tracenum : Int
  line : Int
  msg : String
  args : List Int
  deriving DecidableEq, Repr

/-- A call of the allocator: the index it is made for, the heap it is made in, and its result. -/
structure Call where
  index : Int
  request : Request
  heap : Heap
  result : Int

/-- The copy of `mm_realloc`, which takes `align(size)` bytes from the old payload on, does not read
behind `mem_max_addr`, the end of what `malloc(MAX_HEAP)` gave. -/
def Call.InRegion (call : Call) : Prop :=
  match call.request with
  | .realloc ptr size =>
    ptr = 0 ∨ call.result = 0 ∨ call.result = ptr ∨ ptr + align size ≤ call.heap.memMaxAddr
  | _ => True

instance : DecidablePred Call.InRegion
  | ⟨_, .realloc _ _, _, _⟩ => inferInstanceAs (Decidable (_ ∨ _))
  | ⟨_, .malloc _, _, _⟩ => .isTrue trivial
  | ⟨_, .free _, _, _⟩ => .isTrue trivial
  | ⟨_, .write _ _, _, _⟩ => .isTrue trivial

structure Driver where
  heap : Heap
  ranges : List Range
  errors : List Report
  /-- The calls since `mm_init`; the program keeps no such record. -/
  calls : List Call

def Driver.called (d : Driver) (index : Int) (request : Request) (heap : Heap) (result : Int) : Driver :=
  { d with heap := heap, calls := d.calls ++ [⟨index, request, d.heap, result⟩] }

inductive DriverFault where
  | allocator (fault : Fault)
  /-- The assertion in `add_range`. -/
  | sizePositive
  /-- A copy of `mm_realloc` from behind `mem_max_addr`. -/
  | pastRegion
  deriving DecidableEq, Repr

abbrev DriverM := StateT Driver (Except DriverFault)

/-- `mm_malloc`, `mm_free` or `mm_realloc` on behalf of `index`. -/
def callAllocator (index : Int) (request : Request) : DriverM Int := do
  let d ← get
  match execute request d.heap with
  | .ok (result, heap) =>
    set (d.called index request heap result)
    return result
  | .error fault => throw (.allocator fault)

/-- The last call has stayed in the region: `mmRealloc` itself copies in flat memory. -/
def stayInRegion : DriverM Unit := do
  let d ← get
  if d.calls.getLast?.any fun call => ¬call.InRegion then
    throw .pastRegion

theorem stayInRegion_run {d : Driver} {calls : List Call} {call : Call} (last : d.calls = calls ++ [call]) :
    stayInRegion d = if call.InRegion then .ok ((), d) else .error .pastRegion := by
  unfold stayInRegion
  rw [Run.seq_get, last, List.getLast?_concat, Option.any_some]
  by_cases inside : call.InRegion
  · rw [if_pos inside, if_neg (by simpa using inside)]
    rfl
  · rw [if_neg inside, if_pos (by simpa using inside)]
    rfl

theorem stayInRegion_stays {d : Driver} {calls : List Call} {call : Call} (last : d.calls = calls ++ [call])
    (inside : call.InRegion) : stayInRegion d = .ok ((), d) :=
  (stayInRegion_run last).trans (if_pos inside)

def lineNum (i : Int) : Int := i + 5

def mallocError (tracenum opnum : Int) (msg : String) (args : List Int) : DriverM Unit :=
  modify fun d => { d with errors := d.errors ++ [⟨tracenum, lineNum opnum, msg, args⟩] }

def notAligned : String := "Payload address (%p) not aligned to %d bytes"
def outsideHeap : String := "Payload (%p:%p) lies outside heap (%p:%p)"
def overlapsAnother : String := "Payload (%p:%p) overlaps another payload (%p:%p)\n"
def mallocFailed : String := "mm_malloc failed."
def reallocFailed : String := "mm_realloc failed."
def notPreserved : String := "mm_realloc did not preserve the data from old block"

def addRange (lo size tracenum opnum : Int) : DriverM Int := do
  if size = 0 then
    return 1
  if positive : 0 < size then
    let range := payloadRange lo size positive
    let d ← get
    if lo % alignment ≠ 0 then
      mallocError tracenum opnum notAligned [lo, alignment]
      return 0
    if lo < d.heap.memHeapLo ∨ lo > d.heap.memHeapHi ∨ range.hi < d.heap.memHeapLo ∨ range.hi > d.heap.memHeapHi then
      mallocError tracenum opnum outsideHeap [lo, range.hi, d.heap.memHeapLo, d.heap.memHeapHi]
      return 0
    match d.ranges.find? fun p => p.Contains lo ∨ p.Contains range.hi with
    | some p =>
      mallocError tracenum opnum overlapsAnother [lo, range.hi, p.lo, p.hi]
      return 0
    | none =>
      set { d with ranges := range :: d.ranges }
      return 1
  else
    throw .sizePositive

/-- `remove_range`: the first record whose payload starts at `lo`. -/
def removeRange (lo : Int) : DriverM Unit :=
  modify fun d => { d with ranges := d.ranges.eraseP fun p => p.lo == lo }

def clearRanges : DriverM Unit := modify fun d => { d with ranges := [] }

def memResetBrk : DriverM Unit :=
  modify fun d => { d with heap := { d.heap with memBrk := d.heap.memStartBrk } }

/-- `mm_init`, with the address that its `mem_init` gets from libc. -/
def callInit (base : Int) : DriverM Int := do
  let d ← get
  match mmInit base d.heap with
  | .ok (result, heap) =>
    set { d with heap := heap, calls := [] }
    return result
  | .error fault => throw (.allocator fault)

/-- The first lines of `eval_mm_valid` and of `reset_cmd`. -/
def resetHeap (base : Int) : DriverM Int := do
  memResetBrk
  clearRanges
  callInit base

/-! ### The requests of a trace or of the REPL -/

/-- `index & 0xFF`. -/
def lowByte (index : Int) : Int := land index 255

/-- The byte that `memset` makes of `index & 0xFF`. -/
def fillByte (index : Int) : UInt8 := UInt8.ofNat (lowByte index).toNat

/-- A byte read as a `char`. -/
def charOf (byte : UInt8) : Int := wrap 8 byte.toNat

def fill (p index size : Int) : DriverM Unit :=
  modify fun d => { d with heap := d.heap.withMem (memset d.heap.mem p (fillByte index) size.toNat) }

/-- The loop over `newp[j]`. -/
def holdsFill (m : Memory) (newp index oldsize : Int) : Bool :=
  (List.range oldsize.toNat).all fun j => charOf (m (newp + j)) == lowByte index

/-- How a request for a block ends: after a report, at once because its size is 0, or with a
block that is recorded and filled. -/
inductive Outcome where
  | failed
  | empty
  | placed (p : Int)
  deriving DecidableEq, Repr

/-- The `ALLOC` case of `eval_mm_valid` and the body of `malloc_cmd`, up to `Remember region`. -/
def allocate (index size tracenum opnum : Int) : DriverM Outcome := do
  let p ← callAllocator index (.malloc size)
  if p = 0 ∧ size ≠ 0 then
    mallocError tracenum opnum mallocFailed []
    return .failed
  if size = 0 then
    return .empty
  if (← addRange p size tracenum opnum) = 0 then
    return .failed
  fill p index size
  return .placed p

/-- The `REALLOC` case of `eval_mm_valid` and the body of `remalloc_cmd`, up to `Remember region`;
`blockSize` is the size in the table, a `size_t` that is assigned to the `int oldsize`. -/
def reallocate (index oldp blockSize size tracenum opnum : Int) : DriverM Outcome := do
  let newp ← callAllocator index (.realloc oldp size)
  if newp = 0 ∧ size ≠ 0 then
    mallocError tracenum opnum reallocFailed []
    return .failed
  if size = 0 then
    return .empty
  removeRange oldp
  if (← addRange newp size tracenum opnum) = 0 then
    return .failed
  let oldsize := wrap 32 blockSize
  let oldsize := if size < oldsize then size else oldsize
  if holdsFill (← get).heap.mem newp index oldsize = false then
    mallocError tracenum opnum notPreserved []
    return .failed
  fill newp index size
  return .placed newp

/-- The `FREE` case of `eval_mm_valid` and the body of `free_cmd`. -/
def freePayload (index p : Int) : DriverM Unit := do
  removeRange p
  let _ ← callAllocator index (.free p)
  return ()

/-! ### The calls of a request -/

variable {α : Type} {a : α} {d d' : Driver} {lo index size tracenum opnum : Int} {request : Request}

def SameCalls (d d' : Driver) : Prop := d'.calls = d.calls

instance sameCallsRefl : Std.Refl SameCalls := ⟨fun _ => rfl⟩

instance sameCallsTrans : IsTrans Driver SameCalls := ⟨fun _ _ _ first second => Eq.trans second first⟩

theorem mallocError_calls (msg : String) (args : List Int) : Keeps SameCalls (mallocError tracenum opnum msg args) :=
  .of_modify fun _ => rfl

theorem removeRange_calls : Keeps SameCalls (removeRange lo) := .of_modify fun _ => rfl

theorem fill_calls : Keeps SameCalls (fill lo index size) := .of_modify fun _ => rfl

theorem addRange_calls : Keeps SameCalls (addRange lo size tracenum opnum) := by
  intro d a d' run
  unfold addRange at run
  split at run
  · cases run
    rfl
  split at run
  · rw [Run.seq_get] at run
    split at run
    · exact (mallocError_calls _ _).bind (fun _ => .of_pure _) run
    split at run
    · exact (mallocError_calls _ _).bind (fun _ => .of_pure _) run
    generalize d.ranges.find? _ = found at run
    cases found with
    | some p => exact (mallocError_calls _ _).bind (fun _ => .of_pure _) run
    | none =>
      cases run
      rfl
  · cases run

/-- A program that calls the allocator first and then looks at what it got. -/
theorem called_first {x : Int → DriverM α} (rest : ∀ p, Keeps SameCalls (x p))
    (run : (callAllocator index request >>= x) d = .ok (a, d')) :
    ∃ result heap, execute request d.heap = .ok (result, heap) ∧ d'.calls = d.calls ++ [⟨index, request, d.heap, result⟩] := by
  obtain ⟨p, d₁, call, looked⟩ := Run.bind run
  unfold callAllocator at call
  rw [Run.seq_get] at call
  cases answer : execute request d.heap with
  | ok ended =>
    rw [answer] at call
    cases call
    exact ⟨_, _, rfl, rest _ looked⟩
  | error fault =>
    rw [answer] at call
    cases call

theorem allocate_called {outcome : Outcome} (run : allocate index size tracenum opnum d = .ok (outcome, d')) :
    ∃ result heap, execute (.malloc size) d.heap = .ok (result, heap) ∧
      d'.calls = d.calls ++ [⟨index, .malloc size, d.heap, result⟩] := by
  refine called_first ?_ run
  intro p
  split
  · exact (mallocError_calls _ _).bind fun _ => .of_pure _
  split
  · exact .of_pure _
  refine addRange_calls.bind ?_
  intro added
  split
  · exact .of_pure _
  · exact fill_calls.bind fun _ => .of_pure _

theorem reallocate_called {oldp blockSize : Int} {outcome : Outcome}
    (run : reallocate index oldp blockSize size tracenum opnum d = .ok (outcome, d')) :
    ∃ result heap, execute (.realloc oldp size) d.heap = .ok (result, heap) ∧
      d'.calls = d.calls ++ [⟨index, .realloc oldp size, d.heap, result⟩] := by
  refine called_first ?_ run
  intro newp
  split
  · exact (mallocError_calls _ _).bind fun _ => .of_pure _
  split
  · exact .of_pure _
  refine removeRange_calls.bind fun _ => addRange_calls.bind ?_
  intro added
  split
  · exact .of_pure _
  refine Keeps.of_get.bind ?_
  intro d
  split <;>
    split
  · exact (mallocError_calls _ _).bind fun _ => .of_pure _
  · exact fill_calls.bind fun _ => .of_pure _
  · exact (mallocError_calls _ _).bind fun _ => .of_pure _
  · exact fill_calls.bind fun _ => .of_pure _

theorem freePayload_called {p : Int} (run : freePayload index p d = .ok ((), d')) :
    ∃ result heap, execute (.free p) d.heap = .ok (result, heap) ∧
      d'.calls = d.calls ++ [⟨index, .free p, d.heap, result⟩] := by
  obtain ⟨_, removed, first, rest⟩ := Run.bind run
  cases first
  have called := called_first (fun _ => .of_pure PUnit.unit) rest
  exact called

end Cs1330.Malloc
