import Mathlib.Logic.Function.Basic
import Cs1330.Malloc.Books

/-!
# Replaying a trace

`eval_mm_valid` of `mdriver.c` over `mm.c`. A block is filled with the low byte of its index, and
`mm_realloc` is checked by reading the bytes back as `char`s, which are negative from 128 on.
-/

namespace Cs1330.Malloc
open Machine

/-- `traceop_t`; the size of a `FREE` request is not read. -/
inductive TraceOp where
  | alloc (index size : Int)
  | realloc (index size : Int)
  | free (index : Int)
  deriving DecidableEq, Repr

def TraceOp.index : TraceOp → Int
  | .alloc index _ => index
  | .realloc index _ => index
  | .free index => index

/-- A `trace_t` as `read_trace` leaves it: every id is below `num_ids`. -/
structure Trace where
  numIds : Int
  ops : List TraceOp
  inside : ∀ op ∈ ops, 0 ≤ op.index ∧ op.index < numIds

/-- The driver with the arrays `blocks` and `block_sizes` of the trace, which start out with
whatever `malloc` left in them. -/
structure Replay where
  driver : Driver
  blocks : Int → Int
  blockSizes : Int → Int

/-- The end of an `ALLOC` or `REALLOC` case: `return 0`, `break`, or `Remember region`. -/
def Replay.conclude (r : Replay) (index size : Int) (d : Driver) : Outcome → Option Int × Replay
  | .failed => (some 0, { r with driver := d })
  | .empty => (none, { r with driver := d })
  | .placed p => (none, ⟨d, Function.update r.blocks index p, Function.update r.blockSizes index size⟩)

/-- The `switch` for request `i`; the value is what `eval_mm_valid` returns there, if it does. -/
def evalOp (tracenum i : Int) (op : TraceOp) (r : Replay) : Except DriverFault (Option Int × Replay) :=
  match op with
  | .alloc index size => do
    let ended ← allocate index size tracenum i r.driver
    return r.conclude index size ended.2 ended.1
  | .realloc index size => do
    let ended ← reallocate index (r.blocks index) (r.blockSizes index) size tracenum i r.driver
    return r.conclude index size ended.2 ended.1
  | .free index => do
    let ended ← freePayload index (r.blocks index) r.driver
    return (none, { r with driver := ended.2 })

/-- The loop over the requests from number `i` on. The last call is that of the request. -/
def evalLoop (tracenum : Int) : Int → List TraceOp → Replay → Except DriverFault (Int × Replay)
  | _, [], r => return (1, r)
  | i, op :: ops, r => do
    let ended ← evalOp tracenum i op r
    let _ ← stayInRegion ended.2.driver
    match ended.1 with
    | some verdict => return (verdict, ended.2)
    | none => evalLoop tracenum (i + 1) ops ended.2

def evalMmValid (base tracenum : Int) (trace : Trace) (r : Replay) : Except DriverFault (Int × Replay) := do
  let started ← resetHeap base r.driver
  if started.1 < 0 then
    let reported ← mallocError tracenum 0 "mm_init failed." [] started.2
    return (0, { r with driver := reported.2 })
  evalLoop tracenum 0 trace.ops { r with driver := started.2 }

variable {r r' : Replay} {d d' : Driver} {e f : Entry} {op : TraceOp} {ops : List TraceOp}
  {index size tracenum i j base : Int} {outcome : Outcome} {entries : List Entry} {s : Heap} {ranges : List Range}

/-! ### One request -/

/-- The call that a request makes. -/
def TraceOp.request (blocks : Int → Int) : TraceOp → Request
  | .alloc _ size => .malloc size
  | .realloc index size => .realloc (blocks index) size
  | .free index => .free (blocks index)

/-- A request makes one call, in the heap it finds. -/
theorem evalOp_called {verdict : Option Int} (run : evalOp tracenum i op r = .ok (verdict, r')) :
    ∃ result heap, execute (op.request r.blocks) r.driver.heap = .ok (result, heap) ∧
      r'.driver.calls = r.driver.calls ++ [⟨op.index, op.request r.blocks, r.driver.heap, result⟩] := by
  have concluded : ∀ (index size : Int) (d : Driver) (outcome : Outcome),
      r.conclude index size d outcome = (verdict, r') → r'.driver = d := by
    intro index size d outcome same
    cases outcome <;> obtain ⟨-, rfl⟩ := Prod.mk.inj same <;> rfl
  cases op with
  | alloc index size =>
    obtain ⟨ended, call, rest⟩ := Run.except_bind run
    rw [concluded _ _ _ _ (Except.ok.inj rest)]
    exact allocate_called call
  | realloc index size =>
    obtain ⟨ended, call, rest⟩ := Run.except_bind run
    rw [concluded _ _ _ _ (Except.ok.inj rest)]
    exact reallocate_called call
  | free index =>
    obtain ⟨ended, call, rest⟩ := Run.except_bind run
    obtain ⟨-, rfl⟩ := Prod.mk.inj (Except.ok.inj rest)
    exact freePayload_called call

/-- The tables of the trace hold the block that the ledger has for this id. -/
def Replay.Tabled (r : Replay) (index : Int) : Prop :=
  ∃ e ∈ ledger r.driver.calls, e.index = index ∧ r.blocks index = e.ptr ∧ r.blockSizes index = e.size ∧
    0 < e.size ∧ e.size ≤ intMax

/-- What the replay asks of a request. -/
def TraceOp.Ready (r : Replay) : TraceOp → Prop
  | .alloc _ size => 0 ≤ size ∧ size ≤ intMax
  | .realloc index size => r.Tabled index ∧ 0 < size ∧ size ≤ intMax
  | .free index => r.Tabled index

/-- The fill byte of a block that is reallocated is a `char`. -/
def TraceOp.LowFill : TraceOp → Prop
  | .realloc index _ => index % 256 < 128
  | _ => True

/-- An id stays tabled until it is freed. -/
def TraceOp.Frees : TraceOp → Int → Prop
  | .free index, j => j = index
  | _, _ => False

def Report.OutOfHeap (report : Report) : Prop := report.msg = mallocFailed ∨ report.msg = reallocFailed

/-- What a request does to the ledger. -/
inductive Entered (op : TraceOp) (entries : List Entry) : List Entry → Prop
  | same (request : ∀ index, op ≠ .free index) : Entered op entries entries
  | added (index p size : Int) (request : op = .alloc index size) : Entered op entries (⟨index, p, size⟩ :: entries)
  | moved (e : Entry) (q size : Int) (request : op = .realloc e.index size) (member : e ∈ entries) :
      Entered op entries (⟨e.index, q, size⟩ :: takeBack entries e.ptr)
  | freed (e : Entry) (request : op = .free e.index) (member : e ∈ entries) :
      Entered op entries (takeBack entries e.ptr)

theorem Entered.of_eq {entries' after : List Entry} (entered : Entered op entries after) (same : entries' = after) :
    Entered op entries entries' := by
  rw [same]
  exact entered

/-- How a request ends: with a report and `return 0`, or with the tables as the next request needs them. -/
inductive Answered (op : TraceOp) (r r' : Replay) : Option Int → Prop
  | stopped (report : Report) (errors : r'.driver.errors = r.driver.errors ++ [report])
      (reason : report.OutOfHeap ∨ ¬op.LowFill) : Answered op r r' (some 0)
  | passed (errors : r'.driver.errors = r.driver.errors) (low : op.LowFill)
      (keeps : ∀ j, r.Tabled j → ¬op.Frees j → r'.Tabled j)
      (enters : ∀ index size, op = .alloc index size → 0 < size → r'.Tabled index) : Answered op r r' none

/-- Entering a block in the tables leaves the blocks of the other ids where they are. -/
theorem Replay.tabled_update {p : Int} (positive : 0 < size) (high : size ≤ intMax)
    (entered : (⟨index, p, size⟩ : Entry) ∈ ledger d.calls)
    (kept : ∀ e ∈ ledger r.driver.calls, e.index ≠ index → e ∈ ledger d.calls) (tabled : r.Tabled j ∨ j = index) :
    Replay.Tabled ⟨d, Function.update r.blocks index p, Function.update r.blockSizes index size⟩ j := by
  by_cases same : j = index
  · subst same
    exact ⟨_, entered, rfl, Function.update_self .., Function.update_self .., positive, high⟩
  · obtain ⟨e, member, rfl, pointer, bytes, bounds⟩ := tabled.resolve_right same
    exact ⟨e, kept e member same, rfl, (Function.update_of_ne same ..).trans pointer,
      (Function.update_of_ne same ..).trans bytes, bounds⟩

theorem evalOp_alloc (sound : r.driver.Sound) (low : 0 ≤ size) (high : size ≤ intMax) (tracenum i index : Int) :
    ∃ verdict r', evalOp tracenum i (.alloc index size) r = .ok (verdict, r') ∧ r'.driver.Sound ∧
      Answered (.alloc index size) r r' verdict ∧
      Entered (.alloc index size) (ledger r.driver.calls) (ledger r'.driver.calls) := by
  obtain ⟨outcome, d, run, after, ended⟩ := sound.allocate index tracenum i low high
  have same : evalOp tracenum i (.alloc index size) r = .ok (r.conclude index size d outcome) := Run.except_seq run
  rw [same]
  cases ended with
  | failed positive kept report =>
    exact ⟨_, _, rfl, after, .stopped _ report (Or.inl (Or.inl rfl)),
      (Entered.same fun _ equal => by cases equal).of_eq kept⟩
  | empty zero kept silent =>
    refine ⟨_, _, rfl, after, .passed silent trivial ?_ ?_, (Entered.same fun _ equal => by cases equal).of_eq kept⟩
    · intro j tabled _
      unfold Replay.Tabled
      rw [kept]
      exact tabled
    · intro index' size' equal positive
      cases equal
      omega
  | placed p positive entered silent =>
    have member : ∀ e ∈ ledger r.driver.calls, e.index ≠ index → e ∈ ledger d.calls := by
      intro e eMem _
      rw [entered]
      exact List.mem_cons_of_mem _ eMem
    have new : (⟨index, p, size⟩ : Entry) ∈ ledger d.calls := by
      rw [entered]
      exact List.mem_cons_self
    refine ⟨_, _, rfl, after, .passed silent trivial ?_ ?_, (Entered.added index p size rfl).of_eq entered⟩
    · exact fun j tabled _ => Replay.tabled_update positive high new member (Or.inl tabled)
    · intro index' size' equal _
      cases equal
      exact Replay.tabled_update positive high new member (Or.inr rfl)

theorem Books.kept_takeBack (books : Books s ranges entries) (eMem : e ∈ entries) (fMem : f ∈ entries)
    (other : f.index ≠ e.index) : f ∈ takeBack entries e.ptr := by
  refine mem_takeBack.mpr ⟨fMem, ?_⟩
  intro same
  exact other (congrArg Entry.index (books.eq_of_ptr fMem eMem same))

theorem evalOp_realloc (sound : r.driver.Sound) (tabled : r.Tabled index) (positive : 0 < size) (high : size ≤ intMax)
    (tracenum i : Int) :
    ∃ verdict r', evalOp tracenum i (.realloc index size) r = .ok (verdict, r') ∧ r'.driver.Sound ∧
      Answered (.realloc index size) r r' verdict ∧
      Entered (.realloc index size) (ledger r.driver.calls) (ledger r'.driver.calls) := by
  obtain ⟨e, member, rfl, pointer, bytes, least, most⟩ := tabled
  obtain ⟨outcome, d, run, after, ended⟩ :=
    sound.reallocate member tracenum i positive high least most fun _ => Int.le_refl _
  rw [← pointer, ← bytes] at run
  have same : evalOp tracenum i (.realloc e.index size) r = .ok (r.conclude e.index size d outcome) := Run.except_seq run
  have fillByte := lowByte_eq e.index
  rw [same]
  cases ended with
  | failed kept report =>
    exact ⟨_, _, rfl, after, .stopped _ report (Or.inl (Or.inr rfl)),
      (Entered.same fun _ equal => by cases equal).of_eq kept⟩
  | lost q s' large nonNull run entered report =>
    refine ⟨_, _, rfl, after, .stopped _ report (Or.inr ?_), (Entered.moved e q size rfl member).of_eq entered⟩
    intro small
    simp only [TraceOp.LowFill] at small
    omega
  | placed q small entered silent =>
    refine ⟨_, _, rfl, after, .passed silent (by show e.index % 256 < 128; omega) ?_ (fun _ _ equal => by cases equal),
      (Entered.moved e q size rfl member).of_eq entered⟩
    intro j tabled _
    refine Replay.tabled_update positive high (by rw [entered]; exact List.mem_cons_self) ?_ (Or.inl tabled)
    intro f fMem other
    rw [entered]
    exact List.mem_cons_of_mem _ (sound.books.kept_takeBack member fMem other)

theorem evalOp_free (sound : r.driver.Sound) (tabled : r.Tabled index) (tracenum i : Int) :
    ∃ verdict r', evalOp tracenum i (.free index) r = .ok (verdict, r') ∧ r'.driver.Sound ∧
      Answered (.free index) r r' verdict ∧ Entered (.free index) (ledger r.driver.calls) (ledger r'.driver.calls) := by
  obtain ⟨e, member, rfl, pointer, bytes, least, most⟩ := tabled
  obtain ⟨d, run, after, entered, silent⟩ := sound.freePayload member
  rw [← pointer] at run
  have same : evalOp tracenum i (.free e.index) r = .ok (none, { r with driver := d }) := Run.except_seq run
  rw [same]
  refine ⟨_, _, rfl, after, .passed silent trivial ?_ (fun _ _ equal => by cases equal),
    (Entered.freed e rfl member).of_eq entered⟩
  rintro j ⟨f, fMem, rfl, rest⟩ other
  refine ⟨f, ?_, rfl, rest⟩
  rw [entered]
  exact sound.books.kept_takeBack member fMem other

theorem evalOp_answers (sound : r.driver.Sound) (ready : op.Ready r) (tracenum i : Int) :
    ∃ verdict r', evalOp tracenum i op r = .ok (verdict, r') ∧ r'.driver.Sound ∧ Answered op r r' verdict ∧
      Entered op (ledger r.driver.calls) (ledger r'.driver.calls) := by
  cases op with
  | alloc index size => exact evalOp_alloc sound ready.1 ready.2 tracenum i index
  | realloc index size => exact evalOp_realloc sound ready.1 ready.2.1 ready.2.2 tracenum i
  | free index => exact evalOp_free sound ready tracenum i

/-! ### Requests in their order -/

/-- The ids that are outstanding after a request: in `checktrace.pl` the keys of `%HASH`, which all
have the value `"a"`. -/
def tally (hash : List Int) : TraceOp → List Int
  | .alloc index _ => index :: hash
  | .realloc _ _ => hash
  | .free index => hash.filter fun j => j != index

def InUse (used : List Int) : TraceOp → Prop
  | .alloc _ _ => True
  | .realloc index _ => index ∈ used
  | .free index => index ∈ used

def TraceOp.Positive : TraceOp → Prop
  | .alloc _ size => 0 < size ∧ size ≤ intMax
  | .realloc _ size => 0 < size ∧ size ≤ intMax
  | .free _ => True

/-- Each id is allocated before it is reallocated or freed, and not used after it is freed; all sizes are positive. -/
structure Trace.Proper (trace : Trace) : Prop where
  ordered : Trace.Along tally InUse [] trace.ops
  positive : ∀ op ∈ trace.ops, op.Positive

theorem ready_of_use {used : List Int} (tabled : ∀ j ∈ used, r.Tabled j) (use : InUse used op) (positive : op.Positive) :
    op.Ready r := by
  cases op with
  | alloc index size => exact ⟨Int.le_of_lt positive.1, positive.2⟩
  | realloc index size => exact ⟨tabled index use, positive⟩
  | free index => exact tabled index use

/-- An outstanding id was so before the request and is not the one that it frees, or is allocated by it. -/
theorem tally_cases {used : List Int} (member : j ∈ tally used op) :
    (j ∈ used ∧ ¬op.Frees j) ∨ ∃ size, op = .alloc j size := by
  cases op with
  | alloc index size =>
    rcases List.mem_cons.mp member with rfl | old
    · exact Or.inr ⟨size, rfl⟩
    · exact Or.inl ⟨old, id⟩
  | realloc index size => exact Or.inl ⟨member, id⟩
  | free index =>
    obtain ⟨old, different⟩ := List.mem_filter.mp member
    exact Or.inl ⟨old, fun same => by simp [show j = index from same] at different⟩

/-- A request that passes leaves every id in use in the tables. -/
theorem Answered.tabled {used : List Int} (answered : Answered op r r' none) (positive : op.Positive)
    (tabled : ∀ j ∈ used, r.Tabled j) : ∀ j ∈ tally used op, r'.Tabled j := by
  cases answered with
  | passed errors low keeps enters =>
    intro j member
    rcases tally_cases member with ⟨old, kept⟩ | ⟨size, rfl⟩
    · exact keeps j (tabled j old) kept
    · exact enters j size rfl positive.1

/-- A loop that returns has passed the first request, or has returned there. -/
theorem evalLoop_first {verdict : Int} (run : evalLoop tracenum i (op :: ops) r = .ok (verdict, r')) :
    ∃ ended next, evalOp tracenum i op r = .ok (ended, next) ∧
      (ended = some verdict ∧ next = r' ∨ ended = none ∧ evalLoop tracenum (i + 1) ops next = .ok (verdict, r')) := by
  rw [evalLoop] at run
  obtain ⟨⟨ended, next⟩, first, run⟩ := Run.except_bind run
  obtain ⟨_, _, rest⟩ := Run.except_bind run
  refine ⟨ended, next, first, ?_⟩
  cases ended with
  | some value =>
    obtain ⟨rfl, rfl⟩ := Prod.mk.inj (Except.ok.inj rest)
    exact Or.inl ⟨rfl, rfl⟩
  | none => exact Or.inr ⟨rfl, rest⟩

theorem evalMmValid_run (usable : Usable base) (aligned : base % 8 = 0) (tracenum : Int) (trace : Trace) (r : Replay) :
    ∃ d, resetHeap base r.driver = .ok (0, d) ∧ d.Sound ∧ d.calls = [] ∧ d.errors = r.driver.errors ∧
      evalMmValid base tracenum trace r = evalLoop tracenum 0 trace.ops { r with driver := d } := by
  obtain ⟨d, run, sound, calls, errors⟩ := run_resetHeap usable aligned r.driver
  refine ⟨d, run, sound, calls, errors, ?_⟩
  unfold evalMmValid
  rw [run]
  rfl

/-- Arrays and a heap that nothing has been stored in. -/
def Replay.fresh : Replay := ⟨⟨⟨fun _ => 0, 0, 0, 0, 0, 0, 0⟩, [], [], []⟩, fun _ => 0, fun _ => 0⟩

def growing : Trace := ⟨1, [.alloc 0 40, .realloc 0 80, .free 0], by decide⟩

end Cs1330.Malloc
