import Cs1330.Malloc.Evaluation

/-!
# The verdict on a trace

`eval_mm_valid` accepts a proper trace that the allocator has room for, unless a block with a fill byte
from 128 on is reallocated, or `mm_realloc` copies from behind the region. The replay then has gone as
on the arena.
-/

namespace Cs1330.Malloc
open Machine Tiling

variable {A B : Arena} {b b' : Int → Int} {op : TraceOp} {ops : List TraceOp} {used : List Int}
  {p q ptr size index tracenum i base : Int} {s s' : Heap} {r r' : Replay} {driver : Driver} {e : Entry} {trace : Trace}

/-! ### Requests that pass the checks -/

/-- The replay after a block was recorded and filled. -/
def Replay.placed (r : Replay) (index : Int) (request : Request) (s' : Heap) (p size : Int) (ranges : List Range) :
    Replay :=
  ⟨{ r.driver.called index request s' p with
      ranges := ranges, heap := s'.withMem (memset s'.mem p (fillByte index) size.toNat) },
    Function.update r.blocks index p, Function.update r.blockSizes index size⟩

theorem Driver.Sound.malloc_admitted (sound : driver.Sound) (positive : 0 < size) (high : size ≤ intMax)
    (run : mmMalloc size driver.heap = .ok (p, s')) (nonNull : p ≠ 0) (index tracenum opnum : Int) :
    addRange p size tracenum opnum (driver.called index (.malloc size) s' p) = .ok (1,
      { driver.called index (.malloc size) s' p with ranges := payloadRange p size positive :: driver.ranges }) := by
  obtain ⟨⟨⟨mids, fl, wf, tracked⟩, aligned, _, same⟩, _⟩ := sound
  obtain ⟨p', t, mids', fl', run', final, start, after⟩ := Tracked.malloc wf tracked (Int.le_of_lt positive) high
  obtain ⟨rfl, rfl⟩ := Prod.mk.inj (Except.ok.inj (run.symm.trans run'))
  rw [recordMalloc, if_neg nonNull] at after
  rw [← start] at aligned
  exact addRange_contract (d := driver.called index (.malloc size) s' p) final aligned after same positive

/-- The driver behind `remove_range` for a block that has been resized. -/
def Driver.resized (driver : Driver) (e : Entry) (size : Int) (s' : Heap) (q : Int) : Driver :=
  { driver.called e.index (.realloc e.ptr size) s' q with ranges := driver.ranges.eraseP fun r => r.lo == e.ptr }

theorem Driver.Sound.realloc_admitted (sound : driver.Sound) (member : e ∈ ledger driver.calls) (positive : 0 < size)
    (high : size ≤ intMax) (run : mmRealloc e.ptr size driver.heap = .ok (q, s')) (nonNull : q ≠ 0)
    (tracenum opnum : Int) :
    addRange q size tracenum opnum (driver.resized e size s' q) = .ok (1,
      { driver.resized e size s' q with
        ranges := payloadRange q size positive :: (driver.resized e size s' q).ranges }) ∧
      (lowByte e.index < 128 → holdsFill s'.mem q e.index (if size < e.size then size else e.size) = true) := by
  have books := sound.books
  obtain ⟨⟨mids, fl, wf, tracked⟩, aligned, _, same⟩ := sound.books
  have rMem : e.toLive ∈ (ledger driver.calls).map Entry.toLive := List.mem_map_of_mem member
  have contract := wf.contract tracked aligned
  obtain ⟨q', t, mids', fl', run', final, start, after, copied, _⟩ :=
    Tracked.realloc wf tracked rMem positive (by simp only [intMax] at high; omega)
  obtain ⟨rfl, rfl⟩ := Prod.mk.inj (Except.ok.inj (run.symm.trans run'))
  rw [← start] at aligned
  rw [if_neg nonNull] at after
  have front : Tracked mids' s'.mem (e.toLive.resize q size :: (takeBack (ledger driver.calls) e.ptr).map Entry.toLive) := by
    rw [← takeBack_toLive]
    exact Tracked.front tracked.distinct rMem after
  have removed := eraseP_extent same books.distinct e.ptr
  refine ⟨addRange_contract (d := driver.resized e size s' q) final aligned front removed positive, ?_⟩
  intro low
  have filled : ∀ i, 0 ≤ i → i < e.size → driver.heap.mem (e.ptr + i) = fillByte e.index :=
    fun i least most => contract.contents _ rMem i _ least most (if_pos low)
  exact holdsFill_copied low (Int.le_refl _) filled (copied nonNull)

theorem evalOp_malloc (sound : r.driver.Sound) (positive : 0 < size) (high : size ≤ intMax)
    (run : mmMalloc size r.driver.heap = .ok (p, s')) (nonNull : p ≠ 0) (tracenum i index : Int) :
    evalOp tracenum i (.alloc index size) r = .ok (none,
      r.placed index (.malloc size) s' p size (payloadRange p size positive :: r.driver.ranges)) := by
  have admitted := sound.malloc_admitted positive high run nonNull index tracenum i
  have ran := callAllocator_run (d := r.driver) index (show execute (.malloc size) r.driver.heap = .ok (p, s') from run)
  have placed : allocate index size tracenum i r.driver = .ok (.placed p, (r.placed index (.malloc size) s' p size
      (payloadRange p size positive :: r.driver.ranges)).driver) := by
    unfold allocate
    rw [Run.seq ran, if_neg fun failed => nonNull failed.1, if_neg (by omega), Run.seq admitted]
    rfl
  exact (Run.except_seq placed).trans rfl

/-- The tables of the trace hold this entry. -/
structure Replay.Holds (r : Replay) (e : Entry) : Prop where
  member : e ∈ ledger r.driver.calls
  pointer : r.blocks e.index = e.ptr
  bytes : r.blockSizes e.index = e.size
  positive : 0 < e.size
  high : e.size ≤ intMax

theorem Replay.Tabled.holds (tabled : r.Tabled index) : ∃ e, e.index = index ∧ r.Holds e := by
  obtain ⟨e, member, same, pointer, bytes, positive, high⟩ := tabled
  subst same
  exact ⟨e, rfl, member, pointer, bytes, positive, high⟩

def Replay.resized (r : Replay) (e : Entry) (size : Int) (s' : Heap) (q : Int) (positive : 0 < size) : Replay :=
  r.placed e.index (.realloc e.ptr size) s' q size
    (payloadRange q size positive :: (r.driver.resized e size s' q).ranges)

theorem evalOp_mmRealloc (sound : r.driver.Sound) (holds : r.Holds e) (positive : 0 < size) (high : size ≤ intMax)
    (run : mmRealloc e.ptr size r.driver.heap = .ok (q, s')) (nonNull : q ≠ 0) (low : e.index % 256 < 128)
    (tracenum i : Int) :
    evalOp tracenum i (.realloc e.index size) r = .ok (none, r.resized e size s' q positive) := by
  obtain ⟨admitted, filled⟩ := sound.realloc_admitted holds.member positive high run nonNull tracenum i
  have ran := callAllocator_run (d := r.driver) e.index
    (show execute (.realloc e.ptr size) r.driver.heap = .ok (q, s') from run)
  have remove : removeRange e.ptr (r.driver.called e.index (.realloc e.ptr size) s' q) =
    .ok ((), r.driver.resized e size s' q) := rfl
  have oldsize := oldsize_eq holds.positive holds.high
  let recorded : Driver := { r.driver.resized e size s' q with
    ranges := payloadRange q size positive :: (r.driver.resized e size s' q).ranges }
  have admitted : addRange q size tracenum i (r.driver.resized e size s' q) = .ok (1, recorded) := admitted
  have same : holdsFill recorded.heap.mem q e.index (if size < e.size then size else e.size) = true :=
    filled (by rw [lowByte_eq]; exact low)
  have placed : reallocate e.index e.ptr e.size size tracenum i r.driver =
      .ok (.placed q, (r.resized e size s' q positive).driver) := by
    unfold reallocate
    rw [Run.seq ran, if_neg fun failed => nonNull failed.1, if_neg (by omega), Run.seq remove, Run.seq admitted,
      if_neg (by decide), Run.seq_get, oldsize]
    rw [if_neg (by rw [same]; decide)]
    rfl
  rw [← holds.pointer, ← holds.bytes] at placed
  exact (Run.except_seq placed).trans rfl

/-- The replay after a block was given back. -/
def Replay.freed (r : Replay) (e : Entry) (s' : Heap) : Replay :=
  { r with driver :=
    { r.driver.called e.index (.free e.ptr) s' 0 with ranges := r.driver.ranges.eraseP fun r => r.lo == e.ptr } }

theorem evalOp_mmFree (holds : r.Holds e) (run : execute (.free e.ptr) r.driver.heap = .ok (0, s')) (tracenum i : Int) :
    evalOp tracenum i (.free e.index) r = .ok (none, r.freed e s') := by
  let removed : Driver := { r.driver with ranges := r.driver.ranges.eraseP fun r => r.lo == e.ptr }
  have remove : removeRange e.ptr r.driver = .ok ((), removed) := rfl
  have ran := callAllocator_run (d := removed) e.index run
  have freed : freePayload e.index e.ptr r.driver = .ok ((), (r.freed e s').driver) := by
    unfold freePayload
    rw [Run.seq remove, Run.seq ran]
    rfl
  rw [← holds.pointer] at freed
  exact (Run.except_seq freed).trans rfl

/-! ### What a valid trace does -/

theorem Replay.Holds.held (holds : r.Holds e) (sound : r.driver.Sound) (models : Models r.driver.heap A) :
    A.holds e.ptr = true :=
  (models.owns_iff e.ptr).mp (sound.books.owns holds.member)

/-- A request that `eval_mm_valid` lets pass is one that the arena has room for. -/
theorem evalOp_advances (sound : r.driver.Sound) (models : Models r.driver.heap A) (tabled : ∀ j ∈ used, r.Tabled j)
    (use : InUse used op) (positive : op.Positive) (run : evalOp tracenum i op r = .ok (none, r')) :
    ∃ B, op.advance A r.blocks = some (B, r'.blocks) ∧ Models r'.driver.heap B := by
  obtain ⟨verdict, after, again, _, answered, _⟩ := evalOp_answers sound (ready_of_use tabled use positive) tracenum i
  obtain ⟨rfl, rfl⟩ := Prod.mk.inj (Except.ok.inj (run.symm.trans again))
  cases op with
  | alloc index size =>
    obtain ⟨p, s', malloc, answer, filled⟩ := models.run_malloc positive.1 positive.2
    by_cases null : p = 0
    · subst null
      have refused : ∃ d, allocate index size tracenum i r.driver = .ok (.failed, d) := by
        have ran := callAllocator_run index (show execute (.malloc size) r.driver.heap = .ok (0, s') from malloc)
        unfold allocate
        rw [Run.seq ran, if_pos ⟨rfl, by have := positive.1; omega⟩]
        exact ⟨_, rfl⟩
      obtain ⟨d, refused⟩ := refused
      cases (Run.except_seq refused).symm.trans run
    · have passed := evalOp_malloc sound positive.1 positive.2 malloc null tracenum i index
      obtain ⟨-, rfl⟩ := Prod.mk.inj (Except.ok.inj (run.symm.trans passed))
      refine ⟨(A.malloc size).2, ?_, filled null _⟩
      simp only [TraceOp.advance, answer, pointer, if_neg null, Option.map_some]
      rfl
  | realloc index size =>
    obtain ⟨e, rfl, holds⟩ := (tabled index use).holds
    have held := holds.held sound models
    obtain ⟨q, s', realloc, answer, filled⟩ := models.run_realloc held positive.1 positive.2
    have low : e.index % 256 < 128 := by
      cases answered with
      | passed _ low _ _ => exact low
    by_cases null : q = 0
    · subst null
      have refused : ∃ d, reallocate e.index e.ptr e.size size tracenum i r.driver = .ok (.failed, d) := by
        have ran := callAllocator_run e.index
          (show execute (.realloc e.ptr size) r.driver.heap = .ok (0, s') from realloc)
        unfold reallocate
        rw [Run.seq ran, if_pos ⟨rfl, by have := positive.1; omega⟩]
        exact ⟨_, rfl⟩
      obtain ⟨d, refused⟩ := refused
      rw [← holds.pointer, ← holds.bytes] at refused
      cases (Run.except_seq refused).symm.trans run
    · have passed := evalOp_mmRealloc sound holds positive.1 positive.2 realloc null low tracenum i
      obtain ⟨-, rfl⟩ := Prod.mk.inj (Except.ok.inj (run.symm.trans passed))
      refine ⟨(A.realloc e.ptr size).2, ?_, filled null _⟩
      simp only [TraceOp.advance, holds.pointer, held, answer, pointer, if_neg null, Option.map_some, if_true]
      rfl
  | free index =>
    obtain ⟨e, rfl, holds⟩ := (tabled index use).holds
    have held := holds.held sound models
    obtain ⟨s', free, after⟩ := models.run_free held
    have passed := evalOp_mmFree holds free tracenum i
    obtain ⟨-, rfl⟩ := Prod.mk.inj (Except.ok.inj (run.symm.trans passed))
    refine ⟨A.free e.ptr, ?_, after⟩
    simp only [TraceOp.advance, holds.pointer, held, if_true]
    rfl

/-! ### Copies -/

/-- A call of `mm_realloc` copies where the arena does. -/
theorem Models.inRegion_iff (models : Models s A) (held : A.holds ptr = true)
    (answer : (A.realloc ptr size).1 = pointer q) (index : Int) :
    Call.InRegion ⟨index, .realloc ptr size, s, q⟩ ↔
      ∀ q' ∈ (A.realloc ptr size).1, q' = ptr ∨ ptr + align size ≤ A.start + maxHeap := by
  obtain ⟨b, member, _, rfl⟩ := models.held held
  have positive := models.wf.addr_pos member
  have nonNull : b.addr + 8 ≠ 0 := by omega
  have limit : s.memMaxAddr = A.start + maxHeap := by rw [models.wf.region.extent, models.start]
  rw [answer]
  by_cases null : q = 0
  · simp [Call.InRegion, pointer, null]
  · simp [Call.InRegion, pointer, null, nonNull, limit]

theorem Models.called_inRegion {heap : Heap} {result : Int} (models : Models s A) (positive : op.Positive)
    (held : ∀ size, op = .realloc op.index size → A.holds (b op.index) = true)
    (run : execute (op.request b) s = .ok (result, heap)) :
    Call.InRegion ⟨op.index, op.request b, s, result⟩ ↔ op.InRegion A b := by
  cases op with
  | alloc index size => exact Iff.rfl
  | free index => exact Iff.rfl
  | realloc index size =>
    have held : A.holds (b index) = true := held size rfl
    obtain ⟨q, s', realloc, answer, _⟩ := models.run_realloc held positive.1 positive.2
    obtain ⟨rfl, -⟩ := Prod.mk.inj (Except.ok.inj (run.symm.trans realloc))
    exact models.inRegion_iff held answer index

theorem evalOp_stays {verdict : Option Int} (sound : r.driver.Sound) (models : Models r.driver.heap A)
    (tabled : ∀ j ∈ used, r.Tabled j) (use : InUse used op) (positive : op.Positive)
    (run : evalOp tracenum i op r = .ok (verdict, r')) :
    op.InRegion A r.blocks ∧ stayInRegion r'.driver = .ok ((), r'.driver) ∨
      ¬op.InRegion A r.blocks ∧ stayInRegion r'.driver = .error .pastRegion := by
  obtain ⟨result, heap, call, calls⟩ := evalOp_called run
  have held : ∀ size, op = .realloc op.index size → A.holds (r.blocks op.index) = true := by
    intro size request
    rw [request] at use
    obtain ⟨e, same, holds⟩ := (tabled op.index use).holds
    rw [← same, holds.pointer]
    exact holds.held sound models
  rw [stayInRegion_run calls]
  by_cases inside : op.InRegion A r.blocks
  · exact Or.inl ⟨inside, if_pos ((models.called_inRegion positive held call).mpr inside)⟩
  · exact Or.inr ⟨inside, if_neg fun stays => inside ((models.called_inRegion positive held call).mp stays)⟩

theorem evalLoop_replayed : ∀ {ops : List TraceOp} {i : Int} {used : List Int} {r r' : Replay} {A : Arena},
    r.driver.Sound → Models r.driver.heap A → (∀ j ∈ used, r.Tabled j) → Trace.Along tally InUse used ops →
      (∀ op ∈ ops, op.Positive) → evalLoop tracenum i ops r = .ok (1, r') →
        ∃ B, Arena.replay ops A r.blocks = some (B, r'.blocks) ∧ Models r'.driver.heap B ∧
          (∀ op ∈ ops, op.LowFill) ∧ Arena.InRegion ops A r.blocks := by
  intro ops
  induction ops with
  | nil =>
    intro i used r r' A _ models _ _ _ run
    obtain ⟨-, rfl⟩ := Prod.mk.inj (Except.ok.inj run)
    exact ⟨A, rfl, models, by simp, trivial⟩
  | cons op ops ih =>
    intro i used r r' A sound models tabled ordered positive run
    obtain ⟨now, later⟩ := ordered
    have positiveOp := positive op List.mem_cons_self
    obtain ⟨verdict, r₁, first, sound₁, answered, _⟩ :=
      evalOp_answers sound (ready_of_use tabled now positiveOp) tracenum i
    rw [evalLoop, Run.except_seq first] at run
    rcases evalOp_stays sound models tabled now positiveOp first with ⟨inside, stays⟩ | ⟨_, leaves⟩
    · rw [Run.except_seq stays] at run
      cases verdict with
      | some verdict =>
        cases answered with
        | stopped report errors reason => cases (Prod.mk.inj (Except.ok.inj run)).1
      | none =>
        obtain ⟨A₁, advanced, models₁⟩ := evalOp_advances sound models tabled now positiveOp first
        obtain ⟨B, replayed, final, low, stayed⟩ := ih sound₁ models₁ (answered.tabled positiveOp tabled) later
          (fun op member => positive op (List.mem_cons_of_mem _ member)) run
        refine ⟨B, Option.bind_eq_some_iff.mpr ⟨(A₁, r₁.blocks), advanced, replayed⟩, final, ?_, inside, ?_⟩
        · intro other member
          rcases List.mem_cons.mp member with rfl | member
          · cases answered with
            | passed _ lowOp _ _ => exact lowOp
          · exact low other member
        · intro next same
          obtain rfl := Option.some.inj (same.symm.trans advanced)
          exact stayed
    · rw [leaves] at run
      cases run

/-! ### The verdict -/

/-- Either the loop returns, and the verdict is that on the requests, or a copy has left the region. -/
theorem evalLoop_verdict (tracenum : Int) (ops : List TraceOp) : ∀ (i : Int) (used : List Int) (r : Replay) (A : Arena),
    r.driver.Sound → Models r.driver.heap A → (∀ j ∈ used, r.Tabled j) → Trace.Along tally InUse used ops →
      (∀ op ∈ ops, op.Positive) →
    (∃ verdict r' news, evalLoop tracenum i ops r = .ok (verdict, r') ∧ r'.driver.errors = r.driver.errors ++ news ∧
      ((∀ report ∈ news, ¬report.OutOfHeap) →
        (verdict = 1 ↔ (∀ op ∈ ops, op.LowFill) ∧ Arena.InRegion ops A r.blocks))) ∨
    evalLoop tracenum i ops r = .error .pastRegion ∧ ¬Arena.InRegion ops A r.blocks := by
  induction ops with
  | nil =>
    intro i used r A sound _ _ _ _
    exact Or.inl ⟨1, r, [], rfl, (List.append_nil _).symm, by simp [Arena.InRegion]⟩
  | cons op ops ih =>
    intro i used r A sound models tabled ordered positive
    obtain ⟨now, later⟩ := ordered
    have positiveOp := positive op List.mem_cons_self
    obtain ⟨verdict, r', run, after, answered, _⟩ := evalOp_answers sound (ready_of_use tabled now positiveOp) tracenum i
    rw [evalLoop, Run.except_seq run]
    rcases evalOp_stays sound models tabled now positiveOp run with ⟨inside, stays⟩ | ⟨outside, leaves⟩
    · rw [Run.except_seq stays]
      cases verdict with
      | some verdict =>
        cases answered with
        | stopped report errors reason =>
          refine Or.inl ⟨0, r', [report], rfl, errors, ?_⟩
          intro room
          have high := reason.resolve_left (room report (List.mem_singleton.mpr rfl))
          exact iff_of_false (by decide) fun all => high (all.1 op List.mem_cons_self)
      | none =>
        obtain ⟨B, advanced, models'⟩ := evalOp_advances sound models tabled now positiveOp run
        have onward : Arena.InRegion (op :: ops) A r.blocks ↔ Arena.InRegion ops B r'.blocks := by
          refine ⟨fun all => all.2 _ advanced, fun rest => ⟨inside, ?_⟩⟩
          intro next same
          obtain rfl := Option.some.inj (same.symm.trans advanced)
          exact rest
        cases answered with
        | passed silent low keeps enters =>
          rw [onward, List.forall_mem_cons, and_iff_right low, ← silent]
          exact ih (i + 1) _ r' B after models' (Answered.tabled (.passed silent low keeps enters) positiveOp tabled) later
            fun op member => positive op (List.mem_cons_of_mem _ member)
    · refine Or.inr ⟨?_, fun all => outside all.1⟩
      rw [leaves]
      rfl

theorem resetHeap_models (usable : Usable base) (aligned : base % 8 = 0) (driver : Driver) :
    ∃ d, resetHeap base driver = .ok (0, d) ∧ d.Sound ∧ d.calls = [] ∧ d.errors = driver.errors ∧
      Models d.heap (Arena.initial base) := by
  obtain ⟨d, run, sound, calls, errors⟩ := run_resetHeap usable aligned driver
  refine ⟨d, run, sound, calls, errors, ?_⟩
  obtain ⟨s', init, _⟩ := run_mmInit usable { driver.heap with memBrk := driver.heap.memStartBrk }
  have again : resetHeap base driver = .ok (0, ⟨s', [], driver.errors, []⟩) := by
    show callInit base { driver with heap := { driver.heap with memBrk := driver.heap.memStartBrk }, ranges := [] } = _
    unfold callInit
    rw [Run.seq_get, init]
    rfl
  obtain ⟨-, rfl⟩ := Prod.mk.inj (Except.ok.inj (run.symm.trans again))
  exact Models.init usable init

theorem Arena.initial_at (base base' : Int) : Arena.initial base' = (Arena.initial base).shift (base' - base) := by
  rw [Arena.initial_shift]
  congr 1
  omega

theorem inRegion_at (proper : trace.Proper) (base : Int) (blocks : Int → Int) :
    Arena.InRegion trace.ops (Arena.initial base) blocks ↔ trace.InRegion := by
  unfold Trace.InRegion
  constructor
  · intro inside
    rw [Arena.initial_at base 0]
    exact inRegion_shift (by simp) proper.ordered inside
  · intro inside
    rw [Arena.initial_at 0 base]
    exact inRegion_shift (by simp) proper.ordered inside

theorem lowFill_iff : (∀ op ∈ ops, op.LowFill) ↔ ∀ index size, .realloc index size ∈ ops → index % 256 < 128 := by
  constructor
  · exact fun all index size member => all _ member
  · intro all op member
    cases op with
    | realloc index size => exact all index size member
    | alloc index size => trivial
    | free index => trivial

/-- No other fault than that of a copy is possible. -/
theorem evalMmValid_verdict (usable : Usable base) (aligned : base % 8 = 0) (proper : trace.Proper) (tracenum : Int)
    (r : Replay) :
    (∃ verdict r' news, evalMmValid base tracenum trace r = .ok (verdict, r') ∧
      r'.driver.errors = r.driver.errors ++ news ∧
      ((∀ report ∈ news, ¬report.OutOfHeap) →
        (verdict = 1 ↔ (∀ op ∈ trace.ops, op.LowFill) ∧ trace.InRegion))) ∨
    evalMmValid base tracenum trace r = .error .pastRegion ∧ ¬trace.InRegion := by
  obtain ⟨d, reset, sound, calls, errors, models⟩ := resetHeap_models usable aligned r.driver
  obtain ⟨d', reset', _, _, _, same⟩ := evalMmValid_run usable aligned tracenum trace r
  obtain ⟨-, rfl⟩ := Prod.mk.inj (Except.ok.inj (reset.symm.trans reset'))
  have verdict := evalLoop_verdict tracenum trace.ops 0 [] { r with driver := d } _ sound models (by simp) proper.ordered
    proper.positive
  rw [inRegion_at proper, ← same, errors] at verdict
  exact verdict

/-- If the allocator does not run out of heap, then `eval_mm_valid` returns 1 if and only if no block with
a fill byte from 128 on is reallocated and no copy of `mm_realloc` leaves the region. -/
theorem evalMmValid_iff (usable : Usable base) (aligned : base % 8 = 0) (proper : trace.Proper)
    (room : ∀ verdict r' news, evalMmValid base tracenum trace r = .ok (verdict, r') →
      r'.driver.errors = r.driver.errors ++ news → ∀ report ∈ news, ¬report.OutOfHeap) :
    (∃ r', evalMmValid base tracenum trace r = .ok (1, r')) ↔
      (∀ index size, .realloc index size ∈ trace.ops → index % 256 < 128) ∧ trace.InRegion := by
  rw [← lowFill_iff]
  rcases evalMmValid_verdict usable aligned proper tracenum r with
    ⟨verdict, r', news, run, errors, decides⟩ | ⟨run, outside⟩
  · rw [← decides (room verdict r' news run errors)]
    constructor
    · rintro ⟨_, valid⟩
      exact (Prod.mk.inj (Except.ok.inj (run.symm.trans valid))).1
    · rintro rfl
      exact ⟨r', run⟩
  · refine iff_of_false ?_ fun all => outside all.2
    rintro ⟨_, valid⟩
    cases run.symm.trans valid

theorem evalMmValid_iff_growing : growing.InRegion ∧ ∃ r, evalMmValid 4096 0 growing Replay.fresh = .ok (1, r) := by
  have proper : growing.Proper := ⟨⟨trivial, List.mem_singleton.mpr rfl, List.mem_singleton.mpr rfl, trivial⟩, by
    intro op member
    simp only [growing, List.mem_cons, List.not_mem_nil, or_false] at member
    rcases member with rfl | rfl | rfl
    · exact ⟨by decide, by decide⟩
    · exact ⟨by decide, by decide⟩
    · trivial⟩
  have silent : (evalMmValid 4096 0 growing Replay.fresh).map (fun ended => ended.2.driver.errors) = .ok [] := by
    decide +kernel
  obtain ⟨ended, run', none⟩ := Run.except_map silent
  have inside : growing.InRegion := by decide +kernel
  refine ⟨inside, (evalMmValid_iff usable_4096 (by decide) proper ?_).mpr ⟨?_, inside⟩⟩
  · intro verdict r' news run errors
    obtain rfl := Except.ok.inj (run.symm.trans run')
    obtain rfl : news = [] := errors.symm.trans none
    simp
  · intro index size member
    simp only [growing, List.mem_cons, TraceOp.realloc.injEq, reduceCtorEq, List.not_mem_nil, or_false, false_or] at member
    rw [member.1]
    decide

/-- A block near the end of the region moves to the place of one that was freed. -/
def overrunning : Trace := ⟨2, [.alloc 0 19922944, .alloc 1 40, .free 0, .realloc 1 18874368], by decide⟩

example : ¬overrunning.InRegion := by decide +kernel

/-- A block of one byte, resized to the same size, with a fill byte of 128. -/
def highFill : Trace := ⟨129, [.alloc 128 1, .realloc 128 1], by decide⟩

theorem highFill_rejected : highFill.Proper ∧ ∃ r, evalMmValid 4096 0 highFill Replay.fresh = .ok (0, r) ∧
    ∀ report ∈ r.driver.errors, ¬report.OutOfHeap := by
  have proper : highFill.Proper := ⟨⟨trivial, List.mem_singleton.mpr rfl, trivial⟩, by
    intro op member
    simp only [highFill, List.mem_cons, List.not_mem_nil, or_false] at member
    rcases member with rfl | rfl <;> exact ⟨by decide, by decide⟩⟩
  have seen : (evalMmValid 4096 0 highFill Replay.fresh).map (fun ended => (ended.1, ended.2.driver.errors)) =
      .ok (0, [⟨0, 6, notPreserved, []⟩]) := by decide +kernel
  obtain ⟨⟨verdict, r⟩, run, same⟩ := Run.except_map seen
  obtain ⟨rfl, errors⟩ := Prod.mk.inj same
  refine ⟨proper, r, run, ?_⟩
  intro report member
  have listed : report ∈ [(⟨0, 6, notPreserved, []⟩ : Report)] := errors ▸ member
  obtain rfl := List.mem_singleton.mp listed
  unfold Report.OutOfHeap
  decide

end Cs1330.Malloc
