import Cs1330.Malloc.Verdict

/-!
# Measuring a valid trace

The driver runs `eval_mm_util` and `eval_mm_speed` on the traces that `eval_mm_valid` has accepted.
They do not fail where it did not, and the utilization is that of the payloads in use.
-/

namespace Cs1330.Malloc
open Machine Tiling

variable {A B : Arena} {b b' : Int → Int} {op : TraceOp} {used : List Int} {p q size index tracenum i : Int}
  {s s' : Heap} {r r' u : Replay} {driver : Driver} {e : Entry} {t : Usage} {ranges : List Range}
  {entries : List Entry}

/-! ### Requests that pass the checks -/

theorem onDriver_run {α : Type} {x : DriverM α} {a : α} {driver : Driver} (run : x r.driver = .ok (a, driver)) :
    onDriver x r = .ok (a, { r with driver := driver }) := by
  simp only [onDriver, run]

theorem utilOp_malloc (sound : r.driver.Sound) (positive : 0 < size) (high : size ≤ intMax)
    (run : mmMalloc size r.driver.heap = .ok (p, s')) (nonNull : p ≠ 0) (tracenum i index : Int) (t : Usage) :
    utilOp tracenum i t (.alloc index size) r = .ok (some (t.grow size),
      r.placed index (.malloc size) s' p size (payloadRange p size positive :: r.driver.ranges)) := by
  have admitted := sound.malloc_admitted positive high run nonNull index tracenum i
  have ran := callAllocator_run (d := r.driver) index (show execute (.malloc size) r.driver.heap = .ok (p, s') from run)
  rw [utilOp, Run.seq (onDriver_run ran), if_neg fun failed => nonNull failed.1, if_neg (by omega),
    Run.seq (onDriver_run admitted)]
  rfl

theorem utilOp_mmRealloc (sound : r.driver.Sound) (holds : r.Holds e) (positive : 0 < size) (high : size ≤ intMax)
    (run : mmRealloc e.ptr size r.driver.heap = .ok (q, s')) (nonNull : q ≠ 0) (tracenum i : Int) (t : Usage) :
    utilOp tracenum i t (.realloc e.index size) r =
      .ok (some (t.grow (wrap 32 (size - e.size))), r.resized e size s' q positive) := by
  obtain ⟨admitted, _⟩ := sound.realloc_admitted holds.member positive high run nonNull tracenum i
  have ran := callAllocator_run (d := r.driver) e.index
    (show execute (.realloc e.ptr size) r.driver.heap = .ok (q, s') from run)
  have remove : removeRange e.ptr (r.driver.called e.index (.realloc e.ptr size) s' q) =
    .ok ((), r.driver.resized e size s' q) := rfl
  have oldsize := oldsize_eq holds.positive holds.high
  rw [utilOp, Run.seq_get, holds.pointer, Run.seq (onDriver_run ran), if_neg fun failed => nonNull failed.1,
    if_neg (by omega), Run.seq (onDriver_run remove), Run.seq (onDriver_run admitted), if_neg (by decide)]
  show Except.ok (some (t.grow (wrap 32 (size - wrap 32 (r.blockSizes e.index)))), r.resized e size s' q positive) = _
  rw [holds.bytes, oldsize]

theorem utilOp_mmFree (holds : r.Holds e) (run : execute (.free e.ptr) r.driver.heap = .ok (0, s')) (tracenum i : Int)
    (t : Usage) :
    utilOp tracenum i t (.free e.index) r = .ok (some { t with total := wrap 32 (t.total - e.size) }, r.freed e s') := by
  let removed : Driver := { r.driver with ranges := r.driver.ranges.eraseP fun r => r.lo == e.ptr }
  have remove : removeRange e.ptr r.driver = .ok ((), removed) := rfl
  have ran := callAllocator_run (d := removed) e.index run
  have oldsize := oldsize_eq holds.positive holds.high
  rw [utilOp, Run.seq_get, Run.seq_get, holds.pointer, Run.seq (onDriver_run remove),
    Run.seq (onDriver_run (r := { r with driver := removed }) ran), holds.bytes, oldsize]
  rfl

/-! ### Payloads in use -/

/-- The bytes that the client has asked for and not given back. -/
def outstanding (entries : List Entry) : Int := (entries.map Entry.size).sum

theorem outstanding_cons (e : Entry) (entries : List Entry) : outstanding (e :: entries) = e.size + outstanding entries := rfl

theorem outstanding_takeBack (distinct : entries.Pairwise fun e f => e.ptr ≠ f.ptr) (member : e ∈ entries) :
    outstanding (takeBack entries e.ptr) = outstanding entries - e.size := by
  induction entries with
  | nil => cases member
  | cons f entries ih =>
    obtain ⟨others, distinct⟩ := List.pairwise_cons.mp distinct
    rw [outstanding_cons]
    rcases List.mem_cons.mp member with rfl | later
    · have rest : takeBack (e :: entries) e.ptr = entries := by
        unfold takeBack
        rw [List.filter_cons_of_neg (by simp), List.filter_eq_self]
        intro f member
        simpa using (others f member).symm
      rw [rest]
      omega
    · have kept : takeBack (f :: entries) e.ptr = f :: takeBack entries e.ptr :=
        List.filter_cons_of_pos (by simpa using others e later)
      rw [kept, outstanding_cons, ih distinct later]
      omega

/-- The payloads in use lie in different blocks between the two sentinels. -/
theorem Books.outstanding_le (books : Books s ranges entries) :
    0 ≤ outstanding entries ∧ outstanding entries + 32 ≤ s.memHeapsize ∧ s.memHeapsize ≤ maxHeap := by
  have distinct := books.distinct
  obtain ⟨mids, fl, wf, tracked⟩ := books.heap
  have inside : ∀ e ∈ entries, ∃ b ∈ mids, b.addr = e.ptr - 8 ∧ e.size ≤ b.size ∧ 0 < e.size := by
    intro e member
    obtain ⟨b, bMem, _, backing⟩ := tracked.backed _ (List.mem_map_of_mem member)
    have start := backing.ptr
    have fits := backing.fits
    have positive := backing.positive
    simp only [Entry.toLive] at start fits positive
    exact ⟨b, bMem, by omega, by omega, positive⟩
  have least : 0 ≤ outstanding entries := by
    apply List.sum_nonneg
    intro n member
    obtain ⟨e, eMem, rfl⟩ := List.mem_map.mp member
    obtain ⟨_, _, _, _, positive⟩ := inside e eMem
    exact Int.le_of_lt positive
  have packed : outstanding entries ≤ (mids.map Block.size).sum := by
    have apart : entries.Pairwise fun e f => e.ptr - 8 ≠ f.ptr - 8 := distinct.imp fun other => by omega
    apply packed_sum (fun b bMem => by have := wf.large b bMem; omega) apart
    intro e member
    obtain ⟨b, bMem, start, fits, _⟩ := inside e member
    exact ⟨b, bMem, start, fits⟩
  have all := tiled_sum wf.tiled
  simp only [Heap.layout, Heap.prologueBlock, Heap.epilogueBlock, List.map_cons, List.map_append, List.map_nil,
    List.sum_cons, List.sum_append, List.sum_nil] at all
  have extent := wf.region.extent
  have below := wf.region.below
  simp only [Heap.memHeapsize]
  omega

theorem Usage.grow_eq {n : Int} (low : 0 ≤ t.total + n) (high : t.total + n ≤ maxHeap) :
    t.grow n = ⟨t.total + n, max t.highest (t.total + n)⟩ := by
  have limit : maxHeap = 20971520 := by decide
  have small : wrap 32 (t.total + n) = t.total + n := wrap_int_small low (by omega)
  simp only [Usage.grow, small, gt_iff_lt, Usage.mk.injEq, true_and]
  split <;> omega

/-! ### The measuring runs -/

/-- The books are right and so are the statistics. -/
structure Measured (u : Replay) (A : Arena) (t : Usage) : Prop where
  sound : u.driver.Sound
  models : Models u.driver.heap A
  total : t.total = outstanding (ledger u.driver.calls)
  highest : Trace.IsPeak (fun calls => outstanding (ledger calls)) u.driver.calls t.highest
  room : t.highest + 32 ≤ A.brk - A.start

theorem malloc_brk (A : Arena) (positive : 0 < size) (high : size ≤ intMax) :
    (A.malloc size).2.start = A.start ∧ A.brk ≤ (A.malloc size).2.brk := by
  simp only [intMax] at high
  obtain ⟨large, _⟩ := adjustedSize_bounds positive (by omega)
  unfold Arena.malloc
  rw [if_neg (by omega)]
  dsimp only
  split
  · split <;> exact ⟨rfl, Int.le_refl _⟩
  · split
    · exact ⟨rfl, by show A.brk ≤ A.brk + adjustedSize size; omega⟩
    · exact ⟨rfl, Int.le_refl _⟩

theorem move_brk (A : Arena) (ptr : Int) (positive : 0 < size) (high : size ≤ intMax) :
    (A.move ptr size).2.start = A.start ∧ A.brk ≤ (A.move ptr size).2.brk := by
  have grown := malloc_brk A positive high
  unfold Arena.move
  dsimp only
  split
  · exact ⟨rfl, Int.le_refl _⟩
  · exact grown

theorem realloc_brk (A : Arena) (ptr : Int) (positive : 0 < size) (high : size ≤ intMax) :
    (A.realloc ptr size).2.start = A.start ∧ A.brk ≤ (A.realloc ptr size).2.brk := by
  have moved := move_brk A ptr positive high
  unfold Arena.realloc
  split
  · exact ⟨rfl, Int.le_refl _⟩
  · dsimp only
    split
    · exact ⟨rfl, Int.le_refl _⟩
    · split
      · exact ⟨rfl, Int.le_refl _⟩
      · exact moved

theorem advance_brk (positive : op.Positive) (run : op.advance A b = some (B, b')) :
    B.start = A.start ∧ A.brk ≤ B.brk := by
  cases op with
  | alloc index size =>
    obtain ⟨p, _, same⟩ := Option.map_eq_some_iff.mp run
    obtain ⟨rfl, -⟩ := Prod.mk.inj same
    exact malloc_brk A positive.1 positive.2
  | realloc index size =>
    simp only [TraceOp.advance] at run
    split at run
    · obtain ⟨q, _, same⟩ := Option.map_eq_some_iff.mp run
      obtain ⟨rfl, -⟩ := Prod.mk.inj same
      exact realloc_brk A (b index) positive.1 positive.2
    · cases run
  | free index =>
    simp only [TraceOp.advance] at run
    split at run
    · obtain ⟨rfl, -⟩ := Prod.mk.inj (Option.some.inj run)
      exact ⟨rfl, Int.le_refl _⟩
    · cases run

/-- The statistics behind one more call. -/
theorem Measured.snoc {u' : Replay} {t' : Usage} {call : Call} (measured : Measured u A t) (sound : u'.driver.Sound)
    (models : Models u'.driver.heap B) (grows : B.start = A.start ∧ A.brk ≤ B.brk)
    (calls : u'.driver.calls = u.driver.calls ++ [call]) (total : t'.total = outstanding (ledger u'.driver.calls))
    (highest : t'.highest = max t.highest t'.total) : Measured u' B t' := by
  refine ⟨sound, models, total, ?_, ?_⟩
  · rw [highest, total, calls]
    exact measured.highest.snoc call
  · have room := measured.room
    have bound := sound.books.outstanding_le
    have start := models.start
    have brk := models.brk
    simp only [Heap.memHeapsize] at bound
    rw [highest]
    omega

theorem pointer_eq_some {address : Int} (same : pointer address = some p) : address = p ∧ p ≠ 0 := by
  unfold pointer at same
  split at same
  · cases same
  · rename_i nonNull
    obtain rfl := Option.some.inj same
    exact ⟨rfl, nonNull⟩

/-- What `eval_mm_valid` knows after a request that passed. -/
theorem evalOp_passed (sound : r.driver.Sound) (models : Models r.driver.heap A) (tabled : ∀ j ∈ used, r.Tabled j)
    (use : InUse used op) (positive : op.Positive) (inside : op.InRegion A r.blocks)
    (run : evalOp tracenum i op r = .ok (none, r')) :
    r'.driver.Sound ∧ (∀ j ∈ tally used op, r'.Tabled j) ∧ r'.driver.errors = r.driver.errors ∧
      onDriver stayInRegion r' = .ok ((), r') := by
  obtain ⟨verdict, after, again, sound', answered, _⟩ :=
    evalOp_answers sound (ready_of_use tabled use positive) tracenum i
  obtain ⟨rfl, rfl⟩ := Prod.mk.inj (Except.ok.inj (run.symm.trans again))
  refine ⟨sound', answered.tabled positive tabled, ?_, ?_⟩
  · cases answered with
    | passed errors _ _ _ => exact errors
  · rcases evalOp_stays sound models tabled use positive run with ⟨_, stays⟩ | ⟨outside, _⟩
    · exact onDriver_run stays
    · exact absurd inside outside

/-- Where the arena has room, `eval_mm_util` passes and keeps its statistics. -/
theorem utilOp_run (measured : Measured u A t) (tabled : ∀ j ∈ used, u.Tabled j) (use : InUse used op)
    (positive : op.Positive) (low : op.LowFill) (inside : op.InRegion A u.blocks)
    (advanced : op.advance A u.blocks = some (B, b')) (tracenum i : Int) :
    ∃ t' u', utilOp tracenum i t op u = .ok (some t', u') ∧ Measured u' B t' ∧
      (∀ j ∈ tally used op, u'.Tabled j) ∧ u'.blocks = b' ∧ u'.driver.errors = u.driver.errors ∧
      onDriver stayInRegion u' = .ok ((), u') := by
  have sound := measured.sound
  have models := measured.models
  have total := measured.total
  have grows := advance_brk positive advanced
  cases op with
  | alloc index size =>
    obtain ⟨p, found, same⟩ := Option.map_eq_some_iff.mp advanced
    obtain ⟨rfl, rfl⟩ := Prod.mk.inj same
    obtain ⟨p', s', malloc, answer, filled⟩ := models.run_malloc positive.1 positive.2
    obtain ⟨rfl, nonNull⟩ := pointer_eq_some (answer.symm.trans found)
    obtain ⟨sound', tabled', errors⟩ := evalOp_passed sound models tabled use positive inside
      (evalOp_malloc sound positive.1 positive.2 malloc nonNull tracenum i index)
    refine ⟨_, _, utilOp_malloc sound positive.1 positive.2 malloc nonNull tracenum i index t, ?_, tabled', rfl, errors⟩
    have entered : outstanding (ledger (u.placed index (.malloc size) s' p' size
        (payloadRange p' size positive.1 :: u.driver.ranges)).driver.calls) = t.total + size := by
      have noted : ledger (u.driver.called index (.malloc size) s' p').calls =
        ⟨index, p', size⟩ :: ledger u.driver.calls := (ledger_called ..).trans (if_neg nonNull)
      apply (congrArg outstanding noted).trans
      rw [outstanding_cons, total]
      exact Int.add_comm _ _
    have bound := sound'.books.outstanding_le
    rw [entered] at bound
    have grown := Usage.grow_eq bound.1 (by omega)
    apply measured.snoc sound' (filled nonNull _) grows rfl
    · rw [grown, entered]
    · rw [grown]
  | realloc index size =>
    obtain ⟨e, rfl, holds⟩ := (tabled index use).holds
    simp only [TraceOp.advance, holds.pointer] at advanced
    have held := holds.held sound models
    rw [if_pos held] at advanced
    obtain ⟨q, found, same⟩ := Option.map_eq_some_iff.mp advanced
    obtain ⟨rfl, rfl⟩ := Prod.mk.inj same
    obtain ⟨q', s', realloc, answer, filled⟩ := models.run_realloc held positive.1 positive.2
    obtain ⟨rfl, nonNull⟩ := pointer_eq_some (answer.symm.trans found)
    obtain ⟨sound', tabled', errors⟩ := evalOp_passed sound models tabled use positive inside
      (evalOp_mmRealloc sound holds positive.1 positive.2 realloc nonNull low tracenum i)
    refine ⟨_, _, utilOp_mmRealloc sound holds positive.1 positive.2 realloc nonNull tracenum i t, ?_, tabled', rfl,
      errors⟩
    have entered : outstanding (ledger (u.resized e size s' q' positive.1).driver.calls) = t.total + (size - e.size) := by
      have noted := ledger_realloc u.driver s' q' (sound.books.ptr_ne_zero holds.member) positive.1
      rw [if_neg nonNull] at noted
      apply (congrArg outstanding noted).trans
      rw [outstanding_cons, outstanding_takeBack sound.books.distinct holds.member, total]
      dsimp only
      omega
    have bound := sound'.books.outstanding_le
    rw [entered] at bound
    have sizes : 0 < size ∧ size ≤ 2147483647 := positive
    have least := holds.positive
    have most : e.size ≤ 2147483647 := holds.high
    have difference : wrap 32 (size - e.size) = size - e.size :=
      Int.bmod_eq_of_le (by norm_num; omega) (by norm_num; omega)
    have grown := Usage.grow_eq bound.1 (by omega)
    rw [difference]
    apply measured.snoc sound' (filled nonNull _) grows rfl
    · rw [grown, entered]
    · rw [grown]
  | free index =>
    obtain ⟨e, rfl, holds⟩ := (tabled index use).holds
    simp only [TraceOp.advance, holds.pointer] at advanced
    have held := holds.held sound models
    rw [if_pos held] at advanced
    obtain ⟨rfl, rfl⟩ := Prod.mk.inj (Option.some.inj advanced)
    obtain ⟨s', free, after⟩ := models.run_free held
    obtain ⟨sound', tabled', errors⟩ := evalOp_passed sound models tabled use positive inside
      (evalOp_mmFree holds free tracenum i)
    refine ⟨_, _, utilOp_mmFree holds free tracenum i t, ?_, tabled', rfl, errors⟩
    have entered : outstanding (ledger (u.freed e s').driver.calls) = t.total - e.size := by
      apply (congrArg outstanding (ledger_called u.driver e.index (.free e.ptr) s' 0)).trans
      rw [note, outstanding_takeBack sound.books.distinct holds.member, total]
    have bound := sound'.books.outstanding_le
    rw [entered] at bound
    have limit : maxHeap = 20971520 := by decide
    have shrunk : wrap 32 (t.total - e.size) = t.total - e.size := wrap_int_small bound.1 (by omega)
    have below : t.total ≤ t.highest := measured.highest.2 ⟨_, List.prefix_refl _, total.symm⟩
    have least := holds.positive
    rw [shrunk]
    apply measured.snoc sound' after grows rfl
    · exact entered.symm
    · exact (max_eq_left (by show t.total - e.size ≤ t.highest; omega)).symm

theorem utilLoop_run (tracenum : Int) : ∀ {ops : List TraceOp} {i : Int} {used : List Int} {u : Replay} {A B : Arena}
    {b' : Int → Int} {t : Usage}, Measured u A t → (∀ j ∈ used, u.Tabled j) → Trace.Along tally InUse used ops →
      (∀ op ∈ ops, op.Positive) → (∀ op ∈ ops, op.LowFill) → Arena.InRegion ops A u.blocks →
      Arena.replay ops A u.blocks = some (B, b') →
        ∃ t' u', utilLoop tracenum i ops t u = .ok (some t', u') ∧ Measured u' B t' ∧
          u'.driver.errors = u.driver.errors := by
  intro ops
  induction ops with
  | nil =>
    intro i used u A B b' t measured _ _ _ _ _ replayed
    obtain ⟨rfl, rfl⟩ := Prod.mk.inj (Option.some.inj replayed)
    exact ⟨t, u, rfl, measured, rfl⟩
  | cons op ops ih =>
    intro i used u A B b' t measured tabled ordered positive low inside replayed
    obtain ⟨now, later⟩ := ordered
    obtain ⟨⟨A₁, b₁⟩, first, rest⟩ := Option.bind_eq_some_iff.mp replayed
    obtain ⟨t₁, u₁, run, measured₁, tabled₁, rfl, errors₁, stays⟩ := utilOp_run measured tabled now
      (positive op List.mem_cons_self) (low op List.mem_cons_self) inside.1 first tracenum i
    obtain ⟨t', u', runs, measured', errors⟩ := ih (i := i + 1) measured₁ tabled₁ later
      (fun op member => positive op (List.mem_cons_of_mem _ member)) (fun op member => low op (List.mem_cons_of_mem _ member))
      (inside.2 _ first) rest
    refine ⟨t', u', ?_, measured', errors.trans errors₁⟩
    rw [utilLoop, Run.seq run, Run.seq stays]
    exact runs

theorem speedOp_run {v : Replay} (models : Models v.driver.heap A) (positive : op.Positive)
    (inside : op.InRegion A v.blocks) (advanced : op.advance A v.blocks = some (B, b')) :
    ∃ v', speedOp op v = .ok ((), v') ∧ Models v'.driver.heap B ∧ v'.blocks = b' ∧
      onDriver stayInRegion v' = .ok ((), v') := by
  cases op with
  | alloc index size =>
    obtain ⟨p, found, same⟩ := Option.map_eq_some_iff.mp advanced
    obtain ⟨rfl, rfl⟩ := Prod.mk.inj same
    obtain ⟨p', s', malloc, answer, filled⟩ := models.run_malloc positive.1 positive.2
    obtain ⟨rfl, nonNull⟩ := pointer_eq_some (answer.symm.trans found)
    have ran := callAllocator_run (d := v.driver) index (show execute (.malloc size) v.driver.heap = .ok (p', s') from malloc)
    let after : Driver := { v.driver.called index (.malloc size) s' p' with
      heap := s'.withMem (memset s'.mem p' (fillByte index) size.toNat) }
    have stays : stayInRegion after = .ok ((), after) := stayInRegion_stays rfl trivial
    refine ⟨⟨after, Function.update v.blocks index p', v.blockSizes⟩, ?_, filled nonNull _, rfl, onDriver_run stays⟩
    rw [speedOp, Run.seq (onDriver_run ran), if_neg nonNull]
    rfl
  | realloc index size =>
    simp only [TraceOp.advance] at advanced
    split at advanced
    · rename_i held
      obtain ⟨q, found, same⟩ := Option.map_eq_some_iff.mp advanced
      obtain ⟨rfl, rfl⟩ := Prod.mk.inj same
      obtain ⟨q', s', realloc, answer, filled⟩ := models.run_realloc held positive.1 positive.2
      obtain ⟨rfl, nonNull⟩ := pointer_eq_some (answer.symm.trans found)
      have ran := callAllocator_run (d := v.driver) index
        (show execute (.realloc (v.blocks index) size) v.driver.heap = .ok (q', s') from realloc)
      let after : Driver := { v.driver.called index (.realloc (v.blocks index) size) s' q' with
        heap := s'.withMem (memset s'.mem q' (fillByte index) size.toNat) }
      have stays : stayInRegion after = .ok ((), after) :=
        stayInRegion_stays rfl ((models.inRegion_iff held answer index).mpr inside)
      refine ⟨⟨after, Function.update v.blocks index q', v.blockSizes⟩, ?_, filled nonNull _, rfl, onDriver_run stays⟩
      rw [speedOp, Run.seq_get, Run.seq (onDriver_run ran), if_neg nonNull]
      rfl
    · cases advanced
  | free index =>
    simp only [TraceOp.advance] at advanced
    split at advanced
    · rename_i held
      obtain ⟨rfl, rfl⟩ := Prod.mk.inj (Option.some.inj advanced)
      obtain ⟨s', free, after⟩ := models.run_free held
      have ran := callAllocator_run (d := v.driver) index free
      let freed : Driver := v.driver.called index (.free (v.blocks index)) s' 0
      have stays : stayInRegion freed = .ok ((), freed) := stayInRegion_stays rfl trivial
      refine ⟨{ v with driver := freed }, ?_, after, rfl, onDriver_run stays⟩
      rw [speedOp, Run.seq_get, Run.seq (onDriver_run ran)]
      rfl
    · cases advanced

theorem speedLoop_run : ∀ {ops : List TraceOp} {v : Replay} {A B : Arena} {b' : Int → Int}, Models v.driver.heap A →
    (∀ op ∈ ops, op.Positive) → Arena.InRegion ops A v.blocks → Arena.replay ops A v.blocks = some (B, b') →
      ∃ v', speedLoop ops v = .ok ((), v') ∧ Models v'.driver.heap B := by
  intro ops
  induction ops with
  | nil =>
    intro v A B b' models _ _ replayed
    obtain ⟨rfl, rfl⟩ := Prod.mk.inj (Option.some.inj replayed)
    exact ⟨v, rfl, models⟩
  | cons op ops ih =>
    intro v A B b' models positive inside replayed
    obtain ⟨⟨A₁, b₁⟩, first, rest⟩ := Option.bind_eq_some_iff.mp replayed
    obtain ⟨v₁, run, models₁, rfl, stays⟩ := speedOp_run models (positive op List.mem_cons_self) inside.1 first
    obtain ⟨v', runs, final⟩ :=
      ih models₁ (fun op member => positive op (List.mem_cons_of_mem _ member)) (inside.2 _ first) rest
    have passes : (do speedOp op; onDriver stayInRegion : EvalM Unit) v = .ok ((), v₁) := (Run.seq run).trans stays
    exact ⟨v', (Run.seq passes).trans runs, final⟩

/-! ### Three runs of a trace -/

variable {base base' base'' : Int} {trace : Trace}

theorem evalMmUtil_run (usable : Usable base) (aligned : base % 8 = 0) (proper : trace.Proper)
    (low : ∀ op ∈ trace.ops, op.LowFill) (inside : trace.InRegion) (u : Replay)
    (replayed : Arena.replay trace.ops (Arena.initial base) u.blocks = some (B, b')) (tracenum : Int) :
    ∃ t u', evalMmUtil base tracenum trace u = .ok (some (t.highest, u'.driver.heap.memHeapsize), u') ∧
      Measured u' B t ∧ u'.driver.errors = u.driver.errors := by
  obtain ⟨d, reset, sound, calls, errors, models⟩ := resetHeap_models usable aligned u.driver
  have none : outstanding (ledger d.calls) = 0 := by rw [calls]; rfl
  have measured : Measured { u with driver := d } (Arena.initial base) ⟨0, 0⟩ := by
    refine ⟨sound, models, none.symm, ?_, ?_⟩
    · show Trace.IsPeak _ d.calls _
      rw [calls]
      exact Trace.isPeak_nil _
    · show 0 + 32 ≤ base + 2 * tagsSize - base
      simp only [tagsSize, wordSize]
      omega
  obtain ⟨t, u', run, measured', silent⟩ :=
    utilLoop_run tracenum (i := 0) measured (by simp) proper.ordered proper.positive low
      ((inRegion_at proper _ _).mpr inside) replayed
  refine ⟨t, u', ?_, measured', silent.trans errors⟩
  unfold evalMmUtil
  rw [Run.seq (onDriver_run reset), if_neg (by decide), Run.seq run]
  rfl

theorem evalMmSpeed_run (usable : Usable base) (proper : trace.Proper) (inside : trace.InRegion) (v : Replay)
    (replayed : Arena.replay trace.ops (Arena.initial base) v.blocks = some (B, b')) :
    ∃ v', evalMmSpeed base trace v = .ok ((), v') ∧ Models v'.driver.heap B := by
  let cleared : Driver := { v.driver with heap := { v.driver.heap with memBrk := v.driver.heap.memStartBrk } }
  have clear : memResetBrk v.driver = .ok ((), cleared) := rfl
  obtain ⟨s', init, _⟩ := run_mmInit usable cleared.heap
  have called : callInit base cleared = .ok (0, { cleared with heap := s', calls := [] }) := by
    unfold callInit
    rw [Run.seq_get, init]
    rfl
  obtain ⟨v', runs, models⟩ := speedLoop_run (v := { v with driver := { cleared with heap := s', calls := [] } })
    (Models.init usable init) proper.positive ((inRegion_at proper _ _).mpr inside) replayed
  refine ⟨v', ?_, models⟩
  unfold evalMmSpeed
  rw [Run.seq (onDriver_run clear), Run.seq (onDriver_run (r := { v with driver := cleared }) called), if_neg (by decide)]
  exact runs

/-- Once `eval_mm_valid` has accepted a trace, the measuring runs come to their end on any other
heaps: no call fails, no copy leaves the region, nothing is reported, and the heap grows to the same
size with the same blocks. The utilization is the quotient of the most bytes that were in use at a time
and the size of the heap, which has room for the sentinels besides. -/
theorem evalMmValid_repeats (usable : Usable base) (aligned : base % 8 = 0) (usable' : Usable base')
    (aligned' : base' % 8 = 0) (usable'' : Usable base'') (proper : trace.Proper)
    (valid : evalMmValid base tracenum trace r = .ok (1, r'))
    (u v : Replay) :
    ∃ (peak : Int) (u' v' : Replay) (blocks : List Block),
      evalMmUtil base' tracenum trace u = .ok (some (peak, r'.driver.heap.memHeapsize), u') ∧
      Trace.IsPeak (fun calls => outstanding (ledger calls)) u'.driver.calls peak ∧
      peak + 32 ≤ r'.driver.heap.memHeapsize ∧ u'.driver.errors = u.driver.errors ∧
      evalMmSpeed base'' trace v = .ok ((), v') ∧ r'.driver.heap.blocks = .ok blocks ∧
      u'.driver.heap.blocks = .ok (blocks.map (Block.shift (base' - base))) ∧
      v'.driver.heap.blocks = .ok (blocks.map (Block.shift (base'' - base))) := by
  obtain ⟨d, reset, sound, calls, errors, models⟩ := resetHeap_models usable aligned r.driver
  obtain ⟨d', reset', _, _, _, same⟩ := evalMmValid_run usable aligned tracenum trace r
  obtain ⟨-, rfl⟩ := Prod.mk.inj (Except.ok.inj (reset.symm.trans reset'))
  obtain ⟨B, replayed, final, low, stayed⟩ := evalLoop_replayed (r := { r with driver := d }) sound models (by simp)
    proper.ordered proper.positive (same.symm.trans valid)
  have inside := (inRegion_at proper _ _).mp stayed
  obtain ⟨_, there⟩ := replay_shift (k := base' - base) (c := u.blocks) (by simp) proper.ordered replayed
  obtain ⟨_, elsewhere⟩ := replay_shift (k := base'' - base) (c := v.blocks) (by simp) proper.ordered replayed
  rw [← Arena.initial_at] at there elsewhere
  obtain ⟨t, u', util, measured, silent⟩ := evalMmUtil_run usable' aligned' proper low inside u there tracenum
  obtain ⟨v', speed, models''⟩ := evalMmSpeed_run usable'' proper inside v elsewhere
  have models' := measured.models
  have size : u'.driver.heap.memHeapsize = r'.driver.heap.memHeapsize := by
    have start := final.start
    have brk := final.brk
    have start' := models'.start
    have brk' := models'.brk
    simp only [Heap.memHeapsize, Arena.shift] at start' brk' ⊢
    omega
  refine ⟨t.highest, u', v', B.layout, by rw [util, size], measured.highest, ?_, silent, speed, final.blocks_eq, ?_, ?_⟩
  · have room := measured.room
    have start := final.start
    have brk := final.brk
    simp only [Heap.memHeapsize, Arena.shift] at room ⊢
    omega
  · rw [models'.blocks_eq, Arena.layout_shift]
  · rw [models''.blocks_eq, Arena.layout_shift]

/-- A block moves, and what it leaves is used again. -/
def reusing : Trace := ⟨2, [.alloc 0 8, .realloc 0 64, .alloc 1 4], by decide⟩

theorem evalMmValid_repeats_reusing : ∃ (peak : Int) (u v : Replay),
    evalMmUtil 8192 0 reusing Replay.fresh = .ok (some (peak, 144), u) ∧ peak + 32 ≤ 144 ∧
    evalMmSpeed 12288 reusing Replay.fresh = .ok ((), v) := by
  have proper : reusing.Proper := ⟨⟨trivial, List.mem_singleton.mpr rfl, trivial, trivial⟩, by
    simp [reusing, TraceOp.Positive, intMax]⟩
  have seen : (evalMmValid 4096 0 reusing Replay.fresh).map (fun ended => (ended.1, ended.2.driver.heap.memHeapsize)) =
      .ok (1, 144) := by decide +kernel
  obtain ⟨⟨verdict, r⟩, run, same⟩ := Run.except_map seen
  obtain ⟨rfl, size⟩ := Prod.mk.inj same
  have usable : Usable 8192 := ⟨by decide, by decide⟩
  have usable' : Usable 12288 := ⟨by decide, by decide⟩
  obtain ⟨peak, u, v, _, util, _, room, _, speed, _⟩ := evalMmValid_repeats usable_4096 (by decide) usable (by decide)
    usable' proper run Replay.fresh Replay.fresh
  rw [size] at util room
  exact ⟨peak, u, v, util, room, speed⟩

example : (evalMmUtil 8192 0 reusing Replay.fresh).map Prod.fst = .ok (some (68, 144)) := by decide +kernel

end Cs1330.Malloc
