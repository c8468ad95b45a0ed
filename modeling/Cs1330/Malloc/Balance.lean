import Cs1330.Malloc.TraceText

/-!
# Balanced trace files

The file that `checktrace.pl` prints has the requests that it read, with the outstanding blocks freed
behind them. `read_trace` reads it when it could read the original, the script has nothing to add to
it, and a replay of it leaves an empty heap.
-/

namespace Cs1330.Malloc

variable {f : TraceFile} {op : TraceOp} {ops : List TraceOp} {ids : List Int}

/-! ### The balanced file -/

theorem checktrace_append {more : List TraceOp} :
    checktrace ids (ops ++ more) = true ↔ checktrace ids ops = true ∧ checktrace (ops.foldl tally ids) more = true := by
  induction ops generalizing ids with
  | nil => simp [checktrace]
  | cons op ops ih => rw [List.cons_append, checktrace_cons, checktrace_cons, ih, and_assoc, List.foldl_cons]

theorem tally_nodup (distinct : ids.Nodup) (tallied : Tallied ids op) : (tally ids op).Nodup := by
  cases op with
  | alloc index size => exact List.nodup_cons.mpr ⟨tallied, distinct⟩
  | realloc index size => exact distinct
  | free index => exact distinct.filter _

theorem tallied_nodup (distinct : ids.Nodup) (accepted : checktrace ids ops = true) : (ops.foldl tally ids).Nodup := by
  induction ops generalizing ids with
  | nil => exact distinct
  | cons op ops ih =>
    obtain ⟨tallied, accepted⟩ := checktrace_cons.mp accepted
    exact ih (tally_nodup distinct tallied) accepted

/-- Different outstanding ids can be freed one after another. -/
theorem frees_accepted {freed : List Int} (distinct : freed.Nodup) (known : ∀ id ∈ freed, id ∈ ids) :
    checktrace ids (freed.map .free) = true ∧
      ∀ id, id ∈ (freed.map TraceOp.free).foldl tally ids ↔ id ∈ ids ∧ id ∉ freed := by
  induction freed generalizing ids with
  | nil => simp [checktrace]
  | cons first freed ih =>
    obtain ⟨fresh, distinct⟩ := List.nodup_cons.mp distinct
    have left : ∀ id, id ∈ tally ids (.free first) ↔ id ∈ ids ∧ id ≠ first := by
      intro id
      simp [tally]
    have stillKnown : ∀ id ∈ freed, id ∈ tally ids (.free first) := fun id member =>
      (left id).mpr ⟨known id (List.mem_cons_of_mem _ member), fun same => fresh (same ▸ member)⟩
    obtain ⟨accepted, members⟩ := ih distinct stillKnown
    refine ⟨checktrace_cons.mpr ⟨known first List.mem_cons_self, accepted⟩, fun id => (members id).trans ?_⟩
    rw [left id, List.mem_cons, not_or, and_assoc]

theorem residue_perm (ops : List TraceOp) : (residue ops).Perm (outstandingIds ops) := List.mergeSort_perm _ _

theorem balanced_accepted (accepted : checktrace [] f.ops = true) :
    checktrace [] f.balanced.ops = true ∧ outstandingIds f.balanced.ops = [] := by
  have perm := residue_perm f.ops
  have distinct : (residue f.ops).Nodup := perm.nodup_iff.mpr (tallied_nodup List.nodup_nil accepted)
  obtain ⟨freed, members⟩ := frees_accepted distinct fun id member => perm.mem_iff.mp member
  refine ⟨checktrace_append.mpr ⟨accepted, freed⟩, ?_⟩
  show (f.ops ++ (residue f.ops).map TraceOp.free).foldl tally [] = []
  rw [List.foldl_append, List.eq_nil_iff_forall_not_mem]
  intro id member
  obtain ⟨still, notFreed⟩ := (members id).mp member
  exact notFreed (perm.mem_iff.mpr still)

theorem residue_balanced (accepted : checktrace [] f.ops = true) : residue f.balanced.ops = [] := by
  rw [residue, (balanced_accepted accepted).2, List.mergeSort_nil]

theorem balanced_balanced (accepted : checktrace [] f.ops = true) : f.balanced.balanced = f.balanced := by
  have none := residue_balanced accepted
  simp [TraceFile.balanced] at none ⊢
  exact none

theorem highest_append (more : List TraceOp) (init : Int) : highest (ops ++ more) init = highest more (highest ops init) :=
  List.foldl_append

theorem highest_frees (freed : List Int) (init : Int) : highest (freed.map .free) init = init := by
  induction freed with
  | nil => rfl
  | cons id freed ih => exact ih

theorem balanced_counted (counted : f.Counted) : f.balanced.Counted := by
  constructor
  · show f.numOps + (residue f.ops).length = (f.ops ++ (residue f.ops).map TraceOp.free).length
    rw [counted.1, List.length_append, List.length_map]
  · show (f.numIds : Int) = highest (f.ops ++ (residue f.ops).map TraceOp.free) 0 + 1
    rw [highest_append, highest_frees]
    exact counted.2

theorem balanced_printable (printable : f.Printable) (room : (f.numOps + (residue f.ops).length : Nat) ≤ intMax) :
    f.balanced.Printable := by
  refine ⟨printable.suggHeapsize, printable.numIds, room, printable.weight, fun op member => ?_⟩
  rcases List.mem_append.mp member with old | freed
  · exact printable.ops op old
  · obtain ⟨id, isFreed, rfl⟩ := List.mem_map.mp freed
    have range : 0 ≤ id ∧ id ≤ intMax :=
      tallied_all (P := fun id => 0 ≤ id ∧ id ≤ intMax) (fun op member => (printable.ops op member).1) (by simp) id
        ((residue_perm f.ops).mem_iff.mp isFreed)
    exact ⟨range, trivial⟩

theorem le_highest (ops : List TraceOp) (init : Int) : init ≤ highest ops init := by
  induction ops generalizing init with
  | nil => exact le_refl init
  | cons op ops ih =>
    cases op with
    | alloc index size => exact le_trans (le_max_left _ _) (ih (max init index))
    | realloc index size => exact le_trans (le_max_left _ _) (ih (max init index))
    | free index => exact ih init

/-- `read_trace` takes no account of the ids in `free` requests, but these were allocated before. -/
theorem index_le {init bound : Int} (accepted : checktrace ids ops = true) (known : ∀ id ∈ ids, id ≤ bound)
    (high : highest ops init ≤ bound) : ∀ op ∈ ops, op.index ≤ bound := by
  induction ops generalizing ids init with
  | nil => simp
  | cons op ops ih =>
    obtain ⟨tallied, accepted⟩ := checktrace_cons.mp accepted
    have here : op.index ≤ bound := by
      cases op with
      | alloc index size => exact le_trans (le_trans (le_max_right init index) (le_highest ops _)) high
      | realloc index size => exact known index tallied
      | free index => exact known index tallied
    intro other member
    rcases List.mem_cons.mp member with rfl | later
    · exact here
    · exact ih accepted (tally_all here known) high other later

/-- When the script prints a file that `read_trace` could read, `read_trace` reads what it prints:
the requests, and a `free` request for each block that they leave. The script finds it balanced, and
prints it unchanged. -/
theorem checktrace_balances {out : CString} {read : TraceRead} (printable : f.Printable)
    (room : (f.numOps + (residue f.ops).length : Nat) ≤ intMax) (prints : checktracePl false f.text = .ok out)
    (reads : readTrace f.text = .ok read) :
    (residue read.ops).Perm (outstandingIds read.ops) ∧ outstandingIds (read.ops ++ (residue read.ops).map .free) = [] ∧
      readTrace out = .ok ⟨read.numIds, read.ops ++ (residue read.ops).map .free⟩ ∧
      (∀ op ∈ read.ops ++ (residue read.ops).map .free, 0 ≤ op.index ∧ op.index < read.numIds) ∧
      checktracePl true out = .ok (text "Balanced trace.\n") ∧ checktracePl false out = .ok out := by
  obtain ⟨counted, rfl⟩ := (readTrace_text printable read).mp reads
  have accepted : checktrace [] f.ops = true := by
    by_contra rejected
    obtain ⟨died, run⟩ := checktracePl_rejects printable rejected false
    cases run.symm.trans prints
  obtain rfl := Except.ok.inj ((checktracePl_text printable accepted).1.symm.trans prints)
  obtain ⟨accepted', none⟩ := balanced_accepted accepted
  have printable' := balanced_printable printable room
  obtain ⟨again, summary⟩ := checktracePl_text printable' accepted'
  have counted' := balanced_counted counted
  refine ⟨residue_perm f.ops, none, (readTrace_text printable' _).mpr ⟨counted', rfl⟩, ?_, ?_, ?_⟩
  · intro op member
    have ids : (f.numIds : Int) = highest f.balanced.ops 0 + 1 := counted'.2
    have high : highest f.balanced.ops 0 ≤ (f.numIds : Int) - 1 := by omega
    exact ⟨(printable'.ops op member).1.1, Int.lt_of_le_sub_one (index_le accepted' (by simp) high op member)⟩
  · rw [summary, if_pos (residue_balanced accepted)]
  · rw [again, balanced_balanced accepted]

/-- A file whose first block is not freed. -/
def leaking : TraceFile := ⟨20000, 2, 3, 1, [.alloc 0 12, .alloc 1 40, .free 1]⟩

theorem residue_leaking : residue leaking.ops = [0] := by
  have one : outstandingIds leaking.ops = [0] := by decide
  rw [residue, one, List.mergeSort_singleton]

theorem printable_leaking : leaking.Printable := by
  refine ⟨by decide, by decide, by decide, by decide, fun op member => ?_⟩
  simp only [leaking, List.mem_cons, List.not_mem_nil, or_false] at member
  rcases member with rfl | rfl | rfl
  · exact ⟨by decide, by decide, by decide⟩
  · exact ⟨by decide, by decide, by decide⟩
  · exact ⟨by decide, trivial⟩

theorem checktrace_balances_leaking : ∃ out, checktracePl false leaking.text = .ok out ∧
    readTrace out = .ok ⟨2, [.alloc 0 12, .alloc 1 40, .free 1, .free 0]⟩ ∧
    checktracePl true out = .ok (text "Balanced trace.\n") := by
  have printable := printable_leaking
  have prints := (checktracePl_text printable (by decide)).1
  have reads := (readTrace_text printable _).mpr ⟨⟨by decide, by decide⟩, rfl⟩
  obtain ⟨_, _, readable, _, summary, _⟩ := checktrace_balances printable (by rw [residue_leaking]; decide) prints reads
  rw [residue_leaking] at readable
  exact ⟨_, prints, readable, summary⟩

/-! ### The replay of a balanced trace -/

variable {replay replay' start : Replay} {done : List TraceOp} {verdict : Option Int} {sizes : Int → Int} {base tracenum : Int}
  {trace : Trace}

/-- A request makes `eval_mm_valid` return 0, if it makes it return. -/
theorem evalOp_fails {i value : Int} (run : evalOp tracenum i op replay = .ok (some value, replay')) : value = 0 := by
  have concluded : ∀ (index size : Int) (d : Driver) (outcome : Outcome),
      replay.conclude index size d outcome = (some value, replay') → value = 0 := by
    intro index size d outcome same
    cases outcome with
    | failed => exact (Option.some.inj (Prod.mk.inj same).1).symm
    | empty => cases (Prod.mk.inj same).1
    | placed p => cases (Prod.mk.inj same).1
  cases op with
  | alloc index size =>
    obtain ⟨ended, _, run⟩ := Run.except_bind run
    exact concluded _ _ _ _ (Except.ok.inj run)
  | realloc index size =>
    obtain ⟨ended, _, run⟩ := Run.except_bind run
    exact concluded _ _ _ _ (Except.ok.inj run)
  | free index =>
    obtain ⟨ended, _, run⟩ := Run.except_bind run
    cases (Prod.mk.inj (Except.ok.inj run)).1

/-- The verdict 1 comes at the end of the trace. -/
theorem evalLoop_whole (replays : Replays tracenum start done none replay)
    (run : evalLoop tracenum done.length ops replay = .ok (1, replay')) : Replays tracenum start (done ++ ops) none replay' := by
  induction ops generalizing done replay with
  | nil =>
    obtain ⟨-, rfl⟩ := Prod.mk.inj (Except.ok.inj run)
    rwa [List.append_nil]
  | cons op ops ih =>
    obtain ⟨ended, next, first, ⟨rfl, rfl⟩ | ⟨rfl, rest⟩⟩ := evalLoop_first run
    · cases evalOp_fails first
    · have length : ((done ++ [op]).length : Int) = done.length + 1 := by simp
      have whole := ih (replays.step first) (by rw [length]; exact rest)
      rwa [List.append_assoc, List.singleton_append] at whole

theorem TraceOp.Positive.natural (positive : op.Positive) : op.Natural := by
  cases op with
  | alloc index size => exact ⟨Int.le_of_lt positive.1, positive.2⟩
  | realloc index size => exact ⟨Int.le_of_lt positive.1, positive.2⟩
  | free index => trivial

theorem nonzero_of_positive (accepted : checktrace ids ops = true) (positive : ∀ op ∈ ops, op.Positive)
    (sized : ∀ id ∈ ids, 0 < sizes id) : Trace.Along lastSize NonzeroSizes sizes ops := by
  induction ops generalizing ids sizes with
  | nil => trivial
  | cons op ops ih =>
    obtain ⟨tallied, accepted⟩ := checktrace_cons.mp accepted
    have here := positive op List.mem_cons_self
    have later := fun op member => positive op (List.mem_cons_of_mem _ member)
    cases op with
    | alloc index size =>
      refine ⟨trivial, ih accepted later fun id member => ?_⟩
      by_cases same : id = index
      · rw [same, lastSize, Function.update_self]
        exact here.1
      · rw [lastSize, Function.update_of_ne same]
        exact sized id ((List.mem_cons.mp member).resolve_left same)
    | realloc index size =>
      refine ⟨⟨sized index tallied, here.1⟩, ih accepted later fun id member => ?_⟩
      by_cases same : id = index
      · rw [same, lastSize, Function.update_self]
        exact here.1
      · rw [lastSize, Function.update_of_ne same]
        exact sized id member
    | free index => exact ⟨sized index tallied, ih accepted later fun id member => sized id (List.mem_filter.mp member).1⟩

/-- Books without entries are those of an empty heap. -/
theorem Books.empty {s : Heap} {ranges : List Range} (books : Books s ranges []) :
    ranges = [] ∧ (∀ p, ¬s.Owns p) ∧ ∃ bs, s.blocks = .ok bs ∧ (s.Extended →
      bs = [⟨s.prologue, 16, true⟩, ⟨s.prologue + 16, s.memHeapsize - 32, false⟩, ⟨s.epilogue, 16, true⟩]) := by
  have nobody : ∀ p, ¬s.Owns p := by
    intro p owned
    obtain ⟨e, member, _⟩ := books.complete p owned
    cases member
  obtain ⟨mids, fl, wf, _⟩ := books.heap
  refine ⟨List.map_eq_nil_iff.mp books.ranges, nobody, _, wf.blocks_eq, fun extended => ?_⟩
  have free : ∀ b ∈ mids, b.allocated = false := by
    intro b member
    cases state : b.allocated with
    | false => rfl
    | true => exact absurd ((wf.owns _).mpr ⟨b, member, state, rfl⟩) (nobody _)
  rw [wf.single free extended]
  rfl

/-- The replay of a file that the script calls balanced, if it is found valid, leaves nothing behind:
no range, no allocated block, and the space of the heap in one free block. -/
theorem balanced_replay {f : TraceFile} (usable : Usable base) (aligned : base % 8 = 0) (printable : f.Printable)
    (balanced : checktracePl true f.text = .ok (text "Balanced trace.\n"))
    (reads : readTrace f.text = .ok ⟨trace.numIds, trace.ops⟩) (positive : ∀ op ∈ trace.ops, op.Positive)
    (valid : evalMmValid base tracenum trace replay = .ok (1, replay')) :
    replay'.driver.ranges = [] ∧ (∀ p, ¬replay'.driver.heap.Owns p) ∧ ∃ bs, replay'.driver.heap.blocks = .ok bs ∧
      (replay'.driver.heap.Extended → bs = [⟨replay'.driver.heap.prologue, 16, true⟩,
        ⟨replay'.driver.heap.prologue + 16, replay'.driver.heap.memHeapsize - 32, false⟩,
        ⟨replay'.driver.heap.epilogue, 16, true⟩]) := by
  obtain ⟨_, same⟩ := (readTrace_text printable _).mp reads
  obtain ⟨-, isOps⟩ := TraceRead.mk.inj same
  have accepted : checktrace [] f.ops = true := by
    by_contra rejected
    obtain ⟨died, run⟩ := checktracePl_rejects printable rejected true
    cases run.symm.trans balanced
  have empty : outstandingIds trace.ops = [] := by
    have summary := Except.ok.inj ((checktracePl_text printable accepted).2.symm.trans balanced)
    by_cases none : residue f.ops = []
    · have perm := residue_perm f.ops
      rw [none] at perm
      rw [isOps]
      exact perm.nil_eq.symm
    · rw [if_neg none] at summary
      exact absurd summary (by decide)
  rw [← isOps] at accepted
  obtain ⟨d, reset, sound, calls, _, opened⟩ := evalMmValid_run usable aligned tracenum trace replay
  rw [opened] at valid
  have replays := evalLoop_whole (.start : Replays tracenum { replay with driver := d } [] none _) valid
  obtain ⟨sound', listed, _⟩ := replays_held replays sound calls (checktrace_along accepted)
    (fun op member => (positive op member).natural) (nonzero_of_positive accepted positive (by simp))
  have nothing : ledger replay'.driver.calls = [] := by
    rw [List.eq_nil_iff_forall_not_mem]
    intro e member
    have known := listed.outstanding e member
    rw [List.nil_append] at known
    rw [show trace.ops.foldl tally [] = [] from empty] at known
    cases known
  have books := sound'.books
  rw [nothing] at books
  exact books.empty

/-- The file that the script prints for `leaking`. -/
def freed : Trace := ⟨2, [.alloc 0 12, .alloc 1 40, .free 1, .free 0], by decide⟩

theorem balanced_replay_freed : ∃ r, evalMmValid 4096 0 freed Replay.fresh = .ok (1, r) ∧ r.driver.heap.memHeapsize = 120 ∧
    r.driver.heap.blocks = .ok [⟨4096, 16, true⟩, ⟨4112, 88, false⟩, ⟨4200, 16, true⟩] := by
  have seen : (evalMmValid 4096 0 freed Replay.fresh).map (fun ended =>
      (ended.1, ended.2.driver.heap.prologue, ended.2.driver.heap.memHeapsize, ended.2.driver.heap.epilogue)) =
      .ok (1, 4096, 120, 4200) := by decide +kernel
  obtain ⟨⟨verdict, r⟩, run, same⟩ := Run.except_map seen
  obtain ⟨rfl, prologue, heapsize, epilogue⟩ : verdict = 1 ∧ r.driver.heap.prologue = 4096 ∧
      r.driver.heap.memHeapsize = 120 ∧ r.driver.heap.epilogue = 4200 := by simpa using same
  have printable := balanced_printable printable_leaking (by rw [residue_leaking]; decide)
  have counted : leaking.balanced.Counted := balanced_counted ⟨by decide, by decide⟩
  obtain ⟨accepted, _⟩ : checktrace [] leaking.balanced.ops = true ∧ outstandingIds leaking.balanced.ops = [] :=
    balanced_accepted (by decide)
  have isOps : leaking.balanced.ops = freed.ops := by
    rw [TraceFile.balanced, residue_leaking]
    rfl
  have summary := (checktracePl_text printable accepted).2
  rw [if_pos (residue_balanced (by decide))] at summary
  have reads : readTrace leaking.balanced.text = .ok ⟨freed.numIds, freed.ops⟩ :=
    (readTrace_text printable _).mpr ⟨counted, by rw [isOps]; rfl⟩
  have positive : ∀ op ∈ freed.ops, op.Positive := by
    intro op member
    simp only [freed, List.mem_cons, List.not_mem_nil, or_false] at member
    rcases member with rfl | rfl | rfl | rfl
    · exact ⟨by decide, by decide⟩
    · exact ⟨by decide, by decide⟩
    · trivial
    · trivial
  obtain ⟨_, _, bs, blocks, whole⟩ := balanced_replay usable_4096 (by decide) printable summary reads positive run
  refine ⟨r, run, heapsize, ?_⟩
  rw [blocks, whole (by rw [Heap.Extended, heapsize]; decide), prologue, heapsize, epilogue]
  rfl

end Cs1330.Malloc
