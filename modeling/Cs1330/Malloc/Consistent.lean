import Cs1330.Malloc.Replay

/-!
# Consistent traces

The traces that `checktrace.pl` accepts. Replayed by `eval_mm_valid`, they keep the range list and
the pointers in step with the heap as long as no request is about a block of size 0: the loop then
goes on to the next request without bringing its tables up to date.
-/

namespace Cs1330.Malloc

/-- `checktrace.pl` reads the requests to their end, without one of its error messages. -/
def checktrace : List Int → List TraceOp → Bool
  | _, [] => true
  | hash, .realloc index size :: ops =>
    if hash.contains index then checktrace (tally hash (.realloc index size)) ops else false
  | hash, .alloc index size :: ops =>
    if hash.contains index then false else checktrace (tally hash (.alloc index size)) ops
  | hash, .free index :: ops =>
    if hash.contains index then checktrace (tally hash (.free index)) ops else false

variable {r r' r₀ : Replay} {e : Entry} {op : TraceOp} {ops done : List TraceOp} {hash : List Int} {sizes : Int → Int}
  {entries entries' : List Entry} {verdict : Option Int} {base tracenum : Int} {trace : Trace}

/-- What `checktrace.pl` asks of one request. -/
def Tallied (hash : List Int) : TraceOp → Prop
  | .alloc index _ => index ∉ hash
  | .realloc index _ => index ∈ hash
  | .free index => index ∈ hash

theorem checktrace_along (accepted : checktrace hash ops = true) : Trace.Along tally Tallied hash ops := by
  induction ops generalizing hash with
  | nil => trivial
  | cons op ops ih =>
    cases op with
    | alloc index size =>
      have both : index ∉ hash ∧ checktrace (tally hash (.alloc index size)) ops = true := by
        simpa [checktrace] using accepted
      exact both.imp_right ih
    | realloc index size =>
      have both : index ∈ hash ∧ checktrace (tally hash (.realloc index size)) ops = true := by
        simpa [checktrace] using accepted
      exact both.imp_right ih
    | free index =>
      have both : index ∈ hash ∧ checktrace (tally hash (.free index)) ops = true := by
        simpa [checktrace] using accepted
      exact both.imp_right ih

/-! ### The steps of a replay -/

/-- `eval_mm_valid` has come from `start` to `r` with the requests `done`, the last of which made
it return `verdict` or go on. -/
inductive Replays (tracenum : Int) (start : Replay) : List TraceOp → Option Int → Replay → Prop
  | start : Replays tracenum start [] none start
  | step {done : List TraceOp} {op : TraceOp} {r r' : Replay} {verdict : Option Int} :
      Replays tracenum start done none r → evalOp tracenum done.length op r = .ok (verdict, r') →
      Replays tracenum start (done ++ [op]) verdict r'

/-- A state that `eval_mm_valid` passes through on this trace. -/
def Visits (base tracenum : Int) (trace : Trace) (r₀ : Replay) (done : List TraceOp) (verdict : Option Int)
    (r : Replay) : Prop :=
  done <+: trace.ops ∧
    ∃ d, resetHeap base r₀.driver = .ok (0, d) ∧ Replays tracenum { r₀ with driver := d } done verdict r

theorem evalLoop_replays {start : Replay} {verdict : Int} (replays : Replays tracenum start done none r)
    (run : evalLoop tracenum done.length ops r = .ok (verdict, r')) :
    ∃ part ended, done ++ part <+: done ++ ops ∧ Replays tracenum start (done ++ part) ended r' := by
  induction ops generalizing done r with
  | nil =>
    obtain ⟨-, rfl⟩ := Prod.mk.inj (Except.ok.inj run)
    exact ⟨[], none, List.prefix_rfl, by rwa [List.append_nil]⟩
  | cons op ops ih =>
    obtain ⟨ended, r₁, first, ⟨rfl, rfl⟩ | ⟨rfl, rest⟩⟩ := evalLoop_first run
    · exact ⟨[op], some verdict, (List.prefix_append_right_inj done).mpr (by simp), replays.step first⟩
    · have length : ((done ++ [op]).length : Int) = done.length + 1 := by simp
      obtain ⟨part, ended, inside, later⟩ := ih (replays.step first) (by rw [length]; exact rest)
      rw [List.append_assoc, List.append_assoc] at inside
      rw [List.append_assoc] at later
      exact ⟨op :: part, ended, inside, later⟩

theorem evalMmValid_visits {verdict : Int} (usable : Usable base) (aligned : base % 8 = 0)
    (run : evalMmValid base tracenum trace r₀ = .ok (verdict, r)) :
    ∃ done ended, Visits base tracenum trace r₀ done ended r := by
  obtain ⟨d, reset, _, _, _, same⟩ := evalMmValid_run usable aligned tracenum trace r₀
  rw [same] at run
  obtain ⟨part, ended, inside, replays⟩ := evalLoop_replays .start run
  exact ⟨part, ended, inside, d, reset, replays⟩

/-! ### Requests that keep the books -/

def TraceOp.Natural : TraceOp → Prop
  | .alloc _ size => 0 ≤ size ∧ size ≤ intMax
  | .realloc _ size => 0 ≤ size ∧ size ≤ intMax
  | .free _ => True

/-- The size that was last asked for, for each id. -/
def lastSize (sizes : Int → Int) : TraceOp → Int → Int
  | .alloc index size => Function.update sizes index size
  | .realloc index size => Function.update sizes index size
  | .free _ => sizes

/-- No block is resized to 0, and none is resized or freed that was allocated with size 0. -/
def NonzeroSizes (sizes : Int → Int) : TraceOp → Prop
  | .alloc _ _ => True
  | .realloc index size => 0 < sizes index ∧ 0 < size
  | .free index => 0 < sizes index

/-- The range list is the list of ranges of the ids in the ledger, whose blocks are those allocated
in the heap. Each id is outstanding and of positive size, with all outstanding ids of positive size
among them while the replay goes on; and every pointer was passed to the allocator while it was in
use for its id. -/
structure Respects (done : List TraceOp) (verdict : Option Int) (r : Replay) : Prop where
  ranges : r.driver.ranges.map Range.extent = (ledger r.driver.calls).map Entry.extent
  allocated : ∀ ptr, r.driver.heap.Owns ptr ↔ ∃ e ∈ ledger r.driver.calls, e.ptr = ptr
  once : (ledger r.driver.calls).Pairwise fun e f => e.index ≠ f.index
  outstanding : ∀ e ∈ ledger r.driver.calls, e.index ∈ done.foldl tally [] ∧ 0 < e.size
  all : verdict = none → ∀ index ∈ done.foldl tally [], 0 < done.foldl lastSize (fun _ => 0) index →
    ∃ e ∈ ledger r.driver.calls, e.index = index
  owned : Trace.Along note Call.Owned [] r.driver.calls

/-- The ids of the ledger are outstanding, each with one block. -/
structure Outstanding (hash : List Int) (entries : List Entry) : Prop where
  once : entries.Pairwise fun e f => e.index ≠ f.index
  outstanding : ∀ e ∈ entries, e.index ∈ hash

theorem Outstanding.takeBack (listed : Outstanding hash entries) (member : e ∈ entries) (ptr : Int) :
    (takeBack entries ptr).Pairwise (fun e f => e.index ≠ f.index) ∧
      ∀ f ∈ Malloc.takeBack entries e.ptr, f.index ∈ hash ∧ f.index ≠ e.index := by
  refine ⟨listed.once.filter _, ?_⟩
  intro f kept
  obtain ⟨fMem, different⟩ := mem_takeBack.mp kept
  refine ⟨listed.outstanding f fMem, ?_⟩
  intro same
  have symm : Std.Symm fun e f : Entry => e.index ≠ f.index := ⟨fun _ _ => Ne.symm⟩
  exact listed.once.forall fMem member (fun equal => different (congrArg Entry.ptr equal)) same

theorem Entered.outstanding (entered : Entered op entries entries') (listed : Outstanding hash entries)
    (tallied : Tallied hash op) : Outstanding (tally hash op) entries' := by
  cases entered with
  | same request =>
    refine ⟨listed.once, ?_⟩
    intro e member
    have old := listed.outstanding e member
    cases op with
    | alloc index size => exact List.mem_cons_of_mem _ old
    | realloc index size => exact old
    | free index => exact (request index rfl).elim
  | added index p size request =>
    subst request
    refine ⟨List.Pairwise.cons ?_ listed.once, ?_⟩
    · intro f member same
      exact tallied (by rw [show index = f.index from same]; exact listed.outstanding f member)
    · intro f member
      rcases List.mem_cons.mp member with rfl | old
      · exact List.mem_cons_self
      · exact List.mem_cons_of_mem _ (listed.outstanding f old)
  | moved e q size request member =>
    subst request
    obtain ⟨once, others⟩ := listed.takeBack member e.ptr
    refine ⟨List.Pairwise.cons (fun f kept => (others f kept).2.symm) once, ?_⟩
    intro f member
    rcases List.mem_cons.mp member with rfl | old
    · exact tallied
    · exact (others f old).1
  | freed e request member =>
    subst request
    obtain ⟨once, others⟩ := listed.takeBack member e.ptr
    refine ⟨once, ?_⟩
    intro f kept
    obtain ⟨inside, different⟩ := others f kept
    exact List.mem_filter.mpr ⟨inside, by simpa using different⟩

/-- What the replay keeps while every request meets the condition. -/
structure Held (hash : List Int) (sizes : Int → Int) (r : Replay) : Prop where
  sound : r.driver.Sound
  outstanding : Outstanding hash (ledger r.driver.calls)
  tabled : ∀ index ∈ hash, 0 < sizes index → r.Tabled index

theorem Held.ready (held : Held hash sizes r) (tallied : Tallied hash op) (natural : op.Natural)
    (nonzero : NonzeroSizes sizes op) : op.Ready r := by
  cases op with
  | alloc index size => exact natural
  | realloc index size => exact ⟨held.tabled index tallied nonzero.1, nonzero.2, natural.2⟩
  | free index => exact held.tabled index tallied nonzero

theorem lastSize_pos {j : Int} (tallied : Tallied hash op) (nonzero : NonzeroSizes sizes op) (old : j ∈ hash)
    (positive : 0 < lastSize sizes op j) : 0 < sizes j := by
  cases op with
  | alloc index size =>
    have other : j ≠ index := fun same => tallied (same ▸ old)
    rwa [lastSize, Function.update_of_ne other] at positive
  | realloc index size =>
    by_cases same : j = index
    · subst same
      exact nonzero.1
    · rwa [lastSize, Function.update_of_ne same] at positive
  | free index => exact positive

theorem Answered.tabled_sizes (answered : Answered op r r' none) (tallied : Tallied hash op)
    (nonzero : NonzeroSizes sizes op) (tabled : ∀ index ∈ hash, 0 < sizes index → r.Tabled index) :
    ∀ index ∈ tally hash op, 0 < lastSize sizes op index → r'.Tabled index := by
  cases answered with
  | passed errors low keeps enters =>
    intro j member positive
    rcases tally_cases member with ⟨old, kept⟩ | ⟨size, rfl⟩
    · exact keeps j (tabled j old (lastSize_pos tallied nonzero old positive)) kept
    · exact enters j size rfl (by rwa [lastSize, Function.update_self] at positive)

theorem Held.step {i : Int} (held : Held hash sizes r) (tallied : Tallied hash op) (natural : op.Natural)
    (nonzero : NonzeroSizes sizes op) (run : evalOp tracenum i op r = .ok (verdict, r')) :
    r'.driver.Sound ∧ Outstanding (tally hash op) (ledger r'.driver.calls) ∧
      (verdict = none → Held (tally hash op) (lastSize sizes op) r') := by
  obtain ⟨verdict', r'', run', sound, answered, entered⟩ :=
    evalOp_answers held.sound (held.ready tallied natural nonzero) tracenum i
  obtain ⟨rfl, rfl⟩ := Prod.mk.inj (Except.ok.inj (run'.symm.trans run))
  have outstanding := entered.outstanding held.outstanding tallied
  refine ⟨sound, outstanding, ?_⟩
  rintro rfl
  exact ⟨sound, outstanding, answered.tabled_sizes tallied nonzero held.tabled⟩

theorem Books.positive {s : Heap} {ranges : List Range} (books : Books s ranges entries) (member : e ∈ entries) :
    0 < e.size := by
  obtain ⟨mids, fl, wf, tracked⟩ := books.heap
  obtain ⟨b, _, _, backing⟩ := tracked.backed _ (List.mem_map_of_mem member)
  exact backing.positive

theorem replays_held {start : Replay} (replays : Replays tracenum start done verdict r) (sound : start.driver.Sound)
    (calls : start.driver.calls = []) (tallied : Trace.Along tally Tallied [] done) (natural : ∀ op ∈ done, op.Natural)
    (nonzero : Trace.Along lastSize NonzeroSizes (fun _ => 0) done) :
    r.driver.Sound ∧ Outstanding (done.foldl tally []) (ledger r.driver.calls) ∧
      (verdict = none → Held (done.foldl tally []) (done.foldl lastSize fun _ => 0) r) := by
  induction replays with
  | start =>
    have empty : ledger start.driver.calls = [] := by rw [calls]; rfl
    have outstanding : Outstanding [] (ledger start.driver.calls) := by
      rw [empty]
      exact ⟨List.Pairwise.nil, by simp⟩
    exact ⟨sound, outstanding, fun _ => ⟨sound, outstanding, by simp⟩⟩
  | step before run ih =>
    obtain ⟨tallies, tallied, _⟩ := Trace.along_append.mp tallied
    obtain ⟨nonzeros, nonzero, _⟩ := Trace.along_append.mp nonzero
    obtain ⟨_, _, held⟩ := ih tallies (fun op member => natural op (List.mem_append_left _ member)) nonzeros
    rw [List.foldl_concat, List.foldl_concat]
    exact (held rfl).step tallied (natural _ (by simp)) nonzero run

/-- The next request of a replay that has left out blocks of size 0 does not fault. -/
theorem Held.runs (held : Held (done.foldl tally []) (done.foldl lastSize fun _ => 0) r)
    (tallied : Trace.Along tally Tallied [] trace.ops) (natural : ∀ op ∈ trace.ops, op.Natural)
    (next : done ++ [op] <+: trace.ops) (nonzero : NonzeroSizes (done.foldl lastSize fun _ => 0) op) :
    ∃ ended, evalOp tracenum done.length op r = .ok ended := by
  have member : op ∈ trace.ops := next.subset (List.mem_append_right _ List.mem_cons_self)
  obtain ⟨rest, whole⟩ := next
  rw [← whole, List.append_assoc] at tallied
  obtain ⟨verdict, r', run, _⟩ :=
    evalOp_answers held.sound (held.ready tallied.at (natural op member) nonzero) tracenum done.length
  exact ⟨_, run⟩

/-- In every replay of a consistent trace whose requests so far leave out blocks of size 0, the
ranges and the pointers are in step with the heap, and the next such request does not fault (copies from
behind the region apart, which `evalLoop` looks for). -/
theorem replay_respects (usable : Usable base) (aligned : base % 8 = 0) (accepted : checktrace [] trace.ops = true)
    (natural : ∀ op ∈ trace.ops, op.Natural) (visits : Visits base tracenum trace r₀ done verdict r)
    (nonzero : Trace.Along lastSize NonzeroSizes (fun _ => 0) done) :
    Respects done verdict r ∧ ∀ op, verdict = none → done ++ [op] <+: trace.ops →
      NonzeroSizes (done.foldl lastSize fun _ => 0) op → ∃ ended, evalOp tracenum done.length op r = .ok ended := by
  obtain ⟨before, d, reset, replays⟩ := visits
  obtain ⟨d', reset', sound, calls, _⟩ := run_resetHeap usable aligned r₀.driver
  obtain ⟨-, rfl⟩ := Prod.mk.inj (Except.ok.inj (reset.symm.trans reset'))
  have tallied := checktrace_along accepted
  have talliedDone : Trace.Along tally Tallied [] done := by
    obtain ⟨rest, whole⟩ := before
    rw [← whole] at tallied
    exact (Trace.along_append.mp tallied).1
  obtain ⟨after, outstanding, held⟩ := replays_held replays sound calls talliedDone
    (fun op member => natural op (before.subset member)) nonzero
  refine ⟨⟨after.books.ranges, ?_, outstanding.once, ?_, ?_, after.owned⟩, ?_⟩
  · intro ptr
    refine ⟨after.books.complete ptr, ?_⟩
    rintro ⟨e, member, rfl⟩
    exact after.books.owns member
  · intro e member
    exact ⟨outstanding.outstanding e member, after.books.positive member⟩
  · intro goesOn index member positive
    obtain ⟨e, eMem, same, _⟩ := (held goesOn).tabled index member positive
    exact ⟨e, eMem, same⟩
  · intro op goesOn next nonzeroNext
    exact (held goesOn).runs tallied natural next nonzeroNext

theorem replay_respects_growing :
    ∃ done ended r, evalMmValid 4096 0 growing Replay.fresh = .ok (1, r) ∧ Respects done ended r := by
  have seen : (evalMmValid 4096 0 growing Replay.fresh).map Prod.fst = .ok 1 := by decide +kernel
  obtain ⟨⟨verdict, r⟩, run, rfl⟩ := Run.except_map seen
  obtain ⟨done, ended, visits⟩ := evalMmValid_visits usable_4096 (by decide) run
  have natural : ∀ op ∈ growing.ops, op.Natural := by
    intro op member
    simp only [growing, List.mem_cons, List.not_mem_nil, or_false] at member
    rcases member with rfl | rfl | rfl
    · exact ⟨by decide, by decide⟩
    · exact ⟨by decide, by decide⟩
    · trivial
  have nonzero : Trace.Along lastSize NonzeroSizes (fun _ => 0) growing.ops :=
    ⟨trivial, ⟨by decide, by decide⟩, by show (0 : Int) < lastSize _ _ 0; decide, trivial⟩
  obtain ⟨rest, whole⟩ := visits.1
  rw [← whole] at nonzero
  exact ⟨done, ended, r, run,
    (replay_respects usable_4096 (by decide) (by decide) natural visits (Trace.along_append.mp nonzero).1).1⟩

/-- A block that is resized to 0, which frees it. -/
def emptied : Trace := ⟨1, [.alloc 0 40, .realloc 0 0], by decide⟩

/-- The range of a block that is resized to 0 stays in the list. -/
theorem emptied_keepsRange : checktrace [] emptied.ops = true ∧ (∀ op ∈ emptied.ops, op.Natural) ∧
    ∃ done ended r, Visits 4096 0 emptied Replay.fresh done ended r ∧ ¬Respects done ended r := by
  have natural : ∀ op ∈ emptied.ops, op.Natural := by
    intro op member
    simp only [emptied, List.mem_cons, List.not_mem_nil, or_false] at member
    rcases member with rfl | rfl <;> exact ⟨by decide, by decide⟩
  have seen : (evalMmValid 4096 0 emptied Replay.fresh).map
      (fun ended => (ended.2.driver.ranges.map Range.extent, (ledger ended.2.driver.calls).map Entry.extent)) =
      .ok ([(4120, 4159)], []) := by decide +kernel
  obtain ⟨⟨verdict, r⟩, run, same⟩ := Run.except_map seen
  obtain ⟨recorded, handedOut⟩ := Prod.mk.inj same
  obtain ⟨done, ended, visits⟩ := evalMmValid_visits usable_4096 (by decide) run
  refine ⟨by decide, natural, done, ended, r, visits, ?_⟩
  intro respects
  cases recorded.symm.trans (respects.ranges.trans handedOut)

end Cs1330.Malloc
