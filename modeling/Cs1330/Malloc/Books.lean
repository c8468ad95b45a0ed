import Cs1330.Malloc.Client
import Cs1330.Malloc.Ranges
import Cs1330.Lib.Trace

/-!
# The driver's books

A ledger of the blocks that the allocator has handed out, read off the calls that the driver made.
`Books` says that the ledger is right about the heap and the range list about the ledger, and that
every pointer passed to the allocator was in the ledger at that time.
-/

namespace Cs1330.Malloc
open Machine Tiling

variable {s s' : Heap} {mids mids' : List Block} {fl : List Int} {b : Block} {m : Memory} {r : Live} {live : List Live}
  {p q ptr size : Int}

/-! ### The allocated blocks after one request -/

theorem Wf.owns_ne_zero (wf : Wf s mids fl) (owned : s.Owns q) : q ≠ 0 := by
  obtain ⟨b, member, _, rfl⟩ := (wf.owns q).mp owned
  have positive := wf.addr_pos member
  omega

theorem Wf.owns_malloc (wf : Wf s mids fl) (low : 0 ≤ size) (high : size ≤ intMax) (run : mmMalloc size s = .ok (p, s'))
    (owned : s'.Owns q) : s.Owns q ∨ q = p := by
  simp only [intMax] at high
  rcases eq_or_lt_of_le low with rfl | positive
  · obtain ⟨-, rfl⟩ := Prod.mk.inj (Except.ok.inj (run.symm.trans (run_mmMalloc_zero s)))
    exact Or.inl owned
  rcases wf.run_mmMalloc positive (by omega) with ⟨b, t, mids', fl', placed, run', final, _⟩ | ⟨_, _, run'⟩
  · obtain ⟨rfl, rfl⟩ := Prod.mk.inj (Except.ok.inj (run.symm.trans run'))
    obtain ⟨c, cMem, allocated, rfl⟩ := (final.owns q).mp owned
    rcases (placed.mem_allocated allocated).mp cMem with old | rfl
    · exact Or.inl ((wf.owns _).mpr ⟨c, old, allocated, rfl⟩)
    · exact Or.inr rfl
  · obtain ⟨-, rfl⟩ := Prod.mk.inj (Except.ok.inj (run.symm.trans run'))
    exact Or.inl owned

theorem Wf.owns_free (wf : Wf s mids fl) (given : s.Owns ptr) (run : mmFree ptr s = .ok ((), s')) (owned : s'.Owns q) :
    s.Owns q ∧ q ≠ ptr := by
  obtain ⟨b, member, allocated, rfl⟩ := (wf.owns ptr).mp given
  obtain ⟨m', first, fl', run', final, _⟩ := wf.run_mmFree member allocated
  obtain ⟨-, rfl⟩ := Prod.mk.inj (Except.ok.inj (run.symm.trans run'))
  obtain ⟨c, cMem, cAllocated, rfl⟩ := (final.owns q).mp owned
  obtain ⟨old, kept⟩ := (mem_release cAllocated).mp ((mem_coalesceAll cAllocated).mp cMem)
  simp only [beq_eq_false_iff_ne, ne_eq] at kept
  exact ⟨(wf.owns _).mpr ⟨c, old, cAllocated, rfl⟩, by omega⟩

theorem Wf.owns_realloc (wf : Wf s mids fl) (given : s.Owns ptr) (positive : 0 < size) (high : size ≤ intMax)
    (run : mmRealloc ptr size s = .ok (p, s')) (owned : s'.Owns q) :
    if p = 0 then s.Owns q else s.Owns q ∧ q ≠ ptr ∨ q = p := by
  simp only [intMax] at high
  obtain ⟨b, member, allocated, rfl⟩ := (wf.owns ptr).mp given
  obtain ⟨p', t, mids', fl', resized, run', final, _⟩ := wf.run_mmRealloc member allocated positive (by omega)
  obtain ⟨rfl, rfl⟩ := Prod.mk.inj (Except.ok.inj (run.symm.trans run'))
  rcases resized.block wf member allocated positive (by omega) with ⟨null, rfl, -⟩ | ⟨d, pointer, dAllocated, _, _, blocks⟩
  · rw [if_pos null]
    exact owned
  have dMem : d ∈ mids' := (blocks d dAllocated).mpr (Or.inr rfl)
  have nonNull := final.addr_pos dMem
  rw [if_neg (by omega)]
  obtain ⟨c, cMem, cAllocated, rfl⟩ := (final.owns q).mp owned
  rcases (blocks c cAllocated).mp cMem with ⟨old, different⟩ | rfl
  · refine Or.inl ⟨(wf.owns _).mpr ⟨c, old, cAllocated, rfl⟩, ?_⟩
    intro same
    exact different (wf.eq_of_addr (mem_layout_mid old) (mem_layout_mid member) (by omega))
  · exact Or.inr pointer.symm

/-! ### Records in another order, and filled payloads -/

theorem Tracked.front (distinct : live.Pairwise fun r t => r.ptr ≠ t.ptr) (rMem : r ∈ live)
    (after : Tracked mids m (live.map fun t => if t.ptr = r.ptr then t.resize q size else t)) :
    Tracked mids m (r.resize q size :: live.filter fun t => t.ptr != r.ptr) := by
  have other : ∀ t ∈ live.filter fun t => t.ptr != r.ptr, t ∈ live ∧ t.ptr ≠ r.ptr := by
    intro t tMem
    obtain ⟨tMem, different⟩ := List.mem_filter.mp tMem
    exact ⟨tMem, by simpa using different⟩
  refine ⟨?_, List.Pairwise.cons ?_ (distinct.filter _)⟩
  · intro t tMem
    rcases List.mem_cons.mp tMem with rfl | tMem
    · exact after.backed _ (List.mem_map.mpr ⟨r, rMem, if_pos rfl⟩)
    · obtain ⟨old, different⟩ := other t tMem
      exact after.backed _ (List.mem_map.mpr ⟨t, old, if_neg different⟩)
  · intro t tMem
    obtain ⟨old, different⟩ := other t tMem
    have symm : Std.Symm fun t u : Live => (if t.ptr = r.ptr then t.resize q size else t).ptr ≠
        (if u.ptr = r.ptr then u.resize q size else u).ptr := ⟨fun _ _ => Ne.symm⟩
    have apart := (List.pairwise_map.mp after.distinct).forall rMem old fun same => different (congrArg Live.ptr same.symm)
    rwa [if_pos rfl, if_neg different] at apart

/-- The bytes of the first record after `memset` over its payload. -/
theorem Tracked.fill (wf : Wf s mids fl) (tracked : Tracked mids s.mem (r :: live)) {c : UInt8}
    {written : Int → Option UInt8} (known : ∀ i byte, written i = some byte → byte = c) :
    Wf (s.withMem (memset s.mem r.ptr c r.size.toNat)) mids fl ∧
      Tracked mids (memset s.mem r.ptr c r.size.toNat) (⟨r.ptr, r.size, written⟩ :: live) := by
  obtain ⟨b, bMem, allocated, backing⟩ := tracked.backed r List.mem_cons_self
  have ptr := backing.ptr
  have fits := backing.fits
  have positive := backing.positive
  have payload : PayloadWritten b s.mem (memset s.mem r.ptr c r.size.toNat) := by
    intro x outside
    simp only [Block.limit] at outside
    exact memset_outside (by omega)
  refine ⟨wf.overwrite bMem allocated payload, ?_, ?_⟩
  · intro t tMem
    rcases List.mem_cons.mp tMem with rfl | others
    · refine ⟨b, bMem, allocated, ptr, positive, fits, ?_⟩
      intro i byte low high written
      rw [known i byte written]
      exact memset_inside (by show r.ptr ≤ r.ptr + i; omega) (by show r.ptr + i < _; simp only at high; omega)
    · obtain ⟨d, dMem, dAllocated, backed⟩ := tracked.backed t (List.mem_cons_of_mem _ others)
      have different : b ≠ d := by
        intro same
        rw [← same] at backed
        exact (List.pairwise_cons.mp tracked.distinct).1 t others (ptr.trans backed.ptr.symm)
      have apart := wf.apart_of_ne (mem_layout_mid bMem) (mem_layout_mid dMem) different
      exact ⟨d, dMem, dAllocated, backed.frame (payload.same apart)⟩
  · exact List.pairwise_cons.mpr (List.pairwise_cons.mp tracked.distinct)

/-! ### The ledger -/

/-- A block that the allocator has handed out for `index`. -/
structure Entry where
  index : Int
  ptr : Int
  size : Int
  deriving DecidableEq, Repr

def handOut (entries : List Entry) (index size result : Int) : List Entry :=
  if result = 0 then entries else ⟨index, result, size⟩ :: entries

def takeBack (entries : List Entry) (ptr : Int) : List Entry := entries.filter fun e => e.ptr != ptr

/-- The ledger after a call returned. -/
def note (entries : List Entry) (c : Call) : List Entry :=
  match c.request with
  | .malloc size => handOut entries c.index size c.result
  | .free ptr => takeBack entries ptr
  | .realloc ptr size =>
    if ptr = 0 then handOut entries c.index size c.result
    else if size = 0 then takeBack entries ptr
    else if c.result = 0 then entries
    else ⟨c.index, c.result, size⟩ :: takeBack entries ptr
  | .write _ _ => entries

def ledger (calls : List Call) : List Entry := calls.foldl note []

/-- The pointer that goes to `mm_free` or `mm_realloc`. -/
def Request.pointer : Request → Option Int
  | .free ptr => some ptr
  | .realloc ptr _ => some ptr
  | .malloc _ => none
  | .write _ _ => none

/-- The pointer is `NULL` or that of a block which is in use for this index. -/
def Call.Owned (entries : List Entry) (c : Call) : Prop :=
  ∀ ptr, c.request.pointer = some ptr → ptr = 0 ∨ c.heap.Owns ptr ∧ ∃ e ∈ entries, e.index = c.index ∧ e.ptr = ptr

def Entry.extent (e : Entry) : Int × Int := (e.ptr, e.ptr + e.size - 1)

def Range.extent (r : Range) : Int × Int := (r.lo, r.hi)

/-- The record of an entry. The driver reads its bytes back as `char`s, so of those that it filled
with 128 or more nothing is kept. -/
def Entry.toLive (e : Entry) : Live :=
  ⟨e.ptr, e.size, fun _ => if lowByte e.index < 128 then some (fillByte e.index) else none⟩

/-- The entries are the allocated blocks of the heap, and the ranges are those of the entries. -/
structure Books (s : Heap) (ranges : List Range) (entries : List Entry) : Prop where
  heap : ∃ mids fl, Wf s mids fl ∧ Tracked mids s.mem (entries.map Entry.toLive)
  aligned : s.memStartBrk % 8 = 0
  complete : ∀ q, s.Owns q → ∃ e ∈ entries, e.ptr = q
  ranges : ranges.map Range.extent = entries.map Entry.extent

/-- The books of the calls made so far are right, and have been at each of the calls. -/
structure Driver.Sound (d : Driver) : Prop where
  books : Books d.heap d.ranges (ledger d.calls)
  owned : Trace.Along note Call.Owned [] d.calls

variable {entries : List Entry} {ranges : List Range} {e : Entry} {index : Int} {d d' : Driver} {calls : List Call}
  {c : Call} {tracenum opnum blockSize : Int}

theorem ledger_snoc : ledger (calls ++ [c]) = note (ledger calls) c := List.foldl_concat ..

theorem along_snoc (along : Trace.Along note Call.Owned [] calls) (owned : c.Owned (ledger calls)) :
    Trace.Along note Call.Owned [] (calls ++ [c]) :=
  Trace.along_append.mpr ⟨along, owned, trivial⟩

/-- `mm_init` opens an empty ledger. -/
theorem run_resetHeap {base : Int} (usable : Usable base) (aligned : base % 8 = 0) (d : Driver) :
    ∃ d', resetHeap base d = .ok (0, d') ∧ d'.Sound ∧ d'.calls = [] ∧ d'.errors = d.errors := by
  obtain ⟨s', run, wf, start, _⟩ := run_mmInit usable { d.heap with memBrk := d.heap.memStartBrk }
  have tracked : Tracked [] s'.mem ((ledger []).map Entry.toLive) := ⟨by simp [ledger], List.Pairwise.nil⟩
  refine ⟨⟨s', [], d.errors, []⟩, ?_, ⟨⟨⟨[], [], wf, tracked⟩, by rw [start]; exact aligned, ?_, rfl⟩, trivial⟩, rfl, rfl⟩
  · show callInit base { d with heap := { d.heap with memBrk := d.heap.memStartBrk }, ranges := [] } = _
    unfold callInit
    rw [Run.seq_get, run]
    rfl
  · intro q owned
    obtain ⟨b, member, _⟩ := (wf.owns q).mp owned
    cases member

/-! ### Fill bytes -/

theorem lowByte_eq (index : Int) : lowByte index = index % 256 := land_low (k := 8) (by decide)

theorem charOf_fillByte (low : lowByte index < 128) : charOf (fillByte index) = lowByte index := by
  have value := lowByte_eq index
  have byte : ((fillByte index).toNat : Int) = lowByte index := by
    unfold fillByte
    rw [UInt8.toNat_ofNat_of_lt' (by show (lowByte index).toNat < 256; omega)]
    omega
  unfold charOf
  rw [byte]
  exact Int.bmod_eq_of_le (by norm_num; omega) (by norm_num; omega)

theorem charOf_lt (byte : UInt8) : charOf byte < 128 := by
  have high := Int.bmod_lt (x := byte.toNat) (m := 2 ^ 8) (by decide)
  norm_num at high
  unfold charOf wrap
  norm_num
  omega

theorem holdsFill_low {n : Int} (low : lowByte index < 128) (filled : ∀ i, 0 ≤ i → i < n → m (p + i) = fillByte index) :
    holdsFill m p index n = true := by
  apply List.all_eq_true.mpr
  intro j member
  have bound := List.mem_range.mp member
  rw [filled j (by omega) (by omega), charOf_fillByte low]
  exact beq_self_eq_true _

theorem holdsFill_high {n : Int} (high : 128 ≤ lowByte index) (positive : 0 < n) : holdsFill m p index n = false := by
  have first : 0 ∈ List.range n.toNat := List.mem_range.mpr (by omega)
  have different := charOf_lt (m (p + (0 : Nat)))
  apply Bool.eq_false_iff.mpr
  intro all
  have same := eq_of_beq (List.all_eq_true.mp all 0 first)
  omega

/-! ### Ranges of the entries -/

theorem eraseP_extent (same : ranges.map Range.extent = entries.map Entry.extent)
    (distinct : entries.Pairwise fun e f => e.ptr ≠ f.ptr) (ptr : Int) :
    (ranges.eraseP fun r => r.lo == ptr).map Range.extent = (takeBack entries ptr).map Entry.extent := by
  induction entries generalizing ranges with
  | nil =>
    obtain rfl := List.map_eq_nil_iff.mp same
    rfl
  | cons e entries ih =>
    obtain ⟨r, ranges, rfl⟩ := List.exists_cons_of_ne_nil (l := ranges) (by rintro rfl; cases same)
    obtain ⟨head, tail⟩ := List.cons.inj same
    obtain ⟨others, rest⟩ := List.pairwise_cons.mp distinct
    have start : r.lo = e.ptr := congrArg Prod.fst head
    by_cases here : e.ptr = ptr
    · have kept : takeBack (e :: entries) ptr = entries := by
        unfold takeBack
        rw [List.filter_cons_of_neg (by simp [here]), List.filter_eq_self]
        intro f member
        simpa using fun equal => others f member (here.trans equal.symm)
      rw [kept, List.eraseP_cons_of_pos (by simp [start, here])]
      exact tail
    · have kept : takeBack (e :: entries) ptr = e :: takeBack entries ptr := List.filter_cons_of_pos (by simp [here])
      rw [kept, List.eraseP_cons_of_neg (by simp [start, here]), List.map_cons, List.map_cons, head, ih tail rest]

/-! ### A new block -/

theorem callAllocator_run (index : Int) {request : Request} {result : Int} (run : execute request d.heap = .ok (result, s')) :
    callAllocator index request d = .ok (result, d.called index request s' result) := by
  unfold callAllocator
  rw [Run.seq_get, run]
  rfl

theorem ledger_called (d : Driver) (index : Int) (request : Request) (s' : Heap) (result : Int) :
    ledger (d.called index request s' result).calls = note (ledger d.calls) ⟨index, request, d.heap, result⟩ :=
  ledger_snoc

/-- The allocator keeps its contract, so `add_range` has nothing to report. -/
theorem addRange_contract (wf : Wf d.heap mids fl) (aligned : d.heap.memStartBrk % 8 = 0) {written : Int → Option UInt8}
    (tracked : Tracked mids d.heap.mem (⟨p, size, written⟩ :: entries.map Entry.toLive))
    (same : d.ranges.map Range.extent = entries.map Entry.extent) (positive : 0 < size) :
    addRange p size tracenum opnum d = .ok (1, { d with ranges := payloadRange p size positive :: d.ranges }) := by
  have contract := wf.contract tracked aligned
  refine addRange_records tracenum opnum positive (contract.aligned _ List.mem_cons_self)
    (contract.inside _ List.mem_cons_self) ?_
  rintro ⟨r, member, contains⟩
  have listed : r.extent ∈ entries.map Entry.extent := by
    rw [← same]
    exact List.mem_map_of_mem member
  obtain ⟨e, eMem, extent⟩ := List.mem_map.mp listed
  have apart := (List.pairwise_cons.mp contract.disjoint).1 e.toLive (List.mem_map_of_mem eMem)
  have first : e.ptr = r.lo := congrArg Prod.fst extent
  have last : e.ptr + e.size - 1 = r.hi := congrArg Prod.snd extent
  simp only [Range.Contains, payloadRange] at contains
  simp only [Entry.toLive] at apart
  omega

theorem Books.enter (wf : Wf s mids fl) (aligned : s.memStartBrk % 8 = 0)
    (tracked : Tracked mids s.mem (Entry.toLive ⟨index, p, size⟩ :: entries.map Entry.toLive))
    (complete : ∀ q, s.Owns q → q = p ∨ ∃ e ∈ entries, e.ptr = q)
    (same : ranges.map Range.extent = entries.map Entry.extent) (positive : 0 < size) :
    Books s (payloadRange p size positive :: ranges) (⟨index, p, size⟩ :: entries) := by
  refine ⟨⟨mids, fl, wf, tracked⟩, aligned, ?_, by rw [List.map_cons, List.map_cons, same]; rfl⟩
  intro q owned
  rcases complete q owned with rfl | ⟨e, member, pointer⟩
  · exact ⟨_, List.mem_cons_self, rfl⟩
  · exact ⟨e, List.mem_cons_of_mem _ member, pointer⟩

/-- The books with a block that has just been recorded and filled. -/
theorem Books.place (wf : Wf s mids fl) (aligned : s.memStartBrk % 8 = 0) {written : Int → Option UInt8}
    (tracked : Tracked mids s.mem (⟨p, size, written⟩ :: entries.map Entry.toLive))
    (complete : ∀ q, s.Owns q → q = p ∨ ∃ e ∈ entries, e.ptr = q)
    (same : ranges.map Range.extent = entries.map Entry.extent) (positive : 0 < size) (index : Int) :
    Books (s.withMem (memset s.mem p (fillByte index) size.toNat)) (payloadRange p size positive :: ranges)
      (⟨index, p, size⟩ :: entries) := by
  have known : ∀ i byte, (Entry.toLive ⟨index, p, size⟩).written i = some byte → byte = fillByte index := by
    intro i byte written
    by_cases low : lowByte index < 128
    · exact (Option.some.inj ((if_pos low).symm.trans written)).symm
    · cases (if_neg low).symm.trans written
  obtain ⟨final, filled⟩ := tracked.fill wf known
  have kept : ∀ q, (s.withMem (memset s.mem p (fillByte index) size.toNat)).Owns q → s.Owns q :=
    fun q owned => (wf.owns q).mpr ((final.owns q).mp owned)
  exact Books.enter final aligned filled (fun q owned => complete q (kept q owned)) same positive

inductive Allocated (d d' : Driver) (index size tracenum opnum : Int) : Outcome → Prop
  | failed (positive : 0 < size) (kept : ledger d'.calls = ledger d.calls)
      (report : d'.errors = d.errors ++ [⟨tracenum, lineNum opnum, mallocFailed, []⟩]) :
      Allocated d d' index size tracenum opnum .failed
  | empty (zero : size = 0) (kept : ledger d'.calls = ledger d.calls) (silent : d'.errors = d.errors) :
      Allocated d d' index size tracenum opnum .empty
  | placed (p : Int) (positive : 0 < size) (entered : ledger d'.calls = ⟨index, p, size⟩ :: ledger d.calls)
      (silent : d'.errors = d.errors) : Allocated d d' index size tracenum opnum (.placed p)

/-- A call that found no memory, or asked for none, leaves the books as they are. -/
theorem Driver.Sound.refused (sound : d.Sound) (low : 0 ≤ size) (high : size ≤ intMax)
    (run : mmMalloc size d.heap = .ok (0, s')) {request : Request}
    (kept : ledger (d.called index request s' 0).calls = ledger d.calls)
    (null : ∀ ptr, request.pointer = some ptr → ptr = 0) : (d.called index request s' 0).Sound := by
  obtain ⟨⟨⟨mids, fl, wf, tracked⟩, aligned, complete, same⟩, along⟩ := sound
  obtain ⟨p, t, mids', fl', run', final, start, after⟩ := Tracked.malloc wf tracked low high
  obtain ⟨rfl, rfl⟩ := Prod.mk.inj (Except.ok.inj (run.symm.trans run'))
  refine ⟨?_, along_snoc along fun ptr pointer => Or.inl (null ptr pointer)⟩
  rw [kept]
  refine ⟨⟨mids', fl', final, after⟩, by rw [← start] at aligned; exact aligned, ?_, same⟩
  intro q given
  rcases wf.owns_malloc low high run given with old | new
  · exact complete q old
  · exact (final.owns_ne_zero given new).elim

theorem Driver.Sound.allocate (sound : d.Sound) (index tracenum opnum : Int) (low : 0 ≤ size) (high : size ≤ intMax) :
    ∃ outcome d', allocate index size tracenum opnum d = .ok (outcome, d') ∧ d'.Sound ∧
      Allocated d d' index size tracenum opnum outcome := by
  obtain ⟨⟨mids, fl, wf, tracked⟩, aligned, complete, same⟩ := sound.books
  obtain ⟨p, s', mids', fl', run, final, start, after⟩ := Tracked.malloc wf tracked low high
  have executed : execute (.malloc size) d.heap = .ok (p, s') := run
  have ran := callAllocator_run index executed
  have noted : ledger (d.called index (.malloc size) s' p).calls = handOut (ledger d.calls) index size p := ledger_called ..
  unfold Malloc.allocate
  rw [Run.seq ran]
  by_cases null : p = 0
  · subst null
    have sound' := sound.refused low high run noted fun _ none => by cases none
    by_cases zero : size = 0
    · rw [if_neg fun failed => failed.2 zero, if_pos zero]
      exact ⟨_, _, rfl, sound', .empty zero noted rfl⟩
    · rw [if_pos ⟨rfl, zero⟩]
      exact ⟨_, _, rfl, ⟨sound'.books, sound'.owned⟩, .failed (by omega) noted rfl⟩
  · have positive : 0 < size := by
      by_contra none
      obtain rfl : size = 0 := by omega
      exact null (Prod.mk.inj (Except.ok.inj (run.symm.trans (run_mmMalloc_zero d.heap)))).1
    have owners : ∀ q, s'.Owns q → q = p ∨ ∃ e ∈ ledger d.calls, e.ptr = q := by
      intro q given
      rcases wf.owns_malloc low high run given with old | new
      · exact Or.inr (complete q old)
      · exact Or.inl new
    have owned : Trace.Along note Call.Owned [] (d.called index (.malloc size) s' p).calls :=
      along_snoc sound.owned fun _ none => by cases none
    rw [handOut, if_neg null] at noted
    rw [recordMalloc, if_neg null] at after
    rw [← start] at aligned
    have books := Books.place final aligned after owners same positive index
    rw [← noted] at books
    rw [if_neg fun failed => null failed.1, if_neg (by omega),
      Run.seq (addRange_contract (d := d.called index (.malloc size) s' p) final aligned after same positive)]
    exact ⟨_, _, rfl, ⟨books, owned⟩, .placed p positive noted rfl⟩

/-! ### A block that moves, grows or shrinks -/

theorem Books.owns (books : Books s ranges entries) (member : e ∈ entries) : s.Owns e.ptr := by
  obtain ⟨mids, fl, wf, tracked⟩ := books.heap
  obtain ⟨b, bMem, allocated, backing⟩ := tracked.backed _ (List.mem_map_of_mem member)
  exact (wf.owns _).mpr ⟨b, bMem, allocated, backing.ptr⟩

theorem Books.ptr_ne_zero (books : Books s ranges entries) (member : e ∈ entries) : e.ptr ≠ 0 := by
  obtain ⟨mids, fl, wf, _⟩ := books.heap
  exact wf.owns_ne_zero (books.owns member)

theorem Books.distinct (books : Books s ranges entries) : entries.Pairwise fun e f => e.ptr ≠ f.ptr := by
  obtain ⟨mids, fl, wf, tracked⟩ := books.heap
  have pairs := tracked.distinct
  rwa [List.pairwise_map] at pairs

theorem Books.eq_of_ptr (books : Books s ranges entries) {f : Entry} (eMem : e ∈ entries) (fMem : f ∈ entries)
    (same : e.ptr = f.ptr) : e = f := by
  by_contra different
  have symm : Std.Symm fun e f : Entry => e.ptr ≠ f.ptr := ⟨fun _ _ => Ne.symm⟩
  exact books.distinct.forall eMem fMem different same

theorem takeBack_toLive (ptr : Int) :
    (entries.map Entry.toLive).filter (fun t => t.ptr != ptr) = (takeBack entries ptr).map Entry.toLive :=
  List.filter_map

theorem mem_takeBack : e ∈ takeBack entries ptr ↔ e ∈ entries ∧ e.ptr ≠ ptr := by
  simp [takeBack]

/-- How `reallocate` ends for a block in use and a positive size. -/
inductive Reallocated (d d' : Driver) (e : Entry) (size tracenum opnum : Int) : Outcome → Prop
  | failed (kept : ledger d'.calls = ledger d.calls)
      (report : d'.errors = d.errors ++ [⟨tracenum, lineNum opnum, reallocFailed, []⟩]) :
      Reallocated d d' e size tracenum opnum .failed
  | lost (q : Int) (s' : Heap) (high : 128 ≤ lowByte e.index) (nonNull : q ≠ 0)
      (run : mmRealloc e.ptr size d.heap = .ok (q, s'))
      (entered : ledger d'.calls = ⟨e.index, q, size⟩ :: takeBack (ledger d.calls) e.ptr)
      (report : d'.errors = d.errors ++ [⟨tracenum, lineNum opnum, notPreserved, []⟩]) :
      Reallocated d d' e size tracenum opnum .failed
  | placed (q : Int) (low : lowByte e.index < 128)
      (entered : ledger d'.calls = ⟨e.index, q, size⟩ :: takeBack (ledger d.calls) e.ptr)
      (silent : d'.errors = d.errors) : Reallocated d d' e size tracenum opnum (.placed q)

theorem oldsize_eq (low : 0 < blockSize) (high : blockSize ≤ intMax) : wrap 32 blockSize = blockSize := by
  simp only [intMax] at high
  exact Int.bmod_eq_of_le (by norm_num; omega) (by norm_num; omega)

/-- A pointer of the ledger may be passed to `mm_free` and `mm_realloc`. -/
theorem Driver.Sound.owned_snoc (sound : d.Sound) (member : e ∈ ledger d.calls) {request : Request}
    (passed : request.pointer = some e.ptr) (result : Int) :
    Trace.Along note Call.Owned [] (d.calls ++ [⟨e.index, request, d.heap, result⟩]) := by
  refine along_snoc sound.owned ?_
  intro ptr pointer
  obtain rfl := Option.some.inj (passed.symm.trans pointer)
  exact Or.inr ⟨sound.books.owns member, e, member, rfl, rfl⟩

theorem ledger_realloc (d : Driver) (s' : Heap) (q : Int) (live : e.ptr ≠ 0) (positive : 0 < size) :
    ledger (d.called e.index (.realloc e.ptr size) s' q).calls =
      if q = 0 then ledger d.calls else ⟨e.index, q, size⟩ :: takeBack (ledger d.calls) e.ptr := by
  rw [ledger_called]
  show (if e.ptr = 0 then _ else if size = 0 then _ else _) = _
  rw [if_neg live, if_neg (by omega)]

theorem Books.owners_realloc (books : Books s ranges entries) (member : e ∈ entries) (positive : 0 < size)
    (high : size ≤ intMax) (run : mmRealloc e.ptr size s = .ok (q, s')) {x : Int} (owns : s'.Owns x) :
    if q = 0 then ∃ f ∈ entries, f.ptr = x else x = q ∨ ∃ f ∈ takeBack entries e.ptr, f.ptr = x := by
  obtain ⟨mids, fl, wf, _⟩ := books.heap
  have kept := wf.owns_realloc (books.owns member) positive high run owns
  by_cases null : q = 0
  · rw [if_pos null] at kept ⊢
    exact books.complete x kept
  · rw [if_neg null] at kept ⊢
    rcases kept with ⟨old, different⟩ | new
    · obtain ⟨f, fMem, rfl⟩ := books.complete x old
      exact Or.inr ⟨f, mem_takeBack.mpr ⟨fMem, different⟩, rfl⟩
    · exact Or.inl new

/-- `mm_realloc` has copied as much of the old payload as the driver compares. -/
theorem holdsFill_copied {m' : Memory} (low : lowByte e.index < 128) (known : blockSize ≤ e.size)
    (filled : ∀ i, 0 ≤ i → i < e.size → m (e.ptr + i) = fillByte e.index)
    (copied : ∀ i, 0 ≤ i → i < min e.size size → m' (q + i) = m (e.ptr + i)) :
    holdsFill m' q e.index (if size < blockSize then size else blockSize) = true := by
  apply holdsFill_low low
  intro i least most
  have inside : i < e.size ∧ i < size := by
    split at most <;> omega
  rw [copied i least (lt_min_iff.mpr inside), filled i least inside.1]

theorem Driver.Sound.reallocate (sound : d.Sound) (member : e ∈ ledger d.calls) (tracenum opnum : Int) (positive : 0 < size)
    (high : size ≤ intMax) (tableLow : 0 < blockSize) (tableHigh : blockSize ≤ intMax)
    (known : lowByte e.index < 128 → blockSize ≤ e.size) :
    ∃ outcome d', reallocate e.index e.ptr blockSize size tracenum opnum d = .ok (outcome, d') ∧ d'.Sound ∧
      Reallocated d d' e size tracenum opnum outcome := by
  have books := sound.books
  obtain ⟨⟨mids, fl, wf, tracked⟩, aligned, complete, same⟩ := sound.books
  have rMem : e.toLive ∈ (ledger d.calls).map Entry.toLive := List.mem_map_of_mem member
  have contract := wf.contract tracked aligned
  obtain ⟨q, s', mids', fl', run, final, start, after, copied, _⟩ :=
    Tracked.realloc wf tracked rMem positive (by simp only [intMax] at high; omega)
  have executed : execute (.realloc e.ptr size) d.heap = .ok (q, s') := run
  have ran := callAllocator_run e.index executed
  have noted := ledger_realloc d s' q (books.ptr_ne_zero member) positive
  have owned := sound.owned_snoc member (show (Request.realloc e.ptr size).pointer = some e.ptr from rfl) q
  have owners : ∀ x, s'.Owns x → _ := fun x => books.owners_realloc member positive high run
  rw [← start] at aligned
  unfold Malloc.reallocate
  rw [Run.seq ran]
  by_cases null : q = 0
  · simp only [if_pos null] at noted after owners
    have kept : Books s' d.ranges (ledger d.calls) := ⟨⟨mids', fl', final, after⟩, aligned, owners, same⟩
    rw [← noted] at kept
    rw [if_pos ⟨null, by omega⟩]
    exact ⟨_, _, rfl, ⟨kept, owned⟩, .failed noted rfl⟩
  simp only [if_neg null] at noted after owners
  have front : Tracked mids' s'.mem (e.toLive.resize q size :: (takeBack (ledger d.calls) e.ptr).map Entry.toLive) := by
    rw [← takeBack_toLive]
    exact Tracked.front tracked.distinct rMem after
  have removed := eraseP_extent same books.distinct e.ptr
  let d₂ : Driver := { d.called e.index (.realloc e.ptr size) s' q with ranges := d.ranges.eraseP fun r => r.lo == e.ptr }
  have remove : removeRange e.ptr (d.called e.index (.realloc e.ptr size) s' q) = .ok ((), d₂) := rfl
  let d₃ : Driver := { d₂ with ranges := payloadRange q size positive :: d₂.ranges }
  have recorded : addRange q size tracenum opnum d₂ = .ok (1, d₃) := addRange_contract final aligned front removed positive
  have oldsize := oldsize_eq tableLow tableHigh
  rw [if_neg fun failed => null failed.1, if_neg (by omega), Run.seq remove, Run.seq recorded, if_neg (by decide),
    Run.seq_get, oldsize]
  by_cases low : lowByte e.index < 128
  · have filled : ∀ i, 0 ≤ i → i < e.size → d.heap.mem (e.ptr + i) = fillByte e.index :=
      fun i least most => contract.contents _ rMem i _ least most (if_pos low)
    have holds : holdsFill d₃.heap.mem q e.index (if size < blockSize then size else blockSize) = true :=
      holdsFill_copied low (known low) filled (copied null)
    have placed := Books.place final aligned front owners removed positive e.index
    rw [← noted] at placed
    rw [if_neg (by rw [holds]; decide)]
    exact ⟨_, _, rfl, ⟨placed, owned⟩, .placed q low noted rfl⟩
  · have high : 128 ≤ lowByte e.index := by omega
    have unread : e.toLive.resize q size = Entry.toLive ⟨e.index, q, size⟩ := by
      simp [Live.resize, Entry.toLive, low]
    rw [unread] at front
    have entered := Books.enter final aligned front owners removed positive
    rw [← noted] at entered
    rw [if_pos (holdsFill_high high (by split <;> omega))]
    exact ⟨_, _, rfl, ⟨entered, owned⟩, .lost q s' high null run noted rfl⟩

/-- `reallocate` of a `NULL` pointer when `mm_malloc` has nothing to hand out. -/
theorem Driver.Sound.reallocate_null (sound : d.Sound) (index blockSize tracenum opnum : Int) (low : 0 ≤ size)
    (high : size ≤ intMax) (run : mmMalloc size d.heap = .ok (0, s')) :
    ∃ outcome d', Malloc.reallocate index 0 blockSize size tracenum opnum d = .ok (outcome, d') ∧ d'.Sound ∧
      ledger d'.calls = ledger d.calls ∧ ∀ q, outcome ≠ .placed q := by
  have ran := callAllocator_run index
    (show execute (.realloc 0 size) d.heap = .ok (0, s') from (run_mmRealloc_null d.heap size).trans run)
  have noted : ledger (d.called index (.realloc 0 size) s' 0).calls = ledger d.calls := by
    rw [ledger_called]
    rfl
  have sound' := sound.refused low high run noted fun ptr pointer => (Option.some.inj pointer).symm
  unfold Malloc.reallocate
  rw [Run.seq ran]
  by_cases zero : size = 0
  · rw [if_neg fun failed => failed.2 zero, if_pos zero]
    exact ⟨_, _, rfl, sound', noted, fun _ placed => by cases placed⟩
  · rw [if_pos ⟨rfl, zero⟩]
    exact ⟨_, _, rfl, ⟨sound'.books, sound'.owned⟩, noted, fun _ placed => by cases placed⟩

/-! ### A block given back -/

theorem Driver.Sound.freePayload (sound : d.Sound) (member : e ∈ ledger d.calls) :
    ∃ d', freePayload e.index e.ptr d = .ok ((), d') ∧ d'.Sound ∧
      ledger d'.calls = takeBack (ledger d.calls) e.ptr ∧ d'.errors = d.errors := by
  have given := sound.books.owns member
  have distinct := sound.books.distinct
  obtain ⟨⟨mids, fl, wf, tracked⟩, aligned, complete, same⟩ := sound.books
  obtain ⟨b, bMem, allocated, pointer⟩ := (wf.owns e.ptr).mp given
  obtain ⟨s', mids', fl', run, final, start, after⟩ := Tracked.free wf tracked bMem allocated
  rw [← pointer] at run after
  rw [recordFree, takeBack_toLive] at after
  let d₁ : Driver := { d with ranges := d.ranges.eraseP fun r => r.lo == e.ptr }
  have remove : removeRange e.ptr d = .ok ((), d₁) := rfl
  have ran := callAllocator_run e.index
    (show execute (.free e.ptr) d₁.heap = .ok (0, s') from (run_bind run).trans rfl)
  have noted : ledger (d₁.called e.index (.free e.ptr) s' 0).calls = takeBack (ledger d.calls) e.ptr := ledger_called ..
  have owned := sound.owned_snoc member (show (Request.free e.ptr).pointer = some e.ptr from rfl) 0
  have books : Books s' d₁.ranges (takeBack (ledger d.calls) e.ptr) := by
    refine ⟨⟨mids', fl', final, after⟩, by rw [start]; exact aligned, ?_, eraseP_extent same distinct e.ptr⟩
    intro q owns
    obtain ⟨old, different⟩ := wf.owns_free given run owns
    obtain ⟨f, fMem, rfl⟩ := complete q old
    exact ⟨f, mem_takeBack.mpr ⟨fMem, different⟩, rfl⟩
  rw [← noted] at books
  unfold Malloc.freePayload
  rw [Run.seq remove, Run.seq ran]
  exact ⟨_, rfl, ⟨books, owned⟩, noted, rfl⟩

end Cs1330.Malloc
