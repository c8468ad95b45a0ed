import Cs1330.Malloc.Runs

/-!
# The client's view

The client keeps a record of each live pointer: the size it asked for and the bytes it has
written since. `Contract` is what the allocator owes it: aligned and disjoint ranges inside the
heap, and bytes that stay as they were written. The records are tied to the heap by `Backed`.
-/

namespace Cs1330.Malloc
open Machine Links Tiling

/-- A live pointer: the requested size, and the last byte written at each offset. -/
structure Live where
  ptr : Int
  size : Int
  written : Int → Option UInt8

/-- The record after the client stored `byte` at `address`. -/
def Live.note (r : Live) (address : Int) (byte : UInt8) : Live :=
  if r.ptr ≤ address ∧ address < r.ptr + r.size then
    { r with written := fun i => if i = address - r.ptr then some byte else r.written i }
  else r

/-- The record after `mm_realloc` moved it to `q`: the bytes past the smaller size are unknown. -/
def Live.resize (r : Live) (q size : Int) : Live :=
  ⟨q, size, fun i => if i < min r.size size then r.written i else none⟩

def recordMalloc (live : List Live) (size result : Int) : List Live :=
  if result = 0 then live else ⟨result, size, fun _ => none⟩ :: live

def recordFree (live : List Live) (ptr : Int) : List Live := live.filter fun r => r.ptr != ptr

/-- The client's books after a request returned. -/
def record (live : List Live) : Request → Int → List Live
  | .malloc size, result => recordMalloc live size result
  | .free ptr, _ => recordFree live ptr
  | .realloc ptr size, result =>
    if ptr = 0 then recordMalloc live size result
    else if size = 0 then recordFree live ptr
    else if result = 0 then live
    else live.map fun r => if r.ptr = ptr then r.resize result size else r
  | .write address byte, _ => live.map fun r => r.note address byte

/-- Frees and reallocations of live pointers, writes inside a requested size. -/
def ClientLegal (live : List Live) : Request → Prop
  | .malloc size => 0 ≤ size ∧ size ≤ intMax
  | .free ptr => ptr = 0 ∨ ∃ r ∈ live, r.ptr = ptr
  | .realloc ptr size => (ptr = 0 ∨ ∃ r ∈ live, r.ptr = ptr) ∧ 0 ≤ size ∧ size ≤ intMax
  | .write address _ => ∃ r ∈ live, r.ptr ≤ address ∧ address < r.ptr + r.size

inductive ClientReachable (base : Int) : Heap → List Live → Prop
  | init {s s' : Heap} : mmInit base s = .ok (0, s') → ClientReachable base s' []
  | step {s s' : Heap} {live : List Live} {request : Request} {result : Int} : ClientReachable base s live →
      ClientLegal live request → execute request s = .ok (result, s') →
      ClientReachable base s' (record live request result)

structure Contract (s : Heap) (live : List Live) : Prop where
  aligned : ∀ r ∈ live, r.ptr % 8 = 0
  inside : ∀ r ∈ live, s.memHeapLo ≤ r.ptr ∧ r.ptr + r.size - 1 ≤ s.memHeapHi
  disjoint : live.Pairwise fun r t => r.ptr + r.size ≤ t.ptr ∨ t.ptr + t.size ≤ r.ptr
  contents : ∀ r ∈ live, ∀ i byte, 0 ≤ i → i < r.size → r.written i = some byte → s.mem (r.ptr + i) = byte

/-! ### Records and blocks -/

structure Backing (b : Block) (m : Memory) (r : Live) : Prop where
  ptr : r.ptr = b.addr + 8
  positive : 0 < r.size
  fits : r.size + 16 ≤ b.size
  contents : ∀ i byte, 0 ≤ i → i < r.size → r.written i = some byte → m (r.ptr + i) = byte

def Backed (mids : List Block) (m : Memory) (r : Live) : Prop := ∃ b ∈ mids, b.allocated = true ∧ Backing b m r

structure Tracked (mids : List Block) (m : Memory) (live : List Live) : Prop where
  backed : ∀ r ∈ live, Backed mids m r
  distinct : live.Pairwise fun r t => r.ptr ≠ t.ptr

variable {s s' : Heap} {mids mids' : List Block} {fl fl' : List Int} {b c d : Block} {m m' : Memory} {r : Live}
  {live : List Live}

theorem Backing.frame (backing : Backing b m r) (same : Same b m m') : Backing b m' r := by
  refine ⟨backing.ptr, backing.positive, backing.fits, ?_⟩
  intro i byte low high written
  have ptr := backing.ptr
  have fits := backing.fits
  rw [same (r.ptr + i) (by omega) (by simp only [Block.limit]; omega)]
  exact backing.contents i byte low high written

/-- Records survive a step that keeps their blocks and the blocks' bytes. -/
theorem Tracked.frame (tracked : Tracked mids m live) (kept : ∀ b ∈ mids, b.allocated = true → b ∈ mids')
    (same : ∀ b ∈ mids, b.allocated = true → Same b m m') : Tracked mids' m' live := by
  refine ⟨?_, tracked.distinct⟩
  intro r member
  obtain ⟨b, bMem, allocated, backing⟩ := tracked.backed r member
  exact ⟨b, kept b bMem allocated, allocated, backing.frame (same b bMem allocated)⟩

theorem Wf.backing_unique (wf : Wf s mids fl) (bMem : b ∈ mids) (cMem : c ∈ mids) {t : Live} (first : Backing b m r)
    (second : Backing c m t) (same : r.ptr = t.ptr) : b = c := by
  have left := first.ptr
  have right := second.ptr
  exact wf.eq_of_addr (mem_layout_mid bMem) (mem_layout_mid cMem) (by omega)

theorem Wf.contract (wf : Wf s mids fl) (tracked : Tracked mids s.mem live) (aligned : s.memStartBrk % 8 = 0) :
    Contract s live := by
  refine ⟨?_, ?_, ?_, ?_⟩
  · intro r member
    obtain ⟨b, bMem, _, backing⟩ := tracked.backed r member
    have sizes : ∀ c ∈ s.layout mids, (8 : Int) ∣ c.size := by
      intro c cMem
      exact Int.dvd_of_emod_eq_zero (wf.sized c cMem).aligned
    have addr := tiled_aligned wf.tiled (Int.dvd_of_emod_eq_zero aligned) sizes b (mem_layout_mid bMem)
    have ptr := backing.ptr
    omega
  · intro r member
    obtain ⟨b, bMem, _, backing⟩ := tracked.backed r member
    have inside := wf.inside b (mem_layout_mid bMem)
    have ptr := backing.ptr
    have fits := backing.fits
    simp only [Block.limit] at inside
    simp only [Heap.memHeapLo, Heap.memHeapHi]
    omega
  · refine List.Pairwise.imp_of_mem ?_ tracked.distinct
    intro r t rMem tMem different
    obtain ⟨b, bMem, _, first⟩ := tracked.backed r rMem
    obtain ⟨c, cMem, _, second⟩ := tracked.backed t tMem
    have blocks : b ≠ c := by
      intro same
      rw [same] at first
      exact different (first.ptr.trans second.ptr.symm)
    have apart := wf.apart_of_ne (mem_layout_mid bMem) (mem_layout_mid cMem) blocks
    have left := first.ptr
    have right := second.ptr
    have leftFits := first.fits
    have rightFits := second.fits
    simp only [Block.Apart, Block.limit] at apart
    omega
  · intro r member
    obtain ⟨b, _, _, backing⟩ := tracked.backed r member
    exact backing.contents

/-! ### One request -/

theorem Tracked.malloc (wf : Wf s mids fl) (tracked : Tracked mids s.mem live) {size : Int} (low : 0 ≤ size)
    (high : size ≤ intMax) :
    ∃ p s' mids' fl', mmMalloc size s = .ok (p, s') ∧ Wf s' mids' fl' ∧ s'.memStartBrk = s.memStartBrk ∧
      Tracked mids' s'.mem (recordMalloc live size p) := by
  simp only [intMax] at high
  rcases eq_or_lt_of_le low with rfl | positive
  · exact ⟨0, s, mids, fl, run_mmMalloc_zero s, wf, rfl, tracked⟩
  rcases wf.run_mmMalloc positive (by omega) with ⟨b, s', mids', fl', placed, run, final, frame⟩ | ⟨_, _, run⟩
  · have bMem : b ∈ mids' := (placed.mem_allocated placed.allocated).mpr (Or.inr rfl)
    have nonNull := final.addr_pos bMem
    obtain ⟨large, _, adjusted, _⟩ := adjustedSize_bounds positive (by omega)
    have fits := placed.fits
    have old : Tracked mids' s'.mem live :=
      tracked.frame (fun c cMem allocated => (placed.mem_allocated allocated).mpr (Or.inl cMem)) frame
    refine ⟨_, s', mids', fl', run, final, placed.start, ?_⟩
    rw [recordMalloc, if_neg (by omega)]
    refine ⟨?_, List.Pairwise.cons ?_ old.distinct⟩
    · intro r member
      rcases List.mem_cons.mp member with rfl | member
      · exact ⟨b, bMem, placed.allocated, rfl, positive, Int.le_trans adjusted fits, fun i byte _ _ written => by cases written⟩
      · exact old.backed r member
    · intro r member same
      obtain ⟨c, cMem, allocated, backing⟩ := tracked.backed r member
      have apart := placed.apart wf cMem allocated
      have ptr := backing.ptr
      have size := wf.large c cMem
      have same : b.addr + 8 = r.ptr := same
      simp only [Block.Apart, Block.limit] at apart
      omega
  · exact ⟨0, s, mids, fl, run, wf, rfl, tracked⟩

theorem Tracked.free (wf : Wf s mids fl) (tracked : Tracked mids s.mem live) (member : b ∈ mids)
    (allocated : b.allocated = true) :
    ∃ s' mids' fl', mmFree (b.addr + 8) s = .ok ((), s') ∧ Wf s' mids' fl' ∧ s'.memStartBrk = s.memStartBrk ∧
      Tracked mids' s'.mem (recordFree live (b.addr + 8)) := by
  obtain ⟨m', first, fl', run, final, frame⟩ := wf.run_mmFree member allocated
  refine ⟨_, _, fl', run, final, rfl, ?_, tracked.distinct.filter _⟩
  intro r rMem
  obtain ⟨rMem, different⟩ := List.mem_filter.mp rMem
  obtain ⟨c, cMem, cAllocated, backing⟩ := tracked.backed r rMem
  have other : c.addr ≠ b.addr := by
    have ptr := backing.ptr
    simp only [bne_iff_ne, ne_eq] at different
    omega
  refine ⟨c, ?_, cAllocated, backing.frame (frame c cMem cAllocated fun same => other (by rw [same]))⟩
  exact (mem_coalesceAll cAllocated).mpr ((mem_release cAllocated).mpr ⟨cMem, by simpa using other⟩)

/-- Moving one record keeps the others apart when none of them is at the new pointer. -/
theorem Tracked.resize {m' : Memory} {mids' : List Block} {q size : Int} (tracked : Tracked mids s.mem live)
    (resized : ∀ t ∈ live, t.ptr = r.ptr → Backed mids' m' (t.resize q size))
    (kept : ∀ t ∈ live, t.ptr ≠ r.ptr → Backed mids' m' t ∧ t.ptr ≠ q) :
    Tracked mids' m' (live.map fun t => if t.ptr = r.ptr then t.resize q size else t) := by
  constructor
  · intro u uMem
    obtain ⟨t, tMem, rfl⟩ := List.mem_map.mp uMem
    by_cases same : t.ptr = r.ptr
    · rw [if_pos same]
      exact resized t tMem same
    · rw [if_neg same]
      exact (kept t tMem same).1
  · rw [List.pairwise_map]
    refine List.Pairwise.imp_of_mem ?_ tracked.distinct
    intro t u tMem uMem different
    by_cases tSame : t.ptr = r.ptr
    · have uOther : u.ptr ≠ r.ptr := fun uSame => different (tSame.trans uSame.symm)
      rw [if_pos tSame, if_neg uOther]
      exact (kept u uMem uOther).2.symm
    · rw [if_neg tSame]
      by_cases uSame : u.ptr = r.ptr
      · rw [if_pos uSame]
        exact (kept t tMem tSame).2
      · rw [if_neg uSame]
        exact different

/-- The record of a resized block, and the other records. -/
theorem Tracked.realloc (wf : Wf s mids fl) (tracked : Tracked mids s.mem live) (rMem : r ∈ live) {size : Int}
    (positive : 0 < size) (bound : size < 2 ^ 31) :
    ∃ q s' mids' fl', mmRealloc r.ptr size s = .ok (q, s') ∧ Wf s' mids' fl' ∧ s'.memStartBrk = s.memStartBrk ∧
      Tracked mids' s'.mem (if q = 0 then live else live.map fun t => if t.ptr = r.ptr then t.resize q size else t) ∧
      (q ≠ 0 → ∀ i, 0 ≤ i → i < min r.size size → s'.mem (q + i) = s.mem (r.ptr + i)) ∧
      ∀ t ∈ live, t.ptr ≠ r.ptr → ∀ i, 0 ≤ i → i < t.size → s'.mem (t.ptr + i) = s.mem (t.ptr + i) := by
  obtain ⟨b, member, allocated, backing⟩ := tracked.backed r rMem
  obtain ⟨q, s', mids', fl', resized, run, final, kept⟩ := wf.run_mmRealloc member allocated positive bound
  have ptr := backing.ptr
  have fits := backing.fits
  have others : ∀ t ∈ live, t.ptr ≠ r.ptr → ∃ c ∈ mids, c.allocated = true ∧ c ≠ b ∧ Backing c s.mem t := by
    intro t tMem different
    obtain ⟨c, cMem, cAllocated, backed⟩ := tracked.backed t tMem
    refine ⟨c, cMem, cAllocated, ?_, backed⟩
    intro same
    rw [same] at backed
    exact different (backed.ptr.trans ptr.symm)
  have copied : q ≠ 0 → ∀ i, 0 ≤ i → i < min r.size size → s'.mem (q + i) = s.mem (r.ptr + i) := by
    intro nonNull i low high
    obtain ⟨old, new⟩ := lt_min_iff.mp high
    rw [ptr]
    exact kept.copied nonNull i low (by omega) new
  refine ⟨q, s', mids', fl', by rw [ptr]; exact run, final, resized.start, ?_, copied, ?_⟩
  · rcases resized.block wf member allocated positive bound with ⟨rfl, rfl, rfl⟩ | ⟨d, rfl, dAllocated, dFits, fresh, blocks⟩
    · exact tracked
    have dMem : d ∈ mids' := (blocks d dAllocated).mpr (Or.inr rfl)
    have nonNull : d.addr + 8 ≠ 0 := by
      have := final.addr_pos dMem
      omega
    rw [if_neg nonNull]
    have moved : ∀ t ∈ live, t.ptr ≠ r.ptr → Backed mids' s'.mem t ∧ t.ptr ≠ d.addr + 8 := by
      intro t tMem different
      obtain ⟨c, cMem, cAllocated, other, backed⟩ := others t tMem different
      have stays : c ∈ mids' := (blocks c cAllocated).mpr (Or.inl ⟨cMem, other⟩)
      refine ⟨⟨c, stays, cAllocated, backed.frame (kept.others c cMem cAllocated other)⟩, ?_⟩
      have cPtr := backed.ptr
      have apart := fresh c cMem cAllocated other
      omega
    have resizedBacked : ∀ t ∈ live, t.ptr = r.ptr → Backed mids' s'.mem (t.resize (d.addr + 8) size) := by
      intro t tMem same
      obtain ⟨c, cMem, cAllocated, backed⟩ := tracked.backed t tMem
      obtain rfl : c = b := wf.backing_unique cMem member backed backing same
      refine ⟨d, dMem, dAllocated, rfl, positive, dFits, ?_⟩
      intro i byte low high written
      have known : i < min t.size size ∧ t.written i = some byte := by
        simpa [Live.resize] using written
      obtain ⟨old, new⟩ := lt_min_iff.mp known.1
      have tFits := backed.fits
      rw [← backed.contents i byte low old known.2, backed.ptr]
      exact kept.copied nonNull i low (by omega) new
    exact tracked.resize resizedBacked moved
  · intro t tMem different i low high
    obtain ⟨c, cMem, cAllocated, other, backed⟩ := others t tMem different
    have cPtr := backed.ptr
    have cFits := backed.fits
    exact kept.others c cMem cAllocated other _ (by omega) (by simp only [Block.limit]; omega)

theorem note_ptr (r : Live) (address : Int) (byte : UInt8) : (r.note address byte).ptr = r.ptr := by
  unfold Live.note
  split <;> rfl

theorem note_size (r : Live) (address : Int) (byte : UInt8) : (r.note address byte).size = r.size := by
  unfold Live.note
  split <;> rfl

theorem Backing.note (backing : Backing b m r) (address : Int) (byte : UInt8) :
    Backing b (m.set address byte) (r.note address byte) := by
  refine ⟨?_, ?_, ?_, ?_⟩
  · rw [note_ptr]
    exact backing.ptr
  · rw [note_size]
    exact backing.positive
  · rw [note_size]
    exact backing.fits
  · intro i known low high written
    rw [note_size] at high
    rw [note_ptr]
    by_cases here : r.ptr + i = address
    · have noted : (r.note address byte).written i = some byte := by
        rw [Live.note, if_pos (by omega)]
        exact if_pos (by omega)
      rw [here, Memory.set_same]
      exact Option.some.inj (noted.symm.trans written)
    · have kept : (r.note address byte).written i = r.written i := by
        unfold Live.note
        split
        · exact if_neg (by omega)
        · rfl
      rw [Memory.set_other here]
      exact backing.contents i known low high (kept.symm.trans written)

theorem Tracked.write (tracked : Tracked mids m live) (address : Int) (byte : UInt8) :
    Tracked mids (m.set address byte) (live.map fun r => r.note address byte) := by
  refine ⟨?_, ?_⟩
  · intro u uMem
    obtain ⟨r, rMem, rfl⟩ := List.mem_map.mp uMem
    obtain ⟨b, bMem, allocated, backing⟩ := tracked.backed r rMem
    exact ⟨b, bMem, allocated, backing.note address byte⟩
  · rw [List.pairwise_map]
    apply tracked.distinct.imp
    intro r t different
    rw [note_ptr, note_ptr]
    exact different

/-- What the client may ask for is legal for the heap. -/
theorem Tracked.legal (wf : Wf s mids fl) (tracked : Tracked mids s.mem live) {request : Request}
    (legal : ClientLegal live request) : Legal s request := by
  have owned : ∀ ptr, (ptr = 0 ∨ ∃ r ∈ live, r.ptr = ptr) → ptr = 0 ∨ s.Owns ptr := by
    intro ptr pointer
    rcases pointer with null | ⟨r, rMem, rfl⟩
    · exact Or.inl null
    · obtain ⟨b, bMem, allocated, backing⟩ := tracked.backed r rMem
      exact Or.inr ((wf.owns _).mpr ⟨b, bMem, allocated, backing.ptr⟩)
  cases request with
  | malloc size => exact legal
  | free ptr => exact owned ptr legal
  | realloc ptr size => exact ⟨owned ptr legal.1, legal.2⟩
  | write address byte =>
    obtain ⟨r, rMem, low, high⟩ := legal
    obtain ⟨b, bMem, allocated, backing⟩ := tracked.backed r rMem
    have ptr := backing.ptr
    have fits := backing.fits
    exact ⟨(b.addr + 8, b.size - 16), (wf.mem_payloads _).mpr ⟨b, bMem, allocated, rfl⟩, by show b.addr + 8 ≤ address; omega,
      by show address < b.addr + 8 + (b.size - 16); omega⟩

theorem Tracked.execute (wf : Wf s mids fl) (tracked : Tracked mids s.mem live) {request : Request}
    (legal : ClientLegal live request) :
    ∃ result s' mids' fl', execute request s = .ok (result, s') ∧ Wf s' mids' fl' ∧ s'.memStartBrk = s.memStartBrk ∧
      Tracked mids' s'.mem (record live request result) := by
  have nonNull : ∀ r ∈ live, r.ptr ≠ 0 := by
    intro r rMem
    obtain ⟨b, bMem, _, backing⟩ := tracked.backed r rMem
    have positive := wf.addr_pos bMem
    have ptr := backing.ptr
    omega
  cases request with
  | malloc size => exact Tracked.malloc wf tracked legal.1 legal.2
  | free ptr =>
    rcases legal with rfl | ⟨r, rMem, rfl⟩
    · refine ⟨0, s, mids, fl, rfl, wf, rfl, ?_⟩
      have all : record live (.free 0) 0 = live := by
        apply List.filter_eq_self.mpr
        intro r rMem
        simpa using nonNull r rMem
      rw [all]
      exact tracked
    · obtain ⟨b, bMem, allocated, backing⟩ := tracked.backed r rMem
      obtain ⟨s', mids', fl', run, final, start, after⟩ := Tracked.free wf tracked bMem allocated
      rw [← backing.ptr] at run after
      exact ⟨0, s', mids', fl', (run_bind run).trans rfl, final, start, after⟩
  | realloc ptr size =>
    obtain ⟨pointer, low, high⟩ := legal
    rcases pointer with rfl | ⟨r, rMem, rfl⟩
    · obtain ⟨p, s', mids', fl', run, final, start, after⟩ := Tracked.malloc wf tracked low high
      exact ⟨p, s', mids', fl', (run_mmRealloc_null s size).trans run, final, start, after⟩
    · have live := nonNull r rMem
      simp only [record, if_neg live]
      rcases eq_or_lt_of_le low with rfl | positive
      · obtain ⟨b, bMem, allocated, backing⟩ := tracked.backed r rMem
        obtain ⟨s', mids', fl', run, final, start, after⟩ := Tracked.free wf tracked bMem allocated
        rw [← backing.ptr] at run after
        exact ⟨0, s', mids', fl', run_mmRealloc_zero live run, final, start, by rw [if_pos rfl]; exact after⟩
      · simp only [intMax] at high
        obtain ⟨q, s', mids', fl', run, final, start, after, _⟩ := Tracked.realloc wf tracked rMem positive (by omega)
        exact ⟨q, s', mids', fl', run, final, start, by rw [if_neg (by omega)]; exact after⟩
  | write address byte =>
    obtain ⟨r, rMem, low, high⟩ := legal
    obtain ⟨b, bMem, allocated, backing⟩ := tracked.backed r rMem
    have ptr := backing.ptr
    have fits := backing.fits
    exact ⟨0, _, mids, fl, rfl, wf.write byte bMem allocated (by omega) (by simp only [Block.limit]; omega), rfl,
      tracked.write address byte⟩

/-! ### Whole runs -/

theorem clientReachable_tracked {base : Int} (usable : Usable base) (reachable : ClientReachable base s live) :
    ∃ mids fl, Wf s mids fl ∧ s.memStartBrk = base ∧ Tracked mids s.mem live := by
  induction reachable with
  | @init s s' run =>
    obtain ⟨t, init, wf, start, _⟩ := run_mmInit usable s
    obtain ⟨_, rfl⟩ := Prod.mk.inj (Except.ok.inj (run.symm.trans init))
    exact ⟨[], [], wf, start, by simp, List.Pairwise.nil⟩
  | step _ legal run ih =>
    obtain ⟨mids, fl, wf, start, tracked⟩ := ih
    obtain ⟨result, t, mids', fl', progress, final, same, after⟩ := Tracked.execute wf tracked legal
    obtain ⟨rfl, rfl⟩ := Prod.mk.inj (Except.ok.inj (run.symm.trans progress))
    exact ⟨mids', fl', final, same.trans start, after⟩

theorem clientReachable_reachable {base : Int} (usable : Usable base) (reachable : ClientReachable base s live) :
    Reachable base s := by
  induction reachable with
  | init run => exact .init run
  | step before legal run ih =>
    obtain ⟨mids, fl, wf, _, tracked⟩ := clientReachable_tracked usable before
    exact .step ih (tracked.legal wf legal) run

/-- What the client may rely on in calls that return. Bytes that are copied from behind the old payload are
not promised, be they in the region or not. -/
theorem clientReachable_contract {base : Int} (usable : Usable base) (aligned : base % 8 = 0)
    (reachable : ClientReachable base s live) :
    Contract s live ∧
      (∀ request, ClientLegal live request → ∃ result s', execute request s = .ok (result, s')) ∧
      ∀ r ∈ live, ∀ size q s', 0 < size → size ≤ intMax → mmRealloc r.ptr size s = .ok (q, s') → q ≠ 0 →
        (∀ i, 0 ≤ i → i < min r.size size → s'.mem (q + i) = s.mem (r.ptr + i)) ∧
        ∀ t ∈ live, t.ptr ≠ r.ptr → ∀ i, 0 ≤ i → i < t.size → s'.mem (t.ptr + i) = s.mem (t.ptr + i) := by
  obtain ⟨mids, fl, wf, start, tracked⟩ := clientReachable_tracked usable reachable
  refine ⟨wf.contract tracked (by rw [start]; exact aligned), ?_, ?_⟩
  · intro request legal
    obtain ⟨result, s', _, _, run, _⟩ := Tracked.execute wf tracked legal
    exact ⟨result, s', run⟩
  · intro r rMem size q s' positive high run nonNull
    simp only [intMax] at high
    obtain ⟨q', t, _, _, run', _, _, _, copied, others⟩ := Tracked.realloc wf tracked rMem positive (by omega)
    obtain ⟨rfl, rfl⟩ := Prod.mk.inj (Except.ok.inj (run.symm.trans run'))
    exact ⟨copied nonNull, others⟩

/-- A client that allocates 40 bytes and writes the third of them. -/
theorem contract_after_write : ∃ s live, ClientReachable 4096 s live ∧ Contract s live ∧
    ∃ r ∈ live, r.size = 40 ∧ r.written 2 = some 7 ∧ s.mem (r.ptr + 2) = 7 := by
  obtain ⟨s, init, wf, start, brk⟩ := run_mmInit usable_4096 ⟨fun _ => 0, 0, 0, 0, 0, 0, 0⟩
  have adjusted : adjustedSize 40 = 56 := by decide
  have limit : maxHeap = 20971520 := by decide
  obtain ⟨p, t, mids, fl, run, placed, owned, _⟩ := wf.malloc_owns 40 (by decide) (by decide) (by omega)
  have nonNull : p ≠ 0 := by
    obtain ⟨b, bMem, _, rfl⟩ := (placed.owns p).mp owned
    have := placed.addr_pos bMem
    omega
  have first : ClientReachable 4096 s [] := ClientReachable.init init
  have second : ClientReachable 4096 t [⟨p, 40, fun _ => none⟩] := by
    have books : record [] (.malloc 40) p = [⟨p, 40, fun _ => none⟩] := if_neg nonNull
    have legal : ClientLegal [] (.malloc 40) := ⟨by decide, by decide⟩
    have step := first.step legal run
    rwa [books] at step
  have legal : ClientLegal [⟨p, 40, fun _ => none⟩] (.write (p + 2) 7) :=
    ⟨_, List.mem_singleton.mpr rfl, by show p ≤ p + 2; omega, by show p + 2 < p + 40; omega⟩
  have third := second.step legal rfl
  have noted : (Live.note ⟨p, 40, fun _ => none⟩ (p + 2) 7).written 2 = some 7 := by
    rw [Live.note, if_pos ⟨by show p ≤ p + 2; omega, by show p + 2 < p + 40; omega⟩]
    exact if_pos (by show 2 = p + 2 - p; omega)
  have contract := (clientReachable_contract usable_4096 (by decide) third).1
  refine ⟨_, _, third, contract, _, List.mem_singleton.mpr rfl, note_size _ _ _, noted, ?_⟩
  exact contract.contents _ (List.mem_singleton.mpr rfl) 2 7 (by decide) (by rw [note_size]; show (2 : Int) < 40; decide) noted

end Cs1330.Malloc
