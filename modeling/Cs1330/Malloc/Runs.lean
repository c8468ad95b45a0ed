import Cs1330.Malloc.Realloc

/-!
# Whole runs of the allocator

A client calls `mm_init` and then allocates, frees, reallocates and writes into the payloads of
allocated blocks. `Heap.blocks` and `Heap.freeList` read the heap back as the code would: along
`block_next` from the prologue, and along `block_flink` from `flist_first`.
-/

namespace Cs1330.Malloc
open Machine Links Tiling

/-! ### Reading the heap back -/

/-- The blocks from `a` on, up to and with the epilogue. -/
def blocksFrom : Nat → Int → HeapM (List Block)
  | 0, _ => throw .endlessSearch
  | rounds + 1, a => do
    let size ← blockSize a
    let allocated ← blockAllocated a
    let block : Block := ⟨a, size, allocated != 0⟩
    if a = (← get).epilogue then return [block]
    return block :: (← blocksFrom rounds (← blockNext a))

/-- The free list from `a` on, until it comes back to `flist_first`. -/
def freeFrom : Nat → Int → HeapM (List Int)
  | 0, _ => throw .endlessSearch
  | rounds + 1, a => do
    let next ← blockFlink a
    if next = (← get).flistFirst then return [a]
    return a :: (← freeFrom rounds next)

def Heap.blocks (s : Heap) : Except Fault (List Block) :=
  (blocksFrom s.memHeapsize.toNat s.prologue s).map Prod.fst

def Heap.freeList (s : Heap) : Except Fault (List Int) :=
  if s.flistFirst = 0 then .ok [] else (freeFrom s.memHeapsize.toNat s.flistFirst s).map Prod.fst

variable {s : Heap} {bs mids xs ys : List Block} {fl : List Int} {b c : Block}

theorem bit_ne_zero (allocated : Bool) : (bit allocated != 0) = allocated := by
  cases allocated <;> rfl

theorem Wf.run_blocksFrom (wf : Wf s mids fl) (ys : List Block) :
    ∀ (xs : List Block) (a hi : Int) (rounds : Nat), s.layout mids = xs ++ (ys ++ [s.epilogueBlock]) →
      Tiled a (ys ++ [s.epilogueBlock]) hi → ys.length < rounds →
      blocksFrom rounds a s = .ok (ys ++ [s.epilogueBlock], s) := by
  induction ys with
  | nil =>
    intro xs a hi rounds whole tiled bound
    obtain ⟨rounds, rfl⟩ : ∃ n, rounds = n + 1 := ⟨rounds - 1, by simp at bound; omega⟩
    have member : s.epilogueBlock ∈ s.layout mids := by simp [whole]
    obtain ⟨rfl, _⟩ := tiled
    rw [blocksFrom, run_bind (wf.run_size member), run_bind (wf.run_allocated member), run_bind (run_get s),
      if_pos (by rfl), run_pure, bit_ne_zero]
    rfl
  | cons b ys ih =>
    intro xs a hi rounds whole tiled bound
    obtain ⟨rounds, rfl⟩ : ∃ n, rounds = n + 1 := ⟨rounds - 1, by simp at bound; omega⟩
    have member : b ∈ s.layout mids := by simp [whole]
    obtain ⟨rfl, rest⟩ := tiled
    have inner : b.addr ≠ s.epilogue := by
      have size := (wf.sized b member).tags
      have sizes : ∀ c ∈ ys ++ [s.epilogueBlock], 0 ≤ c.size := by
        intro c cMem
        have := (wf.sized c (by rw [whole]; simp only [List.mem_append, List.mem_cons] at cMem ⊢; tauto)).tags
        omega
      have later := ((tiled_bounds rest sizes).2 s.epilogueBlock (by simp)).1
      simp only [Block.limit, Heap.epilogueBlock] at later
      omega
    have tail := ih (xs ++ [b]) b.limit hi rounds (by simp [whole]) rest (by simp at bound; omega)
    rw [blocksFrom, run_bind (wf.run_size member), run_bind (wf.run_allocated member), run_bind (run_get s),
      if_neg inner, run_bind (wf.run_next member), run_bind tail, bit_ne_zero]
    rfl

theorem Wf.blocks_eq (wf : Wf s mids fl) : s.blocks = .ok (s.layout mids) := by
  have sizes : ∀ b ∈ s.layout mids, 0 < b.size := by
    intro b member
    have := (wf.sized b member).tags
    omega
  have length := tiled_length wf.tiled sizes
  have start := wf.prologue_eq
  have run := wf.run_blocksFrom (s.prologueBlock :: mids) [] s.memStartBrk s.memBrk s.memHeapsize.toNat rfl wf.tiled
    (by simp only [Heap.layout, Heap.memHeapsize, List.length_cons, List.length_append, List.length_nil] at length ⊢; omega)
  rw [Heap.blocks, start, run]
  rfl

theorem Rep.run_freeFrom (rep : Rep s bs fl) (todo : List Int) :
    ∀ (cur : Int) (before : List Int) (rounds : Nat), fl = before ++ cur :: todo → todo.length < rounds →
      freeFrom rounds cur s = .ok (cur :: todo, s) := by
  induction todo with
  | nil =>
    intro cur before rounds list bound
    obtain ⟨rounds, rfl⟩ : ∃ n, rounds = n + 1 := ⟨rounds - 1, by simp at bound; omega⟩
    obtain ⟨b, bMem, rfl, bFree⟩ := rep.free cur (by simp [list])
    have last : flink s.mem b.addr = s.flistFirst := by
      rw [rep.first, list]
      exact ring_next_last (list ▸ rep.ring)
    rw [freeFrom, run_bind (rep.run_flink bMem bFree), run_bind (run_get s), if_pos last, run_pure]
  | cons next todo ih =>
    intro cur before rounds list bound
    obtain ⟨rounds, rfl⟩ : ∃ n, rounds = n + 1 := ⟨rounds - 1, by simp at bound; omega⟩
    obtain ⟨b, bMem, rfl, bFree⟩ := rep.free cur (by simp [list])
    have forward : flink s.mem b.addr = next := ring_next (list ▸ rep.ring)
    have tail := ih next (before ++ [b.addr]) rounds (by simp [list]) (by simp at bound; omega)
    rw [freeFrom, run_bind (rep.run_flink bMem bFree), run_bind (run_get s), forward,
      if_neg (rep.next_ne_first list), run_bind tail]
    rfl

theorem Wf.freeList_eq (wf : Wf s mids fl) : s.freeList = .ok fl := by
  have rounds := wf.length_le_heapsize
  have first := wf.first
  rw [Heap.freeList]
  cases list : fl with
  | nil =>
    rw [list] at first
    exact if_pos first
  | cons head todo =>
    have positive := Rep.addr_pos wf.toRep (a := head) (by simp [list])
    rw [list] at first rounds
    have headFirst : s.flistFirst = head := first
    have run := wf.run_freeFrom todo head [] s.memHeapsize.toNat list rounds
    rw [if_neg (by omega), headFirst, run]
    rfl

/-! ### Well-formed heaps -/

/-- The blocks tile the heap from `prologue` to `epilogue`, both tags of each agree, no two
neighbours are free, and the ring at `flist_first` holds every free block once. -/
structure Heap.HasBlocks (s : Heap) (mids : List Block) (fl : List Int) : Prop where
  blocks : s.blocks = .ok (⟨s.prologue, 16, true⟩ :: (mids ++ [⟨s.epilogue, 16, true⟩]))
  tiled : Tiled s.memHeapLo (s.layout mids) (s.memHeapHi + 1)
  epilogue : s.epilogue = s.memBrk - 16
  tags : ∀ b ∈ s.layout mids, load s.mem b.addr = load s.mem (b.addr + b.size - 8)
  sizes : ∀ b ∈ mids, b.size % 8 = 0 ∧ minBlockSize ≤ b.size
  coalesced : (s.layout mids).IsChain fun b c => ¬(b.allocated = false ∧ c.allocated = false)
  freeList : s.freeList = .ok fl
  ring : Ring (flink s.mem) (blink s.mem) fl
  null : s.flistFirst = 0 ↔ ∀ b ∈ mids, b.allocated = true
  once : fl.Nodup
  free : ∀ a, a ∈ fl ↔ ∃ b ∈ s.layout mids, b.addr = a ∧ b.allocated = false

def Heap.WellFormed (s : Heap) : Prop := ∃ mids fl, s.HasBlocks mids fl

theorem Wf.mem_free (wf : Wf s mids fl) (a : Int) : a ∈ fl ↔ ∃ b ∈ s.layout mids, b.addr = a ∧ b.allocated = false := by
  constructor
  · exact wf.free a
  · intro free
    obtain ⟨b, member, rfl, bFree⟩ := free
    exact wf.listed b member bFree

theorem Wf.null (wf : Wf s mids fl) : s.flistFirst = 0 ↔ ∀ b ∈ mids, b.allocated = true := by
  constructor
  · intro empty b member
    cases state : b.allocated with
    | true => rfl
    | false =>
      have small := wf.noFit_of_empty (a := 0) empty b member state
      have size := wf.large b member
      omega
  · intro all
    have first := wf.first
    cases list : fl with
    | nil =>
      rw [list] at first
      exact first
    | cons head todo =>
      obtain ⟨b, member, _, bFree⟩ := (wf.mem_free head).mp (by simp [list])
      rcases mem_layout.mp member with rfl | member | rfl
      · cases bFree
      · rw [all b member] at bFree
        cases bFree
      · cases bFree

theorem Wf.hasBlocks (wf : Wf s mids fl) : s.HasBlocks mids fl := by
  have last := wf.epilogue_eq
  refine ⟨wf.blocks_eq, ?_, by omega, ?_, ?_, ?_, wf.freeList_eq, wf.ring, wf.null, wf.distinct, wf.mem_free⟩
  · have tiled := wf.tiled
    simpa only [Heap.memHeapLo, Heap.memHeapHi, Int.sub_add_cancel] using tiled
  · intro b member
    exact (wf.header b member).trans (wf.endTag b member).symm
  · intro b member
    exact ⟨(wf.sized b (mem_layout_mid member)).aligned, wf.large b member⟩
  · refine List.IsChain.imp ?_ wf.coalesced
    intro b c one both
    simp [both.1, both.2] at one

/-! ### Runs -/

inductive Request where
  | malloc (size : Int)
  | free (ptr : Int)
  | realloc (ptr size : Int)
  /-- The client stores a byte. -/
  | write (address : Int) (byte : UInt8)
  deriving DecidableEq, Repr

/-- `INT_MAX`; `mdriver` keeps request sizes in an `int`. -/
def intMax : Int := 2 ^ 31 - 1

/-- The payloads of the allocated blocks: address and length. -/
def Heap.payloads (s : Heap) : List (Int × Int) :=
  match s.blocks with
  | .ok bs =>
    (bs.filter fun b => b.allocated && b.addr != s.prologue && b.addr != s.epilogue).map
      fun b => (blockPayload b.addr, b.size - tagsSize)
  | .error _ => []

def Heap.Owns (s : Heap) (ptr : Int) : Prop := ∃ length, (ptr, length) ∈ s.payloads

def Legal (s : Heap) : Request → Prop
  | .malloc size => 0 ≤ size ∧ size ≤ intMax
  | .free ptr => ptr = 0 ∨ s.Owns ptr
  | .realloc ptr size => (ptr = 0 ∨ s.Owns ptr) ∧ 0 ≤ size ∧ size ≤ intMax
  | .write address _ => ∃ payload ∈ s.payloads, payload.1 ≤ address ∧ address < payload.1 + payload.2

def execute : Request → HeapM Int
  | .malloc size => mmMalloc size
  | .free ptr => do
    mmFree ptr
    return 0
  | .realloc ptr size => mmRealloc ptr size
  | .write address byte => do
    modify fun s => s.withMem (s.mem.set address byte)
    return 0

inductive Reachable (base : Int) : Heap → Prop
  | init {s s' : Heap} : mmInit base s = .ok (0, s') → Reachable base s'
  | step {s s' : Heap} {request : Request} {result : Int} : Reachable base s → Legal s request →
      execute request s = .ok (result, s') → Reachable base s'

theorem Wf.mem_payloads (wf : Wf s mids fl) (payload : Int × Int) :
    payload ∈ s.payloads ↔ ∃ b ∈ mids, b.allocated = true ∧ payload = (b.addr + 8, b.size - 16) := by
  have bounds : ∀ b ∈ mids, b.addr ≠ s.prologue ∧ b.addr ≠ s.epilogue := by
    intro b member
    have bounds := wf.bounds member
    have size := wf.large b member
    have start := wf.prologue_eq
    simp only [Block.limit] at bounds
    constructor <;> omega
  simp only [Heap.payloads, wf.blocks_eq, List.mem_map, List.mem_filter, Bool.and_eq_true, bne_iff_ne, ne_eq]
  constructor
  · rintro ⟨b, ⟨member, ⟨allocated, notFirst⟩, notLast⟩, rfl⟩
    rcases mem_layout.mp member with rfl | member | rfl
    · exact (notFirst rfl).elim
    · exact ⟨b, member, allocated, rfl⟩
    · exact (notLast rfl).elim
  · rintro ⟨b, member, allocated, rfl⟩
    have inner := bounds b member
    exact ⟨b, ⟨mem_layout_mid member, ⟨allocated, inner.1⟩, inner.2⟩, rfl⟩

theorem Wf.owns (wf : Wf s mids fl) (ptr : Int) :
    s.Owns ptr ↔ ∃ b ∈ mids, b.allocated = true ∧ ptr = b.addr + 8 := by
  constructor
  · rintro ⟨length, member⟩
    obtain ⟨b, bMem, allocated, same⟩ := (wf.mem_payloads _).mp member
    exact ⟨b, bMem, allocated, congrArg Prod.fst same⟩
  · rintro ⟨b, bMem, allocated, rfl⟩
    exact ⟨b.size - 16, (wf.mem_payloads _).mpr ⟨b, bMem, allocated, rfl⟩⟩

theorem run_mmMalloc_zero (s : Heap) : mmMalloc 0 s = .ok (0, s) := rfl

theorem run_mmRealloc_null (s : Heap) (size : Int) : mmRealloc 0 size s = mmMalloc size s := by
  unfold mmRealloc
  rw [if_pos rfl]

theorem run_mmRealloc_zero {ptr : Int} {s' : Heap} (nonNull : ptr ≠ 0) (free : mmFree ptr s = .ok ((), s')) :
    mmRealloc ptr 0 s = .ok (0, s') := by
  unfold mmRealloc
  rw [if_neg nonNull, if_pos rfl, run_bind free]
  rfl

theorem Wf.run_malloc (wf : Wf s mids fl) {size : Int} (low : 0 ≤ size) (high : size ≤ intMax) :
    ∃ p s' mids' fl', mmMalloc size s = .ok (p, s') ∧ Wf s' mids' fl' ∧ s'.memStartBrk = s.memStartBrk := by
  simp only [intMax] at high
  rcases eq_or_lt_of_le low with rfl | positive
  · exact ⟨0, s, mids, fl, run_mmMalloc_zero s, wf, rfl⟩
  rcases wf.run_mmMalloc positive (by omega) with ⟨b, s', mids', fl', placed, run, final, _⟩ | ⟨_, _, run⟩
  · exact ⟨_, s', mids', fl', run, final, placed.start⟩
  · exact ⟨0, s, mids, fl, run, wf, rfl⟩

theorem Wf.write (wf : Wf s mids fl) {address : Int} (byte : UInt8) (member : b ∈ mids) (allocated : b.allocated = true)
    (low : b.addr + 8 ≤ address) (high : address < b.limit - 8) : Wf (s.withMem (s.mem.set address byte)) mids fl := by
  apply wf.overwrite member allocated
  intro x outside
  exact Memory.set_other (by omega)

/-- A legal request runs to its end and keeps the invariant. -/
theorem Wf.run_execute (wf : Wf s mids fl) {request : Request} (legal : Legal s request) :
    ∃ result s' mids' fl', execute request s = .ok (result, s') ∧ Wf s' mids' fl' ∧
      s'.memStartBrk = s.memStartBrk := by
  cases request with
  | malloc size => exact wf.run_malloc legal.1 legal.2
  | free ptr =>
    rcases legal with rfl | owned
    · exact ⟨0, s, mids, fl, rfl, wf, rfl⟩
    · obtain ⟨b, member, allocated, rfl⟩ := (wf.owns ptr).mp owned
      obtain ⟨m', first, fl', run, final, _⟩ := wf.run_mmFree member allocated
      exact ⟨0, _, _, fl', (run_bind run).trans rfl, final, rfl⟩
  | realloc ptr size =>
    obtain ⟨pointer, low, high⟩ := legal
    rcases pointer with rfl | owned
    · obtain ⟨p, s', mids', fl', run, final, start⟩ := wf.run_malloc low high
      exact ⟨p, s', mids', fl', (run_mmRealloc_null s size).trans run, final, start⟩
    · obtain ⟨b, member, allocated, rfl⟩ := (wf.owns ptr).mp owned
      have positive := wf.addr_pos member
      rcases eq_or_lt_of_le low with rfl | nonzero
      · obtain ⟨m', first, fl', run, final, _⟩ := wf.run_mmFree member allocated
        exact ⟨0, _, _, fl', run_mmRealloc_zero (by omega) run, final, rfl⟩
      · simp only [intMax] at high
        obtain ⟨q, s', mids', fl', resized, run, final, _⟩ := wf.run_mmRealloc member allocated nonzero (by omega)
        exact ⟨q, s', mids', fl', run, final, resized.start⟩
  | write address byte =>
    obtain ⟨payload, member, low, high⟩ := legal
    obtain ⟨b, bMem, allocated, rfl⟩ := (wf.mem_payloads payload).mp member
    exact ⟨0, _, mids, fl, rfl, wf.write byte bMem allocated low (by simp only [Block.limit]; omega), rfl⟩

theorem reachable_wf {base : Int} (usable : Usable base) (reachable : Reachable base s) :
    ∃ mids fl, Wf s mids fl ∧ s.memStartBrk = base := by
  induction reachable with
  | @init s s' run =>
    obtain ⟨t, init, wf, start, _⟩ := run_mmInit usable s
    obtain ⟨_, rfl⟩ := Prod.mk.inj (Except.ok.inj (run.symm.trans init))
    exact ⟨[], [], wf, start⟩
  | step _ legal run ih =>
    obtain ⟨mids, fl, wf, start⟩ := ih
    obtain ⟨result, t, mids', fl', progress, final, same⟩ := wf.run_execute legal
    obtain ⟨_, rfl⟩ := Prod.mk.inj (Except.ok.inj (run.symm.trans progress))
    exact ⟨mids', fl', final, same.trans start⟩

theorem usable_4096 : Usable 4096 := ⟨by decide, by decide⟩

/-- While the region has room, `mm_malloc` hands out a pointer that was not in use. -/
theorem Wf.malloc_owns (wf : Wf s mids fl) (size : Int) (positive : 0 < size) (bound : size < 2 ^ 31)
    (room : s.memBrk + adjustedSize size ≤ s.memStartBrk + maxHeap) :
    ∃ p s' mids' fl', mmMalloc size s = .ok (p, s') ∧ Wf s' mids' fl' ∧ s'.Owns p ∧ ¬s.Owns p ∧
      (∀ q, s.Owns q → s'.Owns q) ∧ s'.memStartBrk = s.memStartBrk ∧ s'.memBrk ≤ s.memBrk + adjustedSize size := by
  obtain ⟨large, _⟩ := adjustedSize_bounds positive bound
  have extent := wf.region.extent
  rcases wf.run_mmMalloc positive bound with ⟨b, s', mids', fl', placed, run, final, _⟩ | ⟨_, full, _⟩
  · have bMem : b ∈ mids' := (placed.mem_allocated placed.allocated).mpr (Or.inr rfl)
    refine ⟨_, s', mids', fl', run, final, (final.owns _).mpr ⟨b, bMem, placed.allocated, rfl⟩, ?_, ?_, placed.start,
      (placed.brk (by omega)).2⟩
    · intro owned
      obtain ⟨c, cMem, cAllocated, same⟩ := (wf.owns _).mp owned
      have apart := placed.apart wf cMem cAllocated
      have bSize := placed.fits
      have cSize := wf.large c cMem
      simp only [Block.Apart, Block.limit] at apart
      omega
    · intro q owned
      obtain ⟨c, cMem, cAllocated, rfl⟩ := (wf.owns _).mp owned
      exact (final.owns _).mpr ⟨c, (placed.mem_allocated cAllocated).mpr (Or.inl cMem), cAllocated, rfl⟩
  · omega

theorem reachable_twoBlocks : ∃ s p q, Reachable 4096 s ∧ p ≠ q ∧ s.Owns p ∧ s.Owns q := by
  have adjusted : adjustedSize 40 = 56 := by decide
  have limit : maxHeap = 20971520 := by decide
  obtain ⟨s, init, wf, start, brk⟩ := run_mmInit usable_4096 ⟨fun _ => 0, 0, 0, 0, 0, 0, 0⟩
  have reachable := Reachable.init init
  obtain ⟨p, t, mids, fl, first, wf₁, owns, _, _, start₁, brk₁⟩ := wf.malloc_owns 40 (by decide) (by decide) (by omega)
  have legal : ∀ s, Legal s (.malloc 40) := fun _ => ⟨by decide, by decide⟩
  have reachable₁ := reachable.step (legal s) first
  obtain ⟨q, u, _, _, second, _, owns₂, fresh, keeps, _⟩ := wf₁.malloc_owns 40 (by decide) (by decide) (by omega)
  have reachable₂ := reachable₁.step (legal t) second
  refine ⟨u, p, q, reachable₂, ?_, keeps p owns, owns₂⟩
  intro same
  rw [same] at owns
  exact fresh owns

theorem reachable_wellFormed {base : Int} (usable : Usable base) (reachable : Reachable base s) : s.WellFormed := by
  obtain ⟨mids, fl, wf, _⟩ := reachable_wf usable reachable
  exact ⟨mids, fl, wf.hasBlocks⟩

theorem wellFormed_twoBlocks : ∃ s p q, Reachable 4096 s ∧ p ≠ q ∧ s.Owns p ∧ s.Owns q ∧ s.WellFormed := by
  obtain ⟨s, p, q, reachable, different, pOwned, qOwned⟩ := reachable_twoBlocks
  exact ⟨s, p, q, reachable, different, pOwned, qOwned, reachable_wellFormed usable_4096 reachable⟩

theorem execute_succeeds {base : Int} (usable : Usable base) :
    (∀ s, ∃ s', mmInit base s = .ok (0, s')) ∧
      ∀ s, Reachable base s → ∀ request, Legal s request → ∃ result s', execute request s = .ok (result, s') := by
  constructor
  · intro s
    obtain ⟨s', run, _⟩ := run_mmInit usable s
    exact ⟨s', run⟩
  · intro s reachable request legal
    obtain ⟨mids, fl, wf, _⟩ := reachable_wf usable reachable
    obtain ⟨result, s', _, _, run, _⟩ := wf.run_execute legal
    exact ⟨result, s', run⟩

theorem execute_succeeds_realloc : ∃ s p, Reachable 4096 s ∧ s.Owns p ∧ Legal s (.realloc p 1000) ∧
    ∃ result s', execute (.realloc p 1000) s = .ok (result, s') := by
  obtain ⟨s, p, q, reachable, _, owned, _⟩ := reachable_twoBlocks
  have legal : Legal s (.realloc p 1000) := ⟨Or.inr owned, by decide, by decide⟩
  exact ⟨s, p, reachable, owned, legal, (execute_succeeds usable_4096).2 s reachable _ legal⟩

/-! ### Freeing in any order -/

def freeAll : List Int → HeapM Unit
  | [] => return ()
  | ptr :: ptrs => do
    mmFree ptr
    freeAll ptrs

theorem Wf.coalesceAll_eq (wf : Wf s mids fl) : coalesceAll mids = mids := by
  have fixed := coalesceAll_of_coalesced wf.coalesced
  rw [coalesceAll_layout] at fixed
  simpa [Heap.layout] using fixed

/-- Whatever the order, the layout left is the coalesced layout with the blocks released. -/
theorem Wf.run_freeAll {ptrs : List Int} (wf : Wf s mids fl) (distinct : ptrs.Nodup)
    (owned : ∀ ptr ∈ ptrs, ∃ b ∈ mids, b.allocated = true ∧ ptr = b.addr + 8) :
    ∃ m first fl', freeAll ptrs s = .ok ((), s.withList m first) ∧
      Wf (s.withList m first) (coalesceAll (release (fun a => decide (a + 8 ∈ ptrs)) mids)) fl' := by
  induction ptrs generalizing s mids fl with
  | nil =>
    refine ⟨s.mem, s.flistFirst, fl, rfl, ?_⟩
    rw [release_eq_self (by simp), wf.coalesceAll_eq, withList_self]
    exact wf
  | cons ptr ptrs ih =>
    obtain ⟨fresh, restDistinct⟩ := List.nodup_cons.mp distinct
    obtain ⟨b, member, allocated, rfl⟩ := owned ptr List.mem_cons_self
    obtain ⟨m₁, first₁, fl₁, run, freed, _⟩ := wf.run_mmFree member allocated
    have rest : ∀ ptr ∈ ptrs, ∃ c ∈ coalesceAll (release (· == b.addr) mids), c.allocated = true ∧ ptr = c.addr + 8 := by
      intro ptr pMem
      obtain ⟨c, cMem, cAllocated, rfl⟩ := owned ptr (List.mem_cons_of_mem _ pMem)
      refine ⟨c, (mem_coalesceAll cAllocated).mpr ((mem_release cAllocated).mpr ⟨cMem, ?_⟩), cAllocated, rfl⟩
      simp only [beq_eq_false_iff_ne, ne_eq]
      intro same
      rw [same] at pMem
      exact fresh pMem
    obtain ⟨m, first, fl', runs, final⟩ := ih freed restDistinct rest
    refine ⟨m, first, fl', (run_bind run).trans runs, ?_⟩
    rw [coalesceAll_release, release_release] at final
    have same : (fun a => a == b.addr || decide (a + 8 ∈ ptrs)) = fun a => decide (a + 8 ∈ (b.addr + 8) :: ptrs) := by
      funext a
      simp only [List.mem_cons, Int.add_left_inj, Bool.decide_or]
      rfl
    rw [same] at final
    exact final

/-- A coalesced heap without allocated blocks is one free block. -/
theorem Wf.single (wf : Wf s mids fl) (free : ∀ b ∈ mids, b.allocated = false) (extended : s.memHeapsize ≠ 32) :
    mids = [⟨s.prologue + 16, s.memHeapsize - 32, false⟩] := by
  have tiled := wf.tiled
  have fixed := wf.coalesceAll_eq
  cases mids with
  | nil =>
    simp only [Heap.layout, Tiled, Block.limit, Heap.prologueBlock, Heap.epilogueBlock, List.nil_append] at tiled
    simp only [Heap.memHeapsize] at extended
    omega
  | cons b bs =>
    obtain ⟨size, single⟩ := coalesceAll_free free
    rw [fixed] at single
    obtain ⟨same, rfl⟩ := List.cons.inj single
    have bFree := free b List.mem_cons_self
    simp only [Heap.layout, Tiled, Block.limit, Heap.prologueBlock, Heap.epilogueBlock, List.nil_append,
      List.cons_append] at tiled
    obtain ⟨start, first, last, stop⟩ := tiled
    obtain ⟨addr, bSize, allocated⟩ := b
    simp only at bFree first last stop
    simp only [Heap.memHeapsize, List.cons.injEq, Block.mk.injEq, and_true]
    exact ⟨first, by omega, bFree⟩

/-- `mm_malloc` has extended the heap: it is larger than `mm_init` leaves it, and it never shrinks. -/
def Heap.Extended (s : Heap) : Prop := s.memHeapsize ≠ 2 * tagsSize

theorem freeAll_perm {base : Int} {ptrs others : List Int} (usable : Usable base) (reachable : Reachable base s)
    (distinct : ptrs.Nodup) (owned : ∀ ptr ∈ ptrs, s.Owns ptr) (order : ptrs.Perm others) :
    ∃ s₁ s₂ bs fl₁ fl₂, freeAll ptrs s = .ok ((), s₁) ∧ freeAll others s = .ok ((), s₂) ∧
      s₁.blocks = .ok bs ∧ s₂.blocks = .ok bs ∧ s₁.freeList = .ok fl₁ ∧ s₂.freeList = .ok fl₂ ∧
      (∀ a, a ∈ fl₁ ↔ a ∈ fl₂) ∧
      (s.Extended → (∀ ptr, s.Owns ptr → ptr ∈ ptrs) →
        bs = [⟨s₁.prologue, 16, true⟩, ⟨s₁.prologue + 16, s₁.memHeapsize - 32, false⟩, ⟨s₁.epilogue, 16, true⟩]) := by
  obtain ⟨mids, fl, wf, _⟩ := reachable_wf usable reachable
  have owners : ∀ ptr ∈ ptrs, ∃ b ∈ mids, b.allocated = true ∧ ptr = b.addr + 8 :=
    fun ptr member => (wf.owns ptr).mp (owned ptr member)
  obtain ⟨m₁, first₁, fl₁, run₁, wf₁⟩ := wf.run_freeAll distinct owners
  obtain ⟨m₂, first₂, fl₂, run₂, wf₂⟩ := wf.run_freeAll (order.nodup_iff.mp distinct)
    fun ptr member => owners ptr (order.mem_iff.mpr member)
  have sameSet : (fun a : Int => decide (a + 8 ∈ others)) = fun a => decide (a + 8 ∈ ptrs) := by
    funext a
    simp only [order.mem_iff]
  rw [sameSet] at wf₂
  refine ⟨_, _, _, fl₁, fl₂, run₁, run₂, wf₁.blocks_eq, wf₂.blocks_eq, wf₁.freeList_eq, wf₂.freeList_eq, ?_, ?_⟩
  · intro a
    exact (wf₁.mem_free a).trans (wf₂.mem_free a).symm
  · intro extended all
    have free : ∀ c ∈ coalesceAll (release (fun a => decide (a + 8 ∈ ptrs)) mids), c.allocated = false := by
      intro c member
      cases state : c.allocated with
      | false => rfl
      | true =>
        obtain ⟨cMem, kept⟩ := (mem_release state).mp ((mem_coalesceAll state).mp member)
        have freed := all (c.addr + 8) ((wf.owns _).mpr ⟨c, cMem, state, rfl⟩)
        simp [freed] at kept
    rw [wf₁.single free extended]
    rfl

theorem freeAll_perm_two : ∃ s p q, Reachable 4096 s ∧ s.Owns p ∧ s.Owns q ∧ [p, q].Nodup ∧
    ∃ s₁ s₂ bs, freeAll [p, q] s = .ok ((), s₁) ∧ freeAll [q, p] s = .ok ((), s₂) ∧ s₁.blocks = .ok bs ∧
      s₂.blocks = .ok bs := by
  obtain ⟨s, p, q, reachable, different, pOwned, qOwned⟩ := reachable_twoBlocks
  have distinct : [p, q].Nodup := by simp [different]
  obtain ⟨s₁, s₂, bs, _, _, first, second, blocks₁, blocks₂, _⟩ := freeAll_perm usable_4096 reachable distinct
    (by simp [pOwned, qOwned]) (List.Perm.swap q p [])
  exact ⟨s, p, q, reachable, pOwned, qOwned, distinct, s₁, s₂, bs, first, second, blocks₁, blocks₂⟩

end Cs1330.Malloc
