import Cs1330.Malloc.Relocation
import Cs1330.Malloc.Replay

/-!
# Replays for measuring

`eval_mm_util` and `eval_mm_speed` of `mdriver.c` replay a trace once more, each on a heap of its own.
The replay of a trace on an arena says what all the replays have in common; it does not depend on the
address of the arena.
-/

namespace Cs1330.Malloc
open Machine Tiling

inductive EvalFault where
  | driver (fault : DriverFault)
  /-- `app_error` prints the message and exits. -/
  | appError (msg : String)
  deriving DecidableEq, Repr

abbrev EvalM := StateT Replay (Except EvalFault)

/-- A call of the driver's helpers; they do not use the arrays of the trace. -/
def onDriver {α : Type} (x : DriverM α) : EvalM α := fun r =>
  match x r.driver with
  | .ok (a, d) => .ok (a, { r with driver := d })
  | .error fault => .error (.driver fault)

/-- `trace->blocks[index] = p`. -/
def setBlock (index p : Int) : EvalM Unit := modify fun r => { r with blocks := Function.update r.blocks index p }

def setBlockSize (index size : Int) : EvalM Unit :=
  modify fun r => { r with blockSizes := Function.update r.blockSizes index size }

/-- `total_size` and `max_total_size`, of type `int`. -/
structure Usage where
  total : Int
  highest : Int
  deriving DecidableEq, Repr

/-- `total_size += n`, with the statistics updated. -/
def Usage.grow (t : Usage) (n : Int) : Usage :=
  let total := wrap 32 (t.total + n)
  ⟨total, if total > t.highest then total else t.highest⟩

/-- The `switch` of `eval_mm_util` for request `i`; `none` is its `return 0`. -/
def utilOp (tracenum i : Int) (t : Usage) : TraceOp → EvalM (Option Usage)
  | .alloc index size => do
    let p ← onDriver (callAllocator index (.malloc size))
    if p = 0 ∧ size ≠ 0 then
      throw (.appError "mm_malloc failed in eval_mm_util")
    else if size = 0 then
      return some t
    else
      let added ← onDriver (addRange p size tracenum i)
      if added = 0 then
        return none
      else
        onDriver (fill p index size)
        setBlock index p
        setBlockSize index size
        return some (t.grow size)
  | .realloc index newsize => do
    let oldp := (← get).blocks index
    let newp ← onDriver (callAllocator index (.realloc oldp newsize))
    if newp = 0 ∧ newsize ≠ 0 then
      throw (.appError "mm_realloc failed in eval_mm_util")
    else if newsize = 0 then
      return some t
    else
      onDriver (removeRange oldp)
      let added ← onDriver (addRange newp newsize tracenum i)
      if added = 0 then
        return none
      else
        onDriver (fill newp index newsize)
        let oldsize := wrap 32 ((← get).blockSizes index)
        setBlock index newp
        setBlockSize index newsize
        return some (t.grow (wrap 32 (newsize - oldsize)))
  | .free index => do
    let size := wrap 32 ((← get).blockSizes index)
    let p := (← get).blocks index
    onDriver (removeRange p)
    let _ ← onDriver (callAllocator index (.free p))
    return some { t with total := wrap 32 (t.total - size) }

def utilLoop (tracenum : Int) : Int → List TraceOp → Usage → EvalM (Option Usage)
  | _, [], t => return some t
  | i, op :: ops, t => do
    let ended ← utilOp tracenum i t op
    onDriver stayInRegion
    match ended with
    | none => return none
    | some t => utilLoop tracenum (i + 1) ops t

/-- The dividend and the divisor of the quotient that is returned, a `double` in the source; `none` is
`return 0`. -/
def evalMmUtil (base tracenum : Int) (trace : Trace) : EvalM (Option (Int × Int)) := do
  let started ← onDriver (resetHeap base)
  if started < 0 then
    throw (.appError "mm_init failed in eval_mm_util")
  else
    match ← utilLoop tracenum 0 trace.ops ⟨0, 0⟩ with
    | none => return none
    | some t => return some (t.highest, (← get).driver.heap.memHeapsize)

def speedOp : TraceOp → EvalM Unit
  | .alloc index size => do
    let p ← onDriver (callAllocator index (.malloc size))
    if p = 0 then
      throw (.appError "mm_malloc error in eval_mm_speed")
    else
      onDriver (fill p index size)
      setBlock index p
  | .realloc index newsize => do
    let oldp := (← get).blocks index
    let newp ← onDriver (callAllocator index (.realloc oldp newsize))
    if newp = 0 then
      throw (.appError "mm_realloc error in eval_mm_speed")
    else
      onDriver (fill newp index newsize)
      setBlock index newp
  | .free index => do
    let block := (← get).blocks index
    let _ ← onDriver (callAllocator index (.free block))

def speedLoop (ops : List TraceOp) : EvalM Unit := ops.forM fun op => do
  speedOp op
  onDriver stayInRegion

/-- `eval_mm_speed`, which does not touch the range list. -/
def evalMmSpeed (base : Int) (trace : Trace) : EvalM Unit := do
  onDriver memResetBrk
  let started ← onDriver (callInit base)
  if started < 0 then
    throw (.appError "mm_init failed in eval_mm_speed")
  else
    speedLoop trace.ops

/-! ### The replay on an arena -/

/-- The arena and the array `blocks` after a request, if it is legal and the allocator finds room. -/
def TraceOp.advance (A : Arena) (blocks : Int → Int) : TraceOp → Option (Arena × (Int → Int))
  | .alloc index size => (A.malloc size).1.map fun p => ((A.malloc size).2, Function.update blocks index p)
  | .realloc index size =>
    if A.holds (blocks index) then
      (A.realloc (blocks index) size).1.map fun p => ((A.realloc (blocks index) size).2, Function.update blocks index p)
    else none
  | .free index => if A.holds (blocks index) then some (A.free (blocks index), blocks) else none

def Arena.replay : List TraceOp → Arena → (Int → Int) → Option (Arena × (Int → Int))
  | [], A, blocks => some (A, blocks)
  | op :: ops, A, blocks => (op.advance A blocks).bind fun next => Arena.replay ops next.1 next.2

/-- A block that has to move is copied from within the region. -/
def TraceOp.InRegion (A : Arena) (blocks : Int → Int) : TraceOp → Prop
  | .realloc index size =>
    ∀ q ∈ (A.realloc (blocks index) size).1, q = blocks index ∨ blocks index + align size ≤ A.start + maxHeap
  | .alloc _ _ | .free _ => True

/-- All the copies of the replay, up to a request that finds no room, stay in the region. -/
def Arena.InRegion : List TraceOp → Arena → (Int → Int) → Prop
  | [], _, _ => True
  | op :: ops, A, blocks => op.InRegion A blocks ∧ ∀ next ∈ op.advance A blocks, Arena.InRegion ops next.1 next.2

/-- On a heap at address 0, that is, on any. -/
def Trace.InRegion (trace : Trace) : Prop := Arena.InRegion trace.ops (Arena.initial 0) fun _ => 0

instance (A : Arena) (blocks : Int → Int) : DecidablePred (TraceOp.InRegion A blocks)
  | .realloc _ _ => inferInstanceAs (Decidable (∀ q ∈ _, _))
  | .alloc _ _ => .isTrue trivial
  | .free _ => .isTrue trivial

instance Arena.decidableInRegion : ∀ (ops : List TraceOp) (A : Arena) (blocks : Int → Int),
    Decidable (Arena.InRegion ops A blocks)
  | [], _, _ => .isTrue trivial
  | op :: ops, A, blocks =>
    have (next : Arena × (Int → Int)) : Decidable (Arena.InRegion ops next.1 next.2) := decidableInRegion ops next.1 next.2
    inferInstanceAs (Decidable (op.InRegion A blocks ∧ ∀ next ∈ op.advance A blocks, Arena.InRegion ops next.1 next.2))

instance (trace : Trace) : Decidable trace.InRegion := inferInstanceAs (Decidable (Arena.InRegion _ _ _))

variable {A B : Arena} {b b' c : Int → Int} {op : TraceOp} {ops : List TraceOp} {used : List Int} {k p ptr size index : Int}
  {s s' : Heap} {mids : List Block} {fl : List Int} {d : Block}

theorem Arena.holds_shift (A : Arena) (k ptr : Int) : (A.shift k).holds (ptr + k) = A.holds ptr := by
  simp only [holds, shift, List.any_map]
  congr 1
  funext b
  simp only [Function.comp, Block.shift, add_right_comm b.addr k, beq_shift]

theorem agree_update (agree : ∀ j ∈ used, c j = b j + k) (index p : Int) :
    ∀ j ∈ index :: used, Function.update c index (p + k) j = Function.update b index p j + k := by
  intro j member
  by_cases same : j = index
  · rw [same, Function.update_self, Function.update_self]
  · rw [Function.update_of_ne same, Function.update_of_ne same]
    exact agree j ((List.mem_cons.mp member).resolve_left same)

/-- At another address the replay goes the same way, if its array agrees on the ids in use. -/
theorem advance_shift (agree : ∀ j ∈ used, c j = b j + k) (use : InUse used op) (run : op.advance A b = some (B, b')) :
    ∃ c', op.advance (A.shift k) c = some (B.shift k, c') ∧ ∀ j ∈ tally used op, c' j = b' j + k := by
  cases op with
  | alloc index size =>
    obtain ⟨p, found, same⟩ := Option.map_eq_some_iff.mp run
    obtain ⟨rfl, rfl⟩ := Prod.mk.inj same
    refine ⟨Function.update c index (p + k), ?_, agree_update agree index p⟩
    simp only [TraceOp.advance, Arena.malloc_shift, found, Option.map_some]
  | realloc index size =>
    have here : c index = b index + k := agree index use
    simp only [TraceOp.advance] at run
    split at run
    · rename_i held
      obtain ⟨q, found, same⟩ := Option.map_eq_some_iff.mp run
      obtain ⟨rfl, rfl⟩ := Prod.mk.inj same
      refine ⟨Function.update c index (q + k), ?_, ?_⟩
      · simp only [TraceOp.advance, here, Arena.holds_shift, held, Arena.realloc_shift, found, Option.map_some, if_true]
      · exact fun j member => agree_update agree index q j (List.mem_cons_of_mem _ member)
    · cases run
  | free index =>
    have here : c index = b index + k := agree index use
    simp only [TraceOp.advance] at run
    split at run
    · rename_i held
      obtain ⟨rfl, rfl⟩ := Prod.mk.inj (Option.some.inj run)
      refine ⟨c, ?_, fun j member => agree j (List.mem_filter.mp member).1⟩
      simp only [TraceOp.advance, here, Arena.holds_shift, held, Arena.free_shift, if_true]
    · cases run

theorem replay_shift : ∀ {ops : List TraceOp} {used : List Int} {A B : Arena} {b b' c : Int → Int},
    (∀ j ∈ used, c j = b j + k) → Trace.Along tally InUse used ops → Arena.replay ops A b = some (B, b') →
      ∃ c', Arena.replay ops (A.shift k) c = some (B.shift k, c') := by
  intro ops
  induction ops with
  | nil =>
    intro used A B b b' c _ _ run
    obtain ⟨rfl, rfl⟩ := Prod.mk.inj (Option.some.inj run)
    exact ⟨c, rfl⟩
  | cons op ops ih =>
    intro used A B b b' c agree ordered run
    obtain ⟨now, later⟩ := ordered
    obtain ⟨⟨A₁, b₁⟩, first, rest⟩ := Option.bind_eq_some_iff.mp run
    obtain ⟨c₁, first', agree'⟩ := advance_shift agree now first
    obtain ⟨c', rest'⟩ := ih agree' later rest
    exact ⟨c', Option.bind_eq_some_iff.mpr ⟨(A₁.shift k, c₁), first', rest'⟩⟩

theorem TraceOp.inRegion_shift (agree : ∀ j ∈ used, c j = b j + k) (use : InUse used op) :
    op.InRegion (A.shift k) c ↔ op.InRegion A b := by
  cases op with
  | alloc index size => exact Iff.rfl
  | free index => exact Iff.rfl
  | realloc index size =>
    have here : c index = b index + k := agree index use
    simp only [TraceOp.InRegion, here, Arena.realloc_shift, Option.forall_mem_map]
    refine forall₂_congr fun q _ => or_congr (add_left_inj k) ?_
    show b index + k + align size ≤ A.start + k + maxHeap ↔ _
    omega

theorem inRegion_shift : ∀ {ops : List TraceOp} {used : List Int} {A : Arena} {b c : Int → Int},
    (∀ j ∈ used, c j = b j + k) → Trace.Along tally InUse used ops → Arena.InRegion ops A b →
      Arena.InRegion ops (A.shift k) c := by
  intro ops
  induction ops with
  | nil =>
    intro used A b c _ _ _
    trivial
  | cons op ops ih =>
    intro used A b c agree ordered inside
    obtain ⟨now, later⟩ := ordered
    have back : ∀ j ∈ used, b j = c j + -k := fun j member => by rw [agree j member]; omega
    refine ⟨(TraceOp.inRegion_shift agree now).mpr inside.1, ?_⟩
    rintro ⟨B, c'⟩ advanced
    obtain ⟨b', there, agree'⟩ := advance_shift back now advanced
    rw [Arena.shift_back] at there
    have onward : ∀ j ∈ tally used op, c' j = b' j + k := fun j member => by rw [agree' j member]; omega
    have rest : Arena.InRegion ops ((B.shift (-k)).shift k) c' := ih onward later (inside.2 _ there)
    have forth := Arena.shift_back B (-k)
    rw [neg_neg] at forth
    rwa [forth] at rest

/-! ### The arena and the heap -/

/-- Filling a payload is writing. -/
theorem Models.filled (models : Models s A) (wf : Wf s mids fl) (member : d ∈ mids) (allocated : d.allocated = true)
    (fits : size + 16 ≤ d.size) (byte : UInt8) : Models (s.withMem (memset s.mem (d.addr + 8) byte size.toNat)) A := by
  have payload := (wf.mem_payloads _).mpr ⟨d, member, allocated, rfl⟩
  obtain ⟨e, eMem, eAllocated, same⟩ := (models.wf.mem_payloads _).mp payload
  have start : d.addr + 8 = e.addr + 8 := congrArg Prod.fst same
  have bytes : d.size - 16 = e.size - 16 := congrArg Prod.snd same
  apply models.write eMem eAllocated
  intro x outside
  simp only [Block.limit] at outside
  exact memset_outside (by omega)

theorem Models.run_malloc (models : Models s A) (positive : 0 < size) (high : size ≤ intMax) :
    ∃ p s', mmMalloc size s = .ok (p, s') ∧ (A.malloc size).1 = pointer p ∧
      (p ≠ 0 → ∀ byte, Models (s'.withMem (memset s'.mem p byte size.toNat)) (A.malloc size).2) := by
  obtain ⟨p, s', run, answer, after⟩ := models.malloc (Int.le_of_lt positive) high
  refine ⟨p, s', run, answer, ?_⟩
  intro nonNull byte
  simp only [intMax] at high
  obtain ⟨_, _, fits, _⟩ := adjustedSize_bounds positive (by omega)
  rcases models.wf.run_mmMalloc positive (by omega) with ⟨d, t, mids', fl', placed, run', final, _⟩ | ⟨_, _, run'⟩
  · obtain ⟨rfl, rfl⟩ := Prod.mk.inj (Except.ok.inj (run.symm.trans run'))
    have member : d ∈ mids' := (placed.mem_allocated placed.allocated).mpr (Or.inr rfl)
    have enough := placed.fits
    exact after.filled final member placed.allocated (by omega) byte
  · exact (nonNull (Prod.mk.inj (Except.ok.inj (run.symm.trans run'))).1).elim

theorem Models.held (models : Models s A) (held : A.holds ptr = true) :
    ∃ b ∈ A.blocks, b.allocated = true ∧ ptr = b.addr + 8 :=
  (models.wf.owns ptr).mp ((models.owns_iff ptr).mpr held)

theorem Models.run_realloc (models : Models s A) (held : A.holds ptr = true) (positive : 0 < size)
    (high : size ≤ intMax) :
    ∃ q s', mmRealloc ptr size s = .ok (q, s') ∧ (A.realloc ptr size).1 = pointer q ∧
      (q ≠ 0 → ∀ byte, Models (s'.withMem (memset s'.mem q byte size.toNat)) (A.realloc ptr size).2) := by
  obtain ⟨b, bMem, allocated, rfl⟩ := models.held held
  simp only [intMax] at high
  obtain ⟨q, s', run, answer, after⟩ := models.realloc bMem allocated positive (by omega)
  refine ⟨q, s', run, answer, ?_⟩
  intro nonNull byte
  obtain ⟨q', t, mids', fl', resized, run', final, _⟩ := models.wf.run_mmRealloc bMem allocated positive (by omega)
  obtain ⟨rfl, rfl⟩ := Prod.mk.inj (Except.ok.inj (run.symm.trans run'))
  rcases resized.block models.wf bMem allocated positive (by omega) with
    ⟨null, _⟩ | ⟨d, rfl, dAllocated, fits, _, blocks⟩
  · exact (nonNull null).elim
  · exact after.filled final ((blocks d dAllocated).mpr (Or.inr rfl)) dAllocated fits byte

theorem Models.run_free (models : Models s A) (held : A.holds ptr = true) :
    ∃ s', execute (.free ptr) s = .ok (0, s') ∧ Models s' (A.free ptr) := by
  obtain ⟨b, member, allocated, rfl⟩ := models.held held
  obtain ⟨s', run, after⟩ := models.free member allocated
  exact ⟨s', (run_bind run).trans rfl, after⟩

end Cs1330.Malloc
