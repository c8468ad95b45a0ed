import Cs1330.Malloc.Outcomes

/-!
# The allocator on lists of blocks

What `mm.c` does, without memory: an arena is the list of its blocks in address order with the free
list in the order in which the search goes through it. `mm.c` refines it, so that nothing that is
stored in the payloads has an influence on what the allocator does.
-/

namespace Cs1330.Malloc
open Machine Links Tiling

/-- A call of the allocator; `none` is `NULL`. -/
inductive Operation where
  | malloc (size : Int)
  | free (ptr : Option Int)
  | realloc (ptr : Option Int) (size : Int)
  deriving DecidableEq, Repr

structure Arena where
  start : Int
  brk : Int
  /-- The blocks between prologue and epilogue. -/
  blocks : List Block
  freeList : List Int
  deriving DecidableEq, Repr

namespace Arena

/-- After `mm_init`. -/
def initial (base : Int) : Arena := ⟨base, base + 2 * tagsSize, [], []⟩

/-- `cs` in the place of `b`. -/
def exchange (b : Block) (cs bs : List Block) : List Block := bs.flatMap fun c => if c = b then cs else [c]

/-- The first block on the free list with at least `a` bytes. -/
def firstFit (A : Arena) (a : Int) : Option Block :=
  A.freeList.findSome? fun p => A.blocks.find? fun b => b.addr == p && decide (a ≤ b.size)

def malloc (A : Arena) (size : Int) : Option Int × Arena :=
  if size = 0 then (none, A) else
  let a := adjustedSize size
  match A.firstFit a with
  | some b =>
    if minBlockSize ≤ b.size - a then
      (some (blockPayload (highPart b a).addr),
        { A with blocks := exchange b [lowPart b a, highPart b a] A.blocks, freeList := b.addr :: A.freeList.erase b.addr })
    else
      (some (blockPayload b.addr),
        { A with blocks := exchange b [{ b with allocated := true }] A.blocks, freeList := A.freeList.erase b.addr })
  | none =>
    if A.brk + a ≤ A.start + maxHeap then
      (some (blockPayload (A.brk - tagsSize)),
        { A with brk := A.brk + a, blocks := A.blocks ++ [⟨A.brk - tagsSize, a, true⟩] })
    else (none, A)

/-- The block goes to the head of the free list, from which the blocks disappear that become part of
the one before them. -/
def free (A : Arena) (ptr : Int) : Arena :=
  let block := payloadToBlock ptr
  let blocks := coalesceAll (release (· == block) A.blocks)
  { A with
    blocks := blocks
    freeList := (block :: A.freeList).filter fun a => blocks.any fun b => b.addr == a && !b.allocated }

/-- The last resort of `mm_realloc`. -/
def move (A : Arena) (ptr size : Int) : Option Int × Arena :=
  let moved := A.malloc size
  if moved.1 = none then (none, A) else (moved.1, moved.2.free ptr)

def realloc (A : Arena) (ptr size : Int) : Option Int × Arena :=
  match A.blocks.find? fun b => b.addr == payloadToBlock ptr with
  | none => (none, A)
  | some b =>
    let a := adjustedSize size
    if a ≤ b.size then (some ptr, A) else
    match A.blocks.find? fun n => n.addr == b.limit && !n.allocated && decide (a ≤ b.size + n.size) with
    | some n =>
      (some ptr, { A with blocks := exchange b [b.merge n] (A.blocks.erase n), freeList := A.freeList.erase n.addr })
    | none => A.move ptr size

def answer (A : Arena) : Operation → Option Int × Arena
  | .malloc size => A.malloc size
  | .free none => (none, A)
  | .free (some ptr) => (none, A.free ptr)
  | .realloc none size => A.malloc size
  | .realloc (some ptr) size => if size = 0 then (none, A.free ptr) else A.realloc ptr size

def after (A : Arena) (operations : List Operation) : Arena :=
  operations.foldl (fun B operation => (B.answer operation).2) A

def answers (A : Arena) : List Operation → List (Option Int)
  | [] => []
  | operation :: operations => (A.answer operation).1 :: (A.answer operation).2.answers operations

theorem answers_append (A : Arena) (operations more : List Operation) :
    A.answers (operations ++ more) = A.answers operations ++ (A.after operations).answers more := by
  induction operations generalizing A with
  | nil => rfl
  | cons operation operations ih => simp only [List.cons_append, answers, ih, after, List.foldl_cons]

theorem after_append (A : Arena) (operations more : List Operation) :
    A.after (operations ++ more) = (A.after operations).after more :=
  List.foldl_append

theorem exchange_middle {b : Block} {xs ys : List Block} (cs : List Block) (front : b ∉ xs) (back : b ∉ ys) :
    exchange b cs (xs ++ b :: ys) = xs ++ (cs ++ ys) := by
  have keep : ∀ bs : List Block, b ∉ bs → exchange b cs bs = bs := by
    intro bs absent
    induction bs with
    | nil => rfl
    | cons d ds ih =>
      have different : d ≠ b := fun same => absent (by simp [same])
      have rest := ih fun member => absent (List.mem_cons_of_mem _ member)
      simp only [exchange, List.flatMap_cons, if_neg different] at rest ⊢
      rw [rest]
      rfl
  have frontSame := keep xs front
  have backSame := keep ys back
  simp only [exchange, List.flatMap_append, List.flatMap_cons, if_true] at frontSame backSame ⊢
  rw [frontSame, backSame]

end Arena

def pointer (address : Int) : Option Int := if address = 0 then none else some address

/-- A write is no call of the allocator. -/
def Request.operation : Request → Option Operation
  | .malloc size => some (.malloc size)
  | .free ptr => some (.free (pointer ptr))
  | .realloc ptr size => some (.realloc (pointer ptr) size)
  | .write _ _ => none

/-- The heap holds the blocks and the free list of the arena. -/
structure Models (s : Heap) (A : Arena) : Prop where
  wf : Wf s A.blocks A.freeList
  start : s.memStartBrk = A.start
  brk : s.memBrk = A.brk

variable {s s' t : Heap} {mids xs ys : List Block} {fl : List Int} {b c d n : Block} {A : Arena} {a size : Int}

theorem pointer_of_pos {address : Int} (positive : 0 < address) : pointer address = some address :=
  if_neg (by omega)

/-- A list without repetitions determines its sublists by their members. -/
theorem sublist_eq_filter {l l' : List Int} {p : Int → Bool} (part : l'.Sublist l) (once : l.Nodup)
    (members : ∀ x ∈ l, x ∈ l' ↔ p x = true) : l' = l.filter p := by
  induction part with
  | slnil => rfl
  | @cons l' l x part ih =>
    obtain ⟨fresh, once⟩ := List.nodup_cons.mp once
    have dropped : ¬p x = true := fun kept => fresh (part.subset ((members x List.mem_cons_self).mpr kept))
    rw [List.filter_cons_of_neg dropped]
    exact ih once fun y member => members y (List.mem_cons_of_mem _ member)
  | @cons_cons l' l x part ih =>
    obtain ⟨fresh, once⟩ := List.nodup_cons.mp once
    have kept : p x = true := (members x List.mem_cons_self).mp List.mem_cons_self
    rw [List.filter_cons_of_pos kept]
    congr 1
    apply ih once
    intro y member
    have different : y ≠ x := fun same => fresh (same ▸ member)
    rw [← members y (List.mem_cons_of_mem _ member), List.mem_cons, or_iff_right different]

/-! ### Looking blocks up -/

theorem Wf.find_eq (wf : Wf s mids fl) {p : Block → Bool} (member : b ∈ mids) (holds : p b = true)
    (unique : ∀ c, p c = true → c.addr = b.addr) : mids.find? p = some b := by
  cases found : mids.find? p with
  | none => exact (List.find?_eq_none.mp found b member holds).elim
  | some c =>
    have cMem := mem_layout_mid (s := s) (List.mem_of_find?_eq_some found)
    rw [wf.eq_of_addr cMem (mem_layout_mid member) (unique c (List.find?_some found))]

theorem Wf.find_addr (wf : Wf s mids fl) (member : b ∈ mids) : mids.find? (fun c => c.addr == b.addr) = some b :=
  wf.find_eq member (by simp) (by simp)

/-- A block is in its layout once. -/
theorem Wf.once (wf : Wf s (xs ++ b :: ys) fl) : b ∉ xs ∧ b ∉ ys := by
  have shifted : Tagged s ((s.prologueBlock :: xs) ++ b :: (ys ++ [s.epilogueBlock])) := by
    simpa [Heap.layout] using wf.toTagged
  have size := wf.large b (by simp)
  constructor <;> intro member <;> have apart := shifted.apart_rest b (by simp [member]) <;>
    simp only [Block.Apart, Block.limit] at apart <;> omega

theorem Wf.exchange_eq (wf : Wf s (xs ++ b :: ys) fl) (cs : List Block) :
    Arena.exchange b cs (xs ++ b :: ys) = xs ++ (cs ++ ys) :=
  Arena.exchange_middle cs wf.once.1 wf.once.2

/-! ### Allocating -/

theorem Models.firstFit_some (models : Models s A) (fit : FirstFit A.blocks A.freeList a b) : A.firstFit a = some b := by
  obtain ⟨skipped, after, list, small⟩ := fit.first
  have skip : (skipped.findSome? fun p => A.blocks.find? fun c => c.addr == p && decide (a ≤ c.size)) = none := by
    apply List.findSome?_eq_none_iff.mpr
    intro p pMem
    apply List.find?_eq_none.mpr
    intro c cMem found
    simp only [Bool.and_eq_true, beq_iff_eq, decide_eq_true_eq] at found
    obtain ⟨rfl, fits⟩ := found
    have tight := small c cMem pMem
    omega
  have take : (A.blocks.find? fun c => c.addr == b.addr && decide (a ≤ c.size)) = some b := by
    apply models.wf.find_eq fit.mem
    · simp [fit.fits]
    · intro c found
      simp only [Bool.and_eq_true, beq_iff_eq] at found
      exact found.1
  rw [Arena.firstFit, list, List.findSome?_append, skip, Option.none_or, List.findSome?_cons, take]

theorem Models.firstFit_none (models : Models s A) (none : NoFit A.blocks a) : A.firstFit a = .none := by
  apply List.findSome?_eq_none_iff.mpr
  intro p pMem
  apply List.find?_eq_none.mpr
  intro c cMem found
  simp only [Bool.and_eq_true, beq_iff_eq, decide_eq_true_eq] at found
  obtain ⟨rfl, fits⟩ := found
  obtain ⟨e, eMem, same, eFree⟩ := models.wf.free c.addr pMem
  obtain rfl := models.wf.eq_of_addr eMem (mem_layout_mid cMem) same
  have small := none e cMem eFree
  omega

/-- Each way of handing out a block is the one that the arena takes. -/
theorem Models.placed (models : Models s A) {mids' : List Block} {fl' : List Int}
    (placed : Placed s A.freeList (adjustedSize size) A.blocks d s' mids' fl') (nonzero : size ≠ 0) :
    A.malloc size = (some (blockPayload d.addr), ⟨s'.memStartBrk, s'.memBrk, mids', fl'⟩) := by
  have wf := models.wf
  have start := models.start
  have brk := models.brk
  have least : minBlockSize = 32 := by decide
  obtain ⟨lo, hi, mids, fl⟩ := A
  simp only at wf start brk placed
  subst start brk
  rw [Arena.malloc, if_neg nonzero]
  cases placed with
  | whole xs b ys m first fit tight =>
    simp only [models.firstFit_some fit]
    rw [if_neg (by omega), wf.exchange_eq]
    rfl
  | split xs b ys m first fit room =>
    simp only [models.firstFit_some fit]
    rw [if_pos (by omega), wf.exchange_eq]
    rfl
  | extend mids m none room =>
    have extent := wf.region.extent
    have last := wf.epilogue_eq
    have place : s.memBrk - tagsSize = s.epilogue := by
      simp only [tagsSize, wordSize]
      omega
    simp only [models.firstFit_none none, place]
    rw [if_pos (by omega)]
    rfl

theorem Models.malloc (models : Models s A) (low : 0 ≤ size) (high : size ≤ intMax) :
    ∃ p s', mmMalloc size s = .ok (p, s') ∧ (A.malloc size).1 = pointer p ∧ Models s' (A.malloc size).2 := by
  simp only [intMax] at high
  rcases eq_or_lt_of_le low with rfl | positive
  · exact ⟨0, s, run_mmMalloc_zero s, rfl, models⟩
  rcases models.wf.run_mmMalloc positive (by omega) with ⟨d, s', mids', fl', placed, run, final, _⟩ | ⟨none, full, run⟩
  · have dMem : d ∈ mids' := (placed.mem_allocated placed.allocated).mpr (Or.inr rfl)
    have dPos := final.addr_pos dMem
    have same := models.placed placed (by omega)
    rw [same]
    exact ⟨_, s', run, (pointer_of_pos (show 0 < d.addr + 8 by omega)).symm, final, rfl, rfl⟩
  · have extent := models.wf.region.extent
    have start := models.start
    have brk := models.brk
    have same : A.malloc size = (Option.none, A) := by
      rw [Arena.malloc, if_neg (by omega)]
      simp only [models.firstFit_none none]
      rw [if_neg (by omega)]
    rw [same]
    exact ⟨0, s, run, rfl, models⟩

/-! ### Freeing -/

theorem Wf.filter_free {mids' : List Block} {fl' : List Int} (wf : Wf s' mids' fl') (a : Int) :
    a ∈ fl' ↔ (mids'.any fun b => b.addr == a && !b.allocated) = true := by
  simp only [wf.mem_free a, List.any_eq_true, Bool.and_eq_true, beq_iff_eq, Bool.not_eq_true']
  constructor
  · rintro ⟨c, member, same, cFree⟩
    exact ⟨c, free_between member cFree, same, cFree⟩
  · rintro ⟨c, member, same, cFree⟩
    exact ⟨c, mem_layout_mid member, same, cFree⟩

theorem Models.free (models : Models s A) (member : b ∈ A.blocks) (allocated : b.allocated = true) :
    ∃ s', mmFree (b.addr + 8) s = .ok ((), s') ∧ Models s' (A.free (b.addr + 8)) := by
  obtain ⟨m', first, fl', run, final, _, part⟩ := models.wf.run_mmFree_listed member allocated
  have block : payloadToBlock (b.addr + 8) = b.addr := by simp only [payloadToBlock, wordSize]; omega
  have fresh : b.addr ∉ A.freeList := models.wf.fresh_of_allocated (mem_layout_mid member) allocated
  have list := sublist_eq_filter part (List.nodup_cons.mpr ⟨fresh, models.wf.distinct⟩) fun x _ => final.filter_free x
  refine ⟨_, run, ?_, models.start, models.brk⟩
  simp only [Arena.free, block, ← list]
  exact final

/-! ### Reallocating -/

theorem Models.write (models : Models s A) (member : b ∈ A.blocks) (allocated : b.allocated = true) {m' : Memory}
    (written : PayloadWritten b s.mem m') : Models (s.withMem m') A :=
  ⟨models.wf.overwrite member allocated written, models.start, models.brk⟩

theorem Models.move (models : Models s A) (member : b ∈ A.blocks) (allocated : b.allocated = true) (positive : 0 < size)
    (small : size < 2 ^ 31) :
    ∃ q s', moveBlock (b.addr + 8) size s = .ok (q, s') ∧ (A.move (b.addr + 8) size).1 = pointer q ∧
      Models s' (A.move (b.addr + 8) size).2 := by
  obtain ⟨_, _, _, payload, _⟩ := adjustedSize_bounds positive small
  rcases models.wf.run_mmMalloc positive small with ⟨d, t, mids', fl', placed, run, final, _⟩ | ⟨none, full, run⟩
  · have same := models.placed placed (by omega)
    have dMem : d ∈ mids' := (placed.mem_allocated placed.allocated).mpr (Or.inr rfl)
    have bMem : b ∈ mids' := (placed.mem_allocated allocated).mpr (Or.inl member)
    have dPos := final.addr_pos dMem
    have fits := placed.fits
    have copy : PayloadWritten d t.mem (memcpy t.mem (d.addr + 8) (b.addr + 8) (align size).toNat) := by
      intro x outside
      apply memcpy_outside
      simp only [Block.limit] at outside
      omega
    have placedModels : Models t ⟨t.memStartBrk, t.memBrk, mids', fl'⟩ := ⟨final, rfl, rfl⟩
    obtain ⟨s', free, freed⟩ := (placedModels.write dMem placed.allocated copy).free bMem allocated
    refine ⟨d.addr + 8, s', ?_, ?_, ?_⟩
    · unfold moveBlock
      rw [run_bind run, if_neg (by omega), run_bind (run_modify _ _)]
      exact (run_bind free).trans rfl
    · simp only [Arena.move, same, reduceCtorEq, if_false]
      exact (pointer_of_pos (show 0 < d.addr + 8 by omega)).symm
    · simp only [Arena.move, same, reduceCtorEq, if_false]
      exact freed
  · obtain ⟨p, t, malloc, result, _⟩ := models.malloc (show 0 ≤ size by omega) (by simp only [intMax]; omega)
    obtain ⟨rfl, rfl⟩ := Prod.mk.inj (Except.ok.inj (run.symm.trans malloc))
    have failed : (A.malloc size).1 = .none := result
    have same : A.move (b.addr + 8) size = (.none, A) := if_pos failed
    rw [same]
    exact ⟨0, s, run_moveBlock_null malloc _, rfl, models⟩

theorem Models.absorb (models : Models s A) (member : b ∈ A.blocks) (allocated : b.allocated = true)
    (nMem : n ∈ s.layout A.blocks) (next : n.addr = b.limit) (nFree : n.allocated = false) :
    ∃ s', (do pullFreeBlock n.addr
              blockSetSizeAndAllocated b.addr (addLong b.size (← blockSize n.addr)) 1 : HeapM Unit) s = .ok ((), s') ∧
      Models s' { A with blocks := Arena.exchange b [b.merge n] (A.blocks.erase n), freeList := A.freeList.erase n.addr } := by
  have wf := models.wf
  obtain ⟨xs, ys, shape⟩ := List.append_of_mem member
  rw [shape] at wf nMem
  obtain ⟨e, vs, back, eMem, eNext⟩ := wf.next_block
  obtain rfl := wf.eq_of_addr eMem nMem (eNext.trans next.symm)
  obtain ⟨zs, rfl⟩ := absorbed_inner back nFree
  obtain ⟨m', first, run, final, _⟩ := wf.run_absorb allocated nFree
  have split : Wf s ((xs ++ [b]) ++ e :: zs) A.freeList := by simpa using wf
  have erased : (xs ++ b :: e :: zs).erase e = xs ++ b :: zs := by
    calc (xs ++ b :: e :: zs).erase e = ((xs ++ [b]) ++ e :: zs).erase e := by simp
      _ = (xs ++ [b]) ++ zs := by rw [List.erase_append_right _ split.once.1, List.erase_cons_head]
      _ = xs ++ b :: zs := by simp
  have outside := wf.once
  have exchanged : Arena.exchange b [b.merge e] (xs ++ b :: zs) = xs ++ b.merge e :: zs :=
    Arena.exchange_middle _ outside.1 fun again => outside.2 (List.mem_cons_of_mem _ again)
  refine ⟨_, run, ?_, models.start, models.brk⟩
  simp only [shape, erased, exchanged]
  exact final

theorem Models.realloc (models : Models s A) (member : b ∈ A.blocks) (allocated : b.allocated = true)
    (positive : 0 < size) (small : size < 2 ^ 31) :
    ∃ q s', mmRealloc (b.addr + 8) size s = .ok (q, s') ∧ (A.realloc (b.addr + 8) size).1 = pointer q ∧
      Models s' (A.realloc (b.addr + 8) size).2 := by
  have wf := models.wf
  have bPos := wf.addr_pos member
  have block : payloadToBlock (b.addr + 8) = b.addr := by simp only [payloadToBlock, wordSize]; omega
  have stays : pointer (b.addr + 8) = some (b.addr + 8) := pointer_of_pos (by omega)
  obtain ⟨n, nMem, next⟩ := wf.next_mem member
  have path := wf.mmRealloc_eq member nMem next (show size ≠ 0 by omega)
  simp only [Arena.realloc, block, wf.find_addr member]
  by_cases enough : adjustedSize size ≤ b.size
  · rw [if_pos enough] at path ⊢
    exact ⟨_, s, path, stays.symm, models⟩
  rw [if_neg enough] at path ⊢
  by_cases absorbs : n.allocated = false ∧ adjustedSize size ≤ b.size + n.size
  · rw [if_pos absorbs] at path
    have inner : n ∈ A.blocks := free_between nMem absorbs.1
    have found : A.blocks.find? (fun c => c.addr == b.limit && !c.allocated && decide (adjustedSize size ≤ b.size + c.size)) =
        some n := by
      apply wf.find_eq inner
      · simp [next, absorbs]
      · intro c cFound
        simp only [Bool.and_eq_true, beq_iff_eq] at cFound
        rw [cFound.1.1, next]
    simp only [found]
    obtain ⟨s', run, grown⟩ := models.absorb member allocated nMem next absorbs.1
    refine ⟨_, s', ?_, stays.symm, grown⟩
    have joined := run_bind (f := fun _ => (return b.addr + 8 : HeapM Int)) run
    simp only [bind_assoc] at joined
    exact path.trans joined
  · rw [if_neg absorbs] at path
    have missing :
        A.blocks.find? (fun c => c.addr == b.limit && !c.allocated && decide (adjustedSize size ≤ b.size + c.size)) = none := by
      apply List.find?_eq_none.mpr
      intro c cMem cFound
      simp only [Bool.and_eq_true, beq_iff_eq, Bool.not_eq_true', decide_eq_true_eq] at cFound
      obtain rfl := wf.eq_of_addr (mem_layout_mid cMem) nMem (cFound.1.1.trans next.symm)
      exact absorbs ⟨cFound.1.2, cFound.2⟩
    simp only [missing]
    obtain ⟨q, s', run, result, moved⟩ := models.move member allocated positive small
    exact ⟨q, s', path.trans run, result, moved⟩

/-! ### Runs -/

/-- A legal request leaves the heap that the arena predicts, and returns what it answers. -/
theorem Models.run_execute (models : Models s A) {request : Request} (legal : Legal s request) :
    ∃ result s', execute request s = .ok (result, s') ∧
      match request.operation with
      | some operation => (A.answer operation).1 = pointer result ∧ Models s' (A.answer operation).2
      | none => Models s' A := by
  have nonNull : ∀ {b : Block}, b ∈ A.blocks → pointer (b.addr + 8) = some (b.addr + 8) := by
    intro b member
    have := models.wf.addr_pos member
    exact pointer_of_pos (by omega)
  cases request with
  | malloc size => exact models.malloc legal.1 legal.2
  | free ptr =>
    rcases legal with rfl | owned
    · exact ⟨0, s, rfl, rfl, models⟩
    · obtain ⟨b, member, allocated, rfl⟩ := (models.wf.owns ptr).mp owned
      obtain ⟨s', run, freed⟩ := models.free member allocated
      refine ⟨0, s', (run_bind run).trans rfl, ?_⟩
      simp only [Request.operation, nonNull member]
      exact ⟨rfl, freed⟩
  | realloc ptr size =>
    obtain ⟨held, low, high⟩ := legal
    rcases held with rfl | owned
    · obtain ⟨p, s', run, answer, moved⟩ := models.malloc low high
      exact ⟨p, s', (run_mmRealloc_null s size).trans run, answer, moved⟩
    · obtain ⟨b, member, allocated, rfl⟩ := (models.wf.owns ptr).mp owned
      have bPos := models.wf.addr_pos member
      simp only [Request.operation, nonNull member, Arena.answer]
      rcases eq_or_lt_of_le low with rfl | positive
      · obtain ⟨s', run, freed⟩ := models.free member allocated
        exact ⟨0, s', run_mmRealloc_zero (by omega) run, rfl, freed⟩
      · simp only [intMax] at high
        rw [if_neg (by omega)]
        exact models.realloc member allocated positive (by omega)
  | write address byte =>
    obtain ⟨payload, member, low, high⟩ := legal
    obtain ⟨b, bMem, allocated, rfl⟩ := (models.wf.mem_payloads payload).mp member
    have final := models.wf.write byte bMem allocated low (by simp only [Block.limit]; omega)
    exact ⟨0, _, rfl, final, models.start, models.brk⟩

/-- The heaps that `mm_init` and a run of legal requests lead to, with the results on the way. -/
inductive Served (base : Int) : List (Request × Int) → Heap → Prop
  | init {s s' : Heap} : mmInit base s = .ok (0, s') → Served base [] s'
  | step {done : List (Request × Int)} {s s' : Heap} {request : Request} {result : Int} : Served base done s →
      Legal s request → execute request s = .ok (result, s') → Served base (done ++ [(request, result)]) s'

/-- The calls of a run in their order, each with the pointer that it returned. -/
def operationsOf (done : List (Request × Int)) : List (Operation × Option Int) :=
  done.filterMap fun (request, result) => request.operation.map fun operation => (operation, pointer result)

theorem operationsOf_snoc (done : List (Request × Int)) (request : Request) (result : Int) :
    operationsOf (done ++ [(request, result)]) =
      match request.operation with
      | some operation => operationsOf done ++ [(operation, pointer result)]
      | none => operationsOf done := by
  cases asked : request.operation <;> simp [operationsOf, asked]

theorem operationsOf_requests (done : List (Request × Int)) :
    (operationsOf done).map Prod.fst = (done.map Prod.fst).filterMap Request.operation := by
  simp only [operationsOf, List.map_filterMap, List.filterMap_map]
  congr 1
  funext ⟨request, result⟩
  cases asked : request.operation <;> simp [asked]

variable {base : Int} {done : List (Request × Int)}

theorem Models.init (usable : Usable base) (run : mmInit base s = .ok (0, s')) : Models s' (Arena.initial base) := by
  obtain ⟨t, init, wf, start, brk⟩ := run_mmInit usable s
  obtain ⟨_, rfl⟩ := Prod.mk.inj (Except.ok.inj (run.symm.trans init))
  exact ⟨wf, start, brk⟩

theorem Served.models (usable : Usable base) (served : Served base done s) :
    (operationsOf done).map Prod.snd = (Arena.initial base).answers ((operationsOf done).map Prod.fst) ∧
      Models s ((Arena.initial base).after ((operationsOf done).map Prod.fst)) := by
  induction served with
  | init run => exact ⟨rfl, Models.init usable run⟩
  | @step done s s' request result _ legal run ih =>
    obtain ⟨answers, models⟩ := ih
    obtain ⟨result', t, progress, kept⟩ := models.run_execute legal
    obtain ⟨rfl, rfl⟩ := Prod.mk.inj (Except.ok.inj (run.symm.trans progress))
    have more := operationsOf_snoc done request result
    cases asked : request.operation with
    | none =>
      rw [asked] at kept more
      rw [more]
      exact ⟨answers, kept⟩
    | some operation =>
      rw [asked] at kept more
      rw [more, List.map_append, List.map_append, Arena.answers_append, Arena.after_append, answers]
      exact ⟨congrArg _ (congrArg (fun p => [p]) kept.1.symm), kept.2⟩

/-! ### Which requests are legal -/

namespace Arena

def holds (A : Arena) (ptr : Int) : Bool := A.blocks.any fun b => b.allocated && ptr == b.addr + wordSize

def permits (A : Arena) : Request → Bool
  | .malloc size => decide (0 ≤ size ∧ size ≤ intMax)
  | .free ptr => ptr == 0 || A.holds ptr
  | .realloc ptr size => (ptr == 0 || A.holds ptr) && decide (0 ≤ size ∧ size ≤ intMax)
  | .write address _ =>
    A.blocks.any fun b => b.allocated && decide (b.addr + wordSize ≤ address ∧ address < b.limit - wordSize)

def next (A : Arena) (request : Request) : Arena :=
  match request.operation with
  | some operation => (A.answer operation).2
  | none => A

def permitsAll : Arena → List Request → Bool
  | _, [] => true
  | A, request :: requests => A.permits request && (A.next request).permitsAll requests

end Arena

theorem Models.owns_iff (models : Models s A) (ptr : Int) : s.Owns ptr ↔ A.holds ptr = true := by
  simp only [models.wf.owns ptr, Arena.holds, List.any_eq_true, Bool.and_eq_true, beq_iff_eq, wordSize]

theorem Models.legal_iff (models : Models s A) (request : Request) : Legal s request ↔ A.permits request = true := by
  cases request with
  | malloc size => simp only [Legal, Arena.permits, decide_eq_true_eq]
  | free ptr => simp only [Legal, Arena.permits, models.owns_iff, Bool.or_eq_true, beq_iff_eq]
  | realloc ptr size =>
    simp only [Legal, Arena.permits, models.owns_iff, Bool.and_eq_true, Bool.or_eq_true, beq_iff_eq, decide_eq_true_eq]
  | write address byte =>
    simp only [Legal, Arena.permits, List.any_eq_true, Bool.and_eq_true, decide_eq_true_eq]
    constructor
    · rintro ⟨payload, member, low, high⟩
      obtain ⟨b, bMem, allocated, rfl⟩ := (models.wf.mem_payloads payload).mp member
      simp only [Block.limit, wordSize] at low high ⊢
      exact ⟨b, bMem, allocated, low, by omega⟩
    · rintro ⟨b, bMem, allocated, low, high⟩
      simp only [Block.limit, wordSize] at low high
      exact ⟨_, (models.wf.mem_payloads _).mpr ⟨b, bMem, allocated, rfl⟩, low, by show _ < b.addr + 8 + _; omega⟩

theorem Models.step (models : Models s A) {request : Request} (permitted : A.permits request = true) :
    ∃ result s', execute request s = .ok (result, s') ∧ Models s' (A.next request) := by
  obtain ⟨result, s', run, kept⟩ := models.run_execute ((models.legal_iff request).mpr permitted)
  refine ⟨result, s', run, ?_⟩
  unfold Arena.next
  cases asked : request.operation with
  | none =>
    rw [asked] at kept
    exact kept
  | some operation =>
    rw [asked] at kept
    exact kept.2

theorem Served.extend (requests : List Request) (served : Served base done s) (models : Models s A)
    (permitted : A.permitsAll requests = true) :
    ∃ more s', Served base (done ++ more) s' ∧ more.map Prod.fst = requests := by
  induction requests generalizing done s A with
  | nil => exact ⟨[], s, by simpa using served, rfl⟩
  | cons request requests ih =>
    simp only [Arena.permitsAll, Bool.and_eq_true] at permitted
    obtain ⟨now, later⟩ := permitted
    obtain ⟨result, s', run, models'⟩ := models.step now
    obtain ⟨more, last, rest, same⟩ := ih (served.step ((models.legal_iff request).mpr now) run) models' later
    exact ⟨(request, result) :: more, last, by simpa using rest, by simp [same]⟩

theorem served_of_permits (usable : Usable base) (requests : List Request)
    (permitted : (Arena.initial base).permitsAll requests = true) :
    ∃ done s, Served base done s ∧ done.map Prod.fst = requests := by
  obtain ⟨s, init, _⟩ := run_mmInit usable ⟨fun _ => 0, 0, 0, 0, 0, 0, 0⟩
  obtain ⟨done, s', served, same⟩ := (Served.init init).extend requests (Models.init usable init) permitted
  exact ⟨done, s', served, same⟩

theorem Served.permitted (usable : Usable base) (served : Served base done s) :
    Models s ((done.map Prod.fst).foldl Arena.next (Arena.initial base)) ∧
      (Arena.initial base).permitsAll (done.map Prod.fst) = true := by
  have snoc : ∀ (A : Arena) (requests : List Request) (request : Request), A.permitsAll requests = true →
      (requests.foldl Arena.next A).permits request = true → A.permitsAll (requests ++ [request]) = true := by
    intro A requests
    induction requests generalizing A with
    | nil =>
      intro request _ now
      simpa [Arena.permitsAll] using now
    | cons first requests ih =>
      intro request all now
      simp only [Arena.permitsAll, List.cons_append, Bool.and_eq_true] at all ⊢
      exact ⟨all.1, ih _ request all.2 now⟩
  induction served with
  | init run => exact ⟨Models.init usable run, rfl⟩
  | @step done s s' request result _ legal run ih =>
    obtain ⟨models, all⟩ := ih
    have now := (models.legal_iff request).mp legal
    obtain ⟨result', t, progress, models'⟩ := models.step now
    obtain ⟨rfl, rfl⟩ := Prod.mk.inj (Except.ok.inj (run.symm.trans progress))
    rw [List.map_append, List.foldl_append]
    exact ⟨models', snoc _ _ _ all now⟩

/-! ### The refinement -/

/-- With prologue and epilogue. -/
def Arena.layout (A : Arena) : List Block := ⟨A.start, tagsSize, true⟩ :: (A.blocks ++ [⟨A.brk - tagsSize, tagsSize, true⟩])

theorem Models.blocks_eq (models : Models s A) : s.blocks = .ok A.layout := by
  have first := models.wf.prologue_eq
  have last := models.wf.epilogue_eq
  have start := models.start
  have brk := models.brk
  have place : s.epilogue = A.brk - 16 := by omega
  rw [models.wf.blocks_eq, Heap.layout, Heap.prologueBlock, Heap.epilogueBlock, place, first, start]
  rfl

/-- A client can make exactly the requests that the arena permits. What the payloads hold and what
the memory held before has no influence: the calls of a run alone determine every pointer that it
returned, the blocks and the order of the free list. -/
theorem mm_refines_arena (usable : Usable base) :
    (∀ requests, (Arena.initial base).permitsAll requests = true ↔
        ∃ done s, Served base done s ∧ done.map Prod.fst = requests) ∧
      ∀ done s, Served base done s →
        (operationsOf done).map Prod.snd = (Arena.initial base).answers ((operationsOf done).map Prod.fst) ∧
          s.blocks = .ok ((Arena.initial base).after ((operationsOf done).map Prod.fst)).layout ∧
          s.freeList = .ok ((Arena.initial base).after ((operationsOf done).map Prod.fst)).freeList := by
  constructor
  · intro requests
    constructor
    · exact served_of_permits usable requests
    · rintro ⟨done, s, served, rfl⟩
      exact (served.permitted usable).2
  · intro done s served
    obtain ⟨answers, models⟩ := served.models usable
    exact ⟨answers, models.blocks_eq, models.wf.freeList_eq⟩

/-- The second block is freed and the first grows over it; the third stays where it is. -/
theorem mm_refines_arena_absorbing : ∃ done s, Served 4096 done s ∧
    (operationsOf done).map Prod.snd = [some 4120, some 4176, some 4232, none, some 4120] ∧
    s.freeList = .ok [] := by
  have claimed := mm_refines_arena usable_4096
  have permitted : (Arena.initial 4096).permitsAll
      [.malloc 40, .malloc 40, .malloc 40, .write 4120 7, .free 4176, .realloc 4120 90] = true := by decide +kernel
  obtain ⟨done, s, served, same⟩ := (claimed.1 _).mp permitted
  obtain ⟨answers, _, list⟩ := claimed.2 done s served
  rw [operationsOf_requests, same] at answers list
  exact ⟨done, s, served, answers.trans (by decide +kernel), list.trans (by decide +kernel)⟩

end Cs1330.Malloc
