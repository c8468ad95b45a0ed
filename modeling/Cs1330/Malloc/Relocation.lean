import Cs1330.Malloc.Arena

/-!
# The allocator at another address

Nothing that the allocator decides depends on where its region lies: the arena commutes with
moving everything by a constant, and through the refinement so does `mm.c`.
-/

namespace Cs1330.Malloc
open Machine Tiling

def Operation.shift (k : Int) : Operation → Operation
  | .malloc size => .malloc size
  | .free ptr => .free (ptr.map (· + k))
  | .realloc ptr size => .realloc (ptr.map (· + k)) size

namespace Arena

def shift (k : Int) (A : Arena) : Arena :=
  ⟨A.start + k, A.brk + k, A.blocks.map (Block.shift k), A.freeList.map (· + k)⟩

variable (A : Arena) (k : Int)

theorem initial_shift (base : Int) : (initial base).shift k = initial (base + k) := by
  simp only [initial, shift, List.map_nil, Arena.mk.injEq, and_true, true_and]
  omega

theorem shift_back : (A.shift k).shift (-k) = A := by
  have blocks : Block.shift (-k) ∘ Block.shift k = id := by
    funext b
    simp [Block.shift]
  have addresses : (fun a : Int => a + -k) ∘ (fun a => a + k) = id := by
    funext a
    simp
  simp [shift, blocks, addresses]

theorem exchange_shift (b : Block) (cs bs : List Block) :
    exchange (b.shift k) (cs.map (Block.shift k)) (bs.map (Block.shift k)) = (exchange b cs bs).map (Block.shift k) := by
  induction bs with
  | nil => rfl
  | cons c bs ih =>
    simp only [exchange, List.map_cons, List.flatMap_cons, List.map_append, (Block.shift_injective k).eq_iff] at ih ⊢
    rw [ih]
    split <;> rfl

theorem erase_shift (fl : List Int) (a : Int) : (fl.map (· + k)).erase (a + k) = (fl.erase a).map (· + k) :=
  (List.map_erase (add_left_injective k) fl).symm

theorem beq_shift (a b : Int) : (a + k == b + k) = (a == b) := by
  rw [Bool.eq_iff_iff, beq_iff_eq, beq_iff_eq, add_left_inj]

theorem firstFit_shift (a : Int) : (A.shift k).firstFit a = (A.firstFit a).map (Block.shift k) := by
  simp only [firstFit, shift, List.findSome?_map, List.map_findSome?]
  congr 1
  funext p
  simp only [Function.comp_apply, List.find?_map]
  congr 2
  funext b
  show ((b.addr + k == p + k) && decide (a ≤ b.size)) = (b.addr == p && decide (a ≤ b.size))
  rw [beq_shift]

theorem highPart_shift (b : Block) (a : Int) : highPart (b.shift k) a = (highPart b a).shift k := by
  simp only [highPart, Block.shift, Block.mk.injEq, and_true]
  omega

theorem blockPayload_shift (b : Block) : blockPayload (b.shift k).addr = blockPayload b.addr + k := by
  simp only [blockPayload, Block.shift]
  omega

theorem malloc_shift (size : Int) :
    (A.shift k).malloc size = ((A.malloc size).1.map (· + k), (A.malloc size).2.shift k) := by
  unfold malloc
  by_cases zero : size = 0
  · rw [if_pos zero, if_pos zero]
    rfl
  rw [if_neg zero, if_neg zero]
  simp only [firstFit_shift]
  cases A.firstFit (adjustedSize size) with
  | some b =>
    simp only [Option.map_some]
    by_cases room : minBlockSize ≤ b.size - adjustedSize size
    · have blocks : exchange (b.shift k) [lowPart (b.shift k) (adjustedSize size), highPart (b.shift k) (adjustedSize size)]
          (A.shift k).blocks =
          (exchange b [lowPart b (adjustedSize size), highPart b (adjustedSize size)] A.blocks).map (Block.shift k) := by
        rw [highPart_shift]
        exact exchange_shift k b [lowPart b (adjustedSize size), highPart b (adjustedSize size)] A.blocks
      have list : (b.shift k).addr :: (A.shift k).freeList.erase (b.shift k).addr =
          (b.addr :: A.freeList.erase b.addr).map (· + k) := congrArg (List.cons _) (erase_shift k A.freeList b.addr)
      have payload : blockPayload (highPart (b.shift k) (adjustedSize size)).addr =
          blockPayload (highPart b (adjustedSize size)).addr + k := by
        rw [highPart_shift, blockPayload_shift]
      rw [if_pos room, if_pos (show minBlockSize ≤ (b.shift k).size - adjustedSize size from room), blocks, list, payload]
      rfl
    · have blocks : exchange (b.shift k) [{ b.shift k with allocated := true }] (A.shift k).blocks =
          (exchange b [{ b with allocated := true }] A.blocks).map (Block.shift k) :=
        exchange_shift k b [{ b with allocated := true }] A.blocks
      have list : (A.shift k).freeList.erase (b.shift k).addr = (A.freeList.erase b.addr).map (· + k) :=
        erase_shift k A.freeList b.addr
      rw [if_neg room, if_neg (show ¬minBlockSize ≤ (b.shift k).size - adjustedSize size from room), blocks, list,
        blockPayload_shift]
      rfl
  | none =>
    simp only [Option.map_none]
    by_cases room : A.brk + adjustedSize size ≤ A.start + maxHeap
    · have room' : (A.shift k).brk + adjustedSize size ≤ (A.shift k).start + maxHeap := by
        simp only [shift]
        omega
      rw [if_pos room, if_pos room']
      simp only [shift, Block.shift, List.map_append, List.map_cons, List.map_nil, blockPayload, Option.map_some,
        Prod.mk.injEq, Option.some.injEq, Arena.mk.injEq, true_and, and_true, List.append_cancel_left_eq,
        List.cons.injEq, Block.mk.injEq]
      omega
    · have room' : ¬(A.shift k).brk + adjustedSize size ≤ (A.shift k).start + maxHeap := by
        simp only [shift]
        omega
      rw [if_neg room, if_neg room']
      rfl

theorem payloadToBlock_shift (ptr : Int) : payloadToBlock (ptr + k) = payloadToBlock ptr + k := by
  simp only [payloadToBlock]
  omega

theorem free_shift (ptr : Int) : (A.shift k).free (ptr + k) = (A.free ptr).shift k := by
  have released : coalesceAll (release (· == payloadToBlock ptr + k) (A.blocks.map (Block.shift k))) =
      (coalesceAll (release (· == payloadToBlock ptr) A.blocks)).map (Block.shift k) := by
    rw [release_shift (p := (· == payloadToBlock ptr)) (by simp), coalesceAll_shift]
  simp only [free, payloadToBlock_shift]
  simp only [shift, released, Arena.mk.injEq, true_and]
  rw [← List.map_cons (f := (· + k)), List.filter_map]
  congr 2
  funext a
  simp only [Function.comp_apply, List.any_map, Function.comp_def, Block.shift, beq_shift]

theorem move_shift (ptr size : Int) :
    (A.shift k).move (ptr + k) size = ((A.move ptr size).1.map (· + k), (A.move ptr size).2.shift k) := by
  simp only [move, malloc_shift, free_shift, Option.map_eq_none_iff]
  split <;> rfl

theorem realloc_shift (ptr size : Int) :
    (A.shift k).realloc (ptr + k) size = ((A.realloc ptr size).1.map (· + k), (A.realloc ptr size).2.shift k) := by
  have current : (A.shift k).blocks.find? (fun b => b.addr == payloadToBlock (ptr + k)) =
      (A.blocks.find? fun b => b.addr == payloadToBlock ptr).map (Block.shift k) := by
    simp only [shift, List.find?_map, Function.comp_def, Block.shift, payloadToBlock_shift, beq_shift]
  unfold realloc
  rw [current]
  cases A.blocks.find? (fun b => b.addr == payloadToBlock ptr) with
  | none => rfl
  | some b =>
    have following : ((A.shift k).blocks.find? fun n => n.addr == (b.shift k).limit && !n.allocated &&
          decide (adjustedSize size ≤ (b.shift k).size + n.size)) =
        (A.blocks.find? fun n => n.addr == b.limit && !n.allocated && decide (adjustedSize size ≤ b.size + n.size)).map
          (Block.shift k) := by
      have limit : (b.shift k).limit = b.limit + k := by
        simp only [Block.limit, Block.shift]
        omega
      simp only [shift, List.find?_map, Function.comp_def, limit]
      simp only [Block.shift, beq_shift]
      rfl
    simp only [Option.map_some, following]
    by_cases enough : adjustedSize size ≤ b.size
    · rw [if_pos enough, if_pos (show adjustedSize size ≤ (b.shift k).size from enough)]
      rfl
    rw [if_neg enough, if_neg (show ¬adjustedSize size ≤ (b.shift k).size from enough)]
    cases A.blocks.find? (fun n => n.addr == b.limit && !n.allocated && decide (adjustedSize size ≤ b.size + n.size)) with
    | none => exact move_shift A k ptr size
    | some n =>
      have erased : (A.blocks.map (Block.shift k)).erase (n.shift k) = (A.blocks.erase n).map (Block.shift k) :=
        (List.map_erase (Block.shift_injective k) _).symm
      have merged : [(b.shift k).merge (n.shift k)] = [b.merge n].map (Block.shift k) := rfl
      simp only [shift, Option.map_some, erased, merged, exchange_shift]
      simp only [Block.shift, erase_shift]

theorem answer_shift (operation : Operation) :
    (A.shift k).answer (operation.shift k) = ((A.answer operation).1.map (· + k), (A.answer operation).2.shift k) := by
  cases operation with
  | malloc size => exact malloc_shift A k size
  | free ptr =>
    cases ptr with
    | none => rfl
    | some ptr => exact congrArg (Prod.mk none) (free_shift A k ptr)
  | realloc ptr size =>
    cases ptr with
    | none => exact malloc_shift A k size
    | some ptr =>
      simp only [Operation.shift, Option.map_some, answer]
      by_cases zero : size = 0
      · rw [if_pos zero, if_pos zero, free_shift]
        rfl
      · rw [if_neg zero, if_neg zero, realloc_shift]

theorem after_shift (operations : List Operation) :
    (A.shift k).after (operations.map (Operation.shift k)) = (A.after operations).shift k := by
  induction operations generalizing A with
  | nil => rfl
  | cons operation operations ih =>
    have rest := ih (A.answer operation).2
    simp only [after, List.map_cons, List.foldl_cons, answer_shift] at rest ⊢
    exact rest

theorem answers_shift (operations : List Operation) :
    (A.shift k).answers (operations.map (Operation.shift k)) = (A.answers operations).map (Option.map (· + k)) := by
  induction operations generalizing A with
  | nil => rfl
  | cons operation operations ih => simp only [List.map_cons, answers, answer_shift, ih]

theorem layout_shift : (A.shift k).layout = A.layout.map (Block.shift k) := by
  simp only [layout, shift, List.map_cons, List.map_append, List.map_nil, Block.shift, List.cons.injEq, true_and,
    List.append_cancel_left_eq, Block.mk.injEq, and_true]
  omega

end Arena

variable {base base' : Int} {done done' : List (Request × Int)} {s s' : Heap}

/-- Two clients whose calls are the same up to the distance between their regions get the same
pointers up to this distance, with the same blocks in the same states behind the sentinels and the free
list in the same order, whatever each of them writes and whatever the two regions held. -/
theorem mm_relocation (usable : Usable base) (usable' : Usable base') (served : Served base done s)
    (served' : Served base' done' s')
    (same : (operationsOf done').map Prod.fst = ((operationsOf done).map Prod.fst).map (Operation.shift (base' - base))) :
    (operationsOf done').map Prod.snd = ((operationsOf done).map Prod.snd).map (Option.map (· + (base' - base))) ∧
      s'.memHeapsize = s.memHeapsize ∧
      s'.blocks = s.blocks.map (List.map (Block.shift (base' - base))) ∧
      s'.freeList = s.freeList.map (List.map (· + (base' - base))) := by
  have moved : Arena.initial base' = (Arena.initial base).shift (base' - base) := by
    rw [Arena.initial_shift]
    congr 1
    omega
  obtain ⟨answers, models⟩ := served.models usable
  obtain ⟨answers', models'⟩ := served'.models usable'
  rw [same, moved, Arena.answers_shift] at answers'
  rw [same, moved, Arena.after_shift] at models'
  have size := models.brk
  have start := models.start
  have size' := models'.brk
  have start' := models'.start
  refine ⟨by rw [answers', answers], ?_, ?_, ?_⟩
  · simp only [Heap.memHeapsize, Arena.shift] at size' start' ⊢
    omega
  · rw [models.blocks_eq, models'.blocks_eq, Arena.layout_shift]
    rfl
  · rw [models.wf.freeList_eq, models'.wf.freeList_eq]
    rfl

/-- The second client writes, and its region is elsewhere. -/
theorem mm_relocation_8192 : ∃ done done' s s', Served 4096 done s ∧ Served 8192 done' s' ∧
    done'.map Prod.fst = [.malloc 40, .write 8216 255, .malloc 40, .free 8216, .malloc 16] ∧
    (operationsOf done').map Prod.snd = ((operationsOf done).map Prod.snd).map (Option.map (· + 4096)) ∧
    s'.freeList = s.freeList.map (List.map (· + 4096)) := by
  have usable : Usable 8192 := ⟨by decide, by decide⟩
  obtain ⟨done, s, served, same⟩ := served_of_permits usable_4096
    [.malloc 40, .malloc 40, .free 4120, .malloc 16] (by decide +kernel)
  obtain ⟨done', s', served', same'⟩ := served_of_permits usable
    [.malloc 40, .write 8216 255, .malloc 40, .free 8216, .malloc 16] (by decide +kernel)
  obtain ⟨answers, _, _, list⟩ := mm_relocation usable_4096 usable served served' (by
    rw [operationsOf_requests, operationsOf_requests, same, same']
    decide +kernel)
  exact ⟨done, done', s, s', served, served', same', answers, list⟩

end Cs1330.Malloc
