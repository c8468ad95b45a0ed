import Cs1330.Malloc.Outcomes

/-!
# Requests of any `long`

`mm_malloc` takes a `long`, adds and aligns in 64 bits, and hands the result to `mem_sbrk` as an
`int`. For the largest requests the sum wraps and a block of the least size is returned; from 2^32
bytes on the `int` is another number than the block size that goes into the tags.
-/

namespace Cs1330.Malloc
open Machine Links Tiling

variable {s s' t : Heap} {bs mids mids' : List Block} {fl fl' : List Int} {b c d n : Block}
  {a base ptr q size : Int}

/-! ### Block sizes -/

theorem wrap_long_over {x : Int} (low : 2 ^ 63 ≤ x) (high : x < 2 ^ 64) : wrap 64 x = x - 2 ^ 64 := by
  have shift : (x - (2 ^ 64 : Nat)).bmod (2 ^ 64) = wrap 64 x := Int.sub_bmod_right x (2 ^ 64)
  rw [← shift]
  exact Int.bmod_eq_of_le (by norm_num; omega) (by norm_num; omega)

theorem align_wrapped (x : Int) : align x = addLong x 7 - addLong x 7 % 8 :=
  land_high (k := 3) (by decide) (wrap_inLong _)

/-- The sum wraps to a negative number, which every `long` test takes for a small request. -/
theorem adjustedSize_of_overflow (low : 2 ^ 63 ≤ size + 23) (high : size < 2 ^ 63) : adjustedSize size = 32 := by
  have negative : align (addLong size tagsSize) < minBlockSize := by
    have tags : tagsSize = 16 := by decide
    have least : minBlockSize = 32 := by decide
    rw [align_wrapped, tags, least]
    by_cases small : size + 16 < 2 ^ 63
    · have first : addLong size 16 = size + 16 := addLong_eq ⟨by omega, by omega⟩
      have second : addLong (size + 16) 7 = size + 16 + 7 - 2 ^ 64 := wrap_long_over (by omega) (by omega)
      rw [first, second]
      omega
    · have first : addLong size 16 = size + 16 - 2 ^ 64 := wrap_long_over (by omega) (by omega)
      have second : addLong (size + 16 - 2 ^ 64) 7 = size + 16 - 2 ^ 64 + 7 := addLong_eq ⟨by omega, by omega⟩
      rw [first, second]
      omega
  unfold adjustedSize
  rw [if_pos negative]
  rfl

theorem adjustedSize_long (long : InLong size) :
    32 ≤ adjustedSize size ∧ adjustedSize size % 8 = 0 ∧ adjustedSize size < 2 ^ 63 := by
  obtain ⟨low, high⟩ := long
  by_cases sum : size + 23 < 2 ^ 63
  · rw [adjustedSize_of_sum low sum]
    omega
  · rw [adjustedSize_of_overflow (by omega) high]
    omega

/-- Only a request that fits its block asks for more than the least block. -/
theorem adjustedSize_payload (long : InLong size) (more : 32 < adjustedSize size) :
    align size + 16 ≤ adjustedSize size ∧ size ≤ align size := by
  obtain ⟨low, high⟩ := long
  by_cases sum : size + 23 < 2 ^ 63
  · have payload := align_eq (n := size) ⟨by omega, by omega⟩
    rw [adjustedSize_of_sum low sum] at more ⊢
    omega
  · rw [adjustedSize_of_overflow (by omega) high] at more
    omega

/-! ### The truncated `mem_sbrk` -/

/-- `mem_sbrk(a)` succeeds. -/
def Grows (s : Heap) (a : Int) : Prop := 0 ≤ wrap 32 a ∧ s.memBrk + wrap 32 a ≤ s.memMaxAddr

theorem grows_small (low : 0 ≤ a) (high : a < 2 ^ 31) : Grows s a ↔ s.memBrk + a ≤ s.memMaxAddr := by
  unfold Grows
  rw [wrap_int_small low high]
  simp only [low, true_and]

/-- Below 2^32 bytes the `int` is either the size itself or negative. -/
theorem Grows.room (grows : Grows s a) (low : 0 ≤ a) (high : a < 2 ^ 32) : s.memBrk + a ≤ s.memMaxAddr := by
  by_cases small : a < 2 ^ 31
  · exact (grows_small low small).mp grows
  · have negative := wrap_int_large (a := a) (by omega) high
    have nonneg := grows.1
    omega

theorem run_memSbrk_grows (grows : Grows s a) :
    memSbrk a s = .ok (s.memBrk, { s with memBrk := s.memBrk + wrap 32 a }) := by
  obtain ⟨low, high⟩ := grows
  unfold memSbrk
  rw [run_bind (run_get s), if_neg (by omega), run_bind (run_set s _), run_pure]

theorem run_extendHeap_refused (refused : ¬Grows s a) : extendHeap a s = .ok (0, s) := by
  have sbrk : memSbrk a s = .ok (-1, s) := by
    unfold memSbrk
    rw [run_bind (run_get s), if_pos (by unfold Grows at refused; omega), run_pure]
  unfold extendHeap
  rw [run_bind sbrk, if_pos rfl, run_pure]

theorem run_bind_error {α β : Type} {x : HeapM α} {f : α → HeapM β} {fault : Fault} (h : x s = .error fault) :
    (x >>= f) s = .error fault := by
  simp [bind, StateT.bind, Except.bind, h]

theorem run_storeWord_outside {v : Int} (outside : ¬s.Holds a) : storeWord a v s = .error (.outOfHeap a) := by
  unfold storeWord
  rw [run_bind (run_get s), if_neg outside]
  rfl

/-- The header of a block that is larger than the heap can be written, its end tag cannot. -/
theorem run_blockSetSize_outside {x : Int} (header : s.Holds x) (outside : s.memBrk < x + a) (large : 16 ≤ a)
    (aligned : a % 8 = 0) (small : a < 2 ^ 63) :
    blockSetSize x a s = .error (.outOfHeap (x + a - 8)) := by
  have range : InLong (a + load s.mem x % 2) := ⟨by omega, by omega⟩
  have word : lor a (load s.mem x % 2) = a + load s.mem x % 2 :=
    lor_bit ⟨by omega, by omega⟩ (by omega) (by omega)
  have tag := run_blockEndTag (s := s.withMem (store s.mem x (a + load s.mem x % 2)))
    ((withMem_holds _ _ _).mpr header) (by rw [withMem_mem, load_store range]; omega)
  rw [withMem_mem, load_store range,
    show x + (a + load s.mem x % 2 - (a + load s.mem x % 2) % 2) - 8 = x + a - 8 by omega] at tag
  unfold blockSetSize
  rw [run_bind (run_assertThat (by rw [land_seven]; exact aligned)), run_bind (run_blockAllocated header), word,
    run_bind (run_storeWord header), run_bind tag]
  apply run_storeWord_outside
  simp only [Heap.Holds, wordSize, withMem_memBrk]
  omega

/-- From 2^32 bytes on, whatever `mem_sbrk` made of the `int`, the block ends outside the heap. -/
theorem Wf.run_extendHeap_truncated (wf : Wf s mids fl) (wide : 2 ^ 32 ≤ a) (aligned : a % 8 = 0) (small : a < 2 ^ 63)
    (grows : Grows s a) : ∃ address, extendHeap a s = .error (.outOfHeap address) := by
  have last := wf.epilogue_eq
  have extent := wf.region.extent
  have limit : maxHeap = 20971520 := by decide
  have inside := wf.inside s.epilogueBlock (by simp [Heap.layout])
  have addr : s.epilogueBlock.addr = s.epilogue := rfl
  rw [addr] at inside
  have sbrk := run_memSbrk_grows grows
  obtain ⟨low, high⟩ := grows
  have tags := run_blockSetSize_outside (s := { s with memBrk := s.memBrk + wrap 32 a }) (x := s.epilogue) (a := a)
    ⟨inside.1, by show s.epilogue + 8 ≤ s.memBrk + wrap 32 a; omega⟩
    (by show s.memBrk + wrap 32 a < s.epilogue + a; omega) (by omega) aligned small
  have positive := wf.region.positive
  refine ⟨s.epilogue + a - 8, ?_⟩
  unfold extendHeap
  rw [run_bind sbrk, if_neg (by omega), run_bind (run_get _)]
  unfold blockSetSizeAndAllocated
  rw [bind_assoc]
  exact run_bind_error tags

/-! ### `mm_malloc` -/

/-- What becomes of a request of any nonzero `long`. -/
theorem Wf.mmMalloc_long (wf : Wf s mids fl) (long : InLong size) (nonzero : size ≠ 0) :
    (∃ b s' mids' fl', Placed s fl (adjustedSize size) mids b s' mids' fl' ∧ mmMalloc size s = .ok (b.addr + 8, s') ∧
        Wf s' mids' fl' ∧ (∀ c ∈ mids, c.allocated = true → Same c s.mem s'.mem) ∧
        (NoFit mids (adjustedSize size) → Grows s (adjustedSize size) ∧ adjustedSize size < 2 ^ 32)) ∨
      (NoFit mids (adjustedSize size) ∧ ¬Grows s (adjustedSize size) ∧ mmMalloc size s = .ok (0, s)) ∨
      (NoFit mids (adjustedSize size) ∧ Grows s (adjustedSize size) ∧ 2 ^ 32 ≤ adjustedSize size ∧
        ∃ address, mmMalloc size s = .error (.outOfHeap address)) := by
  obtain ⟨large, aligned, high⟩ := adjustedSize_long long
  rcases wf.mmMalloc_cases nonzero large aligned with ⟨some, b, s', mids', fl', placed, run, final, frame⟩ | ⟨none, grow⟩
  · exact Or.inl ⟨b, s', mids', fl', placed, run, final, frame, fun none => (some none).elim⟩
  · rw [grow]
    by_cases grows : Grows s (adjustedSize size)
    · by_cases wide : 2 ^ 32 ≤ adjustedSize size
      · exact Or.inr (Or.inr ⟨none, grows, wide, wf.run_extendHeap_truncated wide aligned high grows⟩)
      · rcases wf.run_noFit none large aligned (by omega) with ⟨b, s', mids', fl', placed⟩ | ⟨full, _⟩
        · exact Or.inl ⟨b, s', mids', fl', placed.1, placed.2.1, placed.2.2.1, placed.2.2.2, fun _ => ⟨grows, by omega⟩⟩
        · have room := grows.room (by omega) (by omega)
          omega
    · exact Or.inr (Or.inl ⟨none, grows, run_extendHeap_refused grows⟩)

/-! ### Runs with requests of any `long` -/

def LongLegal (s : Heap) : Request → Prop
  | .malloc size => InLong size
  | .free ptr => ptr = 0 ∨ s.Owns ptr
  | .realloc ptr size => (ptr = 0 ∨ s.Owns ptr) ∧ InLong size
  | .write address _ => ∃ payload ∈ s.payloads, payload.1 ≤ address ∧ address < payload.1 + payload.2

/-- As `Reachable`, with every `long` for a size. A request that writes outside the heap ends the run. -/
inductive LongReachable (base : Int) : Heap → Prop
  | init {s s' : Heap} : mmInit base s = .ok (0, s') → LongReachable base s'
  | step {s s' : Heap} {request : Request} {result : Int} : LongReachable base s → LongLegal s request →
      execute request s = .ok (result, s') → LongReachable base s'

theorem Wf.malloc_long (wf : Wf s mids fl) (long : InLong size) (run : mmMalloc size s = .ok (q, s')) :
    ∃ mids' fl', Wf s' mids' fl' ∧ s'.memStartBrk = s.memStartBrk := by
  by_cases zero : size = 0
  · rw [zero, run_mmMalloc_zero] at run
    obtain ⟨_, rfl⟩ := Prod.mk.inj (Except.ok.inj run)
    exact ⟨mids, fl, wf, rfl⟩
  rcases wf.mmMalloc_long long zero with ⟨b, t, mids', fl', placed, progress, final, _⟩ | ⟨_, _, null⟩ | ⟨_, _, _, _, fault⟩
  · obtain ⟨_, rfl⟩ := Prod.mk.inj (Except.ok.inj (progress.symm.trans run))
    exact ⟨mids', fl', final, placed.start⟩
  · obtain ⟨_, rfl⟩ := Prod.mk.inj (Except.ok.inj (null.symm.trans run))
    exact ⟨mids, fl, wf, rfl⟩
  · cases fault.symm.trans run

theorem Wf.moveBlock_long (wf : Wf s mids fl) (member : b ∈ mids) (allocated : b.allocated = true) (long : InLong size)
    (tight : b.size < adjustedSize size) (run : moveBlock (b.addr + 8) size s = .ok (q, s')) :
    ∃ mids' fl', Wf s' mids' fl' ∧ s'.memStartBrk = s.memStartBrk := by
  have large := wf.large b member
  obtain ⟨payload, covers⟩ := adjustedSize_payload long (by omega)
  have nonzero : size ≠ 0 := by
    intro zero
    have least : adjustedSize 0 = 32 := by decide
    rw [zero] at tight
    omega
  rcases wf.mmMalloc_long long nonzero with ⟨d, t, mids₁, fl₁, placed, malloc, placedWf, frame, _⟩ | ⟨_, _, null⟩ | fault
  · obtain ⟨u, mids', fl', resized, progress, final, _⟩ :=
      placed.run_copy wf placedWf malloc frame member allocated tight payload covers
    obtain ⟨_, rfl⟩ := Prod.mk.inj (Except.ok.inj (progress.symm.trans run))
    exact ⟨mids', fl', final, resized.start⟩
  · obtain ⟨_, rfl⟩ := Prod.mk.inj (Except.ok.inj ((run_moveBlock_null null _).symm.trans run))
    exact ⟨mids, fl, wf, rfl⟩
  · obtain ⟨_, _, _, _, fault⟩ := fault
    unfold moveBlock at run
    rw [run_bind_error fault] at run
    cases run

theorem Wf.realloc_long (wf : Wf s mids fl) (member : b ∈ mids) (allocated : b.allocated = true) (long : InLong size)
    (nonzero : size ≠ 0) (run : mmRealloc (b.addr + 8) size s = .ok (q, s')) :
    ∃ mids' fl', Wf s' mids' fl' ∧ s'.memStartBrk = s.memStartBrk := by
  obtain ⟨n, nMem, next⟩ := wf.next_mem member
  by_cases moves : MustMove b n (adjustedSize size)
  · rw [wf.mmRealloc_moves member nMem next nonzero moves] at run
    exact wf.moveBlock_long member allocated long moves.1 run
  · obtain ⟨t, mids', fl', resized, progress, final, _⟩ := wf.run_inPlace member allocated nMem next nonzero moves
    obtain ⟨_, rfl⟩ := Prod.mk.inj (Except.ok.inj (progress.symm.trans run))
    exact ⟨mids', fl', final, resized.start⟩

theorem Wf.execute_long (wf : Wf s mids fl) {request : Request} (legal : LongLegal s request)
    (run : execute request s = .ok (q, s')) : ∃ mids' fl', Wf s' mids' fl' ∧ s'.memStartBrk = s.memStartBrk := by
  have short : Legal s request → ∃ mids' fl', Wf s' mids' fl' ∧ s'.memStartBrk = s.memStartBrk := by
    intro legal
    obtain ⟨_, t, mids', fl', progress, final, start⟩ := wf.run_execute legal
    obtain ⟨_, rfl⟩ := Prod.mk.inj (Except.ok.inj (progress.symm.trans run))
    exact ⟨mids', fl', final, start⟩
  cases request with
  | malloc size => exact wf.malloc_long legal run
  | free ptr => exact short legal
  | realloc ptr size =>
    obtain ⟨rfl | owned, long⟩ := legal
    · exact wf.malloc_long long ((run_mmRealloc_null s size).symm.trans run)
    · by_cases zero : size = 0
      · exact short ⟨Or.inr owned, by omega, by rw [zero]; decide⟩
      · obtain ⟨b, member, allocated, rfl⟩ := (wf.owns ptr).mp owned
        exact wf.realloc_long member allocated long zero run
  | write address byte => exact short legal

theorem longReachable_wf (usable : Usable base) (reachable : LongReachable base s) :
    ∃ mids fl, Wf s mids fl ∧ s.memStartBrk = base := by
  induction reachable with
  | @init s s' run =>
    obtain ⟨t, init, wf, start, _⟩ := run_mmInit usable s
    obtain ⟨_, rfl⟩ := Prod.mk.inj (Except.ok.inj (run.symm.trans init))
    exact ⟨[], [], wf, start⟩
  | step _ legal run ih =>
    obtain ⟨mids, fl, wf, start⟩ := ih
    obtain ⟨mids', fl', final, same⟩ := wf.execute_long legal run
    exact ⟨mids', fl', final, same.trans start⟩

/-! ### What the caller gets -/

/-- `mm_malloc(size)` returns, and unless it returned `NULL` the caller may use `size` bytes: they lie
in the heap and in the payload of the block before them. -/
def Honours (size : Int) (s : Heap) : Prop :=
  ∃ p s', mmMalloc size s = .ok (p, s') ∧
    (p ≠ 0 → s'.memHeapLo ≤ p ∧ p + size - 1 ≤ s'.memHeapHi ∧ ∃ room, (p, room) ∈ s'.payloads ∧ size ≤ room)

theorem Placed.waste (placed : Placed s fl a mids d s' mids' fl') : d.size < a + 32 := by
  cases placed with
  | whole xs b ys m first fit tight =>
    show b.size < a + 32
    omega
  | split xs b ys m first fit room =>
    show a < a + 32
    omega
  | extend mids m none room =>
    show a < a + 32
    omega

theorem Wf.honours_of_block (wf : Wf t mids fl) (member : d ∈ mids) (allocated : d.allocated = true)
    (run : mmMalloc size s = .ok (d.addr + 8, t)) : Honours size s ↔ size + 16 ≤ d.size := by
  have positive := wf.addr_pos member
  have bounds := wf.bounds member
  have start := wf.prologue_eq
  have last := wf.epilogue_eq
  have held := (wf.mem_payloads _).mpr ⟨d, member, allocated, rfl⟩
  simp only [Block.limit] at bounds
  constructor
  · rintro ⟨p, t', again, honoured⟩
    obtain ⟨rfl, rfl⟩ := Prod.mk.inj (Except.ok.inj (run.symm.trans again))
    obtain ⟨_, _, room, payload, fits⟩ := honoured (by omega)
    obtain ⟨c, cMem, _, same⟩ := (wf.mem_payloads _).mp payload
    have ptrs := congrArg Prod.fst same
    have rooms := congrArg Prod.snd same
    simp only at ptrs rooms
    obtain rfl := wf.eq_of_addr (mem_layout_mid cMem) (mem_layout_mid member) (by omega)
    omega
  · intro fits
    refine ⟨_, t, run, fun _ => ⟨?_, ?_, _, held, by omega⟩⟩
    · simp only [Heap.memHeapLo]
      omega
    · simp only [Heap.memHeapHi]
      omega

theorem Wf.honours_iff (wf : Wf s mids fl) (positive : 0 < size) (long : InLong size) :
    Honours size s ↔ (NoFit mids (adjustedSize size) ∧ ¬Grows s (adjustedSize size)) ∨
      (size + 23 < 2 ^ 63 ∧ (¬NoFit mids (adjustedSize size) ∨ adjustedSize size < 2 ^ 32)) := by
  have high := long.2
  rcases wf.mmMalloc_long long (by omega) with
    ⟨d, t, mids', fl', placed, run, final, _, grown⟩ | ⟨none, refused, run⟩ | ⟨none, grows, wide, address, fault⟩
  · have dMem : d ∈ mids' := (placed.mem_allocated placed.allocated).mpr (Or.inr rfl)
    have fits := placed.fits
    have waste := placed.waste
    rw [final.honours_of_block dMem placed.allocated run]
    by_cases sum : size + 23 < 2 ^ 63
    · -- The block has the bytes, and it was placed by a fit or by an honest extension.
      have rounded := adjustedSize_of_sum long.1 sum
      refine ⟨fun _ => Or.inr ⟨sum, ?_⟩, fun _ => by omega⟩
      by_cases none : NoFit mids (adjustedSize size)
      · exact Or.inr (grown none).2
      · exact Or.inl none
    · have least := adjustedSize_of_overflow (by omega) high
      constructor
      · intro enough
        omega
      · rintro (⟨none, refused⟩ | ⟨small, _⟩)
        · exact (refused (grown none).1).elim
        · exact (sum small).elim
  · exact ⟨fun _ => Or.inl ⟨none, refused⟩, fun _ => ⟨0, s, run, fun nonNull => (nonNull rfl).elim⟩⟩
  · constructor
    · rintro ⟨p, t, run, _⟩
      cases fault.symm.trans run
    · rintro (⟨_, refused⟩ | ⟨_, some | narrow⟩)
      · exact (refused grows).elim
      · exact (some none).elim
      · omega

theorem malloc_honours_iff (usable : Usable base) (reachable : LongReachable base s) (positive : 0 < size)
    (long : InLong size) :
    ∃ bs, s.blocks = .ok bs ∧
      (Honours size s ↔ (NoFit bs (adjustedSize size) ∧ ¬Grows s (adjustedSize size)) ∨
        (size + 23 < 2 ^ 63 ∧ (¬NoFit bs (adjustedSize size) ∨ adjustedSize size < 2 ^ 32))) := by
  obtain ⟨mids, fl, wf, _⟩ := longReachable_wf usable reachable
  refine ⟨s.layout mids, wf.blocks_eq, ?_⟩
  rw [noFit_layout]
  exact wf.honours_iff positive long

theorem Reachable.long (reachable : Reachable base s) : LongReachable base s := by
  induction reachable with
  | init run => exact .init run
  | @step s s' request result _ legal run ih =>
    refine .step ih ?_ run
    cases request with
    | malloc size =>
      obtain ⟨low, high⟩ := legal
      simp only [intMax] at high
      exact ⟨by omega, by omega⟩
    | free ptr => exact legal
    | realloc ptr size =>
      obtain ⟨pointer, low, high⟩ := legal
      simp only [intMax] at high
      exact ⟨pointer, by omega, by omega⟩
    | write address byte => exact legal

theorem malloc_honours_thousand : ∃ s bs, LongReachable 4096 s ∧ s.blocks = .ok bs ∧ Honours 1000 s := by
  obtain ⟨s, reachable, wf, _, _⟩ := reachable_twoExtended
  obtain ⟨bs, blocks, honours⟩ :=
    malloc_honours_iff usable_4096 reachable.long (show (0 : Int) < 1000 by decide) (by decide)
  refine ⟨s, bs, reachable.long, blocks, honours.mpr (Or.inr ⟨by decide, ?_⟩)⟩
  exact Or.inr (by decide)

/-- `LONG_MAX` bytes are granted in a block of 32. -/
theorem malloc_wraps : ∃ s p s', Reachable 4096 s ∧ mmMalloc (2 ^ 63 - 1) s = .ok (p, s') ∧ p ≠ 0 ∧
    (p, 16) ∈ s'.payloads ∧ s'.memHeapHi < p + (2 ^ 63 - 1) - 1 ∧ ¬Honours (2 ^ 63 - 1) s := by
  obtain ⟨s, init, wf, start, brk⟩ := run_mmInit usable_4096 ⟨fun _ => 0, 0, 0, 0, 0, 0, 0⟩
  have extent := wf.region.extent
  have limit : maxHeap = 20971520 := by decide
  have least : adjustedSize (2 ^ 63 - 1) = 32 := by decide
  have last := wf.epilogue_eq
  have none : NoFit [] (32 : Int) := by simp [NoFit]
  obtain ⟨m, grown, final, _⟩ := wf.run_extend (a := 32) (by decide) (by decide) (by decide) (by omega)
  have run : mmMalloc (2 ^ 63 - 1) s = .ok (s.epilogue + 8, s.extended m 32) := by
    rcases wf.mmMalloc_cases (show (2 ^ 63 - 1 : Int) ≠ 0 by decide) (by decide) (by decide) with ⟨some, _⟩ | ⟨_, grow⟩
    · rw [least] at some
      exact (some none).elim
    · rw [grow, least, grown]
  have member : s.extension 32 ∈ [] ++ [s.extension 32] := by simp
  refine ⟨s, _, _, .init init, run, by omega, (final.mem_payloads _).mpr ⟨_, member, rfl, rfl⟩, ?_, ?_⟩
  · show s.memBrk + 32 - 1 < _
    omega
  · rw [final.honours_of_block member rfl run]
    show ¬2 ^ 63 - 1 + 16 ≤ (32 : Int)
    decide

end Cs1330.Malloc
