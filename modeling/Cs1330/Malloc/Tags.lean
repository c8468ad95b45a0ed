import Cs1330.Malloc.Mm

/-!
# Tags

What the tag accessors read, and what the tag setters write: `TagsWritten m m' b size word`
says that `m'` is `m` with `word` in the header and end tag of the block at `b`.
-/

namespace Cs1330.Malloc
open Machine

theorem land_one (x : Int) : land x 1 = x % 2 := land_low (k := 1) (by decide)

theorem land_neg_two {x : Int} (range : InLong x) : land x (-2) = x - x % 2 :=
  land_high (k := 1) (by decide) range

theorem land_seven (x : Int) : land x (alignment - 1) = x % 8 := land_low (k := 3) (by decide)

theorem run_blockAllocated {s : Heap} {b : Int} (h : s.Holds b) :
    blockAllocated b s = .ok (load s.mem b % 2, s) := by
  unfold blockAllocated
  rw [run_bind (run_loadWord h), run_pure, land_one]

theorem run_blockSize {s : Heap} {b : Int} (h : s.Holds b) :
    blockSize b s = .ok (load s.mem b - load s.mem b % 2, s) := by
  unfold blockSize
  rw [run_bind (run_loadWord h), run_pure, land_neg_two (load_inLong _ _)]

theorem run_blockNext {s : Heap} {b : Int} (h : s.Holds b) :
    blockNext b s = .ok (b + (load s.mem b - load s.mem b % 2), s) := by
  unfold blockNext
  rw [run_bind (run_blockSize h), run_pure]

theorem run_blockPrev {s : Heap} {b : Int} (h : s.Holds (b - wordSize)) :
    blockPrev b s = .ok (b - (load s.mem (b - 8) - load s.mem (b - 8) % 2), s) := by
  have size : blockPrevSize b s = .ok (load s.mem (b - 8) - load s.mem (b - 8) % 2, s) := by
    unfold blockPrevSize
    rw [run_bind (run_loadWord h), run_pure, land_neg_two (load_inLong _ _)]
    rfl
  unfold blockPrev
  rw [run_bind size, run_pure]

theorem run_blockEndTag {s : Heap} {b : Int} (h : s.Holds b) (large : 16 ≤ load s.mem b) :
    blockEndTag b s = .ok (b + (load s.mem b - load s.mem b % 2) - 8, s) := by
  have condition : load s.mem b ≥ wordSize * 2 := by simpa [wordSize] using large
  unfold blockEndTag
  rw [run_bind (run_loadWord h), run_bind (run_assertThat condition), run_pure,
    land_neg_two (load_inLong _ _)]
  rfl

structure TagsWritten (m m' : Memory) (b size word : Int) : Prop where
  header : load m' b = word
  endTag : load m' (b + size - 8) = word
  frame : ∀ x, ¬(b ≤ x ∧ x < b + 8) → ¬(b + size - 8 ≤ x ∧ x < b + size) → m' x = m x

theorem TagsWritten.trans {m m' m'' : Memory} {b size v w : Int}
    (first : TagsWritten m m' b size v) (second : TagsWritten m' m'' b size w) : TagsWritten m m'' b size w :=
  ⟨second.header, second.endTag,
    fun x header endTag => (second.frame x header endTag).trans (first.frame x header endTag)⟩

theorem tagsWritten_store {m : Memory} {b size word : Int} (range : InLong word) (large : 16 ≤ size) :
    TagsWritten m (store (store m b word) (b + size - 8) word) b size word := by
  refine ⟨?_, load_store range, ?_⟩
  · rw [load_store_other (by omega), load_store range]
  · intro x header endTag
    rw [store_outside (by omega), store_outside (by omega)]

/-- `block_set_size` keeps the allocated bit that the header has, whatever else it holds. -/
theorem run_blockSetSize {s : Heap} {b size : Int} (header : s.Holds b) (endTag : s.Holds (b + size - 8))
    (aligned : size % 8 = 0) (large : 16 ≤ size) (small : size < 2 ^ 62) :
    ∃ m', blockSetSize b size s = .ok ((), s.withMem m') ∧
      TagsWritten s.mem m' b size (size + load s.mem b % 2) := by
  have range : InLong (size + load s.mem b % 2) := ⟨by omega, by omega⟩
  have word : lor size (load s.mem b % 2) = size + load s.mem b % 2 :=
    lor_bit ⟨by omega, by omega⟩ (by omega) (by omega)
  refine ⟨_, ?_, tagsWritten_store range large⟩
  unfold blockSetSize
  rw [run_bind (run_assertThat (by rw [land_seven]; exact aligned)), run_bind (run_blockAllocated header), word,
    run_bind (run_storeWord header)]
  -- The end tag is found through the header that was just written.
  rw [run_bind (run_blockEndTag ((withMem_holds _ _ _).mpr header) (by rw [withMem_mem, load_store range]; omega)),
    withMem_mem, load_store range,
    show b + (size + load s.mem b % 2 - (size + load s.mem b % 2) % 2) - 8 = b + size - 8 by omega,
    run_storeWord ((withMem_holds _ _ _).mpr endTag), withMem_mem, withMem_withMem]

theorem run_blockSetAllocated {s : Heap} {b size old allocated : Int} (header : s.Holds b)
    (endTag : s.Holds (b + size - 8)) (even : size % 2 = 0) (large : 16 ≤ size) (small : size < 2 ^ 62)
    (oldBit : old = 0 ∨ old = 1) (oldHeader : load s.mem b = size + old)
    (oldEndTag : load s.mem (b + size - 8) = size + old) (bit : allocated = 0 ∨ allocated = 1) :
    ∃ m', blockSetAllocated b allocated s = .ok ((), s.withMem m') ∧
      TagsWritten s.mem m' b size (size + allocated) := by
  have range : InLong (size + allocated) := ⟨by omega, by omega⟩
  have kept : load (store s.mem b (size + allocated)) (b + size - 8) = size + old := by
    rw [load_store_other (by omega), oldEndTag]
  have tag : blockEndTag b (s.withMem (store s.mem b (size + allocated))) =
      .ok (b + size - 8, s.withMem (store s.mem b (size + allocated))) := by
    rw [run_blockEndTag ((withMem_holds _ _ _).mpr header) (by rw [withMem_mem, load_store range]; omega),
      withMem_mem, load_store range]
    rw [show b + (size + allocated - (size + allocated) % 2) - 8 = b + size - 8 by omega]
  refine ⟨_, ?_, tagsWritten_store range large⟩
  unfold blockSetAllocated
  rw [run_bind (run_assertThat bit)]
  rcases bit with rfl | rfl
  · have cleared : land (size + old) (-2) = size + 0 := by
      rw [land_neg_two ⟨by omega, by omega⟩]; omega
    rw [if_neg (by simp), run_bind (run_loadWord header), oldHeader, cleared, run_bind (run_storeWord header),
      run_bind tag, run_bind (run_loadWord ((withMem_holds _ _ _).mpr endTag)), withMem_mem, kept, cleared,
      run_storeWord ((withMem_holds _ _ _).mpr endTag), withMem_mem, withMem_withMem]
  · have marked : lor (size + old) 1 = size + 1 := by
      rcases oldBit with rfl | rfl
      · rw [add_zero]; exact lor_bit ⟨by omega, by omega⟩ even (Or.inr rfl)
      · exact lor_odd ⟨by omega, by omega⟩ (by omega)
    rw [if_pos (by simp), run_bind (run_loadWord header), oldHeader, marked, run_bind (run_storeWord header),
      run_bind tag, run_bind (run_loadWord ((withMem_holds _ _ _).mpr endTag)), withMem_mem, kept, marked,
      run_storeWord ((withMem_holds _ _ _).mpr endTag), withMem_mem, withMem_withMem]

theorem run_blockSetSizeAndAllocated {s : Heap} {b size allocated : Int} (header : s.Holds b)
    (endTag : s.Holds (b + size - 8)) (aligned : size % 8 = 0) (large : 16 ≤ size) (small : size < 2 ^ 62)
    (bit : allocated = 0 ∨ allocated = 1) :
    ∃ m', blockSetSizeAndAllocated b size allocated s = .ok ((), s.withMem m') ∧
      TagsWritten s.mem m' b size (size + allocated) := by
  obtain ⟨m₁, sized, first⟩ := run_blockSetSize header endTag aligned large small
  obtain ⟨m₂, marked, second⟩ := run_blockSetAllocated (s := s.withMem m₁)
    header endTag (by omega) large small (by omega) first.header first.endTag bit
  refine ⟨m₂, ?_, first.trans second⟩
  unfold blockSetSizeAndAllocated
  rw [run_bind sized, marked, withMem_withMem]

end Cs1330.Malloc
