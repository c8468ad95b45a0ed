import Cs1330.Lib.Memory

/-!
# Allocator state

The globals of `memlib.c`, `mminline.h` and `mm.c` over one flat memory. Pointers are
addresses and `NULL` is `0`. Every word that the allocator reads or writes goes through
`loadWord` and `storeWord`, which fault outside `[mem_heap_lo, mem_heap_hi]`; a failed
`assert` faults too, so a run without a fault is a run in which neither happened. Bytes are
copied in flat memory: a `memcpy` from behind `mem_max_addr`, where `malloc(MAX_HEAP)` ends,
does not fault here, and the driver looks for it (`stayInRegion`).
-/

namespace Cs1330.Malloc
open Machine

def alignment : Int := 8
def wordSize : Int := 8
def tagsSize : Int := 2 * wordSize
def minBlockSize : Int := 4 * wordSize
def maxHeap : Int := 20 * 2 ^ 20

/-- The functions of `mminline.h` that assert. -/
inductive AssertSite where
  | blockEndTag | blockSetSize | blockSetAllocated
  | blockFlink | blockSetFlink | blockBlink | blockSetBlink
  | pullFreeBlock | insertFreeBlock
  deriving DecidableEq, Repr

inductive Fault where
  | assertion (site : AssertSite)
  | outOfHeap (address : Int)
  /-- The free-list search went round more often than the heap has bytes. -/
  | endlessSearch
  deriving DecidableEq, Repr

structure Heap where
  mem : Memory
  memStartBrk : Int
  memBrk : Int
  memMaxAddr : Int
  prologue : Int
  epilogue : Int
  flistFirst : Int

/-- The same globals over another memory. -/
def Heap.withMem (s : Heap) (m : Memory) : Heap := { s with mem := m }

abbrev HeapM := StateT Heap (Except Fault)

/-- The word at `a` lies in `[mem_heap_lo, mem_heap_hi]`. -/
def Heap.Holds (s : Heap) (a : Int) : Prop := s.memStartBrk ≤ a ∧ a + wordSize ≤ s.memBrk

instance (s : Heap) (a : Int) : Decidable (s.Holds a) := inferInstanceAs (Decidable (_ ∧ _))

def loadWord (a : Int) : HeapM Int := do
  let s ← get
  if s.Holds a then return load s.mem a else throw (.outOfHeap a)

def storeWord (a v : Int) : HeapM Unit := do
  let s ← get
  if s.Holds a then set (s.withMem (store s.mem a v)) else throw (.outOfHeap a)

def assertThat (site : AssertSite) (condition : Prop) [Decidable condition] : HeapM Unit :=
  if condition then return () else throw (.assertion site)

/-- `long` addition. -/
def addLong (x y : Int) : Int := wrap 64 (x + y)

/-- `long` subtraction. -/
def subLong (x y : Int) : Int := wrap 64 (x - y)

/-! ### `memlib.c` -/

/-- `mem_init`, with the address that libc's `malloc(MAX_HEAP)` returned. -/
def memInit (base : Int) : HeapM Unit :=
  modify fun s => { s with memStartBrk := base, memMaxAddr := base + maxHeap, memBrk := base }

/-- `mem_sbrk`; its parameter is an `int`, so the caller's `long` is converted to 32 bits. -/
def memSbrk (increment : Int) : HeapM Int := do
  let incr := wrap 32 increment
  let s ← get
  if incr < 0 ∨ s.memBrk + incr > s.memMaxAddr then
    return -1
  set { s with memBrk := s.memBrk + incr }
  return s.memBrk

def Heap.memHeapLo (s : Heap) : Int := s.memStartBrk

def Heap.memHeapHi (s : Heap) : Int := s.memBrk - 1

def Heap.memHeapsize (s : Heap) : Int := s.memBrk - s.memStartBrk

@[simp] theorem withMem_mem (s : Heap) (m : Memory) : (s.withMem m).mem = m := rfl

@[simp] theorem withMem_withMem (s : Heap) (m m' : Memory) : (s.withMem m).withMem m' = s.withMem m' := rfl

@[simp] theorem withMem_flistFirst (s : Heap) (m : Memory) : (s.withMem m).flistFirst = s.flistFirst := rfl

@[simp] theorem withMem_memStartBrk (s : Heap) (m : Memory) : (s.withMem m).memStartBrk = s.memStartBrk := rfl

@[simp] theorem withMem_memBrk (s : Heap) (m : Memory) : (s.withMem m).memBrk = s.memBrk := rfl

@[simp] theorem withMem_holds (s : Heap) (m : Memory) (a : Int) : (s.withMem m).Holds a ↔ s.Holds a := Iff.rfl

/-! ### Running `HeapM` -/

theorem run_bind {α β : Type} {x : HeapM α} {f : α → HeapM β} {s t : Heap} {a : α}
    (h : x s = .ok (a, t)) : (x >>= f) s = f a t := by
  simp [bind, StateT.bind, Except.bind, h]

theorem run_pure {α : Type} (a : α) (s : Heap) : (pure a : HeapM α) s = .ok (a, s) := rfl

theorem run_get (s : Heap) : (get : HeapM Heap) s = .ok (s, s) := rfl

theorem run_set (s t : Heap) : (set t : HeapM Unit) s = .ok ((), t) := rfl

theorem run_modify (f : Heap → Heap) (s : Heap) : (modify f : HeapM Unit) s = .ok ((), f s) := rfl

theorem run_assertThat {site : AssertSite} {condition : Prop} [Decidable condition] {s : Heap}
    (holds : condition) : assertThat site condition s = .ok ((), s) := by
  simp [assertThat, holds, run_pure]

theorem run_loadWord {s : Heap} {a : Int} (h : s.Holds a) : loadWord a s = .ok (load s.mem a, s) := by
  unfold loadWord
  rw [run_bind (run_get s), if_pos h, run_pure]

theorem run_storeWord {s : Heap} {a v : Int} (h : s.Holds a) :
    storeWord a v s = .ok ((), s.withMem (store s.mem a v)) := by
  unfold storeWord
  rw [run_bind (run_get s), if_pos h, run_set]

theorem addLong_eq {x y : Int} (range : InLong (x + y)) : addLong x y = x + y := wrap_of_inLong range

theorem subLong_eq {x y : Int} (range : InLong (x - y)) : subLong x y = x - y := wrap_of_inLong range

end Cs1330.Malloc
