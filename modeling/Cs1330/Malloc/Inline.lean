import Cs1330.Malloc.Heap

/-!
# Block accessors and free-list primitives

`mminline.h`, function by function. A block pointer is the address of its header; the header
word is the size with the allocated bit, `payload[0]` is at offset 8 and `payload[1]` at 16.
-/

namespace Cs1330.Malloc
open Machine

def blockEndTag (b : Int) : HeapM Int := do
  let size ← loadWord b
  assertThat .blockEndTag (size ≥ wordSize * 2)
  return b + land size (-2) - wordSize

def blockAllocated (b : Int) : HeapM Int := return land (← loadWord b) 1

def blockSize (b : Int) : HeapM Int := return land (← loadWord b) (-2)

def blockSetSize (b size : Int) : HeapM Unit := do
  assertThat .blockSetSize (land size (alignment - 1) = 0)
  let size := lor size (← blockAllocated b)
  storeWord b size
  storeWord (← blockEndTag b) size

def blockSetAllocated (b allocated : Int) : HeapM Unit := do
  assertThat .blockSetAllocated (allocated = 0 ∨ allocated = 1)
  if allocated ≠ 0 then
    storeWord b (lor (← loadWord b) 1)
    let tag ← blockEndTag b
    storeWord tag (lor (← loadWord tag) 1)
  else
    storeWord b (land (← loadWord b) (-2))
    let tag ← blockEndTag b
    storeWord tag (land (← loadWord tag) (-2))

def blockSetSizeAndAllocated (b size allocated : Int) : HeapM Unit := do
  blockSetSize b size
  blockSetAllocated b allocated

def blockPrevSize (b : Int) : HeapM Int := return land (← loadWord (b - wordSize)) (-2)

def blockPrev (b : Int) : HeapM Int := return b - (← blockPrevSize b)

def blockNext (b : Int) : HeapM Int := return b + (← blockSize b)

def payloadToBlock (payload : Int) : Int := payload - wordSize

/-- The address of `b->payload`. -/
def blockPayload (b : Int) : Int := b + wordSize

def blockFlink (b : Int) : HeapM Int := do
  assertThat .blockFlink ((← blockAllocated b) = 0)
  loadWord (b + wordSize)

def blockSetFlink (b newFlink : Int) : HeapM Unit := do
  assertThat .blockSetFlink ((← blockAllocated b) = 0)
  assertThat .blockSetFlink ((← blockAllocated newFlink) = 0)
  storeWord (b + wordSize) newFlink

def blockBlink (b : Int) : HeapM Int := do
  assertThat .blockBlink ((← blockAllocated b) = 0)
  loadWord (b + 2 * wordSize)

def blockSetBlink (b newBlink : Int) : HeapM Unit := do
  assertThat .blockSetBlink ((← blockAllocated b) = 0)
  assertThat .blockSetBlink ((← blockAllocated newBlink) = 0)
  storeWord (b + 2 * wordSize) newBlink

def pullFreeBlock (fb : Int) : HeapM Unit := do
  assertThat .pullFreeBlock ((← blockAllocated fb) = 0)
  let prev ← blockBlink fb
  let next ← blockFlink fb
  blockSetFlink prev next
  blockSetBlink next prev
  let s ← get
  if fb = s.flistFirst then
    set { s with flistFirst := if fb = next then 0 else next }

def insertFreeBlock (fb : Int) : HeapM Unit := do
  assertThat .insertFreeBlock ((← blockAllocated fb) = 0)
  let first := (← get).flistFirst
  if first = 0 then
    modify fun s => { s with flistFirst := fb }
    blockSetFlink fb fb
    blockSetBlink fb fb
  else
    blockSetFlink fb first
    blockSetBlink fb (← blockBlink first)
    blockSetFlink (← blockBlink first) fb
    blockSetBlink first fb
    modify fun s => { s with flistFirst := fb }

end Cs1330.Malloc
