import Cs1330.Malloc.Inline

/-!
# The allocator

`mm.c`: `mm_init`, `mm_malloc` with its free-list search, `coalesce`, `mm_free` and
`mm_realloc`.
-/

namespace Cs1330.Malloc
open Machine

/-- `align`: `(size + (WORD_SIZE - 1)) & ~(WORD_SIZE - 1)`, with `~x` written `-x - 1`. -/
def align (size : Int) : Int := land (addLong size (wordSize - 1)) (-(wordSize - 1) - 1)

/-- `adjusted_size` of `mm_malloc`, `new_size` of `mm_realloc`. -/
def adjustedSize (size : Int) : Int :=
  if align (addLong size tagsSize) < minBlockSize then minBlockSize else align (addLong size tagsSize)

/-- `mm_init`, with the address of the region that `mem_init` obtains. -/
def mmInit (base : Int) : HeapM Int := do
  memInit base
  let initialHeapSize := 2 * tagsSize
  let prologue ← memSbrk initialHeapSize
  modify fun s => { s with prologue := prologue }
  if prologue = -1 then
    return -1
  blockSetSizeAndAllocated prologue tagsSize 1
  let epilogue := prologue + tagsSize
  modify fun s => { s with epilogue := epilogue }
  blockSetSizeAndAllocated epilogue tagsSize 1
  modify fun s => { s with flistFirst := 0 }
  return 0

/-- The body of the search loop's `if`: take `cur`, splitting off its low part when that can
stay a block. -/
def takeBlock (cur adjusted : Int) : HeapM Int := do
  let remaining := subLong (← blockSize cur) adjusted
  if remaining ≥ minBlockSize then
    pullFreeBlock cur
    blockSetSizeAndAllocated cur remaining 0
    insertFreeBlock cur
    let newBlock ← blockNext cur
    blockSetSizeAndAllocated newBlock adjusted 1
    return blockPayload newBlock
  pullFreeBlock cur
  blockSetAllocated cur 1
  return blockPayload cur

/-- The `do`/`while` loop of `mm_malloc`: the payload it returns, or `none` when the search
comes back to `flist_first`. -/
def searchLoop (adjusted : Int) : Nat → Int → HeapM (Option Int)
  | 0, _ => throw .endlessSearch
  | rounds + 1, cur => do
    let fits ← (do
      if (← blockAllocated cur) ≠ 0 then return false
      return decide ((← blockSize cur) ≥ adjusted) : HeapM Bool)
    if fits then
      return some (← takeBlock cur adjusted)
    let cur ← blockFlink cur
    if cur ≠ (← get).flistFirst then searchLoop adjusted rounds cur else return none

/-- The part of `mm_malloc` after the search: a new block where the epilogue was. -/
def extendHeap (adjusted : Int) : HeapM Int := do
  let cur ← memSbrk adjusted
  if cur = -1 then
    return 0
  let cur := (← get).epilogue
  blockSetSizeAndAllocated cur adjusted 1
  let epilogue ← blockNext cur
  modify fun s => { s with epilogue := epilogue }
  blockSetSizeAndAllocated epilogue tagsSize 1
  return blockPayload cur

def mmMalloc (size : Int) : HeapM Int := do
  if size = 0 then
    return 0
  let adjusted := adjustedSize size
  let s ← get
  if s.flistFirst ≠ 0 then
    match ← searchLoop adjusted s.memHeapsize.toNat s.flistFirst with
    | some payload => return payload
    | none => extendHeap adjusted
  else
    extendHeap adjusted

/-- The second half of `coalesce`, which runs with `prev_block_free` set or not. -/
def coalesceNext (prevBlockFree : Bool) (prevBlock block nextBlock : Int) : HeapM Unit := do
  if (← blockAllocated nextBlock) = 0 then
    pullFreeBlock nextBlock
    if prevBlockFree then
      blockSetSize prevBlock (addLong (← blockSize prevBlock) (← blockSize nextBlock))
    else
      blockSetSize block (addLong (← blockSize block) (← blockSize nextBlock))

def coalesce (block : Int) : HeapM Unit := do
  let prevBlock ← blockPrev block
  let nextBlock ← blockNext block
  if (← blockAllocated prevBlock) = 0 then
    pullFreeBlock block
    blockSetSize prevBlock (addLong (← blockSize prevBlock) (← blockSize block))
    coalesceNext true prevBlock block nextBlock
  else
    coalesceNext false prevBlock block nextBlock

def mmFree (ptr : Int) : HeapM Unit := do
  if ptr = 0 then
    return
  let block := payloadToBlock ptr
  blockSetAllocated block 0
  insertFreeBlock block
  coalesce block

/-- The allocate, copy and free path of `mm_realloc`. The copy goes on behind the old payload, in flat
memory also where the region ends. -/
def moveBlock (ptr size : Int) : HeapM Int := do
  let newPtr ← mmMalloc size
  if newPtr = 0 then
    return 0
  modify fun s => s.withMem (memcpy s.mem newPtr ptr (align size).toNat)
  mmFree ptr
  return newPtr

def mmRealloc (ptr size : Int) : HeapM Int := do
  if ptr = 0 then
    return ← mmMalloc size
  if size = 0 then
    mmFree ptr
    return 0
  let currentBlock := payloadToBlock ptr
  let currentSize ← blockSize currentBlock
  let newSize := adjustedSize size
  if newSize ≤ currentSize then
    return ptr
  let nextBlock ← blockNext currentBlock
  if (← blockAllocated nextBlock) = 0 then
    if addLong currentSize (← blockSize nextBlock) ≥ newSize then
      pullFreeBlock nextBlock
      blockSetSizeAndAllocated currentBlock (addLong currentSize (← blockSize nextBlock)) 1
      return ptr
  moveBlock ptr size

end Cs1330.Malloc
