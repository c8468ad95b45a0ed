import Mathlib.Logic.Function.Basic
import Cs1330.Lib.Transition
import Cs1330.Malloc.Books
import Cs1330.Malloc.Outcomes

/-!
# The malloc REPL

The commands `malloc`, `realloc`, `free` and `reset` of `mdriver -r`, after their arguments have
been read. The table of blocks is kept apart from the heap: `realloc` does not ask whether its
index is valid, and takes a block of size 0 for one in use.
-/

namespace Cs1330.Malloc
open Machine

def maxReplSize : Int := 1024

structure ReplBlock where
  isValid : Int
  ptr : Int
  size : Int
  index : Int
  deriving DecidableEq, Repr

/-- `repl_t`, with what `printf` has been given. -/
structure Repl where
  driver : Driver
  tracenum : Int
  numOps : Int
  numBlocks : Int
  blocks : Int → ReplBlock
  output : List (String × List Int)

def makeReplState (numBlocks : Int) (d : Driver) : Repl :=
  ⟨{ d with ranges := [] }, 0, 0, numBlocks, fun i => ⟨0, 0, 0, i⟩, []⟩

def Repl.print (r : Repl) (format : String) (args : List Int) : Repl := { r with output := r.output ++ [(format, args)] }

def Repl.setBlock (r : Repl) (index : Int) (block : ReplBlock) : Repl :=
  { r with blocks := Function.update r.blocks index block }

/-- The test that the three commands begin with. -/
def Repl.outside (r : Repl) (index : Int) : Prop := index < 0 ∨ index ≥ r.numBlocks

instance (r : Repl) (index : Int) : Decidable (r.outside index) := inferInstanceAs (Decidable (_ ∨ _))

def indexError : String := "ERROR: index must be between 0 and %d\n"

/-- The end of `malloc_cmd`. -/
def Repl.concludeMalloc (r : Repl) (index size : Int) (d : Driver) : Outcome → Repl
  | .failed => { r with driver := d }
  | .empty => { r with driver := d }
  | .placed p => { r with driver := d }.setBlock index { r.blocks index with isValid := 1, ptr := p, size := size }

def mallocCmd (index size : Int) (r : Repl) : Except DriverFault Repl :=
  if r.outside index then
    return r.print indexError [r.numBlocks]
  else if (r.blocks index).isValid ≠ 0 then
    return r.print "ERROR: index already in use\n" []
  else do
    let counted := { r with numOps := r.numOps + 1 }
    let ended ← allocate index size counted.tracenum counted.numOps counted.driver
    return counted.concludeMalloc index size ended.2 ended.1

def freeCmd (index : Int) (r : Repl) : Except DriverFault Repl :=
  if r.outside index then
    return r.print indexError [r.numBlocks]
  else if (r.blocks index).isValid = 0 then
    return r.print "ERROR: index not in use\n" []
  else do
    let counted := { r with numOps := r.numOps + 1 }
    let ended ← freePayload index (r.blocks index).ptr counted.driver
    return { counted with driver := ended.2 }.setBlock index { r.blocks index with isValid := 0 }

/-- The end of `remalloc_cmd`, which leaves `is_valid` as it is. -/
def Repl.concludeRealloc (r : Repl) (index size : Int) (d : Driver) : Outcome → Repl
  | .failed => { r with driver := d }
  | .empty => { r with driver := d }
  | .placed p => { r with driver := d }.setBlock index { r.blocks index with ptr := p, size := size }

def remallocCmd (index size : Int) (r : Repl) : Except DriverFault Repl :=
  if r.outside index then
    return r.print indexError [r.numBlocks]
  else do
    let ended ← reallocate index (r.blocks index).ptr (r.blocks index).size size r.tracenum r.numOps r.driver
    return r.concludeRealloc index size ended.2 ended.1

/-- `reset_cmd`, with the address that libc returns to `mem_init`; there is no state after its `exit(1)`. -/
def resetCmd (base : Int) (r : Repl) : Except DriverFault (Option Repl) := do
  let started ← resetHeap base r.driver
  if started.1 < 0 then
    return none
  return some { r with driver := started.2, tracenum := r.tracenum + 1, numOps := 0 }

inductive Command where
  | malloc (index size : Int)
  | free (index : Int)
  | realloc (index size : Int)
  | reset (base : Int)
  deriving DecidableEq, Repr

def Repl.step (r : Repl) : Command → Except DriverFault (Option Repl)
  | .malloc index size => (mallocCmd index size r).map some
  | .free index => (freeCmd index r).map some
  | .realloc index size => (remallocCmd index size r).map some
  | .reset base => resetCmd base r

/-- `driver` before its first prompt. -/
def startRepl (base : Int) (d : Driver) : Except DriverFault (Option Repl) := resetCmd base (makeReplState maxReplSize d)

/-! ### What the table should say -/

def InTable (index : Int) : Prop := 0 ≤ index ∧ index < maxReplSize

/-- A valid entry is the payload of a block that is allocated for its index, every allocated block
is in the table, and every pointer passed to the allocator was in use for its index. -/
structure Repl.Keeps (r : Repl) : Prop where
  valid : ∀ index, InTable index → ((r.blocks index).isValid = 1 ↔
    r.driver.heap.Owns (r.blocks index).ptr ∧ ∃ e ∈ ledger r.driver.calls, e.index = index ∧ e.ptr = (r.blocks index).ptr)
  remembered : ∀ ptr, r.driver.heap.Owns ptr →
    ∃ index, InTable index ∧ (r.blocks index).isValid = 1 ∧ (r.blocks index).ptr = ptr
  owned : Trace.Along note Call.Owned [] r.driver.calls

/-- What a user can type: sizes that are not negative. -/
def Command.Typed : Command → Prop
  | .malloc _ size => 0 ≤ size ∧ size ≤ intMax
  | .free _ => True
  | .realloc _ size => 0 ≤ size ∧ size ≤ intMax
  | .reset base => Usable base ∧ base % 8 = 0

/-- `mm_realloc` can leave the block where it is. -/
def Heap.Stays (s : Heap) (ptr size : Int) : Prop :=
  ∃ bs, s.blocks = .ok bs ∧ ∃ b ∈ bs, ∃ n ∈ bs, ptr = blockPayload b.addr ∧ n.addr = b.limit ∧ ¬MustMove b n (blockFor size)

/-- `mm_malloc` has no block of this size to hand out. -/
def Heap.Full (s : Heap) (size : Int) : Prop := ∃ bs, s.blocks = .ok bs ∧ Exhausted s bs s.memMaxAddr (blockFor size)

/-- A block in use is resized to a positive size, and moves only when its fill byte is a `char`; an
index that is not in use has never been, and is resized to 0 or when memory is out; the heap is
reset when no index is in use. -/
def Command.Careful (r : Repl) : Command → Prop
  | .malloc _ _ => True
  | .free _ => True
  | .realloc index size => InTable index →
    if (r.blocks index).isValid = 1 then
      0 < size ∧ (index % 256 < 128 ∨ r.driver.heap.Stays (r.blocks index).ptr size ∨ r.driver.heap.Full size)
    else (r.blocks index).ptr = 0 ∧ (size = 0 ∨ r.driver.heap.Full size)
  | .reset _ => ∀ index, InTable index → (r.blocks index).isValid = 0

variable {r r' : Repl} {d d' : Driver} {e f : Entry} {index size base ptr q : Int} {s s' : Heap}
  {mids : List Tiling.Block} {fl : List Int} {command : Command}

/-! ### Blocks that stay, and memory that is out -/

theorem Wf.full_malloc (wf : Wf s mids fl) (positive : 0 < size) (high : size ≤ intMax) (full : s.Full size) :
    mmMalloc size s = .ok (0, s) := by
  obtain ⟨bs, blocks, exhausted⟩ := full
  have extent := wf.region.extent
  obtain ⟨p, s', run, null, same⟩ := wf.malloc_null positive (by simp only [intMax] at high; omega)
  rw [wf.layout_of_blocks blocks, ← adjustedSize_eq_blockFor positive high, extent] at exhausted
  obtain rfl := null.mpr exhausted
  rw [run, same rfl]

/-- The two ways for `mm_realloc` not to move a block. -/
theorem Wf.realloc_stays (wf : Wf s mids fl) (owned : s.Owns ptr) (positive : 0 < size) (high : size ≤ intMax)
    (unmoved : s.Stays ptr size ∨ s.Full size) (run : mmRealloc ptr size s = .ok (q, s')) : q = 0 ∨ q = ptr := by
  have small : size < 2 ^ 31 := by simp only [intMax] at high; omega
  obtain ⟨b, member, allocated, rfl⟩ := (wf.owns ptr).mp owned
  obtain ⟨n, nMem, next⟩ := wf.next_mem member
  by_cases moves : MustMove b n (adjustedSize size)
  · left
    rcases unmoved with ⟨bs, blocks, c, cMem, n', nMem', pointer, next', stays⟩ | full
    · obtain rfl := wf.layout_of_blocks blocks
      have sameAddr : c.addr = b.addr := by simp only [blockPayload, wordSize] at pointer; omega
      obtain rfl := wf.eq_of_addr cMem (mem_layout_mid member) sameAddr
      obtain rfl := wf.eq_of_addr nMem nMem' (next.trans next'.symm)
      rw [← adjustedSize_eq_blockFor positive high] at stays
      exact (stays moves).elim
    · obtain ⟨q', t, run', null, _⟩ := wf.realloc_null member allocated nMem next positive small
      obtain ⟨rfl, rfl⟩ := Prod.mk.inj (Except.ok.inj (run.symm.trans run'))
      exact null.mpr ⟨moves, s, wf.full_malloc positive high full⟩
  · right
    obtain ⟨t, _, _, _, run', _⟩ := wf.run_inPlace member allocated nMem next (by omega) moves
    exact congrArg Prod.fst (Except.ok.inj (run.symm.trans run'))

/-! ### The invariant -/

/-- The size that the table has for a block: it may be stale when the bytes cannot be compared. -/
structure Tabled (block : ReplBlock) (e : Entry) : Prop where
  ptr : e.ptr = block.ptr
  low : 0 < block.size
  high : block.size ≤ intMax
  known : lowByte e.index < 128 → block.size ≤ e.size

structure Repl.Inv (r : Repl) : Prop where
  sound : r.driver.Sound
  slots : r.numBlocks = maxReplSize
  flags : ∀ index, InTable index → (r.blocks index).isValid = 0 ∨ (r.blocks index).isValid = 1
  held : ∀ e ∈ ledger r.driver.calls, InTable e.index ∧ (r.blocks e.index).isValid = 1 ∧ (r.blocks e.index).ptr = e.ptr
  valid : ∀ index, InTable index → (r.blocks index).isValid = 1 →
    ∃ e ∈ ledger r.driver.calls, e.index = index ∧ Tabled (r.blocks index) e

theorem Repl.Inv.keeps (inv : r.Inv) : r.Keeps := by
  refine ⟨?_, ?_, inv.sound.owned⟩
  · intro index inside
    constructor
    · intro isValid
      obtain ⟨e, member, same, tabled⟩ := inv.valid index inside isValid
      exact ⟨tabled.ptr ▸ inv.sound.books.owns member, e, member, same, tabled.ptr⟩
    · rintro ⟨_, e, member, rfl, _⟩
      exact (inv.held e member).2.1
  · intro ptr owned
    obtain ⟨e, member, rfl⟩ := inv.sound.books.complete ptr owned
    obtain ⟨inside, isValid, pointer⟩ := inv.held e member
    exact ⟨e.index, inside, isValid, pointer⟩

/-- The invariant does not look at the counters or at the output, nor at how the ledger came about. -/
theorem Repl.Inv.of_ledger (inv : r.Inv) (sound : r'.driver.Sound) (slots : r'.numBlocks = r.numBlocks)
    (blocks : r'.blocks = r.blocks) (kept : ledger r'.driver.calls = ledger r.driver.calls) : r'.Inv := by
  refine ⟨sound, slots.trans inv.slots, ?_, ?_, ?_⟩
  · rw [blocks]
    exact inv.flags
  · rw [blocks, kept]
    exact inv.held
  · rw [blocks, kept]
    exact inv.valid

/-- A block is entered for an index, in the place of the one that the index had. -/
theorem Repl.Inv.enter (inv : r.Inv) (inside : InTable index) (sound : r'.driver.Sound)
    (slots : r'.numBlocks = r.numBlocks) {block : ReplBlock}
    (blocks : r'.blocks = Function.update r.blocks index block) (isValid : block.isValid = 1)
    (entered : ∃ rest, ledger r'.driver.calls = ⟨index, q, size⟩ :: rest ∧
      ∀ f, f ∈ rest ↔ f ∈ ledger r.driver.calls ∧ f.index ≠ index)
    (tabled : Tabled block ⟨index, q, size⟩) : r'.Inv := by
  obtain ⟨rest, entered, others⟩ := entered
  have here : r'.blocks index = block := by rw [blocks, Function.update_self]
  have there : ∀ j, j ≠ index → r'.blocks j = r.blocks j := by
    intro j other
    rw [blocks, Function.update_of_ne other]
  refine ⟨sound, slots.trans inv.slots, ?_, ?_, ?_⟩
  · intro j jInside
    by_cases same : j = index
    · rw [same, here]
      exact Or.inr isValid
    · rw [there j same]
      exact inv.flags j jInside
  · intro f member
    rw [entered] at member
    rcases List.mem_cons.mp member with rfl | old
    · show InTable index ∧ (r'.blocks index).isValid = 1 ∧ (r'.blocks index).ptr = q
      rw [here]
      exact ⟨inside, isValid, tabled.ptr.symm⟩
    · obtain ⟨old, other⟩ := (others f).mp old
      rw [there f.index other]
      exact inv.held f old
  · intro j jInside jValid
    rw [entered]
    by_cases same : j = index
    · subst same
      exact ⟨_, List.mem_cons_self, rfl, here ▸ tabled⟩
    · rw [there j same] at jValid ⊢
      obtain ⟨f, member, rfl, fTabled⟩ := inv.valid j jInside jValid
      exact ⟨f, List.mem_cons_of_mem _ ((others f).mpr ⟨member, same⟩), rfl, fTabled⟩

/-- Two blocks of one index are the same, since the table has but one pointer for it. -/
theorem Repl.Inv.mem_takeBack (inv : r.Inv) (member : e ∈ ledger r.driver.calls) :
    f ∈ takeBack (ledger r.driver.calls) e.ptr ↔ f ∈ ledger r.driver.calls ∧ f.index ≠ e.index := by
  rw [Malloc.mem_takeBack]
  constructor
  · rintro ⟨fMem, different⟩
    refine ⟨fMem, ?_⟩
    intro same
    have pointer := (inv.held f fMem).2.2
    rw [same, (inv.held e member).2.2] at pointer
    exact different pointer.symm
  · rintro ⟨fMem, other⟩
    exact ⟨fMem, fun same => other (congrArg Entry.index (inv.sound.books.eq_of_ptr fMem member same))⟩

theorem Repl.Inv.leave (inv : r.Inv) (member : e ∈ ledger r.driver.calls) (sound : r'.driver.Sound)
    (slots : r'.numBlocks = r.numBlocks) {block : ReplBlock} (blocks : r'.blocks = Function.update r.blocks e.index block)
    (invalid : block.isValid = 0) (taken : ledger r'.driver.calls = takeBack (ledger r.driver.calls) e.ptr) : r'.Inv := by
  have here : r'.blocks e.index = block := by rw [blocks, Function.update_self]
  have there : ∀ j, j ≠ e.index → r'.blocks j = r.blocks j := by
    intro j other
    rw [blocks, Function.update_of_ne other]
  refine ⟨sound, slots.trans inv.slots, ?_, ?_, ?_⟩
  · intro j inside
    by_cases same : j = e.index
    · rw [same, here]
      exact Or.inl invalid
    · rw [there j same]
      exact inv.flags j inside
  · intro f kept
    rw [taken] at kept
    obtain ⟨old, other⟩ := (inv.mem_takeBack member).mp kept
    rw [there f.index other]
    exact inv.held f old
  · intro j inside isValid
    have other : j ≠ e.index := by
      rintro rfl
      rw [here] at isValid
      omega
    rw [there j other] at isValid ⊢
    obtain ⟨f, old, rfl, tabled⟩ := inv.valid j inside isValid
    rw [taken]
    exact ⟨f, (inv.mem_takeBack member).mpr ⟨old, other⟩, rfl, tabled⟩

theorem Repl.Inv.inside (inv : r.Inv) : ¬r.outside index ↔ InTable index := by
  unfold Repl.outside InTable
  rw [inv.slots]
  omega

/-! ### The commands -/

theorem mallocCmd_inv (index : Int) (inv : r.Inv) (low : 0 ≤ size) (high : size ≤ intMax) :
    ∃ r', mallocCmd index size r = .ok r' ∧ r'.Inv := by
  unfold mallocCmd
  by_cases outside : r.outside index
  · rw [if_pos outside]
    exact ⟨_, rfl, inv.of_ledger inv.sound rfl rfl rfl⟩
  rw [if_neg outside]
  have inside := inv.inside.mp outside
  by_cases used : (r.blocks index).isValid ≠ 0
  · rw [if_pos used]
    exact ⟨_, rfl, inv.of_ledger inv.sound rfl rfl rfl⟩
  rw [if_neg used]
  obtain ⟨outcome, d, run, sound, ended⟩ := inv.sound.allocate index r.tracenum (r.numOps + 1) low high
  refine ⟨{ r with numOps := r.numOps + 1 }.concludeMalloc index size d outcome, Run.except_seq run, ?_⟩
  cases ended with
  | failed positive kept report => exact inv.of_ledger sound rfl rfl kept
  | empty zero kept silent => exact inv.of_ledger sound rfl rfl kept
  | placed p positive entered silent =>
    refine inv.enter inside sound rfl rfl rfl ⟨_, entered, ?_⟩ ⟨rfl, positive, high, fun _ => Int.le_refl _⟩
    intro f
    constructor
    · intro member
      refine ⟨member, ?_⟩
      rintro rfl
      have isValid := (inv.held f member).2.1
      omega
    · exact And.left

theorem freeCmd_inv (index : Int) (inv : r.Inv) : ∃ r', freeCmd index r = .ok r' ∧ r'.Inv := by
  unfold freeCmd
  by_cases outside : r.outside index
  · rw [if_pos outside]
    exact ⟨_, rfl, inv.of_ledger inv.sound rfl rfl rfl⟩
  rw [if_neg outside]
  have inside := inv.inside.mp outside
  by_cases unused : (r.blocks index).isValid = 0
  · rw [if_pos unused]
    exact ⟨_, rfl, inv.of_ledger inv.sound rfl rfl rfl⟩
  rw [if_neg unused]
  obtain ⟨e, member, rfl, tabled⟩ := inv.valid index inside ((inv.flags index inside).resolve_left unused)
  obtain ⟨d, run, sound, taken, _⟩ := inv.sound.freePayload member
  rw [tabled.ptr] at run
  refine ⟨{ r with numOps := r.numOps + 1, driver := d }.setBlock e.index { r.blocks e.index with isValid := 0 },
    Run.except_seq run, ?_⟩
  exact inv.leave member sound rfl rfl rfl taken

theorem remallocCmd_inv (inv : r.Inv) (low : 0 ≤ size) (high : size ≤ intMax)
    (careful : (Command.realloc index size).Careful r) : ∃ r', remallocCmd index size r = .ok r' ∧ r'.Inv := by
  unfold remallocCmd
  by_cases outside : r.outside index
  · rw [if_pos outside]
    exact ⟨_, rfl, inv.of_ledger inv.sound rfl rfl rfl⟩
  rw [if_neg outside]
  have inside := inv.inside.mp outside
  have condition := careful inside
  obtain ⟨mids, fl, wf, _⟩ := inv.sound.books.heap
  by_cases used : (r.blocks index).isValid = 1
  · rw [if_pos used] at condition
    obtain ⟨positive, unmoved⟩ := condition
    obtain ⟨e, member, rfl, tabled⟩ := inv.valid index inside used
    obtain ⟨outcome, d, run, sound, ended⟩ :=
      inv.sound.reallocate member r.tracenum r.numOps positive high tabled.low tabled.high tabled.known
    rw [tabled.ptr] at run
    refine ⟨r.concludeRealloc e.index size d outcome, Run.except_seq run, ?_⟩
    have others := fun f => inv.mem_takeBack (f := f) member
    cases ended with
    | failed kept report => exact inv.of_ledger sound rfl rfl kept
    | lost q s' large nonNull moved entered report =>
      -- the table is not brought up to date, but the block has stayed where it was
      have wide : ¬e.index % 256 < 128 := by
        have := lowByte_eq e.index
        omega
      have same : q = e.ptr := by
        rw [← tabled.ptr] at unmoved
        have stays := wf.realloc_stays (inv.sound.books.owns member) positive high (unmoved.resolve_left wide) moved
        exact stays.resolve_left nonNull
      have stale : Tabled (r.blocks e.index) ⟨e.index, q, size⟩ :=
        ⟨same.trans tabled.ptr, tabled.low, tabled.high, fun low => absurd low (by show ¬lowByte e.index < 128; omega)⟩
      exact inv.enter inside sound rfl (Function.update_eq_self e.index r.blocks).symm used ⟨_, entered, others⟩ stale
    | placed q small entered silent =>
      exact inv.enter inside sound rfl rfl used ⟨_, entered, others⟩ ⟨rfl, positive, high, fun _ => Int.le_refl _⟩
  · rw [if_neg used] at condition
    obtain ⟨null, nothing⟩ := condition
    have none : mmMalloc size r.driver.heap = .ok (0, r.driver.heap) := by
      rcases eq_or_lt_of_le low with rfl | positive
      · exact run_mmMalloc_zero _
      · exact wf.full_malloc positive high (nothing.resolve_left (by omega))
    obtain ⟨outcome, d, run, sound, kept, unplaced⟩ :=
      inv.sound.reallocate_null index (r.blocks index).size r.tracenum r.numOps low high none
    rw [← null] at run
    refine ⟨r.concludeRealloc index size d outcome, Run.except_seq run, ?_⟩
    cases outcome with
    | failed => exact inv.of_ledger sound rfl rfl kept
    | empty => exact inv.of_ledger sound rfl rfl kept
    | placed q => exact (unplaced q rfl).elim

theorem resetCmd_inv (usable : Usable base) (aligned : base % 8 = 0) (slots : r.numBlocks = maxReplSize)
    (unused : ∀ index, InTable index → (r.blocks index).isValid = 0) :
    ∃ r', resetCmd base r = .ok (some r') ∧ r'.Inv := by
  obtain ⟨d, run, sound, calls, _⟩ := run_resetHeap usable aligned r.driver
  have empty : ledger d.calls = [] := by rw [calls]; rfl
  refine ⟨{ r with driver := d, tracenum := r.tracenum + 1, numOps := 0 }, ?_, sound, slots, ?_, ?_, ?_⟩
  · unfold resetCmd
    rw [run]
    rfl
  · exact fun index inside => Or.inl (unused index inside)
  · intro e member
    rw [show ledger _ = [] from empty] at member
    cases member
  · intro index inside isValid
    have invalid := unused index inside
    change (r.blocks index).isValid = 1 at isValid
    omega

theorem Repl.Inv.step (inv : r.Inv) (typed : command.Typed) (careful : command.Careful r) :
    ∃ r', r.step command = .ok (some r') ∧ r'.Inv := by
  cases command with
  | malloc index size =>
    obtain ⟨r', run, after⟩ := mallocCmd_inv index inv typed.1 typed.2
    exact ⟨r', by rw [Repl.step, run]; rfl, after⟩
  | free index =>
    obtain ⟨r', run, after⟩ := freeCmd_inv index inv
    exact ⟨r', by rw [Repl.step, run]; rfl, after⟩
  | realloc index size =>
    obtain ⟨r', run, after⟩ := remallocCmd_inv inv typed.1 typed.2 careful
    exact ⟨r', by rw [Repl.step, run]; rfl, after⟩
  | reset base => exact resetCmd_inv typed.1 typed.2 inv.slots careful

/-- In every session of careful commands the table and the heap agree, and no such command faults: no
assertion fails and no word outside the heap is used, while copies are those of flat memory. -/
theorem session_keeps {d : Driver} {start : Repl} (usable : Usable base) (aligned : base % 8 = 0)
    (started : startRepl base d = .ok (some start))
    (reachable : Transition.Reachable Repl.step start (fun r command => command.Typed ∧ command.Careful r) r) :
    r.Keeps ∧ ∀ command : Command, command.Typed → command.Careful r → ∃ r', r.step command = .ok (some r') := by
  obtain ⟨r', run, inv⟩ := resetCmd_inv (r := makeReplState maxReplSize d) usable aligned rfl fun _ _ => rfl
  obtain rfl := Option.some.inj (Except.ok.inj (started.symm.trans run))
  have reached : r.Inv := by
    refine reachable.invariant inv ?_
    intro s s' command inv ok moved
    obtain ⟨t, run, after⟩ := inv.step ok.1 ok.2
    obtain rfl := Option.some.inj (Except.ok.inj (run.symm.trans moved))
    exact after
  refine ⟨reached.keeps, ?_⟩
  intro command typed careful
  obtain ⟨r', run, _⟩ := reached.step typed careful
  exact ⟨r', run⟩

def idleDriver : Driver := ⟨⟨fun _ => 0, 0, 0, 0, 0, 0, 0⟩, [], [], []⟩

theorem session_keeps_resized : ∃ start held moved freed, startRepl 4096 idleDriver = .ok (some start) ∧
    start.step (.malloc 3 40) = .ok (some held) ∧ held.step (.realloc 3 80) = .ok (some moved) ∧
    moved.step (.free 3) = .ok (some freed) ∧ moved.Keeps ∧ freed.Keeps := by
  obtain ⟨start, started, inv⟩ :=
    resetCmd_inv (r := makeReplState maxReplSize idleDriver) usable_4096 (by decide) rfl fun _ _ => rfl
  have small : (Command.malloc 3 40).Typed := ⟨by decide, by decide⟩
  have large : (Command.realloc 3 80).Typed := ⟨by decide, by decide⟩
  obtain ⟨held, first, inv₁⟩ := inv.step small trivial
  have seen : ((startRepl 4096 idleDriver).bind fun started => (started.map fun r => r.step (.malloc 3 40)).getD (.ok none)).map
      (fun held => held.map fun r => (r.blocks 3).isValid) = .ok (some 1) := by decide +kernel
  rw [show startRepl 4096 idleDriver = .ok (some start) from started] at seen
  change (start.step (.malloc 3 40)).map _ = _ at seen
  rw [first] at seen
  have valid : (held.blocks 3).isValid = 1 := Option.some.inj (Except.ok.inj seen)
  have careful : (Command.realloc 3 80).Careful held := by
    intro _
    rw [if_pos valid]
    exact ⟨by decide, Or.inl (by decide)⟩
  obtain ⟨moved, second, inv₂⟩ := inv₁.step large careful
  obtain ⟨freed, third, _⟩ := inv₂.step (show (Command.free 3).Typed from trivial) trivial
  have reached : Transition.Reachable Repl.step start (fun r command => command.Typed ∧ command.Careful r) moved :=
    .step (.realloc 3 80) (.step (.malloc 3 40) .initial ⟨small, trivial⟩ first) ⟨large, careful⟩ second
  exact ⟨start, held, moved, freed, started, first, second, third,
    (session_keeps usable_4096 (by decide) started reached).1,
    (session_keeps usable_4096 (by decide) started (reached.step (.free 3) ⟨trivial, trivial⟩ third)).1⟩

instance (base : Int) : Decidable (Usable base) :=
  decidable_of_iff (0 < base ∧ base + maxHeap < 2 ^ 63)
    ⟨fun both => ⟨both.1, both.2⟩, fun usable => ⟨usable.positive, usable.addressable⟩⟩

instance : ∀ command : Command, Decidable command.Typed
  | .malloc _ _ => inferInstanceAs (Decidable (_ ∧ _))
  | .free _ => inferInstanceAs (Decidable True)
  | .realloc _ _ => inferInstanceAs (Decidable (_ ∧ _))
  | .reset _ => inferInstanceAs (Decidable (_ ∧ _))

/-- A block that is resized to 0 is given back and stays valid in the table. -/
theorem emptied_staysValid : ∃ start r, startRepl 4096 idleDriver = .ok (some start) ∧
    Transition.Reachable Repl.step start (fun _ command => command.Typed) r ∧ ¬r.Keeps := by
  have seen : (startRepl 4096 idleDriver).map (fun started =>
      (started.bind (Transition.follow Repl.step (fun _ command => command.Typed) [.malloc 0 40, .realloc 0 0])).map
        fun r => ((r.blocks 0).isValid, ledger r.driver.calls)) = .ok (some (1, [])) := by decide +kernel
  obtain ⟨started, run, followed⟩ := Run.except_map seen
  obtain ⟨r, reached, same⟩ := Option.map_eq_some_iff.mp followed
  obtain ⟨start, rfl, follows⟩ := Option.bind_eq_some_iff.mp reached
  obtain ⟨isValid, empty⟩ := Prod.mk.inj same
  refine ⟨start, r, run, Transition.follow_reachable .initial follows, ?_⟩
  intro keeps
  obtain ⟨_, e, member, _⟩ := (keeps.valid 0 ⟨by decide, by decide⟩).mp isValid
  rw [empty] at member
  cases member

end Cs1330.Malloc
