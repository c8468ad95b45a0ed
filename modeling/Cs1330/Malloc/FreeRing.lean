import Cs1330.Malloc.Blocks

/-!
# Free-list operations

`FreeRing s fl` says that `flist_first` heads a ring of the free blocks at `fl`, and nothing about
the rest of the memory. `insert_free_block` puts a free block in front of the ring and
`pull_free_block` takes a listed block out of it; both write only link fields of listed blocks, so
a block that is pulled as soon as it was inserted leaves no trace in the ring.
-/

namespace Cs1330.Malloc
open Machine Links

variable {s : Heap} {m m' : Memory} {a b c x v : Int} {fl nodes : List Int}

/-! ### One link written -/

/-- The header and the links of one block at these addresses do not overlap those of another. -/
def LinksApart (nodes : List Int) : Prop := ∀ a ∈ nodes, ∀ c ∈ nodes, a = c ∨ a + 24 ≤ c ∨ c + 24 ≤ a

theorem flink_store_flink (apart : LinksApart nodes) (aMem : a ∈ nodes) (xMem : x ∈ nodes) (range : InLong v) :
    flink (store m (a + 8) v) x = if x = a then v else flink m x := by
  unfold flink
  split
  · rename_i same
    rw [same, load_store range]
  · have := apart a aMem x xMem
    exact load_store_other (by omega)

theorem blink_store_flink (apart : LinksApart nodes) (aMem : a ∈ nodes) (xMem : x ∈ nodes) :
    blink (store m (a + 8) v) x = blink m x := by
  have := apart a aMem x xMem
  exact load_store_other (by omega)

theorem flink_store_blink (apart : LinksApart nodes) (aMem : a ∈ nodes) (xMem : x ∈ nodes) :
    flink (store m (a + 16) v) x = flink m x := by
  have := apart a aMem x xMem
  exact load_store_other (by omega)

theorem blink_store_blink (apart : LinksApart nodes) (aMem : a ∈ nodes) (xMem : x ∈ nodes) (range : InLong v) :
    blink (store m (a + 16) v) x = if x = a then v else blink m x := by
  unfold blink
  split
  · rename_i same
    rw [same, load_store range]
  · have := apart a aMem x xMem
    exact load_store_other (by omega)

theorem linksWritten_flink (aMem : a ∈ nodes) : LinksWritten m (store m (a + 8) v) nodes := by
  intro x outside
  have := outside a aMem
  exact store_outside (by omega)

theorem linksWritten_blink (aMem : a ∈ nodes) : LinksWritten m (store m (a + 16) v) nodes := by
  intro x outside
  have := outside a aMem
  exact store_outside (by omega)

theorem LinksWritten.trans {m₁ m₂ m₃ : Memory} (first : LinksWritten m₁ m₂ nodes)
    (second : LinksWritten m₂ m₃ nodes) : LinksWritten m₁ m₃ nodes :=
  fun x outside => (second x outside).trans (first x outside)

theorem LinksWritten.mono {nodes' : List Int} (written : LinksWritten m m' nodes) (sub : nodes ⊆ nodes') :
    LinksWritten m m' nodes' :=
  fun x outside => written x fun a member => outside a (sub member)

/-! ### Link accessors -/

/-- A free block, as far as the list operations look at it: its header and its links can be read,
and the allocated bit is 0. -/
structure FreeBlock (s : Heap) (a : Int) : Prop where
  address : InLong a
  nonNull : a ≠ 0
  inside : s.memStartBrk ≤ a ∧ a + 24 ≤ s.memBrk
  free : load s.mem a % 2 = 0

theorem FreeBlock.holds (block : FreeBlock s a) : s.Holds a ∧ s.Holds (a + 8) ∧ s.Holds (a + 16) := by
  have inside := block.inside
  simp only [Heap.Holds, wordSize]
  omega

theorem FreeBlock.run_allocated (block : FreeBlock s a) : blockAllocated a s = .ok (0, s) := by
  rw [run_blockAllocated block.holds.1, block.free]

theorem FreeBlock.run_flink (block : FreeBlock s a) : blockFlink a s = .ok (flink s.mem a, s) := by
  unfold blockFlink
  rw [run_bind block.run_allocated, run_bind (run_assertThat rfl)]
  exact run_loadWord block.holds.2.1

theorem FreeBlock.run_blink (block : FreeBlock s a) : blockBlink a s = .ok (blink s.mem a, s) := by
  unfold blockBlink
  rw [run_bind block.run_allocated, run_bind (run_assertThat rfl)]
  exact run_loadWord block.holds.2.2

theorem FreeBlock.run_setFlink (block : FreeBlock s a) (target : FreeBlock s c) :
    blockSetFlink a c s = .ok ((), s.withMem (store s.mem (a + 8) c)) := by
  unfold blockSetFlink
  rw [run_bind block.run_allocated, run_bind (run_assertThat rfl), run_bind target.run_allocated,
    run_bind (run_assertThat rfl)]
  exact run_storeWord block.holds.2.1

theorem FreeBlock.run_setBlink (block : FreeBlock s a) (target : FreeBlock s c) :
    blockSetBlink a c s = .ok ((), s.withMem (store s.mem (a + 16) c)) := by
  unfold blockSetBlink
  rw [run_bind block.run_allocated, run_bind (run_assertThat rfl), run_bind target.run_allocated,
    run_bind (run_assertThat rfl)]
  exact run_storeWord block.holds.2.2

/-- Link fields written in such blocks lie outside their headers. -/
theorem FreeBlock.relink (block : FreeBlock s a) (apart : LinksApart nodes) (member : a ∈ nodes)
    (written : LinksWritten s.mem m nodes) : FreeBlock (s.withMem m) a := by
  have header : load m a = load s.mem a := by
    refine load_congr fun x low high => written x ?_
    intro c node inside
    have := apart a member c node
    omega
  exact ⟨block.address, block.nonNull, block.inside, by rw [withMem_mem, header]; exact block.free⟩

theorem FreeBlock.withFirst (block : FreeBlock s a) (first : Int) : FreeBlock { s with flistFirst := first } a :=
  ⟨block.address, block.nonNull, block.inside, block.free⟩

def Heap.withList (s : Heap) (m : Memory) (first : Int) : Heap := { s.withMem m with flistFirst := first }

/-- `flist_first` heads a ring of distinct free blocks, at `fl` when read along `flink`. -/
structure FreeRing (s : Heap) (fl : List Int) : Prop where
  blocks : ∀ a ∈ fl, FreeBlock s a
  apart : LinksApart fl
  distinct : fl.Nodup
  ring : Ring (flink s.mem) (blink s.mem) fl
  first : s.flistFirst = fl.headD 0

/-! ### Pull -/

/-- The memory after the two link writes of `pull_free_block`. -/
def pulled (m : Memory) (a : Int) : Memory :=
  store (store m (blink m a + 8) (flink m a)) (flink m a + 16) (blink m a)

namespace FreeRing

variable (ring : FreeRing s fl)
include ring

theorem flink_pulled (aMem : a ∈ fl) (xMem : x ∈ fl) :
    flink (pulled s.mem a) x = if x = blink s.mem a then flink s.mem a else flink s.mem x := by
  obtain ⟨nextMem, prevMem⟩ := ring_mem ring.ring aMem
  unfold pulled
  rw [flink_store_blink ring.apart nextMem xMem, flink_store_flink ring.apart prevMem xMem (ring.blocks _ nextMem).address]

theorem blink_pulled (aMem : a ∈ fl) (xMem : x ∈ fl) :
    blink (pulled s.mem a) x = if x = flink s.mem a then blink s.mem a else blink s.mem x := by
  obtain ⟨nextMem, prevMem⟩ := ring_mem ring.ring aMem
  unfold pulled
  rw [blink_store_blink ring.apart nextMem xMem (ring.blocks _ prevMem).address, blink_store_flink ring.apart prevMem xMem]

theorem pulled_ring (member : a ∈ fl) :
    Ring (flink (pulled s.mem a)) (blink (pulled s.mem a)) (fl.erase a) := by
  obtain ⟨nextMem, prevMem⟩ := ring_mem ring.ring member
  have newNext := (ring.flink_pulled member prevMem).trans (if_pos rfl)
  have newPrev := (ring.blink_pulled member nextMem).trans (if_pos rfl)
  have sameNext : ∀ x ∈ fl, x ≠ blink s.mem a → flink (pulled s.mem a) x = flink s.mem x :=
    fun x xMem different => (ring.flink_pulled member xMem).trans (if_neg different)
  have samePrev : ∀ x ∈ fl, x ≠ flink s.mem a → blink (pulled s.mem a) x = blink s.mem x :=
    fun x xMem different => (ring.blink_pulled member xMem).trans (if_neg different)
  have linked := ring.ring
  have distinct := ring.distinct
  cases fl with
  | nil => simp at member
  | cons w ws =>
    by_cases head : a = w
    · subst head
      rw [List.erase_cons_head]
      cases ws with
      | nil => trivial
      | cons y ys =>
        apply ring_pull_head linked distinct newNext newPrev
        · exact fun x xMem => sameNext x (List.mem_cons_of_mem _ xMem)
        · intro x xMem
          apply samePrev x (by simp [xMem])
          intro same
          have next : flink s.mem a = y := linked.1
          rw [same, next] at xMem
          exact (List.nodup_cons.mp (List.nodup_cons.mp distinct).2).1 xMem
    · have inTail : a ∈ ws := (List.mem_cons.mp member).resolve_left head
      obtain ⟨xs, ys, rfl⟩ := List.append_of_mem inTail
      have notBefore : a ∉ xs := by
        intro before
        have := (List.nodup_append.mp (List.nodup_cons.mp distinct).2).2.2 a before a (by simp)
        exact this rfl
      rw [List.erase_cons_tail (by simpa using fun h => head h.symm), List.erase_append_right _ notBefore,
        List.erase_cons_head]
      have sub : (w :: (xs ++ ys)).Sublist (w :: (xs ++ a :: ys)) := by simp
      exact ring_pull linked distinct newNext newPrev (fun x xMem => sameNext x (sub.subset xMem))
        (fun x xMem => samePrev x (sub.subset xMem))

theorem linksWritten_pulled (member : a ∈ fl) : LinksWritten s.mem (pulled s.mem a) fl := by
  obtain ⟨nextMem, prevMem⟩ := ring_mem ring.ring member
  exact (linksWritten_flink prevMem).trans (linksWritten_blink nextMem)

/-- The head that `pull_free_block` leaves. -/
theorem pulled_first (member : a ∈ fl) :
    (if a = s.flistFirst then (if a = flink s.mem a then 0 else flink s.mem a) else s.flistFirst) =
      (fl.erase a).headD 0 := by
  have linked := ring.ring
  rw [ring.first]
  cases fl with
  | nil => simp at member
  | cons w ws =>
    by_cases head : a = w
    · subst head
      rw [List.erase_cons_head]
      cases ws with
      | nil =>
        have next : flink s.mem a = a := linked.1
        simp [next]
      | cons y ys =>
        have next : flink s.mem a = y := linked.1
        have different : a ≠ y := fun same => by
          have := ring.distinct
          simp [same] at this
        simp [next, different]
    · simp [head, Ne.symm head]

theorem alone_iff (member : a ∈ fl) (head : a = s.flistFirst) : a = flink s.mem a ↔ fl = [a] := by
  have linked := ring.ring
  have distinct := ring.distinct
  have first := ring.first
  cases fl with
  | nil => simp at member
  | cons w ws =>
    obtain rfl : a = w := head.trans first
    cases ws with
    | nil => exact iff_of_true linked.1.symm rfl
    | cons y ys =>
      have next : flink s.mem a = y := linked.1
      refine iff_of_false ?_ (by simp)
      intro same
      simp [same.trans next] at distinct

theorem run_pull (member : a ∈ fl) :
    pullFreeBlock a s = .ok ((), s.withList (pulled s.mem a) ((fl.erase a).headD 0)) := by
  obtain ⟨nextMem, prevMem⟩ := ring_mem ring.ring member
  have block := ring.blocks a member
  have next := ring.blocks _ nextMem
  have prev := ring.blocks _ prevMem
  have written : LinksWritten s.mem (store s.mem (blink s.mem a + 8) (flink s.mem a)) fl := linksWritten_flink prevMem
  have nextHalf := next.relink ring.apart nextMem written
  have prevHalf := prev.relink ring.apart prevMem written
  unfold pullFreeBlock
  rw [run_bind block.run_allocated, run_bind (run_assertThat rfl), run_bind block.run_blink, run_bind block.run_flink,
    run_bind (prev.run_setFlink next), run_bind (nextHalf.run_setBlink prevHalf), run_bind (run_get _), withMem_mem,
    withMem_withMem, ← pulled, ← ring.pulled_first member]
  by_cases head : a = s.flistFirst
  · rw [if_pos head]
    exact (congrFun (if_pos head) _).trans (run_set _ _)
  · rw [if_neg head]
    exact (congrFun (if_neg head) _).trans (run_pure _ _)

theorem pull (member : a ∈ fl) : FreeRing (s.withList (pulled s.mem a) ((fl.erase a).headD 0)) (fl.erase a) := by
  have sub : ∀ x ∈ fl.erase a, x ∈ fl := fun x kept => List.mem_of_mem_erase kept
  refine ⟨?_, fun x xMem c cMem => ring.apart x (sub x xMem) c (sub c cMem), ring.distinct.erase _,
    ring.pulled_ring member, rfl⟩
  intro x kept
  exact ((ring.blocks x (sub x kept)).relink ring.apart (sub x kept) (ring.linksWritten_pulled member)).withFirst _

end FreeRing

/-! ### Insert -/

/-- The memory after `insert_free_block` linked `a` in front of `first`. -/
def inserted (m : Memory) (a first : Int) : Memory :=
  if first = 0 then store (store m (a + 8) a) (a + 16) a
  else store (store (store (store m (a + 8) first) (a + 16) (blink m first)) (blink m first + 8) a) (first + 16) a

namespace FreeRing

section
variable (block : FreeBlock s b) (apart : LinksApart (b :: fl))
include block apart

theorem run_insertEmpty (empty : s.flistFirst = 0) :
    insertFreeBlock b s = .ok ((), s.withList (inserted s.mem b 0) b) := by
  have listed := block.withFirst b
  have half := listed.relink apart List.mem_cons_self (linksWritten_flink (m := s.mem) (v := b) List.mem_cons_self)
  unfold insertFreeBlock
  rw [run_bind block.run_allocated, run_bind (run_assertThat rfl), run_bind (run_get s), if_pos empty,
    run_bind (run_modify _ s), run_bind (listed.run_setFlink listed), half.run_setBlink half, inserted, if_pos rfl]
  rfl

/-- The four link writes that put `b` in front of the head `c` with last block `d`. -/
theorem run_insertLinks {d : Int} (cMem : c ∈ fl) (dMem : d ∈ fl) (head : FreeBlock s c) (tail : FreeBlock s d)
    (isFirst : s.flistFirst = c) (isLast : blink s.mem c = d) (different : b ≠ c) :
    insertFreeBlock b s = .ok ((), s.withList (inserted s.mem b c) b) := by
  have bNode : b ∈ b :: fl := List.mem_cons_self
  have cNode : c ∈ b :: fl := List.mem_cons_of_mem _ cMem
  have dNode : d ∈ b :: fl := List.mem_cons_of_mem _ dMem
  obtain ⟨m₁, first⟩ : ∃ m, m = store s.mem (b + 8) c := ⟨_, rfl⟩
  obtain ⟨m₂, second⟩ : ∃ m, m = store m₁ (b + 16) d := ⟨_, rfl⟩
  obtain ⟨m₃, third⟩ : ∃ m, m = store m₂ (d + 8) b := ⟨_, rfl⟩
  have written₁ : LinksWritten s.mem m₁ (b :: fl) := by
    rw [first]
    exact linksWritten_flink bNode
  have written₂ : LinksWritten s.mem m₂ (b :: fl) := by
    rw [second]
    exact written₁.trans (linksWritten_blink bNode)
  have written₃ : LinksWritten s.mem m₃ (b :: fl) := by
    rw [third]
    exact written₂.trans (linksWritten_flink dNode)
  have last₁ : blink m₁ c = d := by
    rw [first, blink_store_flink apart bNode cNode, isLast]
  have last₂ : blink m₂ c = d := by
    rw [second, blink_store_blink apart bNode cNode tail.address, if_neg (Ne.symm different), last₁]
  have block₁ := block.relink apart bNode written₁
  have head₁ := head.relink apart cNode written₁
  have tail₁ := tail.relink apart dNode written₁
  have block₂ := block.relink apart bNode written₂
  have head₂ := head.relink apart cNode written₂
  have tail₂ := tail.relink apart dNode written₂
  have block₃ := block.relink apart bNode written₃
  have head₃ := head.relink apart cNode written₃
  have memory : inserted s.mem b c = store m₃ (c + 16) b := by
    rw [inserted, if_neg head.nonNull, isLast, third, second, first]
  unfold insertFreeBlock
  rw [run_bind block.run_allocated, run_bind (run_assertThat rfl), run_bind (run_get s), isFirst,
    if_neg head.nonNull, run_bind (block.run_setFlink head), ← first, run_bind head₁.run_blink, withMem_mem, last₁,
    run_bind (block₁.run_setBlink tail₁), withMem_mem, withMem_withMem, ← second, run_bind head₂.run_blink, withMem_mem,
    last₂, run_bind (tail₂.run_setFlink block₂), withMem_mem, withMem_withMem, ← third,
    run_bind (head₃.run_setBlink block₃), withMem_mem, withMem_withMem, ← memory, run_modify]
  rfl

end

variable (ring : FreeRing s fl) (block : FreeBlock s b) (fresh : b ∉ fl) (apart : LinksApart (b :: fl))
include ring block fresh apart

theorem run_insert : insertFreeBlock b s = .ok ((), s.withList (inserted s.mem b (fl.headD 0)) b) := by
  cases fl with
  | nil => exact run_insertEmpty block apart ring.first
  | cons c cs =>
    have cMem : c ∈ c :: cs := List.mem_cons_self
    have dMem := (ring_mem ring.ring cMem).2
    exact run_insertLinks block apart cMem dMem (ring.blocks c cMem) (ring.blocks _ dMem) ring.first rfl
      fun same => fresh (same ▸ cMem)

theorem inserted_ring :
    Ring (flink (inserted s.mem b (fl.headD 0))) (blink (inserted s.mem b (fl.headD 0))) (b :: fl) ∧
      LinksWritten s.mem (inserted s.mem b (fl.headD 0)) (b :: fl) := by
  have range := block.address
  cases fl with
  | nil =>
    rw [List.headD_nil, inserted, if_pos rfl]
    have self : b ∈ [b] := List.mem_cons_self
    refine ⟨⟨?_, ?_⟩, (linksWritten_flink self).trans (linksWritten_blink self)⟩
    · rw [flink_store_blink apart self self, flink_store_flink apart self self range, if_pos rfl]
    · rw [blink_store_blink apart self self range, if_pos rfl]
  | cons x xs =>
    have head := ring.blocks x List.mem_cons_self
    rw [List.headD_cons, inserted, if_neg head.nonNull]
    have last := (ring_mem ring.ring (a := x) List.mem_cons_self).2
    have aNode : b ∈ b :: x :: xs := List.mem_cons_self
    have xNode : x ∈ b :: x :: xs := by simp
    have lastNode : blink s.mem x ∈ b :: x :: xs := List.mem_cons_of_mem _ last
    have xRange := head.address
    have lastRange := (ring.blocks _ last).address
    have bNotLast : b ≠ blink s.mem x := fun same => fresh (same ▸ last)
    have bNotHead : b ≠ x := fun same => fresh (same ▸ List.mem_cons_self)
    constructor
    · refine ring_insert ring.ring (List.nodup_cons.mpr ⟨fresh, ring.distinct⟩) ?_ ?_ ?_ ?_ ?_ ?_
      · rw [flink_store_blink apart xNode aNode, flink_store_flink apart lastNode aNode range, if_neg bNotLast,
          flink_store_blink apart aNode aNode, flink_store_flink apart aNode aNode xRange, if_pos rfl]
      · rw [blink_store_blink apart xNode aNode range, if_neg bNotHead, blink_store_flink apart lastNode aNode,
          blink_store_blink apart aNode aNode lastRange, if_pos rfl]
      · rw [flink_store_blink apart xNode lastNode, flink_store_flink apart lastNode lastNode range, if_pos rfl]
      · rw [blink_store_blink apart xNode xNode range, if_pos rfl]
      · intro y yMem notLast
        have yNode := List.mem_cons_of_mem b yMem
        have notNew : y ≠ b := fun same => fresh (same ▸ yMem)
        rw [flink_store_blink apart xNode yNode, flink_store_flink apart lastNode yNode range, if_neg notLast,
          flink_store_blink apart aNode yNode, flink_store_flink apart aNode yNode xRange, if_neg notNew]
      · intro y yMem
        have yNode : y ∈ b :: x :: xs := by simp [yMem]
        have notNew : y ≠ b := fun same => fresh (same ▸ List.mem_cons_of_mem _ yMem)
        have notHead : y ≠ x := fun same => (List.nodup_cons.mp ring.distinct).1 (same ▸ yMem)
        rw [blink_store_blink apart xNode yNode range, if_neg notHead, blink_store_flink apart lastNode yNode,
          blink_store_blink apart aNode yNode lastRange, if_neg notNew, blink_store_flink apart aNode yNode]
    · exact (((linksWritten_flink aNode).trans (linksWritten_blink aNode)).trans (linksWritten_flink lastNode)).trans
        (linksWritten_blink xNode)

theorem insert : FreeRing (s.withList (inserted s.mem b (fl.headD 0)) b) (b :: fl) := by
  obtain ⟨linked, written⟩ := ring.inserted_ring block fresh apart
  refine ⟨?_, apart, List.nodup_cons.mpr ⟨fresh, ring.distinct⟩, linked, rfl⟩
  intro x member
  have old : FreeBlock s x := by
    rcases List.mem_cons.mp member with rfl | listed
    · exact block
    · exact ring.blocks x listed
  exact (old.relink apart member written).withFirst _

end FreeRing

/-! ### The two together -/

/-- Only `flist_first` and the link fields of the blocks at `nodes` differ. -/
def Relinked (s s' : Heap) (nodes : List Int) : Prop :=
  ∃ m first, s' = s.withList m first ∧ LinksWritten s.mem m nodes

/-- The two operations are `cons` and `erase` on the list that `flist_first` represents, they write
nothing but links of its blocks, and to pull a block undoes its insertion. -/
theorem freeList_operations (ring : FreeRing s fl) :
    (∀ b, FreeBlock s b → b ∉ fl → LinksApart (b :: fl) →
      ∃ s', insertFreeBlock b s = .ok ((), s') ∧ FreeRing s' (b :: fl) ∧ Relinked s s' (b :: fl) ∧
        ∃ s'', pullFreeBlock b s' = .ok ((), s'') ∧ s''.flistFirst = s.flistFirst ∧
          ∀ a ∈ fl, flink s''.mem a = flink s.mem a ∧ blink s''.mem a = blink s.mem a) ∧
    ∀ a ∈ fl, ∃ s', pullFreeBlock a s = .ok ((), s') ∧ FreeRing s' (fl.erase a) ∧ Relinked s s' fl ∧
      (a = s.flistFirst → s'.flistFirst = if fl = [a] then 0 else flink s.mem a) := by
  constructor
  · intro b block fresh apart
    have after := ring.insert block fresh apart
    have back := after.pull List.mem_cons_self
    have pull := after.run_pull List.mem_cons_self
    rw [List.erase_cons_head] at back pull
    refine ⟨_, ring.run_insert block fresh apart, after, ⟨_, _, rfl, (ring.inserted_ring block fresh apart).2⟩, _, pull,
      back.first.trans ring.first.symm, ?_⟩
    -- the links along a ring are determined by its list
    exact ring_unique ring.ring back.ring
  · intro a member
    refine ⟨_, ring.run_pull member, ring.pull member, ⟨_, _, rfl, ring.linksWritten_pulled member⟩, ?_⟩
    intro head
    have first := ring.pulled_first member
    rw [if_pos head] at first
    show (fl.erase a).headD 0 = _
    simp only [← first, ring.alone_iff member head]

/-- No block is listed, and every word is 0. -/
def unlisted : Heap := ⟨fun _ => 0, 8, 4096, 4096, 0, 0, 0⟩

theorem freeBlock_unlisted (range : 8 ≤ a ∧ a ≤ 4072) : FreeBlock unlisted a := by
  refine ⟨⟨by omega, by omega⟩, by omega, ⟨range.1, by show a + 24 ≤ 4096; omega⟩, ?_⟩
  simp [unlisted, load, loadBytes, wrap]

/-- Two blocks are inserted and the last of the ring is pulled. -/
theorem freeList_operations_pair : ∃ s₁ s₂ s₃, insertFreeBlock 64 unlisted = .ok ((), s₁) ∧
    insertFreeBlock 128 s₁ = .ok ((), s₂) ∧ FreeRing s₂ [128, 64] ∧
    pullFreeBlock 64 s₂ = .ok ((), s₃) ∧ FreeRing s₃ [128] := by
  have ring : FreeRing unlisted [] := ⟨by simp, by simp [LinksApart], List.nodup_nil, trivial, rfl⟩
  have apart : LinksApart [128, 64] := by simp [LinksApart]
  obtain ⟨_, first, ring₁, ⟨m, head, rfl, written⟩, _⟩ :=
    (freeList_operations ring).1 64 (freeBlock_unlisted (by decide)) (by simp) (by simp [LinksApart])
  have block : FreeBlock unlisted 128 := freeBlock_unlisted (by decide)
  have still : FreeBlock (unlisted.withList m head) 128 :=
    (block.relink apart List.mem_cons_self (written.mono (List.subset_cons_self _ _))).withFirst head
  obtain ⟨s₂, second, ring₂, _⟩ := (freeList_operations ring₁).1 128 still (by decide) apart
  obtain ⟨s₃, third, ring₃, _⟩ := (freeList_operations ring₂).2 64 (by decide)
  exact ⟨_, s₂, s₃, first, second, ring₂, third, ring₃⟩

end Cs1330.Malloc
