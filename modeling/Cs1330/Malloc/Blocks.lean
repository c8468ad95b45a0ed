import Cs1330.Lib.Ring
import Cs1330.Lib.Tiling
import Cs1330.Malloc.Tags

/-!
# Blocks in memory

`Tagged s bs` says that the memory of `s` holds the blocks `bs`, each with both tags; `Rep s bs fl`
adds that `flist_first` heads a ring of the free blocks at the addresses `fl`. The blocks need not
tile the heap and a free block need not be listed: `Rep` holds between any two steps of `mm.c`,
in the middle of a split or a merge as well.
-/

namespace Cs1330.Malloc
open Machine Links Tiling

def flink (m : Memory) (a : Int) : Int := load m (a + 8)

def blink (m : Memory) (a : Int) : Int := load m (a + 16)

def bit (allocated : Bool) : Int := if allocated then 1 else 0

theorem bit_cases (allocated : Bool) : bit allocated = 0 ∨ bit allocated = 1 := by
  cases allocated <;> simp [bit]

/-- The word in both tags of a block. -/
def tag (b : Block) : Int := b.size + bit b.allocated

/-- Sizes that the code keeps: both tags fit, and a free block has room for its links. -/
structure Sized (b : Block) : Prop where
  tags : 16 ≤ b.size
  aligned : b.size % 8 = 0
  links : b.allocated = false → 32 ≤ b.size

structure Region (s : Heap) : Prop where
  positive : 0 < s.memStartBrk
  below : s.memBrk ≤ s.memMaxAddr
  extent : s.memMaxAddr = s.memStartBrk + maxHeap
  address : s.memMaxAddr < 2 ^ 63

theorem Region.withMem {s : Heap} (region : Region s) (m : Memory) : Region (s.withMem m) :=
  ⟨region.1, region.2, region.3, region.4⟩

structure Tagged (s : Heap) (bs : List Block) : Prop where
  region : Region s
  inside : ∀ b ∈ bs, s.memStartBrk ≤ b.addr ∧ b.limit ≤ s.memBrk
  sized : ∀ b ∈ bs, Sized b
  header : ∀ b ∈ bs, load s.mem b.addr = tag b
  endTag : ∀ b ∈ bs, load s.mem (b.limit - 8) = tag b
  apart : bs.Pairwise Block.Apart

/-- Every address in `nodes` is that of a free block. -/
def FreeBlocks (bs : List Block) (nodes : List Int) : Prop :=
  ∀ a ∈ nodes, ∃ b ∈ bs, b.addr = a ∧ b.allocated = false

structure Rep (s : Heap) (bs : List Block) (fl : List Int) : Prop extends Tagged s bs where
  free : FreeBlocks bs fl
  distinct : fl.Nodup
  ring : Ring (flink s.mem) (blink s.mem) fl
  first : s.flistFirst = fl.headD 0

variable {s : Heap} {bs cs : List Block} {fl : List Int} {b c : Block} {m' : Memory}

theorem Tagged.perm (tagged : Tagged s bs) (perm : bs.Perm cs) : Tagged s cs :=
  { region := tagged.region
    inside := fun b member => tagged.inside b (perm.mem_iff.mpr member)
    sized := fun b member => tagged.sized b (perm.mem_iff.mpr member)
    header := fun b member => tagged.header b (perm.mem_iff.mpr member)
    endTag := fun b member => tagged.endTag b (perm.mem_iff.mpr member)
    apart := (perm.pairwise_iff fun h => h.symm).mp tagged.apart }

theorem FreeBlocks.mono {nodes : List Int} (free : FreeBlocks bs nodes) (sub : ∀ b ∈ bs, b ∈ cs) :
    FreeBlocks cs nodes := by
  intro a member
  obtain ⟨b, inside, rest⟩ := free a member
  exact ⟨b, sub b inside, rest⟩

theorem Rep.perm (rep : Rep s bs fl) (perm : bs.Perm cs) : Rep s cs fl :=
  { rep with
    toTagged := rep.toTagged.perm perm
    free := rep.free.mono fun _ member => perm.mem_iff.mp member }

/-! ### What the code reads of a block -/

theorem tag_bit (sized : Sized b) : tag b % 2 = bit b.allocated := by
  have := sized.aligned
  have := bit_cases b.allocated
  simp only [tag]
  omega

theorem tag_size (sized : Sized b) : tag b - tag b % 2 = b.size := by
  rw [tag_bit sized, tag]
  omega

theorem Tagged.holds_header (tagged : Tagged s bs) (member : b ∈ bs) : s.Holds b.addr := by
  have inside := tagged.inside b member
  have size := (tagged.sized b member).tags
  simp only [Block.limit] at inside
  exact ⟨inside.1, by simp only [wordSize]; omega⟩

theorem Tagged.holds_endTag (tagged : Tagged s bs) (member : b ∈ bs) : s.Holds (b.limit - 8) := by
  have inside := tagged.inside b member
  have size := (tagged.sized b member).tags
  simp only [Block.limit] at inside ⊢
  exact ⟨by omega, by simp only [wordSize]; omega⟩

theorem Tagged.run_allocated (tagged : Tagged s bs) (member : b ∈ bs) :
    blockAllocated b.addr s = .ok (bit b.allocated, s) := by
  rw [run_blockAllocated (tagged.holds_header member), tagged.header b member, tag_bit (tagged.sized b member)]

theorem Tagged.run_size (tagged : Tagged s bs) (member : b ∈ bs) : blockSize b.addr s = .ok (b.size, s) := by
  rw [run_blockSize (tagged.holds_header member), tagged.header b member, tag_size (tagged.sized b member)]

theorem Tagged.run_next (tagged : Tagged s bs) (member : b ∈ bs) : blockNext b.addr s = .ok (b.limit, s) := by
  rw [run_blockNext (tagged.holds_header member), tagged.header b member, tag_size (tagged.sized b member)]
  rfl

/-- `block_prev` finds the block that ends where `b` starts. -/
theorem Tagged.run_prev (tagged : Tagged s bs) (member : b ∈ bs) {a : Int} (next : b.limit = a) :
    blockPrev a s = .ok (b.addr, s) := by
  subst next
  rw [run_blockPrev (tagged.holds_endTag member), tagged.endTag b member, tag_size (tagged.sized b member)]
  congr 2
  simp only [Block.limit]
  omega

theorem Tagged.size_small (tagged : Tagged s bs) (member : b ∈ bs) : b.size ≤ maxHeap := by
  have inside := tagged.inside b member
  have below := tagged.region.below
  have extent := tagged.region.extent
  simp only [Block.limit] at inside
  omega

theorem Tagged.inLong_addr (tagged : Tagged s bs) (member : b ∈ bs) : InLong b.addr := by
  have inside := tagged.inside b member
  have size := (tagged.sized b member).tags
  have positive := tagged.region.positive
  have below := tagged.region.below
  have address := tagged.region.address
  simp only [Block.limit] at inside
  exact ⟨by omega, by omega⟩

theorem Tagged.apart_of_ne (tagged : Tagged s bs) (bMem : b ∈ bs) (cMem : c ∈ bs) (different : b ≠ c) : b.Apart c :=
  tagged.apart.forall bMem cMem different

/-- Blocks of one heap are told apart by their addresses. -/
theorem Tagged.eq_of_addr (tagged : Tagged s bs) (bMem : b ∈ bs) (cMem : c ∈ bs) (same : b.addr = c.addr) : b = c := by
  by_contra different
  have apart := tagged.apart_of_ne bMem cMem different
  have bSize := (tagged.sized b bMem).tags
  have cSize := (tagged.sized c cMem).tags
  simp only [Block.Apart, Block.limit] at apart
  omega

/-! ### Frames -/

/-- Every byte of the block is the same in both memories. -/
def Same (c : Block) (m m' : Memory) : Prop := ∀ x, c.addr ≤ x → x < c.limit → m' x = m x

theorem Same.refl (c : Block) (m : Memory) : Same c m m := fun _ _ _ => rfl

theorem Same.trans {m₁ m₂ m₃ : Memory} (first : Same c m₁ m₂) (second : Same c m₂ m₃) : Same c m₁ m₃ :=
  fun x low high => (second x low high).trans (first x low high)

theorem TagsWritten.same {m : Memory} {word : Int} (written : TagsWritten m m' b.addr b.size word) (sized : Sized b)
    (apart : b.Apart c) : Same c m m' := by
  intro x low high
  have size := sized.tags
  simp only [Block.Apart, Block.limit] at apart high
  exact written.frame x (by omega) (by omega)

/-! ### Writing tags -/

/-- Writing the tags of `b` keeps the heap when `b` takes the place of blocks that `rest` leaves
out, is disjoint from `rest`, and is free if the free list has its address. -/
theorem Rep.replace {rest : List Block} (rep : Rep s bs fl) (sub : rest.Sublist bs)
    (inside : s.memStartBrk ≤ b.addr ∧ b.limit ≤ s.memBrk) (sized : Sized b) (apart : ∀ c ∈ rest, b.Apart c)
    (free : ∀ a ∈ fl, (a = b.addr ∧ b.allocated = false) ∨ ∃ c ∈ rest, c.addr = a ∧ c.allocated = false)
    (written : TagsWritten s.mem m' b.addr b.size (tag b)) : Rep (s.withMem m') (b :: rest) fl := by
  have old : ∀ c ∈ rest, c ∈ bs := fun c member => sub.subset member
  have frame : ∀ c ∈ rest, Same c s.mem m' := fun c member => written.same sized (apart c member)
  have links : ∀ a ∈ fl, ∀ x, a + 8 ≤ x → x < a + 24 → m' x = s.mem x := by
    intro a member x low high
    rcases free a member with ⟨rfl, bFree⟩ | ⟨c, inRest, rfl, cFree⟩
    · have size := sized.links bFree
      exact written.frame x (by omega) (by omega)
    · have size := (rep.sized c (old c inRest)).links cFree
      exact frame c inRest x (by omega) (by simp only [Block.limit]; omega)
  refine ⟨⟨rep.region.withMem m', ?_, ?_, ?_, ?_, ?_⟩, ?_, rep.distinct, ?_, rep.first⟩
  · intro c member
    rcases List.mem_cons.mp member with rfl | member
    · exact inside
    · exact rep.inside c (old c member)
  · intro c member
    rcases List.mem_cons.mp member with rfl | member
    · exact sized
    · exact rep.sized c (old c member)
  · intro c member
    rcases List.mem_cons.mp member with rfl | member
    · exact written.header
    · have size := (rep.sized c (old c member)).tags
      rw [← rep.header c (old c member)]
      exact load_congr fun x low high => frame c member x low (by simp only [Block.limit]; omega)
  · intro c member
    rcases List.mem_cons.mp member with rfl | member
    · exact written.endTag
    · have size := (rep.sized c (old c member)).tags
      rw [← rep.endTag c (old c member)]
      exact load_congr fun x low high => frame c member x (by simp only [Block.limit] at low; omega) (by omega)
  · exact List.Pairwise.cons apart (rep.apart.sublist sub)
  · intro a member
    rcases free a member with ⟨rfl, bFree⟩ | ⟨c, inRest, rest⟩
    · exact ⟨b, List.mem_cons_self, rfl, bFree⟩
    · exact ⟨c, List.mem_cons_of_mem _ inRest, rest⟩
  · apply ring_congr rep.ring
    · exact fun a member => load_congr fun x low high => links a member x low (by omega)
    · exact fun a member => load_congr fun x low high => links a member x (by omega) (by omega)

/-! ### Writing links -/

/-- Only link fields of the blocks at `nodes` differ. -/
def LinksWritten (m m' : Memory) (nodes : List Int) : Prop :=
  ∀ x, (∀ a ∈ nodes, ¬(a + 8 ≤ x ∧ x < a + 24)) → m' x = m x

/-- Link fields lie inside free blocks. -/
theorem LinksWritten.same {nodes : List Int} (written : LinksWritten s.mem m' nodes) (tagged : Tagged s bs)
    (free : FreeBlocks bs nodes) (member : c ∈ bs) (allocated : c.allocated = true) : Same c s.mem m' := by
  intro x low high
  apply written
  intro a node inside
  obtain ⟨b, bMem, rfl, bFree⟩ := free a node
  have size := (tagged.sized b bMem).links bFree
  have away := tagged.apart_of_ne bMem member (by rintro rfl; simp [allocated] at bFree)
  simp only [Block.Apart, Block.limit] at away high
  omega

/-- Rewriting link fields of free blocks keeps every tag. -/
theorem Tagged.relink {nodes : List Int} (tagged : Tagged s bs) (free : FreeBlocks bs nodes)
    (written : LinksWritten s.mem m' nodes) : Tagged (s.withMem m') bs := by
  have kept : ∀ c ∈ bs, ∀ x, c.addr ≤ x ∧ x < c.limit → (x < c.addr + 8 ∨ c.limit - 8 ≤ x) → m' x = s.mem x := by
    intro c member x bounds tagWord
    apply written
    intro a node inside
    obtain ⟨b, bMem, rfl, bFree⟩ := free a node
    have size := (tagged.sized b bMem).links bFree
    by_cases same : b = c
    · subst same
      simp only [Block.limit] at tagWord
      omega
    · have away := tagged.apart_of_ne bMem member same
      simp only [Block.Apart, Block.limit] at away bounds
      omega
  refine ⟨tagged.region.withMem m', tagged.inside, tagged.sized, ?_, ?_, tagged.apart⟩
  · intro c member
    have size := (tagged.sized c member).tags
    rw [← tagged.header c member]
    exact load_congr fun x low high => kept c member x ⟨low, by simp only [Block.limit]; omega⟩ (Or.inl high)
  · intro c member
    have size := (tagged.sized c member).tags
    rw [← tagged.endTag c member]
    refine load_congr fun x low high => kept c member x ⟨?_, by omega⟩ (Or.inr low)
    simp only [Block.limit] at low
    omega

theorem Tagged.withFirst (tagged : Tagged s bs) (a : Int) : Tagged { s with flistFirst := a } bs :=
  ⟨⟨tagged.region.1, tagged.region.2, tagged.region.3, tagged.region.4⟩, tagged.inside, tagged.sized, tagged.header,
    tagged.endTag, tagged.apart⟩

end Cs1330.Malloc
