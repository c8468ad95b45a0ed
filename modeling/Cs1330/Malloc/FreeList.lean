import Cs1330.Malloc.FreeRing

/-!
# The free list of a heap

The listed blocks of a heap form a `FreeRing`, so the list operations do to it what they do to any
ring; since they write only link fields of free blocks, they leave every tag alone.
-/

namespace Cs1330.Malloc
open Machine Links Tiling

variable {s : Heap} {bs : List Block} {fl nodes : List Int} {b c : Block} {a : Int}

/-! ### Free blocks of a heap -/

theorem Tagged.freeBlock (tagged : Tagged s bs) (member : b ∈ bs) (free : b.allocated = false) : FreeBlock s b.addr := by
  have inside := tagged.inside b member
  have size := (tagged.sized b member).links free
  have positive := tagged.region.positive
  simp only [Block.limit] at inside
  refine ⟨tagged.inLong_addr member, by omega, by omega, ?_⟩
  rw [tagged.header b member, tag_bit (tagged.sized b member), free]
  rfl

theorem Tagged.run_flink (tagged : Tagged s bs) (member : b ∈ bs) (free : b.allocated = false) :
    blockFlink b.addr s = .ok (flink s.mem b.addr, s) :=
  (tagged.freeBlock member free).run_flink

/-- Node addresses whose link fields do not partly overlap. -/
def Spaced (nodes : List Int) : Prop := ∀ a ∈ nodes, ∀ c ∈ nodes, a = c ∨ a + 32 ≤ c ∨ c + 32 ≤ a

theorem Spaced.linksApart (spaced : Spaced nodes) : LinksApart nodes := by
  intro a aMem c cMem
  have := spaced a aMem c cMem
  omega

/-- Link fields of two free blocks are the same or apart. -/
theorem Tagged.links_apart (tagged : Tagged s bs) (bMem : b ∈ bs) (bFree : b.allocated = false) (cMem : c ∈ bs)
    (cFree : c.allocated = false) : b.addr = c.addr ∨ b.addr + 32 ≤ c.addr ∨ c.addr + 32 ≤ b.addr := by
  by_cases same : b = c
  · exact Or.inl (congrArg Block.addr same)
  · have apart := tagged.apart_of_ne bMem cMem same
    have bSize := (tagged.sized b bMem).links bFree
    have cSize := (tagged.sized c cMem).links cFree
    simp only [Block.Apart, Block.limit] at apart
    omega

theorem Tagged.spaced (tagged : Tagged s bs) (free : FreeBlocks bs nodes) : Spaced nodes := by
  intro a aMem c cMem
  obtain ⟨b, bMem, rfl, bFree⟩ := free a aMem
  obtain ⟨d, dMem, rfl, dFree⟩ := free c cMem
  exact tagged.links_apart bMem bFree dMem dFree

theorem Rep.freeRing (rep : Rep s bs fl) : FreeRing s fl := by
  refine ⟨?_, (rep.spaced rep.free).linksApart, rep.distinct, rep.ring, rep.first⟩
  intro a member
  obtain ⟨b, bMem, rfl, bFree⟩ := rep.free a member
  exact rep.freeBlock bMem bFree

theorem Rep.addr_pos (rep : Rep s bs fl) (member : a ∈ fl) : 0 < a := by
  obtain ⟨b, bMem, rfl, _⟩ := rep.free a member
  have := (rep.inside b bMem).1
  have := rep.region.positive
  omega

theorem Rep.freeBlocks_cons (rep : Rep s bs fl) (bMem : b ∈ bs) (bFree : b.allocated = false) :
    FreeBlocks bs (b.addr :: fl) := by
  intro x xMem
  rcases List.mem_cons.mp xMem with rfl | xMem
  · exact ⟨b, bMem, rfl, bFree⟩
  · exact rep.free x xMem

/-! ### The operations on a heap -/

theorem Rep.linksWritten_pulled (rep : Rep s bs fl) (member : a ∈ fl) : LinksWritten s.mem (pulled s.mem a) fl :=
  rep.freeRing.linksWritten_pulled member

theorem Rep.run_pull (rep : Rep s bs fl) (member : a ∈ fl) :
    pullFreeBlock a s = .ok ((), s.withList (pulled s.mem a) ((fl.erase a).headD 0)) ∧
      Rep (s.withList (pulled s.mem a) ((fl.erase a).headD 0)) bs (fl.erase a) := by
  have after := rep.freeRing.pull member
  have tagged := rep.toTagged.relink rep.free (rep.linksWritten_pulled member)
  exact ⟨rep.freeRing.run_pull member, tagged.withFirst _, fun x kept => rep.free x (List.mem_of_mem_erase kept),
    after.distinct, after.ring, after.first⟩

theorem Rep.inserted_ring (rep : Rep s bs fl) (bMem : b ∈ bs) (bFree : b.allocated = false) (fresh : b.addr ∉ fl) :
    Ring (flink (inserted s.mem b.addr (fl.headD 0))) (blink (inserted s.mem b.addr (fl.headD 0))) (b.addr :: fl) ∧
      LinksWritten s.mem (inserted s.mem b.addr (fl.headD 0)) (b.addr :: fl) :=
  rep.freeRing.inserted_ring (rep.freeBlock bMem bFree) fresh (rep.spaced (rep.freeBlocks_cons bMem bFree)).linksApart

theorem Rep.run_insert (rep : Rep s bs fl) (bMem : b ∈ bs) (bFree : b.allocated = false) (fresh : b.addr ∉ fl) :
    insertFreeBlock b.addr s = .ok ((), s.withList (inserted s.mem b.addr (fl.headD 0)) b.addr) ∧
      Rep (s.withList (inserted s.mem b.addr (fl.headD 0)) b.addr) bs (b.addr :: fl) := by
  have nodes := rep.freeBlocks_cons bMem bFree
  have block := rep.freeBlock bMem bFree
  have apart := (rep.spaced nodes).linksApart
  have after := rep.freeRing.insert block fresh apart
  have tagged := rep.toTagged.relink nodes (rep.inserted_ring bMem bFree fresh).2
  exact ⟨rep.freeRing.run_insert block fresh apart, tagged.withFirst _, nodes, after.distinct, after.ring,
    after.first⟩

end Cs1330.Malloc
