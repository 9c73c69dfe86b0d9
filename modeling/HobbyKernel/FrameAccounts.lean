import HobbyKernel.Core.Machine
import HobbyKernel.ElfConfinement

/-! Where the frames go. What the walker takes off the free list hangs in the
tree it works on, also when it gives up half way, and nothing that hung there
before comes down unless a leaf entry is overwritten. The frame of a page hangs
there as well if there were frames for its tables. -/
namespace HobbyKernel.FrameAccounts
open AddressBits PageAllocProofs WalkProofs PageOwnership CopyProofs AddressSpaces UaccessProofs UserAccess SpaceEvolution
open CopyExact PageWrites MapRefinement MapSupply ElfProofs ReportedSuccess ElfImage ElfConfinement Radix Supplies

variable {κ ι : Type} {admits : Index → Prop} {root : κ → Option Frame} {others : ι → Frame → Prop} {k : κ}
  {s s' s'' : Phys} {free rest rest' : List Nat} {r f t : Frame} {va : U64} {seg : Segment} {image : Image}
  {supply : FrameSupply}

/-- Nothing comes down from the trees, and what leaves the free list is hung up
in them. -/
structure Accounted (admits : Index → Prop) (root : κ → Option Frame) (s s' : Phys) (free rest : List Nat) : Prop where
  kept : ∀ k path f, Node (layout admits) s.mem root 4 k path f → Node (layout admits) s'.mem root 4 k path f
  hung : ∀ f ∈ free, f ∈ rest ∨ ∃ k path, Node (layout admits) s'.mem root 4 k path f

theorem Accounted.refl : Accounted admits root s s free free := ⟨fun _ _ _ node => node, fun _ member => .inl member⟩

theorem Accounted.trans (first : Accounted admits root s s' free rest) (second : Accounted admits root s' s'' rest rest') :
    Accounted admits root s s'' free rest' := by
  refine ⟨fun k path f node => second.kept k path f (first.kept k path f node), fun f member => ?_⟩
  rcases first.hung f member with left | ⟨k, path, node⟩
  · exact second.hung f left
  · exact .inr ⟨k, path, second.kept k path f node⟩

/-- The frame for a page and those for its tables, or none at all. -/
def MapsEven (s : Phys) (r : Frame) (va : U64) (frames : Nat) : Prop :=
  Lower (subscript (pml4Index va)) ∧
    (frames = 0 ∨ (present (leafEntry s r va) = false ∧ 1 + WalkProofs.missing s.mem r (tablePrefixes va) ≤ frames))

/-- An image whose pages are in the lower half, for which the free list lasts or
gives out between two pages. -/
def LoadsEven (s : Phys) (r : Frame) (frames : Nat) (image : Image) : Prop :=
  image.magic = ELF_MAGIC → image.elfClass = 2 →
    PagesLower image ∧ Pays pageOf tablePrefixes true (supplyOf s r frames) (imagePages image)

section Copy
variable {upper : Index → U64} {parent child : Frame} {s₀ : Phys} {free₀ : List Nat} {leaf : Leaf} {mem : PhysMem}

/-- The frames that a copy of an address space takes. -/
def copyCost (mem : PhysMem) (parent : Frame) : Nat := 1 + demand leafTables (fun _ => false) (lowerLeaves mem parent)

end Copy

end HobbyKernel.FrameAccounts
