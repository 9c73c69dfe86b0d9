import HobbyKernel.WalkProofs

/-! Ownership of whole address spaces, pages included. A page mapped from a
frame that was free has one owner from then on, also when the tables on the way
to it had to be taken from the same free list. -/
namespace HobbyKernel.PageOwnership
open AddressBits PageAllocProofs WalkProofs Radix

variable {κ ι : Type} {admits : Index → Prop} {root : κ → Option Frame} {others : ι → Frame → Prop}
  {k k' : κ} {s s' : Phys} {free rest : List Nat} {pp : Nat} {r : Frame} {vaddr flags : U64}

/-- A position four levels down is a table position and a leaf index. -/
theorem split_four {path : List Index} (short : path.length ≤ 4) :
    path.length ≤ 3 ∨ ∃ tables i, path = tables ++ [i] ∧ tables.length = 3 := by
  rcases Nat.lt_or_ge path.length 4 with small | four
  · exact .inl (by omega)
  · have length : path.length = 4 := by omega
    refine .inr ⟨path.dropLast, path.getLast (List.ne_nil_of_length_pos (by omega)), ?_, by simp [length]⟩
    exact (List.dropLast_concat_getLast _).symm

/-- Mapping a page that was just taken off the free list. -/
theorem vmmMap_fresh (vaddr : U64) (list : FreeList s free) (fresh : pp ∉ free) (small : pp < 2 ^ 40)
    (exclusive : Exclusive (layout admits) s.mem root 4 others (pp :: free)) (plain : PlainFlags flags)
    (isRoot : root k = some r) (lower : admits (subscript (pml4Index vaddr))) :
    ∃ taken rest, free = taken ++ rest ∧
      Grows admits root others k s (vmmMap s r vaddr (page2pa pp) flags) taken rest ∧
      Exclusive (layout admits) (vmmMap s r vaddr (page2pa pp) flags).mem root 4 others rest ∧
      ∀ k' path f, Node (layout admits) (vmmMap s r vaddr (page2pa pp) flags).mem root 4 k' path f →
        Node (layout admits) s.mem root 4 k' path f ∨ (k' = k ∧ (f = pp ∨ f ∈ taken)) := by
  have tables : Exclusive (layout admits) s.mem root 3 others free :=
    (exclusive.mono (by decide)).subset (fun f member => List.mem_cons_of_mem _ member)
  obtain ⟨taken, rest, split, grows, unmapped, mapped⟩ := vmmMap_grows vaddr (page2pa pp)
    flags list tables isRoot lower
  generalize vmmMap s r vaddr (page2pa pp) flags = s' at *
  -- Where the owner of a frame in the new memory comes from.
  have owner : ∀ o f, Owns (layout admits) s'.mem root 4 others o f →
      (Owns (layout admits) s.mem root 4 others o f) ∨
      (f ∈ taken ∧ ∃ path, o = .node k path ∧ path.length ≤ 3) ∨
      (f = pp ∧ o = .node k (tablePath vaddr ++ [leafIndex vaddr])) := by
    intro o f owns
    cases o with
    | other x => exact .inl owns
    | node k' path =>
      obtain ⟨short, admitted, r', isRoot', reached⟩ := owns
      rcases split_four short with three | ⟨tablesTo, i, rfl, length⟩
      · rcases grows.added k' path f ⟨three, admitted, r', isRoot', reached⟩ with old | ⟨rfl, new⟩
        · exact .inl (old.mono (by decide))
        · exact .inr (.inl ⟨new, path, rfl, three⟩)
      · have above := admitted_of_append admitted
        have same : ∀ e, entry (layout admits) s'.mem r' tablesTo i = e →
            e = entry (layout admits) s.mem r' tablesTo i →
            Owns (layout admits) s.mem root 4 others (.node k' (tablesTo ++ [i])) f := by
          intro e now before
          rw [follow_entry, now, before, ← follow_entry] at reached
          exact ⟨short, admitted, r', isRoot', reached⟩
        by_cases found : (vmmWalk s r vaddr true).2 = none
        · exact .inl (same _ rfl ((unmapped found).2 k' r' tablesTo i isRoot' above length))
        · obtain ⟨here, elsewhere⟩ := mapped found k' r' tablesTo i isRoot' above length
          by_cases place : k' = k ∧ tablesTo = tablePath vaddr ∧ i = leafIndex vaddr
          · rw [follow_entry, here place, layout_dec, tableOf_make_page plain small] at reached
            obtain ⟨rfl, rfl, rfl⟩ := place
            split at reached
            · exact .inr (.inr ⟨(Option.some.inj reached).symm, rfl⟩)
            · cases reached
          · exact .inl (same _ rfl (elsewhere place))
  have inFree : ∀ f ∈ taken, f ∈ free := fun f member => by rw [split]; exact List.mem_append_left _ member
  refine ⟨taken, rest, split, grows, ?_, ?_⟩
  · have distinct : ((pp :: taken) ++ rest).Nodup := by
      rw [List.cons_append, ← split]
      exact List.nodup_cons.mpr ⟨fresh, list.nodup⟩
    have before : Exclusive (layout admits) s.mem root 4 others (pp :: taken ++ rest) := by
      rw [List.cons_append, ← split]
      exact exclusive
    refine Exclusive.extend before distinct
      some (fun o o' x first second => Option.some.inj (first.trans second.symm)) ?_ ?_
    · intro o f owns
      rcases owner o f owns with old | ⟨new, _⟩ | ⟨rfl, _⟩
      · exact .inl ⟨o, rfl, old⟩
      · exact .inr (List.mem_cons_of_mem _ new)
      · exact .inr List.mem_cons_self
    · intro o o' f new owns owns'
      have unowned : ∀ o, ¬ Owns (layout admits) s.mem root 4 others o f := by
        intro o old
        rcases List.mem_cons.mp new with rfl | member
        · exact exclusive.unfree o f old List.mem_cons_self
        · exact exclusive.unfree o f old (List.mem_cons_of_mem _ (inFree f member))
      rcases owner o f owns with old | ⟨member, path, rfl, three⟩ | ⟨rfl, rfl⟩
      · exact absurd old (unowned o)
      · rcases owner o' f owns' with old | ⟨_, path', rfl, three'⟩ | ⟨rfl, _⟩
        · exact absurd old (unowned o')
        · obtain ⟨_, same⟩ := grows.exclusive.node_unique ⟨three, owns.2⟩ ⟨three', owns'.2⟩
          rw [same]
        · exact absurd (inFree f member) fresh
      · rcases owner o' f owns' with old | ⟨member, _⟩ | ⟨_, rfl⟩
        · exact absurd old (unowned o')
        · exact absurd (inFree f member) fresh
        · rfl
  · intro k' path f node
    rcases owner (.node k' path) f node with old | ⟨new, path', same, _⟩ | ⟨rfl, same⟩
    · exact .inl old
    · cases same
      exact .inr ⟨rfl, .inr new⟩
    · cases same
      exact .inr ⟨rfl, .inl rfl⟩

end HobbyKernel.PageOwnership
