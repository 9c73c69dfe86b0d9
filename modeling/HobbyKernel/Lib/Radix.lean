import Mathlib.Logic.Function.Basic
import Mathlib.Data.List.Basic

/-! Radix trees kept in raw memory. A table is a frame of entries; an entry that
decodes to a frame is an edge to another table (or, at the bottom, to a page).
Several trees live in one memory. What makes them trees is that no frame has
two owners: every frame is reached along at most one path of at most one tree,
and is not a free frame. Under that discipline, writing one entry changes one
subtree and nothing else. -/
namespace HobbyKernel.Radix

/-- How entries are read: which of them are edges, and which entry an empty
table holds. `admits` restricts the indices under consideration at the top
level, for trees that own only part of their root table. -/
structure Layout (F I E : Type) where
  dec : E → Option F
  empty : E
  dec_empty : dec empty = none
  admits : I → Prop

variable {F I E κ ι : Type}

/-- The frame reached from `f` along a path of indices. -/
def follow (L : Layout F I E) (mem : F → I → E) : F → List I → Option F
  | f, [] => some f
  | f, i :: path =>
    match L.dec (mem f i) with
    | none => none
    | some g => follow L mem g path

/-- The entry a path ends at: the empty entry where a table is missing. -/
def entry (L : Layout F I E) (mem : F → I → E) (f : F) (path : List I) (i : I) : E :=
  match follow L mem f path with
  | none => L.empty
  | some t => mem t i

/-- Paths that start at an admitted index. -/
def Layout.Admitted (L : Layout F I E) (path : List I) : Prop := ∀ i ∈ path.head?, L.admits i

/-- Tree `k` reaches `f` along an admitted path of at most `depth` indices. -/
def Node (L : Layout F I E) (mem : F → I → E) (root : κ → Option F) (depth : Nat)
    (k : κ) (path : List I) (f : F) : Prop :=
  path.length ≤ depth ∧ L.Admitted path ∧ ∃ r, root k = some r ∧ follow L mem r path = some f

/-- The owners of a frame: a position in one of the trees, or somebody else. -/
inductive Owner (κ ι I : Type) where
  | node (k : κ) (path : List I)
  | other (i : ι)

/-- Which owners hold a frame. -/
def Owns (L : Layout F I E) (mem : F → I → E) (root : κ → Option F) (depth : Nat)
    (others : ι → F → Prop) : Owner κ ι I → F → Prop
  | .node k path, f => Node L mem root depth k path f
  | .other i, f => others i f

/-- No frame has two owners, and a free frame has none. -/
structure Exclusive (L : Layout F I E) (mem : F → I → E) (root : κ → Option F) (depth : Nat)
    (others : ι → F → Prop) (free : List F) : Prop where
  unique : ∀ o o' f, Owns L mem root depth others o f → Owns L mem root depth others o' f → o = o'
  unfree : ∀ o f, Owns L mem root depth others o f → f ∉ free

variable {L : Layout F I E} {mem mem' : F → I → E} {root : κ → Option F} {depth : Nat}
  {others : ι → F → Prop} {free : List F} {f g t r : F} {i j : I} {k k' : κ} {p q : List I}

@[simp] theorem follow_nil : follow L mem f [] = some f := rfl

theorem follow_append : follow L mem f (p ++ q) = (follow L mem f p).bind (follow L mem · q) := by
  induction p generalizing f with
  | nil => rfl
  | cons i p ih =>
    simp only [List.cons_append, follow]
    cases L.dec (mem f i) with
    | none => rfl
    | some g => exact ih

theorem follow_concat : follow L mem f (p ++ [i]) = (follow L mem f p).bind (fun t => L.dec (mem t i)) := by
  rw [follow_append]
  congr 1
  funext t
  simp only [follow]
  cases L.dec (mem t i) <;> rfl

/-- One step past a path is decided by the entry the path ends at. -/
theorem follow_entry : follow L mem f (p ++ [i]) = L.dec (entry L mem f p i) := by
  rw [follow_concat, entry]
  cases follow L mem f p with
  | none => exact L.dec_empty.symm
  | some t => rfl

/-- Only the entries a path passes through decide where it leads. -/
theorem follow_congr
    (same : ∀ before j after g, p = before ++ j :: after → follow L mem f before = some g →
      L.dec (mem' g j) = L.dec (mem g j)) : follow L mem' f p = follow L mem f p := by
  induction p generalizing f with
  | nil => rfl
  | cons i p ih =>
    simp only [follow]
    rw [same [] i p f rfl rfl]
    cases edge : L.dec (mem f i) with
    | none => rfl
    | some g =>
      refine ih (fun before j after h split reached => same (i :: before) j after h ?_ ?_)
      · rw [split, List.cons_append]
      · simpa only [follow, edge] using reached

/-- The last frame reached along a path, as far as there are edges. -/
def furthest (L : Layout F I E) (mem : F → I → E) : F → List I → F
  | f, [] => f
  | f, i :: path =>
    match L.dec (mem f i) with
    | none => f
    | some g => furthest L mem g path

theorem furthest_append (reached : follow L mem f p = some g) : furthest L mem f (p ++ q) = furthest L mem g q := by
  induction p generalizing f with
  | nil =>
    cases reached
    rfl
  | cons i p ih =>
    rw [follow] at reached
    rw [List.cons_append, furthest]
    cases edge : L.dec (mem f i) with
    | none =>
      rw [edge] at reached
      cases reached
    | some h =>
      rw [edge] at reached
      exact ih reached

/-- The last frame is at the end of the path, or it has no edge that goes on. -/
theorem furthest_cases (L : Layout F I E) (mem : F → I → E) (f : F) (p : List I) :
    follow L mem f p = some (furthest L mem f p) ∨ ∃ before j after, p = before ++ j :: after ∧
      follow L mem f before = some (furthest L mem f p) ∧ L.dec (mem (furthest L mem f p) j) = none := by
  induction p generalizing f with
  | nil => exact .inl rfl
  | cons i p ih =>
    rw [furthest, follow]
    cases edge : L.dec (mem f i) with
    | none => exact .inr ⟨[], i, p, rfl, rfl, edge⟩
    | some g =>
      rcases ih g with all | ⟨before, j, after, split, reached, absent⟩
      · exact .inl all
      · refine .inr ⟨i :: before, j, after, by rw [split, List.cons_append], ?_, absent⟩
        rw [follow, edge]
        exact reached

theorem admitted_of_append (admitted : L.Admitted (p ++ q)) : L.Admitted p := by
  cases p with
  | nil => intro i member; simp at member
  | cons j p => exact admitted

theorem Node.mono {depth' : Nat} (node : Node L mem root depth k p f) (le : depth ≤ depth') :
    Node L mem root depth' k p f :=
  ⟨Nat.le_trans node.1 le, node.2⟩

/-- Every position above a node is a node. -/
theorem Node.above (node : Node L mem root depth k (p ++ i :: q) f) :
    ∃ t, Node L mem root depth k p t := by
  obtain ⟨short, admitted, r, isRoot, reached⟩ := node
  rw [follow_append] at reached
  obtain ⟨t, above, _⟩ := Option.bind_eq_some_iff.mp reached
  refine ⟨t, ?_, admitted_of_append admitted, r, isRoot, above⟩
  rw [List.length_append] at short
  exact Nat.le_trans (Nat.le_add_right _ _) short

/-- Nobody who owns a frame now did not own it before. -/
theorem Exclusive.of_owns {root' : κ → Option F} {others' : ι → F → Prop} {depth' : Nat}
    (exclusive : Exclusive L mem root depth others free)
    (owns : ∀ o f, Owns L mem' root' depth' others' o f → Owns L mem root depth others o f) :
    Exclusive L mem' root' depth' others' free :=
  ⟨fun o o' f held held' => exclusive.unique o o' f (owns o f held) (owns o' f held'),
    fun o f held => exclusive.unfree o f (owns o f held)⟩

/-- The same discipline over fewer levels. -/
theorem Exclusive.mono {depth' : Nat} (exclusive : Exclusive L mem root depth others free)
    (le : depth' ≤ depth) : Exclusive L mem root depth' others free := by
  refine exclusive.of_owns (fun o f owns => ?_)
  cases o with
  | node k path => exact Node.mono owns le
  | other i => exact owns

/-- Fewer free frames only make the discipline easier to keep. -/
theorem Exclusive.subset {free' : List F} (exclusive : Exclusive L mem root depth others free)
    (sub : ∀ f ∈ free', f ∈ free) : Exclusive L mem root depth others free' :=
  ⟨exclusive.unique, fun o f owns member => exclusive.unfree o f owns (sub f member)⟩

theorem Exclusive.node_unique (exclusive : Exclusive L mem root depth others free)
    (node : Node L mem root depth k p f) (node' : Node L mem root depth k' q f) : k = k' ∧ p = q := by
  have same := exclusive.unique (.node k p) (.node k' q) f node node'
  cases same
  exact ⟨rfl, rfl⟩

theorem Exclusive.node_unfree (exclusive : Exclusive L mem root depth others free)
    (node : Node L mem root depth k p f) : f ∉ free :=
  exclusive.unfree (.node k p) f node

/-- New owners may only receive frames that were free before, each one owner. -/
theorem Exclusive.extend {κ' ι' : Type} {root' : κ' → Option F} {others' : ι' → F → Prop}
    {taken rest : List F} {depth' : Nat}
    (exclusive : Exclusive L mem root depth others (taken ++ rest))
    (distinct : (taken ++ rest).Nodup)
    (embed : Owner κ' ι' I → Option (Owner κ ι I))
    (embedInj : ∀ o o' x, embed o = some x → embed o' = some x → o = o')
    (new : ∀ o f, Owns L mem' root' depth' others' o f →
      (∃ x, embed o = some x ∧ Owns L mem root depth others x f) ∨ f ∈ taken)
    (assigned : ∀ o o' f, f ∈ taken → Owns L mem' root' depth' others' o f →
      Owns L mem' root' depth' others' o' f → o = o') :
    Exclusive L mem' root' depth' others' rest := by
  refine ⟨fun o o' f owns owns' => ?_, fun o f owns member => ?_⟩
  · rcases new o f owns with ⟨x, fromX, old⟩ | fresh
    · rcases new o' f owns' with ⟨x', fromX', old'⟩ | fresh
      · have same := exclusive.unique x x' f old old'
        subst same
        exact embedInj o o' x fromX fromX'
      · exact assigned o o' f fresh owns owns'
    · exact assigned o o' f fresh owns owns'
  · rcases new o f owns with ⟨x, _, old⟩ | fresh
    · exact exclusive.unfree x f old (List.mem_append_right _ member)
    · exact (List.nodup_append.mp distinct).2.2 f fresh f member rfl

/-- Memory that agrees on every table of every tree has the same paths, one
level further down. -/
theorem follow_frame (isRoot : root k = some r) (admitted : L.Admitted q)
    (short : q.length ≤ depth + 1)
    (same : ∀ p t, Node L mem root depth k p t → mem' t = mem t) :
    follow L mem' r q = follow L mem r q := by
  apply follow_congr
  intro before j after g split reached
  have node : Node L mem root depth k before g := by
    refine ⟨?_, admitted_of_append (split ▸ admitted), r, isRoot, reached⟩
    rw [split, List.length_append, List.length_cons] at short
    omega
  rw [same before g node]

theorem node_frame (depth : Nat) (same : ∀ k p t, Node L mem root depth k p t → mem' t = mem t) :
    Node L mem' root (depth + 1) k p f ↔ Node L mem root (depth + 1) k p f := by
  constructor
  · rintro ⟨short, admitted, r, isRoot, reached⟩
    rw [follow_frame isRoot admitted short (same k)] at reached
    exact ⟨short, admitted, r, isRoot, reached⟩
  · rintro ⟨short, admitted, r, isRoot, reached⟩
    rw [← follow_frame isRoot admitted short (same k)] at reached
    exact ⟨short, admitted, r, isRoot, reached⟩

/-- The discipline depends on the tables only, not on what pages hold. -/
theorem Exclusive.frame (exclusive : Exclusive L mem root (depth + 1) others free)
    (same : ∀ k p t, Node L mem root depth k p t → mem' t = mem t) :
    Exclusive L mem' root (depth + 1) others free := by
  refine exclusive.of_owns (fun o f owns => ?_)
  cases o with
  | node k p => exact (node_frame _ same).mp owns
  | other i => exact owns

/-- A tree that was built apart, from free frames only, joins the forest. -/
theorem Exclusive.join {root' : κ → Option F} {free' : List F} {c : F}
    (exclusive : Exclusive L mem root (depth + 1) others free)
    (same : ∀ f, f ∉ free → mem' f = mem f)
    (built : Exclusive L mem' (fun _ : Unit => some c) (depth + 1) (fun (_ : Unit) f => f ∉ free) free')
    (fewer : ∀ f ∈ free', f ∈ free) (isNew : root' k = some c) (old : ∀ k', k' ≠ k → root' k' = root k') :
    Exclusive L mem' root' (depth + 1) others free' := by
  have newNode : ∀ p f, Node L mem' root' (depth + 1) k p f →
      Node L mem' (fun _ : Unit => some c) (depth + 1) () p f := by
    rintro p f ⟨short, admitted, r, isRoot, reached⟩
    rw [isNew] at isRoot
    cases isRoot
    exact ⟨short, admitted, c, rfl, reached⟩
  have newFree : ∀ p f, Node L mem' root' (depth + 1) k p f → f ∈ free := by
    intro p f node
    by_contra outside
    have apart := built.unique (.node () p) (.other ()) f (newNode p f node) outside
    cases apart
  have oldNode : ∀ k' p f, k' ≠ k → Node L mem' root' (depth + 1) k' p f →
      Node L mem root (depth + 1) k' p f := by
    rintro k' p f other ⟨short, admitted, r, isRoot, reached⟩
    rw [old k' other] at isRoot
    refine ⟨short, admitted, r, isRoot, ?_⟩
    rw [← reached]
    refine (follow_frame isRoot admitted short (fun p t node => same t ?_)).symm
    exact exclusive.node_unfree (node.mono (Nat.le_succ depth))
  have owner : ∀ o f, Owns L mem' root' (depth + 1) others o f →
      (f ∉ free ∧ Owns L mem root (depth + 1) others o f) ∨
        (f ∈ free ∧ ∃ p, o = .node k p ∧ Node L mem' (fun _ : Unit => some c) (depth + 1) () p f) := by
    classical
    intro o f owns
    cases o with
    | other i => exact .inl ⟨exclusive.unfree (.other i) f owns, owns⟩
    | node k' p =>
      by_cases isK : k' = k
      · subst isK
        exact .inr ⟨newFree p f owns, p, rfl, newNode p f owns⟩
      · have node := oldNode k' p f isK owns
        exact .inl ⟨exclusive.node_unfree node, node⟩
  refine ⟨fun o o' f owns owns' => ?_, fun o f owns member => ?_⟩
  · rcases owner o f owns with ⟨outside, before⟩ | ⟨inside, p, rfl, node⟩
    · rcases owner o' f owns' with ⟨_, before'⟩ | ⟨inside, _⟩
      · exact exclusive.unique o o' f before before'
      · exact absurd inside outside
    · rcases owner o' f owns' with ⟨outside, _⟩ | ⟨_, p', rfl, node'⟩
      · exact absurd inside outside
      · rw [(built.node_unique node node').2]
  · rcases owner o f owns with ⟨outside, _⟩ | ⟨_, p, rfl, node⟩
    · exact outside (fewer f member)
    · exact built.node_unfree node member

theorem entry_frame (isRoot : root k = some r) (admitted : L.Admitted q)
    (short : q.length ≤ depth)
    (same : ∀ p t, Node L mem root depth k p t → mem' t = mem t) :
    entry L mem' r q j = entry L mem r q j := by
  rw [entry, entry, follow_frame isRoot admitted (Nat.le_succ_of_le short) same]
  cases reached : follow L mem r q with
  | none => rfl
  | some t => exact congrFun (same q t ⟨short, admitted, r, isRoot, reached⟩) j

section Write
variable [DecidableEq F]

/-- Overwrite a whole frame with empty entries. -/
def clear (L : Layout F I E) (mem : F → I → E) (f : F) : F → I → E :=
  fun g j => if g = f then L.empty else mem g j

theorem clear_same : clear L mem f f j = L.empty := by simp [clear]

theorem clear_other (other : g ≠ f) : clear L mem f g j = mem g j := by simp [clear, other]

variable [DecidableEq I]

/-- Overwrite one entry. -/
def write (mem : F → I → E) (t : F) (i : I) (e : E) : F → I → E :=
  fun g j => if g = t ∧ j = i then e else mem g j

@[simp] theorem write_same (e : E) : write mem t i e t i = e := by simp [write]

theorem write_other {e : E} (other : ¬ (g = t ∧ j = i)) : write mem t i e g j = mem g j := by
  simp [write, other]

variable {e : E}

/-- Writing an entry of a table at the lowest level leaves every table of every
tree where it was. -/
theorem follow_write_leaf (exclusive : Exclusive L mem root depth others free)
    (node : Node L mem root depth k p t) (bottom : p.length = depth)
    (isRoot : root k' = some r) (admitted : L.Admitted q) (short : q.length ≤ depth) :
    follow L (write mem t i e) r q = follow L mem r q := by
  apply follow_congr
  intro before j after g split reached
  rw [split, List.length_append, List.length_cons] at short
  have visited : Node L mem root depth k' before g :=
    ⟨by omega, admitted_of_append (split ▸ admitted), r, isRoot, reached⟩
  have apart : g ≠ t := by
    intro same
    subst same
    have := (exclusive.node_unique node visited).2
    subst this
    omega
  rw [write_other (fun both => apart both.1)]

/-- Writing an entry at the lowest level sets that entry and no other entry of
any tree. -/
theorem entry_write_leaf (exclusive : Exclusive L mem root depth others free)
    (node : Node L mem root depth k p t) (bottom : p.length = depth)
    (isRoot : root k' = some r) (admitted : L.Admitted q) (short : q.length ≤ depth) :
    (k' = k ∧ q = p ∧ j = i → entry L (write mem t i e) r q j = e) ∧
      (¬ (k' = k ∧ q = p ∧ j = i) → entry L (write mem t i e) r q j = entry L mem r q j) := by
  have same := follow_write_leaf (i := i) (e := e) exclusive node bottom isRoot admitted short
  simp only [entry, same]
  constructor
  · rintro ⟨rfl, rfl, rfl⟩
    obtain ⟨_, _, r', isRoot', reached⟩ := node
    rw [isRoot] at isRoot'
    cases isRoot'
    rw [reached]
    exact write_same e
  · intro different
    cases reached : follow L mem r q with
    | none => rfl
    | some g =>
      refine write_other (fun both => different ?_)
      have visited : Node L mem root depth k' q g := ⟨short, admitted, r, isRoot, reached⟩
      rw [both.1] at visited
      obtain ⟨sameTree, samePath⟩ := exclusive.node_unique visited node
      exact ⟨sameTree, samePath, both.2⟩

/-- Hanging an empty table under an entry that was not an edge adds exactly one
position to the forest. -/
theorem follow_graft (exclusive : Exclusive L mem root depth others (f :: free))
    (node : Node L mem root depth k p t) (absent : L.dec (mem t i) = none)
    (edge : L.dec e = some f) (isRoot : root k' = some r) (admitted : L.Admitted q)
    (short : q.length ≤ depth + 1) :
    (k' = k ∧ q = p ++ [i] → follow L (write (clear L mem f) t i e) r q = some f) ∧
      (¬ (k' = k ∧ q = p ++ [i]) →
        follow L (write (clear L mem f) t i e) r q = follow L mem r q) := by
  have tNotF : t ≠ f := fun same => exclusive.node_unfree node (same ▸ List.mem_cons_self)
  -- A path that does not pass through the written entry sees the old memory.
  have untouched : ∀ (k' : κ) (r : F) (q : List I), root k' = some r → L.Admitted q →
      q.length ≤ depth + 1 → ¬ (k' = k ∧ (p ++ [i]) <+: q) →
      follow L (write (clear L mem f) t i e) r q = follow L mem r q := by
    intro k' r q isRoot admitted short avoids
    apply follow_congr
    intro before j after g split reached
    have visited : Node L mem root depth k' before g := by
      rw [split, List.length_append, List.length_cons] at short
      exact ⟨by omega, admitted_of_append (split ▸ admitted), r, isRoot, reached⟩
    have gNotF : g ≠ f := fun same => exclusive.node_unfree visited (same ▸ List.mem_cons_self)
    rw [write_other, clear_other gNotF]
    rintro ⟨rfl, rfl⟩
    obtain ⟨rfl, rfl⟩ := exclusive.node_unique visited node
    exact avoids ⟨rfl, after, by rw [split, List.append_assoc]; rfl⟩
  obtain ⟨pShort, pAdmitted, rk, rkRoot, pReached⟩ := node
  have pKept : follow L (write (clear L mem f) t i e) rk p = some t := by
    rw [untouched k rk p rkRoot pAdmitted (Nat.le_succ_of_le pShort), pReached]
    rintro ⟨_, before⟩
    have := before.length_le
    rw [List.length_append, List.length_singleton] at this
    omega
  have grafted : follow L (write (clear L mem f) t i e) rk (p ++ [i]) = some f := by
    rw [follow_concat, pKept, Option.bind_some, write_same, edge]
  constructor
  · rintro ⟨rfl, rfl⟩
    rw [isRoot] at rkRoot
    cases rkRoot
    exact grafted
  · intro different
    by_cases through : k' = k ∧ (p ++ [i]) <+: q
    · obtain ⟨rfl, rest, rfl⟩ := through
      rw [isRoot] at rkRoot
      cases rkRoot
      cases rest with
      | nil => exact absurd ⟨rfl, List.append_nil _⟩ different
      | cons j rest =>
        -- Below the new table there is nothing, as there was nothing before.
        rw [follow_append, grafted, follow_append, follow_concat, pReached]
        simp only [Option.bind_some, absent, Option.bind_none, follow]
        rw [write_other (fun both => tNotF both.1.symm), clear_same, L.dec_empty]
    · exact untouched k' r q isRoot admitted short through

/-- Hanging an empty table leaves every entry below the level of the change as
it was: the entries of the new table read as the missing table did. -/
theorem entry_graft (exclusive : Exclusive L mem root depth others (f :: free))
    (node : Node L mem root depth k p t) (absent : L.dec (mem t i) = none)
    (edge : L.dec e = some f) (isRoot : root k' = some r) (admitted : L.Admitted q)
    (short : q.length ≤ depth) (below : p.length < q.length) :
    entry L (write (clear L mem f) t i e) r q j = entry L mem r q j := by
  have tNotF : t ≠ f := fun same => exclusive.node_unfree node (same ▸ List.mem_cons_self)
  obtain ⟨here, elsewhere⟩ := follow_graft exclusive node absent edge isRoot admitted
    (Nat.le_succ_of_le short)
  by_cases new : k' = k ∧ q = p ++ [i]
  · obtain ⟨_, _, rk, rkRoot, pReached⟩ := node
    have missing : follow L mem r q = none := by
      obtain ⟨rfl, rfl⟩ := new
      rw [isRoot] at rkRoot
      cases rkRoot
      rw [follow_concat, pReached]
      exact absent
    rw [entry, entry, here new, missing]
    exact (write_other (fun both => tNotF both.1.symm)).trans clear_same
  · rw [entry, entry, elsewhere new]
    cases reached : follow L mem r q with
    | none => rfl
    | some g =>
      have visited : Node L mem root depth k' q g := ⟨short, admitted, r, isRoot, reached⟩
      have gNotF : g ≠ f := fun same => exclusive.node_unfree visited (same ▸ List.mem_cons_self)
      have gNotT : g ≠ t := by
        intro same
        subst same
        have := (exclusive.node_unique node visited).2
        subst this
        omega
      exact (write_other (fun both => gNotT both.1)).trans (clear_other gNotF)

/-- The discipline survives hanging a table taken from the free frames. -/
theorem exclusive_graft (exclusive : Exclusive L mem root depth others (f :: free))
    (fresh : f ∉ free) (node : Node L mem root depth k p t) (absent : L.dec (mem t i) = none)
    (edge : L.dec e = some f) :
    Exclusive L (write (clear L mem f) t i e) root depth others free := by
  have owned : ∀ o g, Owns L (write (clear L mem f) t i e) root depth others o g →
      (Owns L mem root depth others o g ∧ g ≠ f) ∨ (o = .node k (p ++ [i]) ∧ g = f) := by
    intro o g owns
    cases o with
    | other x =>
      exact .inl ⟨owns, fun same => exclusive.unfree (.other x) g owns (same ▸ List.mem_cons_self)⟩
    | node k' q =>
      obtain ⟨short, qAdmitted, r, isRoot, reached⟩ := owns
      obtain ⟨here, elsewhere⟩ := follow_graft exclusive node absent edge isRoot qAdmitted
        (Nat.le_succ_of_le short)
      by_cases new : k' = k ∧ q = p ++ [i]
      · rw [here new] at reached
        cases reached
        obtain ⟨rfl, rfl⟩ := new
        exact .inr ⟨rfl, rfl⟩
      · rw [elsewhere new] at reached
        have old : Node L mem root depth k' q g := ⟨short, qAdmitted, r, isRoot, reached⟩
        exact .inl ⟨old, fun same => exclusive.node_unfree old (same ▸ List.mem_cons_self)⟩
  refine ⟨fun o o' g owns owns' => ?_, fun o g owns member => ?_⟩
  · rcases owned o g owns with ⟨old, notF⟩ | ⟨rfl, rfl⟩
    · rcases owned o' g owns' with ⟨old', _⟩ | ⟨_, isF⟩
      · exact exclusive.unique o o' g old old'
      · exact absurd isF notF
    · rcases owned o' g owns' with ⟨_, notF⟩ | ⟨rfl, _⟩
      · exact absurd rfl notF
      · rfl
  · rcases owned o g owns with ⟨old, _⟩ | ⟨_, rfl⟩
    · exact exclusive.unfree o g old (List.mem_cons_of_mem _ member)
    · exact fresh member

end Write

end HobbyKernel.Radix
