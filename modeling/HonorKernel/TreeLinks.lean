import HonorKernel.TreeRuns

-- What holds of the directories, the link counts and the inodes while the volume stands
-- for a tree.
namespace FileTree
open DiskFormat CacheView InodeLayer SysFile NamingTree

section Reading
variable (env : Env) (fs : Fs)

def isDirectory (d : Usize) : Prop := allocated env.sblock fs d = true ∧ (entryOf env.sblock fs d).type = inodeDirectory

def slotCount (d : Usize) : Nat := (entryOf env.sblock fs d).numBytes.toNat/dirEntrySize

-- The name and the inode number in a used entry.
def entryAt (d : Usize) (i : Nat) : Option (List Byte × Usize) := binding (slot fs.cache (entryOf env.sblock fs d) i)

-- An entry behind the two dots of `d` names `q`.
def Child (d q : Usize) : Prop := isDirectory env fs d ∧ ∃ i name, 2 ≤ i ∧ i < slotCount env fs d ∧ entryAt env fs d i = some (name,q)

def Linked (q : Usize) : Prop := Relation.ReflTransGen (Child env fs) rootInodeNo q

-- The entries, other than the own dots, that name `q` in directories that have a path.
def entriesOf (q : Usize) : Set (Usize × Nat) :=
  {e | Linked env fs e.1 ∧ isDirectory env fs e.1 ∧ 0 < e.2 ∧ e.2 < slotCount env fs e.1 ∧ ∃ name, entryAt env fs e.1 e.2 = some (name,q)}

end Reading

-- Whole entries, the two dots first, no name twice; and while the directory has links, every
-- entry names an inode that is in use.
structure Formed (env : Env) (fs : Fs) (d : Usize) : Prop where
  aligned : (entryOf env.sblock fs d).numBytes.toNat%dirEntrySize = 0
  two : 2 ≤ slotCount env fs d
  self : entryAt env fs d 0 = some (padded dot,d)
  up : ∃ p, entryAt env fs d 1 = some (padded dotdot,p)
  single : ∀ i j name p q, i < slotCount env fs d → j < slotCount env fs d → entryAt env fs d i = some (name,p) →
      entryAt env fs d j = some (name,q) → i = j
  used : (entryOf env.sblock fs d).numLinks ≠ 0#16 → ∀ i name q, i < slotCount env fs d → entryAt env fs d i = some (name,q) →
    allocated env.sblock fs q = true

section Consequences
variable {env : Env} {s : State} {vol : Volume} {d q no : Usize} {name : List Byte} {i : Nat}
  {m : List Byte → Option Usize}

theorem Stands.isDirectory (stands : Stands env s vol) : isDirectory env vol.fs d ↔ IsDir s.tree d := by
  constructor
  · rintro ⟨inUse,type⟩
    have inTable := stands.depicts.inTable (stands.depicts.there.mp inUse)
    exact (stands.depicts.drawn d inTable).isDir.mp type
  · intro isDir
    exact ⟨stands.depicts.there.mpr isDir.there,(stands.depicts.drawn d (stands.depicts.inTable isDir.there)).isDir.mpr isDir⟩

theorem Stands.listing (stands : Stands env s vol) (here : s.tree d = some (.dir m)) :
    Listing vol.fs.cache (entryOf env.sblock vol.fs d) m := by
  have drawn := stands.depicts.drawn d (stands.depicts.inTable (by rw [here]; rfl))
  rw [here] at drawn
  exact drawn.2

theorem Stands.entry (stands : Stands env s vol) (isDir : IsDir s.tree d) :
    Entry s.tree d name q ↔ ∃ i < slotCount env vol.fs d, entryAt env vol.fs d i = some (name,q) := by
  obtain ⟨m,here⟩ := isDir
  rw [entry_iff here]
  exact (stands.listing here).slots.bound name q

theorem Stands.place (stands : Stands env s vol) (isDir : IsDir s.tree d) (inside : i < slotCount env vol.fs d)
    (there : entryAt env vol.fs d i = some (name,q)) : (i = 0 ↔ name = dots.self) ∧ (i = 1 ↔ name = dots.up) := by
  obtain ⟨m,here⟩ := isDir
  exact (stands.listing here).heads i name q inside there

theorem Stands.child (stands : Stands env s vol) : Child env vol.fs d q ↔ Below dots s.tree d q := by
  constructor
  · rintro ⟨directory,i,name,behind,inside,there⟩
    have isDir := stands.isDirectory.mp directory
    obtain ⟨self,up⟩ := stands.place isDir inside there
    exact ⟨name,⟨fun own => by have := self.mpr own; omega,fun own => by have := up.mpr own; omega⟩,
        (stands.entry isDir).mpr ⟨i,inside,there⟩⟩
  · rintro ⟨name,plain,entry⟩
    obtain ⟨i,inside,there⟩ := (stands.entry entry.isDir).mp entry
    obtain ⟨self,up⟩ := stands.place entry.isDir inside there
    have behind : i ≠ 0 ∧ i ≠ 1 := ⟨fun first => plain.1 (self.mp first),fun second => plain.2 (up.mp second)⟩
    exact ⟨stands.isDirectory.mpr entry.isDir,i,name,by omega,inside,there⟩

theorem Stands.linked (stands : Stands env s vol) : Linked env vol.fs q ↔ Named dots rootInodeNo s.tree q := by
  have same : Child env vol.fs = Below dots s.tree := funext fun d => funext fun q => propext stands.child
  unfold Linked
  rw [same]
  constructor
  · intro path
    cases path with
    | refl => exact .inl rfl
    | tail _ last => exact .inr ⟨_,last⟩
  · exact stands.rooted.reached

theorem Stands.numLinks (stands : Stands env s vol) (inUse : allocated env.sblock vol.fs q = true) :
    (entryOf env.sblock vol.fs q).numLinks.toNat = links dots rootInodeNo s.tree q := by
  obtain ⟨node,here⟩ := Option.isSome_iff_exists.mp (stands.depicts.there.mp inUse)
  exact stands.depicts.linked q node here

theorem Stands.numLinks_zero (stands : Stands env s vol) (inUse : allocated env.sblock vol.fs q = true) :
    (entryOf env.sblock vol.fs q).numLinks = 0#16 ↔ ¬ Linked env vol.fs q := by
  rw [stands.linked,← stands.rooted.links_zero,← stands.numLinks inUse]
  exact ⟨congrArg BitVec.toNat,fun zero => BitVec.eq_of_toNat_eq zero⟩

theorem Stands.formed (stands : Stands env s vol) (directory : FileTree.isDirectory env vol.fs d) :
    Formed env vol.fs d := by
  have isDir := stands.isDirectory.mp directory
  obtain ⟨m,here⟩ := isDir
  have listing := stands.listing here
  obtain ⟨self,up⟩ := stands.rooted.heads here
  obtain ⟨p,up⟩ := Option.isSome_iff_exists.mp up
  obtain ⟨i,inside,first⟩ := (listing.slots.bound _ _).mp self
  obtain rfl := (listing.heads i _ _ inside first).1.mpr rfl
  obtain ⟨j,inside',second⟩ := (listing.slots.bound _ _).mp up
  obtain rfl := (listing.heads j _ _ inside' second).2.mpr rfl
  refine ⟨listing.aligned,inside',first,⟨p,second⟩,fun i j name p q left right => listing.slots.single i j name p q left right,?_⟩
  intro links i name q inside there
  have named : Named dots rootInodeNo s.tree d := by
    rw [← stands.linked]
    exact by_contra fun unlinked => links ((stands.numLinks_zero directory.1).mpr unlinked)
  have entry := (stands.entry ⟨m,here⟩).mpr ⟨i,inside,there⟩
  refine stands.depicts.there.mpr ?_
  by_cases own : name = dots.self
  · subst own
    cases entry.unique (stands.rooted.selves d ⟨m,here⟩)
    exact stands.rooted.there named
  · by_cases above : name = dots.up
    · subst above
      obtain ⟨p,entry',root,parent⟩ := stands.rooted.ups d ⟨m,here⟩
      cases entry.unique entry'
      rcases named with rfl | ⟨d',below⟩
      · rw [root rfl]
        exact stands.rooted.top.there
      · rw [parent d' below]
        exact stands.rooted.there (stands.rooted.inside d' d below).2.2
    · exact (stands.rooted.inside d q ⟨name,⟨own,above⟩,entry⟩).1

theorem Stands.counted (stands : Stands env s vol) (inUse : allocated env.sblock vol.fs q = true) :
    (entryOf env.sblock vol.fs q).numLinks.toNat = (entriesOf env vol.fs q).ncard := by
  rw [stands.numLinks inUse,stands.rooted.links_entries]
  refine (Set.ncard_congr (fun e _ => (e.1,((entryAt env vol.fs e.1 e.2).map Prod.fst).getD [])) ?_ ?_ ?_).symm
  · rintro ⟨d,i⟩ ⟨linked,directory,behind,inside,name,there⟩
    have isDir := stands.isDirectory.mp directory
    have key : ((entryAt env vol.fs d i).map Prod.fst).getD [] = name := by rw [there]; rfl
    simp only [key]
    refine ⟨fun own => ?_,stands.linked.mp linked,(stands.entry isDir).mpr ⟨i,inside,there⟩⟩
    have first := (stands.place isDir inside there).1.mpr own
    simp only at behind
    omega
  · rintro ⟨d,i⟩ ⟨d',j⟩ ⟨_,directory,_,inside,name,there⟩ ⟨_,_,_,inside',name',there'⟩ same
    simp only [there,there',Option.map_some,Option.getD_some,Prod.mk.injEq] at same
    obtain ⟨rfl,rfl⟩ := same
    rw [(stands.formed directory).single i j _ _ _ inside inside' there there']
  · rintro ⟨d,name⟩ ⟨plain,named,entry⟩
    obtain ⟨i,inside,there⟩ := (stands.entry entry.isDir).mp entry
    refine ⟨(d,i),⟨stands.linked.mpr named,stands.isDirectory.mpr entry.isDir,Nat.pos_of_ne_zero fun first => ?_,inside,name,there⟩,?_⟩
    · exact plain ((stands.place entry.isDir inside there).1.mp first)
    · simp only [there,Option.map_some,Option.getD_some]

end Consequences

end FileTree
