import HonorKernel.FileTree
import HonorKernel.FileFrames
import HonorKernel.DirectoryMap

-- The tree that an inode table stands for, and what the calls of the inode layer do to it.
namespace SlotMap
variable {K V : Type} {s s' : Slots K V} {m : K → Option V} {k : K} {v : V} {i : Nat}

theorem Represents.congr (rep : Represents s m) (size : s'.count = s.count)
    (same : ∀ j < s.count, s'.entry j = s.entry j) : Represents s' m := by
  refine ⟨?_,?_⟩
  · intro j l k v w left right at_j at_l
    rw [size] at left right
    rw [same j left] at at_j
    rw [same l right] at at_l
    exact rep.single j l k v w left right at_j at_l
  · intro k v
    rw [rep.bound k v,size]
    refine exists_congr fun j => and_congr_right fun inside => ?_
    rw [same j inside]

theorem Represents.clear [DecidableEq K] (rep : Represents s m) (inside : i < s.count)
    (there : s.entry i = some (k,v)) (size : s'.count = s.count) (here : s'.entry i = none)
    (others : ∀ j < s.count, j ≠ i → s'.entry j = s.entry j) : Represents s' (Function.update m k none) := by
  have origin : ∀ {j k' v'}, j < s'.count → s'.entry j = some (k',v') → j ≠ i ∧ j < s.count ∧ s.entry j = some (k',v') := by
    intro j k' v' below found
    have other : j ≠ i := by
      rintro rfl
      cases here.symm.trans found
    rw [size] at below
    exact ⟨other,below,(others j below other).symm.trans found⟩
  refine ⟨?_,?_⟩
  · intro j l k' v' w' left right at_j at_l
    obtain ⟨_,left,at_j⟩ := origin left at_j
    obtain ⟨_,right,at_l⟩ := origin right at_l
    exact rep.single j l k' v' w' left right at_j at_l
  · intro k' v'
    constructor
    · intro bound
      by_cases mine : k' = k
      · subst mine
        rw [Function.update_self] at bound
        cases bound
      · rw [Function.update_of_ne mine] at bound
        obtain ⟨j,below,found⟩ := (rep.bound k' v').mp bound
        have other : j ≠ i := by
          rintro rfl
          cases there.symm.trans found
          exact mine rfl
        exact ⟨j,by omega,(others j below other).trans found⟩
    · rintro ⟨j,below,found⟩
      obtain ⟨other,below,found⟩ := origin below found
      have different : k' ≠ k := by
        rintro rfl
        exact other (rep.single j i k' v' v below inside found there)
      rw [Function.update_of_ne different]
      exact (rep.bound k' v').mpr ⟨j,below,found⟩

end SlotMap

namespace FileTree
open DiskFormat CacheView InodeLayer SysFile NamingTree SlotMap
open Overlay (covers)

-- A directory's slots hold its names, the first two of them its own.
structure Listing (v : View) (e : InodeEntry) (m : List Byte → Option Usize) : Prop where
  whole : Whole v e
  aligned : e.numBytes.toNat%dirEntrySize = 0
  slots : Represents (slotsOf v e) m
  heads : ∀ i k no, i < e.numBytes.toNat/dirEntrySize → binding (slot v e i) = some (k,no) →
      (i = 0 ↔ k = dots.self) ∧ (i = 1 ↔ k = dots.up)

def Drawn (v : View) (e : InodeEntry) : Option Node → Prop
  | none => e.type = inodeInvalid
  | some (.leaf (.file bytes)) => e.type = inodeRegular ∧ Whole v e ∧ content v e = fun x => bytes[x]?
  | some (.leaf (.device major minor)) => e.type = inodeDevice ∧ e.major = major ∧ e.minor = minor
  | some (.dir m) => e.type = inodeDirectory ∧ Listing v e m

-- The same file with the same blocks, whatever else there is.
structure Alike (v : View) (e : InodeEntry) (v' : View) (e' : InodeEntry) : Prop where
  type : e'.type = e.type
  device : e.type = inodeDevice → e'.major = e.major ∧ e'.minor = e.minor
  numBytes : e'.numBytes = e.numBytes
  blocks : ∀ k b, fileBlock v e k = some b → fileBlock v' e' k = some b ∧ v'.blocks b = v.blocks b

section Drawing
variable {v v' : View} {e e' : InodeEntry} {m : List Byte → Option Usize} {node : Node} {bytes : List Byte}

theorem Alike.whole (alike : Alike v e v' e') (whole : Whole v e) : Whole v' e' ∧ content v' e' = content v e := by
  refine ⟨⟨by rw [alike.numBytes]; exact whole.size,?_⟩,?_⟩
  · intro k below
    rw [alike.numBytes] at below
    obtain ⟨b,mapped⟩ := Option.ne_none_iff_exists'.mp (whole.mapped k below)
    rw [(alike.blocks k b mapped).1]
    exact Option.some_ne_none b
  · funext x
    unfold content
    rw [alike.numBytes]
    by_cases below : x < e.numBytes.toNat
    · obtain ⟨b,mapped⟩ := Option.ne_none_iff_exists'.mp (whole.mapped (x/blockSize) (by unfold blockSize; omega))
      obtain ⟨mapped',data⟩ := alike.blocks _ b mapped
      rw [if_pos below,if_pos below]
      unfold fileByte
      simp only [mapped,mapped',data]
    · rw [if_neg below,if_neg below]

theorem Alike.slot (alike : Alike v e v' e') (whole : Whole v e) {i : Nat}
    (inside : i < e.numBytes.toNat/dirEntrySize) :
    InodeLayer.slot v' e' i = InodeLayer.slot v e i := by
  obtain ⟨whole',same⟩ := alike.whole whole
  refine slot_eq whole' (by rw [alike.numBytes]; exact inside) fun j small => ?_
  rw [same]
  exact slot_content whole inside small

theorem Alike.listing (alike : Alike v e v' e') (listing : Listing v e m) : Listing v' e' m := by
  have size : e'.numBytes = e.numBytes := alike.numBytes
  refine ⟨(alike.whole listing.whole).1,by rw [size]; exact listing.aligned,?_,?_⟩
  · refine listing.slots.congr ?_ fun j inside => congrArg binding (alike.slot listing.whole inside)
    unfold slotsOf
    rw [size]
  · intro i k no inside bound
    rw [size] at inside
    rw [alike.slot listing.whole inside] at bound
    exact listing.heads i k no inside bound

theorem Alike.drawn (alike : Alike v e v' e') {node : Option Node} (drawn : Drawn v e node) : Drawn v' e' node := by
  rcases node with _ | (⟨bytes⟩ | ⟨major,minor⟩) | m
  · exact alike.type.trans drawn
  · obtain ⟨type,whole,same⟩ := drawn
    obtain ⟨whole',same'⟩ := alike.whole whole
    exact ⟨alike.type.trans type,whole',same'.trans same⟩
  · obtain ⟨type,major,minor⟩ := drawn
    obtain ⟨major',minor'⟩ := alike.device type
    exact ⟨alike.type.trans type,major'.trans major,minor'.trans minor⟩
  · exact ⟨alike.type.trans drawn.1,alike.listing drawn.2⟩

theorem Drawn.valid (drawn : Drawn v e (some node)) : e.type ≠ inodeInvalid := by
  rcases node with (⟨bytes⟩ | ⟨major,minor⟩) | m <;> (rw [drawn.1]; decide)

theorem Drawn.stati {inode : Inode} (drawn : Drawn v inode.entry (some node)) :
    SysFile.stati inode = .ok inode.entry := by
  unfold SysFile.stati
  rcases node with (⟨bytes⟩ | ⟨major,minor⟩) | m
  · exact if_pos (.inl drawn.1)
  · exact if_pos (.inr (.inr drawn.1))
  · exact if_pos (.inr (.inl drawn.1))

theorem Drawn.directory {node : Option Node} (drawn : Drawn v e node) (type : e.type = inodeDirectory) :
    ∃ m, node = some (.dir m) ∧ Listing v e m := by
  rcases node with _ | (⟨bytes⟩ | ⟨major,minor⟩) | m
  · have clash : inodeInvalid = inodeDirectory := Eq.trans (Eq.symm drawn) type
    exact absurd clash (by decide)
  · exact absurd (drawn.1.symm.trans type) (by decide)
  · exact absurd (drawn.1.symm.trans type) (by decide)
  · exact ⟨m,rfl,drawn.2⟩

theorem Drawn.isDir {node : Option Node} (drawn : Drawn v e node) :
    e.type = inodeDirectory ↔ ∃ m, node = some (.dir m) := by
  constructor
  · intro type
    obtain ⟨m,is,_⟩ := drawn.directory type
    exact ⟨m,is⟩
  · rintro ⟨m,rfl⟩
    exact drawn.1

theorem Drawn.device (drawn : Drawn v e (some node)) (type : e.type = inodeDevice) :
    ∃ major minor, node = .leaf (.device major minor) := by
  rcases node with (⟨bytes⟩ | ⟨major,minor⟩) | m
  · exact absurd (drawn.1.symm.trans type) (by decide)
  · exact ⟨major,minor,rfl⟩
  · exact absurd (drawn.1.symm.trans type) (by decide)

theorem Drawn.length (drawn : Drawn v e (some (.leaf (.file bytes)))) : e.numBytes.toNat = bytes.length := by
  obtain ⟨_,_,same⟩ := drawn
  have below : ∀ x, x < e.numBytes.toNat ↔ x < bytes.length := by
    intro x
    have here := congrArg Option.isSome (congrFun same x)
    by_cases inside : x < e.numBytes.toNat
    · simp [content,inside] at here
      exact ⟨fun _ => here,fun _ => inside⟩
    · simp [content,inside] at here
      exact ⟨fun there => absurd there inside,fun there => by omega⟩
  have one := below bytes.length
  have two := below e.numBytes.toNat
  omega

theorem Drawn.shows (drawn : Drawn v e (some node)) (links : e.numLinks.toNat = l) : Shows e l node := by
  refine ⟨links,?_⟩
  rcases node with (⟨bytes⟩ | ⟨major,minor⟩) | m
  · exact ⟨drawn.1,drawn.length⟩
  · exact drawn
  · exact drawn.1

end Drawing

-- The tree that the table stands for while a call runs. `rc` are the references and `ℓ` the
-- links that the inodes have then, and `locked` are the inodes that the call has locked.
structure Depicts (env : Env) (t : Tree) (ℓ : Usize → Nat) (locked : List Usize) (rc : Usize → Int) (fs : Fs) : Prop where
  consistent : Consistent env.sblock fs
  locks : Locks locked fs
  counts : ∀ q, rcOf fs q = rc q
  drawn : ∀ no, InTable env.sblock no → Drawn fs.cache (entryOf env.sblock fs no) (t no)
  outside : ∀ no, ¬ InTable env.sblock no → t no = none
  linked : ∀ no node, t no = some node → (entryOf env.sblock fs no).numLinks.toNat = ℓ no

section Calls
variable {env : Env} {ctx : Ctx} {t : Tree} {ℓ : Usize → Nat} {locked locked' : List Usize} {rc change : Usize → Int}
  {fs fs' : Fs} {p q no : Usize} {inode : Inode} {node : Option Node} {m : List Byte → Option Usize} {name : List Byte}

theorem Depicts.congr (depicts : Depicts env t ℓ locked rc fs) {ℓ' : Usize → Nat} {rc' : Usize → Int}
    (links : ∀ no, (t no).isSome → ℓ' no = ℓ no) (counts : ∀ q, rc' q = rc q) : Depicts env t ℓ' locked rc' fs := by
  refine ⟨depicts.consistent,depicts.locks,fun q => (depicts.counts q).trans (counts q).symm,depicts.drawn,depicts.outside,?_⟩
  intro no node there
  rw [links no (by rw [there]; rfl)]
  exact depicts.linked no node there

theorem Depicts.relocked (depicts : Depicts env t ℓ locked rc fs) (same : ∀ q, q ∈ locked' ↔ q ∈ locked) :
    Depicts env t ℓ locked' rc fs :=
  ⟨depicts.consistent,depicts.locks.congr same,depicts.counts,depicts.drawn,depicts.outside,depicts.linked⟩

theorem Depicts.loaded (depicts : Depicts env t ℓ locked rc fs) (found : fs.inodes p = some inode) :
    InTable env.sblock p ∧
    Drawn fs.cache inode.entry (t p) ∧ rc p = inode.rc ∧ ∃ node, t p = some node ∧
    inode.entry.numLinks.toNat = ℓ p := by
  have alive := depicts.consistent.owned.loaded p inode found
  have inTable := depicts.consistent.owned.inTable p alive.1
  have drawn := depicts.drawn p inTable
  have links := depicts.linked p
  rw [entryOf_found found] at drawn links
  refine ⟨inTable,drawn,(depicts.counts p).symm.trans (rcOf_found found),?_⟩
  cases here : t p with
  | none =>
    rw [here] at drawn
    exact absurd drawn (depicts.consistent.typed p inode found)
  | some node => exact ⟨node,rfl,links node here⟩

theorem Depicts.found (depicts : Depicts env t ℓ locked rc fs) (referred : 0 < rc p) :
    ∃ inode, fs.inodes p = some inode := by
  rw [← depicts.counts p] at referred
  obtain ⟨inode,found,_⟩ := found_of_rc referred
  exact ⟨inode,found⟩

theorem Depicts.inTable (depicts : Depicts env t ℓ locked rc fs) (there : (t no).isSome) : InTable env.sblock no := by
  by_contra out
  rw [depicts.outside no out] at there
  cases there

theorem Depicts.there (depicts : Depicts env t ℓ locked rc fs) : allocated env.sblock fs no = true ↔ (t no).isSome := by
  by_cases inTable : InTable env.sblock no
  · cases found : fs.inodes no with
    | some inode =>
      obtain ⟨_,_,_,node,here,_⟩ := depicts.loaded found
      rw [here]
      exact ⟨fun _ => rfl,fun _ => (depicts.consistent.owned.loaded no inode found).1⟩
    | none =>
      have drawn := depicts.drawn no inTable
      have entry : entryOf env.sblock fs no = diskEntry env.sblock fs.cache no := by
        unfold entryOf
        rw [found]
      rw [entry] at drawn
      rw [allocated_iff,and_iff_right inTable]
      cases here : t no with
      | none =>
        rw [here] at drawn
        exact ⟨fun valid => absurd drawn valid,fun impossible => absurd impossible Bool.false_ne_true⟩
      | some node =>
        rw [here] at drawn
        exact ⟨fun _ => rfl,fun _ => drawn.valid⟩
  · rw [depicts.outside no inTable,allocated_iff]
    exact ⟨fun both => absurd both.1 inTable,fun impossible => absurd impossible Bool.false_ne_true⟩

theorem Depicts.quiet (depicts : Depicts env t ℓ locked rc fs) (consistent : Consistent env.sblock fs')
    (locks : Locks locked' fs') (counts : ∀ q, rcOf fs' q = rcOf fs q+change q) (cache : fs'.cache = fs.cache)
    (entry : ∀ no, entryOf env.sblock fs' no = entryOf env.sblock fs no) :
    Depicts env t ℓ locked' (rc+change) fs' := by
  refine ⟨consistent,locks,?_,?_,depicts.outside,?_⟩
  · intro q
    rw [counts q,depicts.counts q]
    rfl
  · intro no inTable
    rw [entry no,cache]
    exact depicts.drawn no inTable
  · intro no node there
    rw [entry no]
    exact depicts.linked no node there

theorem entryOf_set {sb : SuperBlock} {inode' : Inode} (found : fs.inodes p = some inode)
    (entry : inode'.entry = inode.entry) (no : Usize) :
    entryOf sb (fs.setInode p inode') no = entryOf sb fs no := by
  by_cases same : no = p
  · subst same
    rw [entryOf_found found,entryOf_found (show (fs.setInode no inode').inodes no = some inode' from Function.update_self ..)]
    exact entry
  · have kept : (fs.setInode p inode').inodes no = fs.inodes no := Function.update_of_ne same ..
    unfold entryOf
    rw [kept]
    rfl

theorem Avoided {fault : Fault} {α : Type} {post : α → Prop} {x : Except Fault α} {a : α}
    (avoids : Runs.Avoids fault post x) (ran : x = .ok a) : post a := by
  rw [ran] at avoids
  exact avoids

theorem inodeLock_free (locks : Locks locked fs) (ran : inodeLock p fs = .ok fs') : p ∉ locked := by
  intro mine
  obtain ⟨inode,found,ran⟩ := Runs.bind_ok.mp ran
  have lock := locks.lock p inode (Fs.inode_ok.mp found)
  rw [if_pos mine] at lock
  split at ran
  · cases ran
  · rw [lock] at ran
    cases ran

theorem Depicts.lock (depicts : Depicts env t ℓ locked rc fs) (ran : inodeLock p fs = .ok fs') :
    p ∉ locked ∧ Depicts env t ℓ (p::locked) rc fs' := by
  have out := inodeLock_free depicts.locks ran
  have locks := (Avoided (inodeLock_locks depicts.locks out) ran).1
  have consistent := inodeLock_consistent depicts.consistent ran
  have counts := (inodeLock_counts ran).rc
  obtain ⟨inode,lock,found,rfl⟩ := inodeLock_set ran
  have quiet := depicts.quiet consistent locks counts rfl (entryOf_set found rfl)
  rw [add_zero] at quiet
  exact ⟨out,quiet⟩

theorem Depicts.unlock (depicts : Depicts env t ℓ (p::locked) rc fs) (out : p ∉ locked)
    (ran : inodeUnlock p fs = .ok fs') : Depicts env t ℓ locked rc fs' := by
  have locks := (Avoided (inodeUnlock_locks depicts.locks out) ran).1
  have consistent := inodeUnlock_consistent depicts.consistent ran
  have counts := (inodeUnlock_counts ran).rc
  obtain ⟨inode,lock,found,rfl⟩ := inodeUnlock_set ran
  have quiet := depicts.quiet consistent locks counts rfl (entryOf_set found rfl)
  rwa [add_zero] at quiet

theorem Depicts.share (layout : Layout env.sblock) (depicts : Depicts env t ℓ locked rc fs)
    (ran : inodeShare p fs = .ok fs') :
    (t p).isSome ∧ Depicts env t ℓ locked (rc+one p) fs' := by
  have locks := Avoided (inodeShare_locks depicts.locks) ran
  have counts := (inodeShare_counts ran).rc
  have called : call env fs (.share p) = .ok fs' := ran
  have consistent := call_consistent layout depicts.consistent (.share p) trivial called
  obtain ⟨inode,found,ran⟩ := Runs.bind_ok.mp ran
  have found := Fs.inode_ok.mp found
  cases ran
  obtain ⟨_,_,_,node,here,_⟩ := depicts.loaded found
  exact ⟨by rw [here]; rfl,depicts.quiet consistent locks counts rfl (entryOf_set found rfl)⟩

theorem Depicts.get (depicts : Depicts env t ℓ locked rc fs) (there : (t no).isSome) {r : Option Usize}
    (ran : inodeGet env no fs = .ok (r,fs')) :
    r = some no ∧ Depicts env t ℓ locked (rc+one no) fs' := by
  have inTable := depicts.inTable there
  have locks := (Avoided (inodeGet_locks depicts.locks no) ran).1
  have counts := (inodeGet_counts ran).rc
  have consistent := inodeGet_consistent depicts.consistent (.inr (depicts.there.mpr there)) ran
  rcases inodeGet_cases ran with ⟨zero,_⟩ | ⟨_,rfl,⟨inode,found,rfl⟩ | ⟨unloaded,rfl⟩⟩
  · have positive := inTable.1
    rw [zero] at positive
    exact absurd positive (by decide)
  · exact ⟨rfl,depicts.quiet consistent locks counts rfl (entryOf_set found rfl)⟩
  · refine ⟨rfl,depicts.quiet consistent locks counts rfl fun other => ?_⟩
    by_cases same : other = no
    · subst same
      rw [entryOf_found (show (fs.load env.sblock other).inodes other = some _ from Function.update_self ..)]
      unfold entryOf
      rw [unloaded]
    · have kept : (fs.load env.sblock no).inodes other = fs.inodes other := Function.update_of_ne same ..
      unfold entryOf
      rw [kept]
      rfl

end Calls

-- Every inode but `p` keeps its entry and its blocks.
structure Spares (env : Env) (p : Usize) (fs fs' : Fs) : Prop where
  entry : ∀ no, InTable env.sblock no → no ≠ p → entryOf env.sblock fs' no = entryOf env.sblock fs no
  blocks : ∀ no, allocated env.sblock fs no = true → no ≠ p → ∀ k b, fileBlock fs.cache (entryOf env.sblock fs no) k = some b →
    fileBlock fs'.cache (entryOf env.sblock fs no) k = some b ∧ fs'.cache.blocks b = fs.cache.blocks b

section Changes
variable {env : Env} {ctx : Ctx} {t : Tree} {ℓ : Usize → Nat} {locked locked' : List Usize} {rc change : Usize → Int}
  {fs fs' : Fs} {p q no : Usize} {inode : Inode} {node : Option Node} {m : List Byte → Option Usize} {name : List Byte}

theorem fileBlock_refs {sb : SuperBlock} {live : Usize → Bool} {k : Nat} {b : Usize} (alive : live no = true)
    (fs : Fs) :
    fileBlock fs.cache (entryOf sb fs no) k = some b ↔ ∃ small :
    k < inodeMaxBlocks, refs sb live fs (no,.file ⟨k,small⟩) = some b := by
  unfold fileBlock refs
  by_cases small : k < inodeMaxBlocks
  · simp [small,alive]
  · simp [small]

theorem Spares.of_beside (owned : Owned env.sblock (allocated env.sblock fs) fs)
    (beside : Beside env.sblock (allocated env.sblock fs) p fs fs')
    (data : ∀ no k b, no ≠ p → refs env.sblock (allocated env.sblock fs) fs (no,.file k) = some b →
    fs'.cache.blocks b = fs.cache.blocks b) :
    Spares env p fs fs' := by
  refine ⟨fun no inTable other => beside.entryOf no inTable other,?_⟩
  intro no alive other k b mapped
  obtain ⟨small,refers⟩ := (fileBlock_refs alive fs).mp mapped
  refine ⟨?_,data no _ b other refers⟩
  rw [← beside.entryOf no (owned.inTable no alive) other,fileBlock_refs alive fs']
  exact ⟨small,(beside.refs owned no other _).trans refers⟩

theorem Spares.of_data (owned : Owned env.sblock (allocated env.sblock fs) fs)
    (beside : Beside env.sblock (allocated env.sblock fs) p fs fs') (data : SameData env.sblock fs.cache fs'.cache) :
    Spares env p fs fs' :=
  .of_beside owned beside fun _ _ b _ refers => data b (owned.balanced.sound _ b refers).1

theorem Depicts.replace (depicts : Depicts env t ℓ locked rc fs) (consistent : Consistent env.sblock fs')
    (locks : Locks locked' fs') (counts : ∀ q, rcOf fs' q = rcOf fs q+change q) (spares : Spares env p fs fs')
    (inTable : InTable env.sblock p) (drawn : Drawn fs'.cache (entryOf env.sblock fs' p) node) {l : Nat}
    (links : node.isSome → (entryOf env.sblock fs' p).numLinks.toNat = l) :
    Depicts env (Function.update t p node) (Function.update ℓ p l) locked' (rc+change) fs' := by
  refine ⟨consistent,locks,?_,?_,?_,?_⟩
  · intro q
    rw [counts q,depicts.counts q]
    rfl
  · intro no inside
    by_cases own : no = p
    · rw [own,Function.update_self]
      exact drawn
    · rw [Function.update_of_ne own]
      have old := depicts.drawn no inside
      have entry := spares.entry no inside own
      cases here : t no with
      | none =>
        rw [here] at old
        exact (congrArg InodeEntry.type entry).trans old
      | some node =>
        rw [here] at old
        rw [entry]
        have alive := depicts.there.mpr (show (t no).isSome = true by rw [here]; rfl)
        exact (Alike.mk rfl (fun _ => ⟨rfl,rfl⟩) rfl (spares.blocks no alive own)).drawn old
  · intro no out
    have own : no ≠ p := by
      rintro rfl
      exact out inTable
    rw [Function.update_of_ne own]
    exact depicts.outside no out
  · intro no node' there
    by_cases own : no = p
    · rw [own,Function.update_self] at there ⊢
      exact links (by rw [there]; rfl)
    · rw [Function.update_of_ne own] at there ⊢
      rw [spares.entry no (depicts.inTable (by rw [there]; rfl)) own]
      exact depicts.linked no node' there

theorem writeEntry_data (layout : Layout env.sblock) (inTable : InTable env.sblock p) (ctx : Ctx) (v : View)
    (e : InodeEntry) :
    SameData env.sblock v (writeEntry env.sblock ctx v p e) :=
  fun _ inData => Function.update_of_ne (layout.apart inTable inData).1 ..

-- inode_alloc: an entry of the table that was not in use.
def seedNode (type major minor : U16) : Node :=
  if type = inodeDirectory then .dir fun _ => none else if type = inodeRegular then .leaf (.file []) else .leaf (.device major minor)

def creatable (type : U16) : Prop := type = inodeDirectory ∨ type = inodeRegular ∨ type = inodeDevice

theorem zero_whole (v : View) (type : U16) : Whole v (InodeEntry.zero.setType type) ∧
    content v (InodeEntry.zero.setType type) = fun _ => none := by
  have empty : (InodeEntry.zero.setType type).numBytes.toNat = 0 := rfl
  refine ⟨⟨by rw [empty]; exact Nat.zero_le _,fun k below => ?_⟩,?_⟩
  · rw [empty] at below
    omega
  · funext x
    unfold content
    rw [empty,if_neg (Nat.not_lt_zero x)]

theorem zero_listing (v : View) (type : U16) : Listing v (InodeEntry.zero.setType type) fun _ => none := by
  have none : (InodeEntry.zero.setType type).numBytes.toNat/dirEntrySize = 0 := Nat.zero_div _
  refine ⟨(zero_whole v type).1,rfl,Represents.empty none,fun i k no inside => ?_⟩
  rw [none] at inside
  exact absurd inside (Nat.not_lt_zero i)

theorem seedNode_drawn (v : View) {type : U16} (fine : creatable type) : Drawn v (InodeEntry.zero.setType type)
    (some (seedNode type 0#16 0#16)) := by
  rcases fine with rfl | rfl | rfl
  · exact ⟨rfl,zero_listing v _⟩
  · refine ⟨rfl,(zero_whole v _).1,?_⟩
    rw [(zero_whole v _).2]
    rfl
  · exact ⟨rfl,rfl,rfl⟩

theorem Depicts.alloc (layout : Layout env.sblock) (depicts : Depicts env t ℓ locked rc fs) {type : U16}
    (fine : creatable type) (ran : inodeAlloc env ctx type fs = .ok (no,fs')) :
    t no = none ∧ InTable env.sblock no ∧ entryOf env.sblock fs' no = InodeEntry.zero.setType type ∧
      Depicts env (Function.update t no (some (seedNode type 0#16 0#16))) (Function.update ℓ no 0) locked rc fs' := by
  have counts := (inodeAlloc_counts ran).rc
  have consistent := inodeAlloc_consistent layout depicts.consistent ran
  have quiet := Avoided (inodeAlloc_quiet env ctx type fs) ran
  have valid : type ≠ inodeInvalid := by
    rcases fine with rfl | rfl | rfl <;> decide
  unfold inodeAlloc at ran
  rw [if_neg valid] at ran
  have first : (1#64 : Usize).toNat = 1 := rfl
  obtain ⟨inTable,free,written⟩ : InTable env.sblock no ∧ (diskEntry env.sblock fs.cache no).type = inodeInvalid ∧
      fs' = fs.setCache (writeEntry env.sblock ctx fs.cache no (InodeEntry.zero.setType type)) := by
    by_cases some : 1 < env.sblock.numInodes.toNat
    · exact allocLoop_spec (env.sblock.numInodes.toNat-1) fs 1#64 (by rw [first]; omega) (by rw [first]; omega) ran
    · rw [show env.sblock.numInodes.toNat-1 = 0 by omega] at ran
      cases ran
  have inodes : fs'.inodes = fs.inodes := by rw [written]; rfl
  have cache : fs'.cache = writeEntry env.sblock ctx fs.cache no (InodeEntry.zero.setType type) := by rw [written]; rfl
  have vacant : t no = none := by
    have unused : ¬ (t no).isSome := fun there => (allocated_iff.mp (depicts.there.mpr there)).2 free
    exact Option.not_isSome_iff_eq_none.mp unused
  have unloaded : fs'.inodes no = none := by
    rw [inodes]
    cases found : fs.inodes no with
    | none => rfl
    | some inode =>
      obtain ⟨_,_,_,node,here,_⟩ := depicts.loaded found
      cases vacant.symm.trans here
  have entry : entryOf env.sblock fs' no = InodeEntry.zero.setType type := by
    unfold entryOf
    rw [unloaded,cache]
    exact writeEntry_own _ _
  have data : SameData env.sblock fs.cache fs'.cache := by
    rw [cache]
    exact writeEntry_data layout inTable ctx _ _
  have beside : Beside env.sblock (allocated env.sblock fs) no fs fs' := by
    refine ⟨fun other _ => by rw [inodes],fun other inside different => ?_,fun other alive _ nonzero => ?_⟩
    · rw [cache]
      exact writeEntry_other layout _ inTable inside different _
    · exact data _ (depicts.consistent.owned.indirect_data alive nonzero).2.1
  have spares := Spares.of_data depicts.consistent.owned beside data
  have drawn : Drawn fs'.cache (entryOf env.sblock fs' no) (some (seedNode type 0#16 0#16)) := by
    rw [entry]
    exact seedNode_drawn _ fine
  have links : (entryOf env.sblock fs' no).numLinks.toNat = 0 := by
    rw [entry]
    rfl
  have changed := depicts.replace consistent (depicts.locks.facts quiet) counts spares inTable drawn fun _ => links
  rw [add_zero] at changed
  exact ⟨vacant,inTable,entry,changed⟩

-- inode_put of the last reference to an inode without links. The entry is free then.
theorem inodePut_frees (layout : Layout env.sblock) (owned : Owned env.sblock live fs)
    (found : fs.inodes p = some inode) (last : inode.rc-1 = 0 ∧ inode.entry.numLinks = 0#16)
    (ran : inodePut env ctx p fs = .ok fs') :
    fs'.inodes p = none ∧ (diskEntry env.sblock fs'.cache p).type = inodeInvalid := by
  unfold inodePut at ran
  simp only [Fs.inode_ok.mpr found,bind,Except.bind,last,and_self,if_true] at ran
  obtain ⟨cleared,first,ran⟩ := Runs.bind_ok.mp ran
  cases ran
  refine ⟨Function.update_self ..,?_⟩
  obtain ⟨counted,_⟩ := setInode_owned owned found {inode with rc := 0} rfl rfl rfl rfl
  have found' : (fs.setInode p {inode with rc := 0}).inodes p = some {inode with rc := 0} := Function.update_self ..
  obtain ⟨marked,_⟩ := setInode_owned counted found'
    {inode with
      rc := 0
      entry := inode.entry.setType inodeInvalid} rfl rfl rfl rfl
  obtain ⟨_,_,_,disk⟩ := inodeClear_clears layout marked (Function.update_self ..) first
  rw [show (Fs.mk cleared.cache (Function.update cleared.inodes p none)).cache = cleared.cache from rfl,disk]
  rfl

theorem inodePut_keeps (found : fs.inodes p = some inode) (kept : ¬ (inode.rc-1 = 0 ∧ inode.entry.numLinks = 0#16))
    (ran : inodePut env ctx p fs = .ok fs') : fs' = fs.setInode p {inode with rc := inode.rc-1} := by
  unfold inodePut at ran
  simp only [Fs.inode_ok.mpr found,bind,Except.bind,if_neg kept] at ran
  cases ran
  rfl

theorem Depicts.put (layout : Layout env.sblock) (depicts : Depicts env t ℓ locked rc fs) (out : p ∉ locked)
    (ran : inodePut env ctx p fs = .ok fs') :
    (t p).isSome ∧ ((rc p ≠ 1 ∨ ℓ p ≠ 0) ∧ Depicts env t ℓ locked (rc-one p) fs' ∨
      rc p = 1 ∧ ℓ p = 0 ∧ Depicts env (Function.update t p none) ℓ locked (rc-one p) fs') := by
  have consistent := inodePut_consistent layout depicts.consistent ran
  have locks := Avoided (inodePut_locks depicts.locks out) ran
  have counts := (inodePut_counts ran).rc
  obtain ⟨inode,found,ways⟩ := inodePut_cases layout depicts.consistent.owned ran
  obtain ⟨inTable,_,count,node,here,links⟩ := depicts.loaded found
  have unlinked : inode.entry.numLinks = 0#16 ↔ ℓ p = 0 := by
    rw [← links]
    exact ⟨fun zero => by rw [zero]; rfl,fun zero => BitVec.eq_of_toNat_eq zero⟩
  refine ⟨by rw [here]; rfl,?_⟩
  by_cases last : inode.rc-1 = 0 ∧ inode.entry.numLinks = 0#16
  · obtain ⟨gone,free⟩ := inodePut_frees layout depicts.consistent.owned found last ran
    rcases ways with rfl | ⟨_,_,cleared,beside,data,_,is⟩
    · have there : (fs.setInode p {inode with rc := inode.rc-1}).inodes p = _ := Function.update_self ..
      cases gone.symm.trans there
    · have entry : entryOf env.sblock fs' p = diskEntry env.sblock fs'.cache p := by
        unfold entryOf
        rw [gone]
      have cache : fs'.cache = cleared.cache := by rw [is]
      have others : ∀ no, no ≠ p → fs'.inodes no = cleared.inodes no := by
        intro no other
        rw [is]
        exact Function.update_of_ne other ..
      have beside : Beside env.sblock (InodeLayer.allocated env.sblock fs) p fs fs' := by
        refine ⟨fun no other => (others no other).trans (beside.inodes no other),?_,?_⟩
        · rw [cache]
          exact beside.disk
        · rw [cache]
          exact beside.indirect
      have spares := Spares.of_data depicts.consistent.owned beside (by rw [cache]; exact data)
      have drawn : Drawn fs'.cache (entryOf env.sblock fs' p) none := by
        rw [entry]
        exact free
      have changed := depicts.replace consistent locks counts spares inTable drawn (l := ℓ p) fun impossible =>
          absurd impossible Bool.false_ne_true
      rw [Function.update_eq_self] at changed
      exact .inr ⟨by omega,unlinked.mp last.2,changed⟩
  · have is := inodePut_keeps found last ran
    subst is
    refine .inl ⟨?_,depicts.quiet consistent locks counts rfl (entryOf_set found rfl)⟩
    by_contra both
    rw [not_or,not_not,not_not] at both
    exact last ⟨by omega,unlinked.mpr both.2⟩

theorem sameData_blocks {sb : SuperBlock} {live : Usize → Bool} {v : View} (owned : Owned sb live fs)
    (found : fs.inodes p = some inode) (data : SameData sb fs.cache v) {k : Nat} {b : Usize}
    (mapped : fileBlock fs.cache inode.entry k = some b) :
    fileBlock v inode.entry k = some b ∧ v.blocks b = fs.cache.blocks b := by
  obtain ⟨_,refers⟩ := (fileBlock_iff owned found k b).mp mapped
  have same : ∀ place, refsOf v inode.entry place = refsOf fs.cache inode.entry place := by
    intro place
    cases place with
    | direct i => rfl
    | indirect => rfl
    | entry i =>
      simp only [refsOf]
      by_cases none : inode.entry.indirect = 0#32
      · rw [if_pos none,if_pos none]
      · rw [if_neg none,if_neg none,data _ (owned.balanced.sound _ _ (owned.own_indirect found none)).1]
  refine ⟨?_,data b (owned.balanced.sound _ b refers).1⟩
  unfold fileBlock at mapped ⊢
  simp only [same]
  exact mapped

theorem Depicts.sync (layout : Layout env.sblock) (depicts : Depicts env t ℓ locked rc fs)
    (found : fs.inodes p = some inode) {e : InodeEntry} (type : e.type = inode.entry.type)
    (addrs : e.addrs = inode.entry.addrs) (indirect : e.indirect = inode.entry.indirect)
    (ran : inodeSync env ctx p true (fs.setEntry p inode e) = .ok fs')
    (draws : ∀ v, (∀ k b, fileBlock fs.cache inode.entry k = some b → fileBlock v e k = some b ∧
    v.blocks b = fs.cache.blocks b) →
      Drawn v e node) : Depicts env (Function.update t p node) (Function.update ℓ p e.numLinks.toNat) locked rc fs' := by
  obtain ⟨inTable,_,_,_⟩ := depicts.loaded found
  obtain ⟨consistent,_,beside,written⟩ := sync_consistent layout depicts.consistent found e type addrs indirect ran
  have facts : facts fs' = SysFile.facts fs := by
    rw [written]
    exact facts_set found rfl rfl type
  have counts : ∀ q, rcOf fs' q = rcOf fs q+(0 : Usize → Int) q := by
    intro q
    have rc : ({inode with entry := e} : Inode).rc = inode.rc+0 := (Int.add_zero _).symm
    have set := rcOf_set found 0 rc q
    rw [Int.zero_mul] at set
    rw [written]
    exact set
  have data : SameData env.sblock fs.cache fs'.cache := by
    rw [written]
    exact writeEntry_data layout inTable ctx _ _
  have entry : entryOf env.sblock fs' p = e := by
    rw [written]
    exact entryOf_found (show
        ((fs.setEntry p inode e).setCache _).inodes p = some {inode with entry := e} from Function.update_self ..)
  have drawn : Drawn fs'.cache (entryOf env.sblock fs' p) node := by
    rw [entry]
    refine draws _ fun k b mapped => ?_
    have same : ∀ v k, fileBlock v e k = fileBlock v inode.entry k := by
      intro v k
      unfold fileBlock refsOf
      rw [addrs,indirect]
    rw [same]
    exact sameData_blocks depicts.consistent.owned found data mapped
  have changed := depicts.replace consistent (depicts.locks.facts facts) counts
      (Spares.of_data depicts.consistent.owned beside data) inTable drawn
    fun _ => congrArg (fun e => e.numLinks.toNat) entry
  rwa [add_zero] at changed

theorem Depicts.relink (layout : Layout env.sblock) (depicts : Depicts env t ℓ locked rc fs) {turn : U16 → U16}
    (ran : relink env ctx p turn fs = .ok fs') :
    (t p).isSome ∧ ∃ links :
    U16, links.toNat = ℓ p ∧ Depicts env t (Function.update ℓ p (turn links).toNat) locked rc fs' := by
  obtain ⟨inode,found,ran⟩ := Runs.bind_ok.mp ran
  have found := Fs.inode_ok.mp found
  obtain ⟨_,drawn,_,node,here,links⟩ := depicts.loaded found
  have alike : ∀ v, (∀ k b, fileBlock fs.cache inode.entry k = some b →
      fileBlock v (inode.entry.setNumLinks (turn inode.entry.numLinks)) k = some b ∧ v.blocks b = fs.cache.blocks b) →
      Alike fs.cache inode.entry v (inode.entry.setNumLinks (turn inode.entry.numLinks)) :=
    fun v blocks => ⟨rfl,fun _ => ⟨rfl,rfl⟩,rfl,blocks⟩
  have synced := depicts.sync layout found
      (e := inode.entry.setNumLinks (turn inode.entry.numLinks)) rfl rfl rfl ran fun v blocks =>
      (alike v blocks).drawn drawn
  rw [Function.update_eq_self] at synced
  exact ⟨by rw [here]; rfl,inode.entry.numLinks,links,synced⟩

theorem Depicts.written (layout : Layout env.sblock) (depicts : Depicts env t ℓ locked rc fs)
    (found : fs.inodes p = some inode) (file : inode.entry.type ≠ inodeDevice) {src : List Byte} {offset n : Usize}
    (fits : offset.toNat+src.length ≤ inodeMaxBytes) (ran : inodeWrite env ctx p src offset fs = .ok (n,fs')) :
    ∃ inode', fs'.inodes p = some inode' ∧ inode'.entry.type = inode.entry.type ∧
      (Drawn fs'.cache inode'.entry node → Depicts env (Function.update t p node) ℓ locked rc fs') := by
  have owned := depicts.consistent.owned
  have works := inodeWrite_works layout owned ran
  have quiet := Avoided (inodeWrite_quiet src offset found file) ran
  obtain ⟨_,_,_,writes,_,_⟩ := inodeWrite_content layout owned found file fits ran
  obtain ⟨inTable,_,_,was,_,links⟩ := depicts.loaded found
  obtain ⟨inode',found',type,kept⟩ := works.found inode found
  refine ⟨inode',found',type,fun drawn => ?_⟩
  have spares : Spares env p fs fs' := by
    refine .of_beside owned works.beside fun no k b other refers => byteAt_ext fun j inside => ?_
    rw [writes.bytes no k b refers j (by unfold blockSize; omega),if_neg fun both => other both.1]
  have changed := depicts.replace (works.consistent depicts.consistent found) (depicts.locks.facts quiet)
      (inodeWrite_counts ran).rc spares inTable
    (by rw [entryOf_found found']; exact drawn) (l := ℓ p) fun _ => by rw [entryOf_found found',kept]; exact links
  rwa [Function.update_eq_self,add_zero] at changed

theorem Depicts.directory (depicts : Depicts env t ℓ locked rc fs) (found : fs.inodes p = some inode)
    (here : t p = some (.dir m)) :
    DirectoryFile env (allocated env.sblock fs) p fs inode ∧ Listing fs.cache inode.entry m := by
  obtain ⟨_,drawn,_⟩ := depicts.loaded found
  rw [here] at drawn
  exact ⟨⟨depicts.consistent.owned,found,drawn.1,drawn.2.whole,drawn.2.aligned⟩,drawn.2⟩

theorem binding_valid {dir : DirEntry} {k : List Byte} (bound : binding dir = some (k,no)) :
    no ≠ 0#64 ∧ padded k = k := by
  unfold binding at bound
  split at bound
  · cases bound
  · rename_i used
    simp only [Option.some.injEq,Prod.mk.injEq] at bound
    obtain ⟨rfl,rfl⟩ := bound
    refine ⟨fun zero => used ?_,padded_padded _⟩
    have value := congrArg BitVec.toNat zero
    rw [BitVec.toNat_setWidth] at value
    have small := dir.inodeNo.isLt
    refine BitVec.eq_of_toNat_eq ?_
    rw [← Nat.mod_eq_of_lt (show dir.inodeNo.toNat < 2^64 by omega),value]
    rfl

theorem Depicts.lookup (depicts : Depicts env t ℓ locked rc fs) {off : Option Usize}
    (ran : inodeLookup env p name fs = .ok (no,off,fs')) :
    fs' = fs ∧ ∃ inode m, fs.inodes p = some inode ∧ t p = some (.dir m) ∧ (m (padded name) = none ∧ no = 0#64 ∨
      m (padded name) = some no ∧ no ≠ 0#64 ∧ ∃ i < inode.entry.numBytes.toNat/dirEntrySize,
        binding (slot fs.cache inode.entry i) = some (padded name,no) ∧
        off = some (BitVec.ofNat 64 (dirEntrySize*i))) := by
  obtain ⟨inode,found,type⟩ := inodeLookup_directory ran
  obtain ⟨_,drawn,_⟩ := depicts.loaded found
  obtain ⟨m,here,listing⟩ := drawn.directory type
  obtain ⟨dir,_⟩ := depicts.directory found here
  have answers := dir.lookup listing.slots name
  cases bound : m (padded name) with
  | none =>
    rw [bound] at answers
    cases ran.symm.trans answers
    exact ⟨rfl,inode,m,found,here,.inl ⟨bound,rfl⟩⟩
  | some q =>
    rw [bound] at answers
    obtain ⟨i,inside,there,answer⟩ := answers
    cases ran.symm.trans answer
    exact ⟨rfl,inode,m,found,here,.inr ⟨bound,(binding_valid there).1,i,inside,there,rfl⟩⟩

theorem Depicts.writeSlot (layout : Layout env.sblock) (depicts : Depicts env t ℓ locked rc fs)
    (found : fs.inodes p = some inode) (here : t p = some (.dir m)) {i : Nat}
    (start : i ≤ inode.entry.numBytes.toNat/dirEntrySize) {new : DirEntry} {n : Usize}
    {m' : List Byte → Option Usize}
    (slots : ∀ s : Slots (List Byte) Usize, s.count = max (inode.entry.numBytes.toNat/dirEntrySize) (i+1) →
    s.entry i = binding new →
      (∀ j < inode.entry.numBytes.toNat/dirEntrySize, j ≠ i → s.entry j = binding (slot fs.cache inode.entry j)) →
      Represents s m')
    (heads : ∀ k q, binding new = some (k,q) → (i = 0 ↔ k = dots.self) ∧ (i = 1 ↔ k = dots.up))
    (ran : inodeWrite env ctx p new.bytes (BitVec.ofNat 64 (dirEntrySize*i)) fs = .ok (n,fs')) :
    ∃ inode', fs'.inodes p = some inode' ∧
    inode'.entry.numBytes.toNat/dirEntrySize = max (inode.entry.numBytes.toNat/dirEntrySize) (i+1) ∧
      binding (slot fs'.cache inode'.entry i) = binding new ∧
      Depicts env (Function.update t p (some (.dir m'))) ℓ locked rc fs' := by
  obtain ⟨dir,listing⟩ := depicts.directory found here
  obtain ⟨inode',dir',count,written,others⟩ := dir.write layout new start ran
  have offset := slot_offset dir start
  have size := dir.whole.size
  have length := DirEntry.bytes_length new
  have bound : inodeMaxBytes = 71680 := rfl
  have fits := inodeWrite_fits found (directory_file dir.directory) (by rw [offset]; unfold dirEntrySize at start ⊢; omega)
    (by rw [length]; decide) ran
  obtain ⟨last,found',_,changed⟩ := depicts.written layout found (directory_file dir.directory) fits ran
  cases dir'.found.symm.trans found'
  refine ⟨inode',found',count,congrArg binding written,changed ⟨dir'.directory,dir'.whole,dir'.aligned,?_,?_⟩⟩
  · exact slots _ count (congrArg binding written) fun j below other => congrArg binding (others j below other)
  · intro j k q inside bound
    by_cases own : j = i
    · subst own
      rw [written] at bound
      exact heads k q bound
    · rw [count] at inside
      rw [others j (by omega) own] at bound
      exact listing.heads j k q (by omega) bound

-- inode_insert of a new name. `place` says where the two names of the directory go.
theorem Depicts.insert (layout : Layout env.sblock) (depicts : Depicts env t ℓ locked rc fs)
    (found : fs.inodes p = some inode) (here : t p = some (.dir m)) (nonzero : 0 < no.toNat) (small : no.toNat < 65536)
    (place : ∀ i ≤ inode.entry.numBytes.toNat/dirEntrySize,
      (i < inode.entry.numBytes.toNat/dirEntrySize → binding (slot fs.cache inode.entry i) = none) →
        (i = 0 ↔ padded name = dots.self) ∧ (i = 1 ↔ padded name = dots.up))
    {r : Usize} (ran : inodeInsert env ctx p name no fs = .ok (r,fs')) (new : r ≠ BitVec.allOnes 64) :
    m (padded name) = none ∧ ∃ inode' i, fs'.inodes p = some inode' ∧ i ≤ inode.entry.numBytes.toNat/dirEntrySize ∧
      inode'.entry.numBytes.toNat/dirEntrySize = max (inode.entry.numBytes.toNat/dirEntrySize) (i+1) ∧
      binding (slot fs'.cache inode'.entry i) = some (padded name,no) ∧
      Depicts env (Function.update t p (some (.dir (Function.update m (padded name) (some no))))) ℓ locked rc fs' := by
  obtain ⟨dir,listing⟩ := depicts.directory found here
  have walked := (dir.lookup listing.slots name).walked dir
  rcases inodeInsert_cases dir.found dir.directory dir.whole.readable ran with ⟨_,rfl,_⟩ | ⟨missing,_,n,written⟩
  · exact absurd rfl new
  · have absent : m (padded name) = none := by
      rw [walked] at missing
      exact Option.isSome_eq_false_iff.mp missing |> Option.isNone_iff_eq_none.mp
    obtain ⟨i,at_i,start,free⟩ := newSlot_free env dir
    have bound := newEntry_binding env fs.cache inode.entry name nonzero small
    rw [at_i] at written
    obtain ⟨inode',found',count,entry,changed⟩ := depicts.writeSlot layout found here start
      (fun s size at_new others => listing.slots.fill absent free start size (at_new.trans bound) others)
      (fun k q is => by
        cases bound.symm.trans is
        exact place i start free) written
    exact ⟨absent,inode',i,found',start,count,entry.trans bound,changed⟩

theorem Listing.place {v : View} {e : InodeEntry} (listing : Listing v e m) (self : (m dots.self).isSome)
    (up : (m dots.up).isSome) (plain : dots.Plain name) {i : Nat}
    (free : i < e.numBytes.toNat/dirEntrySize → binding (slot v e i) = none) :
    (i = 0 ↔ name = dots.self) ∧ (i = 1 ↔ name = dots.up) := by
  obtain ⟨q,self⟩ := Option.isSome_iff_exists.mp self
  obtain ⟨d,up⟩ := Option.isSome_iff_exists.mp up
  obtain ⟨a,inside_a,at_a⟩ := (listing.slots.bound _ _).mp self
  obtain ⟨b,inside_b,at_b⟩ := (listing.slots.bound _ _).mp up
  have first := (listing.heads a _ _ inside_a at_a).1.mpr rfl
  have second := (listing.heads b _ _ inside_b at_b).2.mpr rfl
  subst first
  subst second
  refine ⟨⟨?_,fun own => absurd own plain.1⟩,⟨?_,fun own => absurd own plain.2⟩⟩
  · rintro rfl
    cases (free inside_a).symm.trans at_a
  · rintro rfl
    cases (free inside_b).symm.trans at_b

theorem Depicts.clearSlot (layout : Layout env.sblock) (depicts : Depicts env t ℓ locked rc fs)
    (found : fs.inodes p = some inode) (here : t p = some (.dir m)) {i : Nat}
    (inside : i < inode.entry.numBytes.toNat/dirEntrySize) {k : List Byte}
    (bound : binding (slot fs.cache inode.entry i) = some (k,no)) {n : Usize}
    (ran : inodeWrite env ctx p (DirEntry.bytes 0#128) (BitVec.ofNat 64 (dirEntrySize*i)) fs = .ok (n,fs')) :
    Depicts env (Function.update t p (some (.dir (Function.update m k none)))) ℓ locked rc fs' := by
  obtain ⟨_,listing⟩ := depicts.directory found here
  have nothing : binding 0#128 = none := by decide
  obtain ⟨_,_,_,_,changed⟩ := depicts.writeSlot layout found here (by omega)
    (fun s size at_i others => listing.slots.clear inside bound (size.trans (Nat.max_eq_left inside))
      (at_i.trans nothing) others)
    (fun k q is => by cases nothing.symm.trans is) ran
  exact changed

end Changes

section Files
variable {env : Env} {ctx : Ctx} {t : Tree} {ℓ : Usize → Nat} {locked : List Usize} {rc : Usize → Int} {fs fs' : Fs}
  {p q no : Usize} {inode : Inode} {m : List Byte → Option Usize} {bytes src : List Byte}

theorem getElem?_overwrite {off : Nat} (inside : off ≤ bytes.length) (x : Nat) :
    (overwrite bytes src off)[x]? = if covers (off,src) x then src[x-off]? else bytes[x]? := by
  have length : (bytes.take off).length = off := List.length_take_of_le inside
  unfold overwrite
  by_cases before : x < off
  · have outside : ¬ covers (off,src) x := fun both => absurd both.1 (Nat.not_le.mpr before)
    rw [List.append_assoc,List.getElem?_append_left (by omega),if_neg outside,List.getElem?_take_of_lt before]
  · rw [List.append_assoc,List.getElem?_append_right (by omega),length]
    by_cases within : x-off < src.length
    · have covered : covers (off,src) x := ⟨by omega,by show x < off+src.length; omega⟩
      rw [List.getElem?_append_left within,if_pos covered]
    · have outside : ¬ covers (off,src) x := fun both => within (by have last : x < off+src.length := both.2; omega)
      rw [List.getElem?_append_right (by omega),if_neg outside,List.getElem?_drop]
      congr 1
      omega

theorem Depicts.writeFile (layout : Layout env.sblock) (depicts : Depicts env t ℓ locked rc fs)
    (here : t p = some (.leaf (.file bytes))) (short : src.length ≤ inodeMaxBytes) {off n : Usize}
    (ran : inodeWrite env ctx p src off fs = .ok (n,fs')) :
    n = BitVec.ofNat 64 src.length ∧ off.toNat ≤ bytes.length ∧
      Depicts env (Function.update t p (some (.leaf (.file (overwrite bytes src off.toNat))))) ℓ locked rc fs' := by
  have ran' := ran
  obtain ⟨inode,found,ran'⟩ := Runs.bind_ok.mp ran'
  have found := Fs.inode_ok.mp found
  have owned := depicts.consistent.owned
  obtain ⟨_,drawn,_⟩ := depicts.loaded found
  rw [here] at drawn
  have length := drawn.length
  obtain ⟨type,whole,text⟩ := drawn
  have file : inode.entry.type ≠ inodeDevice := by
    rw [type]
    decide
  have starts : off.toNat ≤ inode.entry.numBytes.toNat := by
    simp only [if_neg file] at ran'
    split at ran'
    · rename_i bounds
      have le : off.toNat ≤ (inode.entry.numBytes.setWidth 64).toNat := bounds.1
      have small := inode.entry.numBytes.isLt
      rw [BitVec.toNat_setWidth] at le
      omega
    · cases ran'
  have size := whole.size
  have fits := inodeWrite_fits found file (by omega) short ran
  obtain ⟨count,_,owned',writes,_,inode',found',type',grown⟩ := inodeWrite_content layout owned found file fits ran
  obtain ⟨whole',painted⟩ := write_paints writes owned owned' found found' whole fits starts grown
  obtain ⟨last,there,_,changed⟩ := depicts.written layout found file fits ran
  cases found'.symm.trans there
  rw [length] at starts
  refine ⟨count,starts,changed ⟨type'.trans type,whole',?_⟩⟩
  rw [painted,text]
  funext x
  exact (getElem?_overwrite starts x).symm

theorem inodeRead_file (found : fs.inodes p = some inode) (file : inode.entry.type ≠ inodeDevice)
    (whole : Whole fs.cache inode.entry) {off count n : Usize} {data : List Byte}
    (ran : inodeRead env p off count fs = .ok (n,data,fs')) :
    fs' = fs ∧ off.toNat ≤ inode.entry.numBytes.toNat ∧
    n = BitVec.ofNat 64 (min count.toNat (inode.entry.numBytes.toNat-off.toNat)) ∧
      data = (List.range (min count.toNat (inode.entry.numBytes.toNat-off.toNat))).map fun j =>
          fileByte fs.cache inode.entry (off.toNat+j) := by
  have size := whole.size
  have bound : inodeMaxBytes = 71680 := rfl
  have wide : (inode.entry.numBytes.setWidth 64).toNat = inode.entry.numBytes.toNat := by
    have small := inode.entry.numBytes.isLt
    rw [BitVec.toNat_setWidth]
    omega
  -- A count that reaches over the end is cut to what is left, also where the sum wraps.
  have inside : off.toNat ≤ inode.entry.numBytes.toNat := by
    obtain ⟨other,there,ran'⟩ := Runs.bind_ok.mp ran
    cases found.symm.trans (Fs.inode_ok.mp there)
    simp only [if_neg file] at ran'
    split at ran'
    · rename_i bounds
      have le : off.toNat ≤ (inode.entry.numBytes.setWidth 64).toNat := bounds.1
      omega
    · cases ran'
  by_cases small : off.toNat+count.toNat < 2^64
  · have read : inodeRead env p off count fs = _ := inodeRead_whole found file whole off count inside small
    cases ran.symm.trans read
    exact ⟨rfl,inside,rfl,rfl⟩
  · obtain ⟨left,rest,rest_toNat⟩ : ∃ left : Usize, left = inode.entry.numBytes.setWidth 64-off ∧
      left.toNat = inode.entry.numBytes.toNat-off.toNat := by
      refine ⟨_,rfl,?_⟩
      rw [BitVec.toNat_sub,wide]
      have below := off.isLt
      omega
    have sum : left+off = inode.entry.numBytes.setWidth 64 := by
      rw [rest,BitVec.sub_add_cancel]
    have cut : readCount (inode.entry.numBytes.setWidth 64) off left = left := by
      unfold readCount
      rw [sum,if_neg (BitVec.lt_irrefl _)]
    have cut' : readCount (inode.entry.numBytes.setWidth 64) off count = left := by
      unfold readCount
      by_cases reach : inode.entry.numBytes.setWidth 64 < count+off
      · rw [if_pos reach,rest]
      · obtain ⟨other,there,ran'⟩ := Runs.bind_ok.mp ran
        cases found.symm.trans (Fs.inode_ok.mp there)
        simp only [if_neg file,readCount,if_neg reach] at ran'
        split at ran'
        · rename_i bounds
          have le : off.toNat ≤ (off+count).toNat := bounds.2.2
          have below := off.isLt
          have below' := count.isLt
          rw [BitVec.toNat_add] at le
          omega
        · cases ran'
    have same : inodeRead env p off count fs = inodeRead env p off left fs := by
      unfold inodeRead
      simp only [Fs.inode_ok.mpr found,bind,Except.bind,if_neg file,cut,cut']
    have read : inodeRead env p off left fs = _ := inodeRead_whole found file whole off left inside (by omega)
    rw [← same] at read
    cases ran.symm.trans read
    have less : min left.toNat (inode.entry.numBytes.toNat-off.toNat) = min count.toNat (inode.entry.numBytes.toNat-off.toNat) := by omega
    rw [less]
    exact ⟨rfl,inside,rfl,rfl⟩

theorem Depicts.readFile (depicts : Depicts env t ℓ locked rc fs) (found : fs.inodes p = some inode)
    (file : inode.entry.type ≠ inodeDevice) {off count n : Usize} {data : List Byte}
    (ran : inodeRead env p off count fs = .ok (n,data,fs')) : fs' = fs ∧
      ∀ bytes, t p = some (.leaf (.file bytes)) → off.toNat ≤ bytes.length ∧
      data = (bytes.drop off.toNat).take count.toNat ∧
        n = BitVec.ofNat 64 data.length := by
  obtain ⟨_,drawn,_,node,here,_⟩ := depicts.loaded found
  have whole : Whole fs.cache inode.entry := by
    rw [here] at drawn
    rcases node with (⟨bytes⟩ | ⟨major,minor⟩) | m
    · exact drawn.2.1
    · exact absurd drawn.1 file
    · exact drawn.2.whole
  obtain ⟨same,inside,number,text⟩ := inodeRead_file found file whole ran
  refine ⟨same,fun bytes is => ?_⟩
  rw [is] at drawn
  rw [drawn.length] at inside number text
  have each : data = (bytes.drop off.toNat).take count.toNat := by
    refine List.ext_getElem? fun j => ?_
    rw [text,List.getElem?_map,List.getElem?_take,List.getElem?_drop]
    have at_j := congrFun drawn.2.2 (off.toNat+j)
    unfold content at at_j
    rw [drawn.length] at at_j
    by_cases within : j < min count.toNat (bytes.length-off.toNat)
    · rw [List.getElem?_range within,if_pos (by omega),← at_j,if_pos (by omega)]
      rfl
    · rw [List.getElem?_eq_none (by rw [List.length_range]; omega)]
      split
      · rw [List.getElem?_eq_none (by omega)]
        rfl
      · rfl
  refine ⟨inside,each,?_⟩
  rw [number,text,List.length_map,List.length_range]

theorem isdirempty_slots (dir : DirectoryFile env live p fs inode) (fuel i : Nat)
    (enough : inode.entry.numBytes.toNat/dirEntrySize ≤ fuel+i) {empty : Bool}
    (ran : isdirempty env p fuel (dirEntrySize*i) fs = .ok (empty,fs')) : fs' = fs ∧
      (empty = true ↔ ∀ j, i ≤ j → j < inode.entry.numBytes.toNat/dirEntrySize →
      binding (slot fs.cache inode.entry j) = none) := by
  have aligned := dir.aligned
  have size := dir.whole.size
  have bound : inodeMaxBytes = 71680 := rfl
  have end_of : ¬ dirEntrySize*i < inode.entry.numBytes.toNat → ∀ j, i ≤ j → ¬ j < inode.entry.numBytes.toNat/dirEntrySize := by
    unfold dirEntrySize
    omega
  induction fuel generalizing i with
  | zero =>
    cases ran
    refine ⟨rfl,⟨fun _ j later inside => absurd inside (by omega),fun _ => rfl⟩⟩
  | succ fuel ih =>
    obtain ⟨other,there,ran⟩ := Runs.bind_ok.mp ran
    cases dir.found.symm.trans (Fs.inode_ok.mp there)
    split at ran
    · rename_i below
      have inside : i < inode.entry.numBytes.toNat/dirEntrySize := by
        unfold dirEntrySize at below aligned ⊢
        omega
      have offset := slot_offset dir (Nat.le_of_lt inside)
      obtain ⟨n,bytes,read,stored⟩ := inodeRead_slot env dir.found dir.directory dir.whole.readable (BitVec.ofNat 64 (dirEntrySize*i))
        (by rw [offset]; omega) env.stack
      rw [offset,readSlot_slot inside] at stored
      obtain ⟨⟨n',bytes',fs₁⟩,read',ran⟩ := Runs.bind_ok.mp ran
      cases read.symm.trans read'
      simp only at ran
      split at ran
      · cases ran
      · have bits : binding (slot fs.cache inode.entry i) = none ↔ DirEntry.inodeNo (setBytes env.stack 0 bytes) = 0#16 := by
          rw [stored]
          unfold binding
          split
          · rename_i zero
            exact ⟨fun _ => zero,fun _ => rfl⟩
          · rename_i used
            exact ⟨fun impossible => absurd impossible (Option.some_ne_none _),fun zero => absurd zero used⟩
        split at ran
        · rename_i used
          cases ran
          exact ⟨rfl,⟨fun impossible => absurd impossible Bool.false_ne_true,fun all => absurd
              (bits.mp (all i (Nat.le_refl i) inside)) used⟩⟩
        · rename_i free
          obtain ⟨same,rest⟩ := ih (i+1) (by omega) (by rw [Nat.mul_add,Nat.mul_one]; exact ran)
            (by unfold dirEntrySize at *; omega)
          refine ⟨same,rest.trans ⟨fun all j later within => ?_,fun all j later within => all j (by omega) within⟩⟩
          by_cases here : j = i
          · rw [here]
            exact bits.mpr (not_not.mp free)
          · exact all j (by omega) within
    · rename_i past
      cases ran
      exact ⟨rfl,⟨fun _ j later inside => absurd inside (end_of past j later),fun _ => rfl⟩⟩

theorem Depicts.busy (depicts : Depicts env t ℓ locked rc fs) {busy : Bool}
    (ran : SysFile.inUse env p fs = .ok (busy,fs')) :
    fs' = fs ∧ (busy = false ↔ ∀ c, ¬ Below dots t p c) := by
  obtain ⟨inode,found,ran⟩ := Runs.bind_ok.mp ran
  have found := Fs.inode_ok.mp found
  obtain ⟨_,drawn,_⟩ := depicts.loaded found
  split at ran
  · rename_i type
    obtain ⟨m,here,listing⟩ := drawn.directory type
    obtain ⟨dir,_⟩ := depicts.directory found here
    obtain ⟨⟨empty,fs₁⟩,scanned,ran⟩ := Runs.bind_ok.mp ran
    cases ran
    obtain ⟨same,free⟩ := isdirempty_slots dir inode.entry.numBytes.toNat 2 (by unfold dirEntrySize; omega) scanned
    refine ⟨same,?_⟩
    rw [Bool.not_eq_false',free]
    constructor
    · rintro unbound c ⟨name,plain,entry⟩
      obtain ⟨i,inside,bound⟩ := (listing.slots.bound name c).mp ((entry_iff here).mp entry)
      obtain ⟨self,up⟩ := listing.heads i name c inside bound
      have first : i ≠ 0 := fun zero => plain.1 (self.mp zero)
      have second : i ≠ 1 := fun one => plain.2 (up.mp one)
      have none := unbound i (by omega) inside
      cases none.symm.trans bound
    · intro alone j later inside
      cases bound : binding (slot fs.cache inode.entry j) with
      | none => rfl
      | some named =>
        obtain ⟨self,up⟩ := listing.heads j named.1 named.2 inside bound
        refine absurd ⟨named.1,⟨?_,?_⟩,(entry_iff here).mpr ((listing.slots.bound _ _).mpr ⟨j,inside,bound⟩)⟩ (alone named.2)
        · exact fun own => absurd (self.mpr own) (by omega)
        · exact fun own => absurd (up.mpr own) (by omega)
  · rename_i file
    cases ran
    refine ⟨rfl,fun _ c below => ?_,fun _ => rfl⟩
    obtain ⟨_,_,entry⟩ := below
    exact file (drawn.isDir.mpr entry.isDir)

end Files

end FileTree
