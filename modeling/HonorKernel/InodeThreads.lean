import HonorKernel.DiskFormat
import HonorKernel.Runs
import Mathlib.Data.List.Nodup

-- inode_get, inode_share and inode_put of fs/inode.c with many threads: cache->acquire is
-- where others run, everything else of a call is one step.
namespace InodeThreads
open DiskFormat (U16)

-- In inode_sync of a new Inode, or in inode_clear of one that nobody needs.
inductive Pc where
  | idle
  | loading (inode : Nat)
  | clearing (inode : Nat)
deriving DecidableEq

-- Inodes are addresses; `list` is the list behind `head`. The spinlock of inode_clear only
-- keeps calls of inode_clear from one another. `disk` are the links of the inode entries.
structure State (n : Nat) where
  list : List Nat
  inodeNo : Nat → Nat
  rc : Nat → Int
  numLinks : Nat → U16
  valid : Nat → Bool
  disk : Nat → U16
  pcs : Fin n → Pc

-- `fresh` is what kalloc returns if there is no Inode yet. `link` is a change of num_links by
-- a holder, with inode_sync.
inductive Action (n : Nat) where
  | get (t : Fin n) (inodeNo fresh : Nat)
  | share (t : Fin n) (inode : Nat)
  | put (t : Fin n) (inode : Nat)
  | link (t : Fin n) (inode : Nat) (links : U16)
  | run (t : Fin n)
deriving DecidableEq

variable {n : Nat}

namespace State

def goto (s : State n) (t : Fin n) (pc : Pc) : State n := { s with pcs := Function.update s.pcs t pc }

def count (s : State n) (inode : Nat) (by_ : Int) : State n := { s with rc := Function.update s.rc inode (s.rc inode+by_) }

-- kalloc, init_inode, the number and the first reference.
def create (s : State n) (inode inodeNo : Nat) : State n :=
  { s with
    inodeNo := Function.update s.inodeNo inode inodeNo
    rc := Function.update s.rc inode 1
    valid := Function.update s.valid inode false }

-- The rest of inode_sync, and _insert_into_list.
def insert (s : State n) (inode : Nat) : State n :=
  { s with
    numLinks := Function.update s.numLinks inode (s.disk (s.inodeNo inode))
    valid := Function.update s.valid inode true
    list := inode::s.list }

-- The rest of inode_clear, _detach_from_list and kfree.
def remove (s : State n) (inode : Nat) : State n :=
  { s with
    disk := Function.update s.disk (s.inodeNo inode) (s.numLinks inode)
    list := s.list.erase inode }

-- What kalloc may return.
def unused (s : State n) (inode : Nat) : Prop := inode ∉ s.list ∧ ∀ t, s.pcs t ≠ .loading inode ∧ s.pcs t ≠ .clearing inode

instance (s : State n) (inode : Nat) : Decidable (s.unused inode) := by
  unfold unused
  infer_instance

end State

-- Only who has a reference shares or puts it.
def next (numInodes : Nat) (s : State n) : Action n → Option (State n)
  | .get t inodeNo fresh =>
    if s.pcs t = .idle ∧ 0 < inodeNo ∧ inodeNo < numInodes ∧ s.unused fresh then
      match s.list.find? fun inode => s.inodeNo inode = inodeNo with
      | some inode => some (s.count inode 1)
      | none => some ((s.create fresh inodeNo).goto t (.loading fresh))
    else none
  | .share t inode => if s.pcs t = .idle ∧ inode ∈ s.list ∧ 0 < s.rc inode then some (s.count inode 1) else none
  | .put t inode =>
    if s.pcs t = .idle ∧ inode ∈ s.list ∧ 0 < s.rc inode then
      let s := s.count inode (-1)
      some (if s.rc inode = 0 ∧ s.numLinks inode = 0#16 then s.goto t (.clearing inode) else s)
    else none
  | .link t inode links =>
    if s.pcs t = .idle ∧ inode ∈ s.list ∧ 0 < s.rc inode then
      some { s with
        numLinks := Function.update s.numLinks inode links
        disk := Function.update s.disk (s.inodeNo inode) links }
    else none
  | .run t =>
    match s.pcs t with
    | .idle => none
    | .loading inode => some ((s.insert inode).goto t .idle)
    | .clearing inode => some ((s.remove inode).goto t .idle)

def start (memory : State n) : State n := { memory with list := [], pcs := fun _ => .idle }

def Unique (s : State n) : Prop := (s.list.map s.inodeNo).Nodup

def Pc.inode : Pc → Option Nat
  | .loading inode => some inode
  | _ => none

-- inode_get looks for an inode that another thread is loading.
def overtakes (s : State n) : Action n → Prop
  | .get _ inodeNo _ => ∃ u, ∃ inode ∈ (s.pcs u).inode, s.inodeNo inode = inodeNo
  | _ => False

instance (s : State n) (a : Action n) : Decidable (overtakes s a) :=
  match a with
  | .get _ inodeNo _ => inferInstanceAs (Decidable (∃ u, ∃ inode ∈ (s.pcs u).inode, s.inodeNo inode = inodeNo))
  | .share _ _ | .put _ _ | .link _ _ _ | .run _ => .isFalse id

-- What is being loaded is in nobody else's hands.
structure Loads (s : State n) : Prop where
  unique : Unique s
  absent : ∀ t inode, s.pcs t = .loading inode → s.inodeNo inode ∉ s.list.map s.inodeNo
  single : ∀ t u inode inode', t ≠ u → s.pcs t = .loading inode → s.pcs u = .loading inode' → s.inodeNo inode ≠ s.inodeNo inode'

section steps
variable {numInodes : Nat} {s s' : State n} {t : Fin n} {inode fresh inodeNo : Nat}

theorem mem_inode {pc : Pc} : inode ∈ pc.inode ↔ pc = .loading inode := by
  cases pc with
  | loading other =>
    simp only [Pc.inode,Option.mem_some_iff,Pc.loading.injEq]
  | _ => simp [Pc.inode]

theorem goto_loading {pc : Pc} {u : Fin n} (at_ : (s.goto t pc).pcs u = .loading inode) :
    (u = t ∧ pc = .loading inode) ∨ (u ≠ t ∧ s.pcs u = .loading inode) := by
  by_cases mine : u = t
  · subst mine
    exact .inl ⟨rfl,(Function.update_self _ _ _).symm.trans at_⟩
  · exact .inr ⟨mine,(Function.update_of_ne mine _ _).symm.trans at_⟩

theorem Loads.goto {pc : Pc} (loads : Loads s) (other : ∀ inode, pc ≠ .loading inode) : Loads (s.goto t pc) := by
  refine ⟨loads.unique,fun u inode at_ => ?_,fun u v inode inode' different one two => ?_⟩
  · rcases goto_loading at_ with ⟨_,same⟩ | ⟨_,old⟩
    · exact absurd same (other inode)
    · exact loads.absent u inode old
  · rcases goto_loading one with ⟨_,same⟩ | ⟨_,old⟩
    · exact absurd same (other inode)
    · rcases goto_loading two with ⟨_,same⟩ | ⟨_,older⟩
      · exact absurd same (other inode')
      · exact loads.single u v inode inode' different old older

theorem Loads.miss (loads : Loads s) (unused : s.unused fresh) (new : inodeNo ∉ s.list.map s.inodeNo)
    (alone : ∀ u inode, s.pcs u = .loading inode → s.inodeNo inode ≠ inodeNo) :
    Loads ((s.create fresh inodeNo).goto t (.loading fresh)) := by
  have here : (s.create fresh inodeNo).inodeNo fresh = inodeNo := Function.update_self _ _ _
  have there : ∀ inode ≠ fresh, (s.create fresh inodeNo).inodeNo inode = s.inodeNo inode :=
    fun inode other => Function.update_of_ne other _ _
  have same : s.list.map (s.create fresh inodeNo).inodeNo = s.list.map s.inodeNo := by
    refine List.map_congr_left fun inode listed => there inode ?_
    rintro rfl
    exact unused.1 listed
  have loaded : ∀ u inode, s.pcs u = .loading inode → (s.create fresh inodeNo).inodeNo inode = s.inodeNo inode := by
    intro u inode at_
    refine there inode ?_
    rintro rfl
    exact (unused.2 u).1 at_
  refine ⟨?_,fun u inode at_ => ?_,fun u v inode inode' different one two => ?_⟩
  · change (s.list.map (s.create fresh inodeNo).inodeNo).Nodup
    rw [same]
    exact loads.unique
  · change (s.create fresh inodeNo).inodeNo inode ∉ s.list.map (s.create fresh inodeNo).inodeNo
    rw [same]
    rcases goto_loading at_ with ⟨_,mine⟩ | ⟨_,old⟩
    · cases mine
      rw [here]
      exact new
    · change s.pcs u = _ at old
      rw [loaded u inode old]
      exact loads.absent u inode old
  · change (s.create fresh inodeNo).inodeNo inode ≠ (s.create fresh inodeNo).inodeNo inode'
    rcases goto_loading one with ⟨first,mine⟩ | ⟨_,old⟩
    · cases mine
      rcases goto_loading two with ⟨second,_⟩ | ⟨_,older⟩
      · exact absurd (first.trans second.symm) different
      · rw [here,loaded v inode' older]
        exact (alone v inode' older).symm
    · rcases goto_loading two with ⟨_,mine⟩ | ⟨_,older⟩
      · cases mine
        rw [here,loaded u inode old]
        exact alone u inode old
      · rw [loaded u inode old,loaded v inode' older]
        exact loads.single u v inode inode' different old older

theorem Loads.load (loads : Loads s) (at_ : s.pcs t = .loading inode) : Loads ((s.insert inode).goto t .idle) := by
  have others : ∀ u inode', ((s.insert inode).goto t .idle).pcs u = .loading inode' → u ≠ t ∧ s.pcs u = .loading inode' := by
    intro u inode' reads
    rcases goto_loading reads with ⟨_,mine⟩ | old
    · cases mine
    · exact old
  refine ⟨List.nodup_cons.mpr ⟨loads.absent t inode at_,loads.unique⟩,fun u inode' reads listed => ?_,
    fun u v one two different first second => ?_⟩
  · obtain ⟨other,old⟩ := others u inode' reads
    rcases List.mem_cons.mp listed with same | listed
    · exact loads.single u t inode' inode other old at_ same
    · exact loads.absent u inode' old listed
  · exact loads.single u v one two different (others u one first).2 (others v two second).2

theorem Loads.clear (loads : Loads s) : Loads ((s.remove inode).goto t .idle) := by
  have removed : Loads (s.remove inode) := by
    refine ⟨List.Sublist.nodup (List.Sublist.map _ List.erase_sublist) loads.unique,fun u inode' at_ listed => ?_,loads.single⟩
    refine loads.absent u inode' at_ ?_
    obtain ⟨other,member,same⟩ := List.mem_map.mp listed
    exact List.mem_map.mpr ⟨other,List.mem_of_mem_erase member,same⟩
  exact removed.goto (by simp)

theorem Loads.next {a : Action n} (loads : Loads s) (behind : ¬overtakes s a) (ran : next numInodes s a = some s') :
    Loads s' := by
  cases a with
  | get t inodeNo fresh =>
    simp only [InodeThreads.next] at ran
    split at ran
    · rename_i ready
      split at ran
      · cases ran
        exact ⟨loads.unique,loads.absent,loads.single⟩
      · rename_i missed
        cases ran
        refine loads.miss ready.2.2.2 (fun listed => ?_) fun u inode at_ same => behind ⟨u,inode,mem_inode.mpr at_,same⟩
        obtain ⟨inode,member,same⟩ := List.mem_map.mp listed
        have other := List.find?_eq_none.mp missed inode member
        simp [same] at other
    · cases ran
  | share t inode =>
    simp only [InodeThreads.next] at ran
    split at ran
    · cases ran
      exact ⟨loads.unique,loads.absent,loads.single⟩
    · cases ran
  | put t inode =>
    simp only [InodeThreads.next] at ran
    split at ran
    · cases ran
      have counted : Loads (s.count inode (-1)) := ⟨loads.unique,loads.absent,loads.single⟩
      split
      · exact counted.goto (by simp)
      · exact counted
    · cases ran
  | link t inode links =>
    simp only [InodeThreads.next] at ran
    split at ran
    · cases ran
      exact ⟨loads.unique,loads.absent,loads.single⟩
    · cases ran
  | run t =>
    simp only [InodeThreads.next] at ran
    split at ran
    · cases ran
    · rename_i inode at_
      cases ran
      exact loads.load at_
    · cases ran
      exact loads.clear

theorem Loads.overtaken (loads : Loads s) (overtaking : overtakes s (.get t inodeNo fresh))
    (ran : InodeThreads.next numInodes s (.get t inodeNo fresh) = some s') :
    ∃ u middle last, InodeThreads.next numInodes s' (.run u) = some middle ∧
    InodeThreads.next numInodes middle (.run t) = some last ∧
      ¬Unique last := by
  obtain ⟨u,inode,member,same⟩ := overtaking
  have at_ := mem_inode.mp member
  simp only [InodeThreads.next] at ran
  split at ran
  · rename_i ready
    have other : u ≠ t := by
      rintro rfl
      rw [ready.1] at at_
      cases at_
    have different : inode ≠ fresh := by
      rintro rfl
      exact (ready.2.2.2.2 u).1 at_
    split at ran
    · rename_i found hit
      have listed := List.mem_of_find?_eq_some hit
      have number : s.inodeNo found = inodeNo := by simpa using List.find?_some hit
      refine absurd ?_ (loads.absent u inode at_)
      rw [same,← number]
      exact List.mem_map_of_mem listed
    · cases ran
      have first : ((s.create fresh inodeNo).goto t (.loading fresh)).pcs u = .loading inode :=
        (Function.update_of_ne other _ _).trans at_
      have second : ((((s.create fresh inodeNo).goto t (.loading fresh)).insert inode).goto u .idle).pcs t = .loading fresh :=
        (Function.update_of_ne other.symm _ _).trans (Function.update_self _ _ _)
      refine ⟨u,_,_,by simp only [InodeThreads.next,first]; rfl,by simp only [InodeThreads.next,second]; rfl,fun unique => ?_⟩
      have numbers : Function.update s.inodeNo fresh inodeNo fresh = Function.update s.inodeNo fresh inodeNo inode := by
        rw [Function.update_self,Function.update_of_ne different,same]
      refine (List.nodup_cons.mp unique).1 ?_
      exact List.mem_map.mpr ⟨inode,List.mem_cons_self,numbers.symm⟩
  · cases ran

end steps

theorem start_loads (memory : State n) : Loads (start memory) := by
  refine ⟨List.nodup_nil,fun t inode at_ => ?_,fun t _ inode _ _ at_ => ?_⟩
  · cases at_
  · cases at_

theorem one_inode_per_number {numInodes : Nat} {memory s : State n}
    (path : Runs.Guarded (next numInodes) (fun s a => ¬overtakes s a) (start memory) s) :
    Unique s ∧ ∀ t inodeNo fresh s', next numInodes s (.get t inodeNo fresh) = some s' →
    overtakes s (.get t inodeNo fresh) →
      ∃ u middle last, next numInodes s' (.run u) = some middle ∧ next numInodes middle (.run t) = some last ∧
      ¬Unique last := by
  have loads : Loads s := path.invariant Loads (start_loads memory) fun _ _ _ loads behind ran => loads.next behind ran
  exact ⟨loads.unique,fun t inodeNo fresh s' ran overtaking => loads.overtaken overtaking ran⟩

-- A disk with one link for every inode.
def blank : State 2 := ⟨[],fun _ => 0,fun _ => 0,fun _ => 0,fun _ => false,fun _ => 1,fun _ => .idle⟩

theorem one_inode_per_number_shared : ∃ s : State 2,
    Runs.Guarded (next 200) (fun s a => ¬overtakes s a) (start blank) s ∧ s.list = [4096] ∧ s.rc 4096 = 2 ∧
    Unique s := by
  obtain ⟨s,ran,facts⟩ := Runs.some_such (p := fun s : State 2 => decide (s.list = [4096] ∧ s.rc 4096 = 2))
    (x := Runs.execGuarded (next 200) (fun s a => ¬overtakes s a) (start blank) [.get 0 5 4096,.run 0,.get 1 5 8192]) (by decide)
  obtain ⟨list,count⟩ := of_decide_eq_true facts
  have path := Runs.exec_guarded .start ran
  exact ⟨s,path,list,count,(one_inode_per_number path).1⟩

-- The second thread looks for inode 5 while the first one waits for its block.
theorem two_inodes_of_one_number : ∃ s : State 2, Runs.Reached (next 200) (start blank) s ∧
    s.list = [8192,4096] ∧ s.inodeNo 4096 = 5 ∧ s.inodeNo 8192 = 5 ∧ ¬Unique s := by
  obtain ⟨s,ran,facts⟩ := Runs.some_such
    (p := fun s : State 2 => decide (s.list = [8192,4096] ∧ s.inodeNo 4096 = 5 ∧ s.inodeNo 8192 = 5))
    (x := Runs.exec (next 200) (start blank) [.get 0 5 4096,.get 1 5 8192,.run 0,.run 1]) (by decide)
  obtain ⟨list,one,two⟩ := of_decide_eq_true facts
  refine ⟨s,Runs.exec_reached .start ran,list,one,two,fun unique => ?_⟩
  simp [Unique,list,one,two] at unique

end InodeThreads
