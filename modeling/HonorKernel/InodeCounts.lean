import HonorKernel.SectionBudget

-- What every function of the inode layer and of the path names does to the reference
-- counts of the inodes in memory, and that none leaves an inode behind that has neither
-- references nor links.
namespace SysFile
open DiskFormat CacheView InodeLayer

-- An inode that is not in memory has no references.
def rcOf (fs : Fs) (p : Usize) : Int :=
  match fs.inodes p with
  | some inode => inode.rc
  | none => 0

-- An inode without references has links, or it has been like that before.
def Freed (fs fs' : Fs) : Prop :=
  ∀ q inode', fs'.inodes q = some inode' → inode'.rc ≤ 0 →
    inode'.entry.numLinks ≠ 0#16 ∨ ∃ inode, fs.inodes q = some inode ∧ inode.rc ≤ 0 ∧ inode.entry.numLinks = inode'.entry.numLinks

structure Counts (change : Usize → Int) (fs fs' : Fs) : Prop where
  rc : ∀ q, rcOf fs' q = rcOf fs q+change q
  freed : Freed fs fs'

-- The reference that comes with a pointer that may be NULL.
def taken : Option Usize → Usize → Int
  | none => 0
  | some p => one p

section Layer
variable {env : Env} {ctx : Ctx} {fs fs' fs'' : Fs} {p ip dp : Usize} {inode inode' : Inode}
  {change change' : Usize → Int}

theorem Freed.refl (fs : Fs) : Freed fs fs := fun _ inode there unused => .inr ⟨inode,there,unused,rfl⟩

theorem Freed.trans (first : Freed fs fs') (second : Freed fs' fs'') : Freed fs fs'' := by
  intro q inode'' there unused
  rcases second q inode'' there unused with linked | ⟨inode',there',unused',same⟩
  · exact .inl linked
  · rw [← same]
    exact first q inode' there' unused'

theorem Counts.refl (fs : Fs) : Counts 0 fs fs := ⟨fun _ => (Int.add_zero _).symm,.refl fs⟩

theorem Counts.trans (first : Counts change fs fs') (second : Counts change' fs' fs'') :
    Counts (change+change') fs fs'' := by
  refine ⟨?_,first.freed.trans second.freed⟩
  intro q
  rw [second.rc q,first.rc q,Pi.add_apply,Int.add_assoc]

theorem Counts.keep (first : Counts change fs fs') (second : Counts 0 fs' fs'') : Counts change fs fs'' := by
  have both := first.trans second
  rwa [add_zero] at both

theorem Counts.after (first : Counts 0 fs fs') (second : Counts change fs' fs'') : Counts change fs fs'' := by
  have both := first.trans second
  rwa [zero_add] at both

theorem Counts.congr (counts : Counts change fs fs') (same : ∀ q, change q = change' q) : Counts change' fs fs' := by
  refine ⟨?_,counts.freed⟩
  intro q
  rw [counts.rc q,same q]

theorem Counts.of_inodes (same : fs'.inodes = fs.inodes) : Counts 0 fs fs' := by
  refine ⟨?_,?_⟩
  · intro q
    rw [rcOf,rcOf,same]
    exact (Int.add_zero _).symm
  · intro q inode there unused
    rw [same] at there
    exact .inr ⟨inode,there,unused,rfl⟩

theorem one_nonneg (p q : Usize) : 0 ≤ one p q := by
  unfold one
  split <;> decide

theorem rcOf_found (found : fs.inodes p = some inode) : rcOf fs p = inode.rc := by
  rw [rcOf,found]

theorem rcOf_set (found : fs.inodes p = some inode) (more : Int) (rc : inode'.rc = inode.rc+more) (q : Usize) :
    rcOf (fs.setInode p inode') q = rcOf fs q+more*one p q := by
  by_cases same : q = p
  · subst same
    have here : (fs.setInode q inode').inodes q = some inode' := Function.update_self ..
    rw [rcOf_found here,rcOf_found found,rc,one_self,Int.mul_one]
  · have there : (fs.setInode p inode').inodes q = fs.inodes q := Function.update_of_ne same ..
    rw [rcOf,there,one_other same,Int.mul_zero,Int.add_zero]
    rfl

theorem Freed.set (fine : inode'.rc ≤ 0 → inode'.entry.numLinks ≠ 0#16 ∨
      ∃ inode, fs.inodes p = some inode ∧ inode.rc ≤ 0 ∧ inode.entry.numLinks = inode'.entry.numLinks) :
    Freed fs (fs.setInode p inode') := by
  intro q inode₁ there unused
  by_cases same : q = p
  · subst same
    have here : (fs.setInode q inode').inodes q = some inode' := Function.update_self ..
    cases here.symm.trans there
    exact fine unused
  · have kept : (fs.setInode p inode').inodes q = fs.inodes q := Function.update_of_ne same ..
    rw [kept] at there
    exact .inr ⟨inode₁,there,unused,rfl⟩

theorem Counts.more (found : fs.inodes p = some inode) : Counts (one p) fs (fs.setInode p {inode with rc := inode.rc+1}) := by
  refine ⟨?_,Freed.set ?_⟩
  · intro q
    rw [rcOf_set found 1 rfl,Int.one_mul]
  · intro unused
    simp only at unused
    exact .inr ⟨inode,found,by omega,rfl⟩

theorem Counts.reset (found : fs.inodes p = some inode) (rc : inode'.rc = inode.rc)
    (fine : inode.rc ≤ 0 → inode'.entry.numLinks ≠ 0#16 ∨ inode.entry.numLinks = inode'.entry.numLinks) :
    Counts 0 fs (fs.setInode p inode') := by
  refine ⟨?_,Freed.set ?_⟩
  · intro q
    rw [rcOf_set found 0 (by omega),Int.zero_mul]
    rfl
  · intro unused
    rw [rc] at unused
    exact (fine unused).imp_right fun same => ⟨inode,found,unused,same⟩

theorem Counts.setEntry (found : fs.inodes p = some inode) {e : InodeEntry}
    (links : inode.entry.numLinks = e.numLinks) :
    Counts 0 fs (fs.setEntry p inode e) :=
  .reset found rfl fun _ => .inr links

theorem Counts.cache (fs : Fs) (v : View) : Counts 0 fs (fs.setCache v) := .of_inodes rfl

theorem Counts.entry (found : fs.inodes p = some inode) (v : View) {e : InodeEntry}
    (links : inode.entry.numLinks = e.numLinks) :
    Counts 0 fs ((fs.setCache v).setEntry p inode e) := by
  have there : (fs.setCache v).inodes p = some inode := found
  exact (Counts.cache fs v).keep (.setEntry there links)

theorem inodeLock_counts (ran : inodeLock p fs = .ok fs') : Counts 0 fs fs' := by
  obtain ⟨inode,there,ran⟩ := Runs.bind_ok.mp ran
  split at ran
  · cases ran
  · split at ran
    · cases ran
      exact .reset (Fs.inode_ok.mp there) rfl fun _ => .inr rfl
    · cases ran

theorem inodeUnlock_counts (ran : inodeUnlock p fs = .ok fs') : Counts 0 fs fs' := by
  obtain ⟨inode,there,ran⟩ := Runs.bind_ok.mp ran
  split at ran
  · cases ran
  · obtain ⟨_,_,ran⟩ := Runs.bind_ok.mp ran
    cases ran
    exact .reset (Fs.inode_ok.mp there) rfl fun _ => .inr rfl

theorem inodeSync_counts (ran : inodeSync env ctx p true fs = .ok fs') : Counts 0 fs fs' := by
  obtain ⟨inode,there,ran⟩ := Runs.bind_ok.mp ran
  split at ran
  · cases ran
    exact .of_inodes rfl
  · simp only [Bool.not_true,Bool.and_false,Bool.false_eq_true,if_false] at ran
    cases ran

theorem mapDirect_counts (ran : mapDirect env ctx p i fs = .ok (b,flag,fs')) : Counts 0 fs fs' := by
  obtain ⟨inode,there,ran⟩ := Runs.bind_ok.mp ran
  split at ran
  · cases ran
    exact .refl _
  · split at ran
    · cases ran
      exact .refl _
    · obtain ⟨⟨b',v⟩,_,ran⟩ := Runs.bind_ok.mp ran
      obtain ⟨middle,synced,ran⟩ := Runs.bind_ok.mp ran
      cases ran
      exact (Counts.entry (Fs.inode_ok.mp there) v (by rfl)).keep (inodeSync_counts synced)

theorem needIndirect_counts (ran : needIndirect env ctx p fs = .ok (b,fs')) : Counts 0 fs fs' := by
  obtain ⟨inode,there,ran⟩ := Runs.bind_ok.mp ran
  split at ran
  · obtain ⟨⟨b',v⟩,_,ran⟩ := Runs.bind_ok.mp ran
    cases ran
    exact .entry (Fs.inode_ok.mp there) v rfl
  · cases ran
    exact .refl _

theorem mapEntry_counts (ran : mapEntry env ctx p indirect i fs = .ok (b,flag,fs')) : Counts 0 fs fs' := by
  unfold mapEntry at ran
  split at ran
  · cases ran
  · split at ran
    · cases ran
      exact .refl _
    · split at ran
      · cases ran
        exact .refl _
      · obtain ⟨⟨b',v⟩,_,ran⟩ := Runs.bind_ok.mp ran
        obtain ⟨middle,synced,ran⟩ := Runs.bind_ok.mp ran
        cases ran
        exact (Counts.cache fs _).keep (inodeSync_counts synced)

theorem inodeMap_counts (ran : inodeMap env ctx p k fs = .ok (b,flag,fs')) : Counts 0 fs fs' := by
  unfold inodeMap at ran
  split at ran
  · exact mapDirect_counts ran
  · obtain ⟨⟨indirect,middle⟩,needed,ran⟩ := Runs.bind_ok.mp ran
    exact (needIndirect_counts needed).keep (mapEntry_counts ran)

theorem readLoop_counts (fuel : Nat)
    (ran : readLoop env p fuel offset left modified dest fs = .ok (bytes,modified',fs')) : Counts 0 fs fs' := by
  induction fuel generalizing offset left modified dest fs with
  | zero =>
    cases ran
    exact .refl _
  | succ fuel ih =>
    simp only [readLoop] at ran
    split at ran
    · cases ran
      exact .refl _
    · obtain ⟨⟨b,flag,middle⟩,mapped,ran⟩ := Runs.bind_ok.mp ran
      exact (inodeMap_counts mapped).keep (ih ran)

theorem inodeRead_counts (ran : inodeRead env p offset count fs = .ok (r,bytes,fs')) : Counts 0 fs fs' := by
  obtain ⟨inode,_,ran⟩ := Runs.bind_ok.mp ran
  simp only at ran
  split at ran
  · split at ran
    · obtain ⟨middle,unlocked,ran⟩ := Runs.bind_ok.mp ran
      have first := inodeUnlock_counts unlocked
      split at ran
      · cases ran
        exact first
      · obtain ⟨last,locked,ran⟩ := Runs.bind_ok.mp ran
        cases ran
        exact first.keep (inodeLock_counts locked)
    · cases ran
  · split at ran
    · obtain ⟨⟨bytes',modified,middle⟩,read,ran⟩ := Runs.bind_ok.mp ran
      simp only at ran
      split at ran
      · cases ran
      · cases ran
        exact readLoop_counts _ read
    · cases ran

theorem writeLoop_counts (fuel : Nat) (ran : writeLoop env ctx p fuel offset src fs = .ok fs') : Counts 0 fs fs' := by
  induction fuel generalizing offset src fs with
  | zero =>
    cases ran
    exact .refl _
  | succ fuel ih =>
    simp only [writeLoop] at ran
    split at ran
    · cases ran
      exact .refl _
    · obtain ⟨⟨b,flag,middle⟩,mapped,ran⟩ := Runs.bind_ok.mp ran
      simp only at ran
      split at ran
      · cases ran
      · exact ((inodeMap_counts mapped).keep (.cache middle _)).keep (ih ran)

theorem growTo_counts (found : fs.inodes p = some inode) (ran : growTo env ctx p inode last fs = .ok fs') :
    Counts 0 fs fs' := by
  unfold growTo at ran
  split at ran
  · exact (Counts.setEntry found (by rfl)).keep (inodeSync_counts ran)
  · cases ran
    exact .refl _

theorem inodeWrite_counts (ran : inodeWrite env ctx p src offset fs = .ok (r,fs')) : Counts 0 fs fs' := by
  obtain ⟨inode,there,ran⟩ := Runs.bind_ok.mp ran
  simp only at ran
  split at ran
  · split at ran
    · obtain ⟨middle,unlocked,ran⟩ := Runs.bind_ok.mp ran
      obtain ⟨last,locked,ran⟩ := Runs.bind_ok.mp ran
      cases ran
      exact (inodeUnlock_counts unlocked).keep (inodeLock_counts locked)
    · cases ran
  · split at ran
    · obtain ⟨middle,grown,ran⟩ := Runs.bind_ok.mp ran
      obtain ⟨last,written,ran⟩ := Runs.bind_ok.mp ran
      cases ran
      exact (growTo_counts (Fs.inode_ok.mp there) grown).keep (writeLoop_counts _ written)
    · cases ran

theorem scanDir_counts (stop : DirEntry → Bool) (fuel : Nat)
    (ran : scanDir env p stop fuel i dir fs = .ok (i',found,dir',fs')) :
    Counts 0 fs fs' := by
  induction fuel generalizing i dir fs with
  | zero =>
    cases ran
    exact .refl _
  | succ fuel ih =>
    obtain ⟨inode,_,ran⟩ := Runs.bind_ok.mp ran
    split at ran
    · obtain ⟨⟨r,bytes,middle⟩,read,ran⟩ := Runs.bind_ok.mp ran
      have first := inodeRead_counts read
      simp only at ran
      split at ran
      · cases ran
        exact first
      · exact first.keep (ih ran)
    · cases ran
      exact .refl _

theorem scan_counts (stop : DirEntry → Bool) (ran : scan env p stop fs = .ok (i,found,dir,fs')) : Counts 0 fs fs' := by
  obtain ⟨inode,_,ran⟩ := Runs.bind_ok.mp ran
  split at ran
  · exact scanDir_counts stop _ ran
  · cases ran

theorem inodeLookup_counts (ran : inodeLookup env p name fs = .ok (no,index,fs')) : Counts 0 fs fs' := by
  obtain ⟨⟨i,found,dir,middle⟩,scanned,ran⟩ := Runs.bind_ok.mp ran
  have first := scan_counts _ scanned
  simp only at ran
  split at ran
  · cases ran
    exact first
  · cases ran
    exact first

theorem inodeInsert_counts (ran : inodeInsert env ctx p name no fs = .ok (r,fs')) : Counts 0 fs fs' := by
  obtain ⟨⟨existing,index,a⟩,looked,ran⟩ := Runs.bind_ok.mp ran
  have first := inodeLookup_counts looked
  simp only at ran
  split at ran
  · cases ran
    exact first
  · obtain ⟨⟨i,found,dir,b⟩,scanned,ran⟩ := Runs.bind_ok.mp ran
    obtain ⟨⟨count,c⟩,written,ran⟩ := Runs.bind_ok.mp ran
    cases ran
    exact (first.keep (scan_counts _ scanned)).keep (inodeWrite_counts written)

theorem allocLoop_counts {sb : SuperBlock} (count : Nat) (ran : allocLoop sb ctx type fs count no = .ok (r,fs')) :
    Counts 0 fs fs' := by
  induction count generalizing no with
  | zero => cases ran
  | succ count ih =>
    simp only [allocLoop] at ran
    split at ran
    · cases ran
      exact .of_inodes rfl
    · exact ih ran

theorem inodeAlloc_counts (ran : inodeAlloc env ctx type fs = .ok (no,fs')) : Counts 0 fs fs' := by
  unfold inodeAlloc at ran
  split at ran
  · cases ran
  · exact allocLoop_counts _ ran

theorem inodeShare_counts (ran : inodeShare p fs = .ok fs') : Counts (one p) fs fs' := by
  obtain ⟨inode,there,ran⟩ := Runs.bind_ok.mp ran
  cases ran
  exact .more (Fs.inode_ok.mp there)

theorem inodeGet_counts (ran : inodeGet env no fs = .ok (q,fs')) : Counts (taken q) fs fs' := by
  rcases inodeGet_cases ran with ⟨_,rfl,rfl⟩ | ⟨_,rfl,⟨inode,found,rfl⟩ | ⟨absent,rfl⟩⟩
  · exact .refl _
  · exact .more found
  · refine ⟨?_,Freed.set ?_⟩
    · intro q
      by_cases same : q = no
      · subst same
        have here : (fs.load env.sblock q).inodes q = some
            ⟨Semaphores.initSem 1,1,q,true,diskEntry env.sblock fs.cache q⟩ := Function.update_self ..
        rw [rcOf_found here,rcOf,absent,taken,one_self]
        rfl
      · have there : (fs.load env.sblock no).inodes q = fs.inodes q := Function.update_of_ne same ..
        rw [rcOf,there,taken,one_other same,Int.add_zero]
        rfl
    · intro unused
      cases unused

theorem clearIndirect_counts (ran : clearIndirect env ctx p fs = .ok fs') : Counts 0 fs fs' := by
  obtain ⟨inode,there,ran⟩ := Runs.bind_ok.mp ran
  split at ran
  · cases ran
    exact .refl _
  · obtain ⟨v,_,ran⟩ := Runs.bind_ok.mp ran
    obtain ⟨v',_,ran⟩ := Runs.bind_ok.mp ran
    cases ran
    exact .entry (Fs.inode_ok.mp there) v' rfl

theorem clearAddr_counts (ran : clearAddr env ctx p i fs = .ok fs') : Counts 0 fs fs' := by
  obtain ⟨inode,there,ran⟩ := Runs.bind_ok.mp ran
  split at ran
  · split at ran
    · cases ran
      exact .refl _
    · obtain ⟨v,_,ran⟩ := Runs.bind_ok.mp ran
      cases ran
      exact .entry (Fs.inode_ok.mp there) v rfl
  · cases ran

theorem inodeClear_counts (ran : inodeClear env ctx p fs = .ok fs') : Counts 0 fs fs' := by
  obtain ⟨a,cleared,ran⟩ := Runs.bind_ok.mp ran
  obtain ⟨b,looped,ran⟩ := Runs.bind_ok.mp ran
  obtain ⟨inode,there,ran⟩ := Runs.bind_ok.mp ran
  have second : Counts 0 a b := Runs.upTo_invariant (fun _ t => Counts 0 a t) inodeNumDirect 0 (.refl a)
    (fun _ _ _ _ _ so_far step => so_far.keep (clearAddr_counts step)) looped
  exact (((clearIndirect_counts cleared).keep second).keep (.setEntry (Fs.inode_ok.mp there) (by rfl))).keep (inodeSync_counts ran)

theorem inodePut_counts (ran : inodePut env ctx p fs = .ok fs') : Counts (-one p) fs fs' := by
  obtain ⟨inode,there,ran⟩ := Runs.bind_ok.mp ran
  have found := Fs.inode_ok.mp there
  have less : ∀ q, rcOf (fs.setInode p {inode with rc := inode.rc-1}) q = rcOf fs q+(-one p) q := by
    intro q
    rw [rcOf_set found (-1) rfl,Pi.neg_apply,Int.neg_one_mul]
  simp only at ran
  split at ran
  · rename_i last
    obtain ⟨middle,cleared,ran⟩ := Runs.bind_ok.mp ran
    cases ran
    have here : (fs.setInode p {inode with rc := inode.rc-1}).inodes p = some {inode with rc := inode.rc-1} := Function.update_self ..
    have emptied : Counts 0 (fs.setInode p {inode with rc := inode.rc-1}) middle :=
        (Counts.setEntry here (by rfl)).keep (inodeClear_counts cleared)
    have others : ∀ q, q ≠ p → (Fs.mk middle.cache (Function.update middle.inodes p none)).inodes q = middle.inodes q :=
      fun q other => Function.update_of_ne other ..
    have gone : (Fs.mk middle.cache (Function.update middle.inodes p none)).inodes p = none := Function.update_self ..
    refine ⟨?_,?_⟩
    · intro q
      by_cases same : q = p
      · subst same
        have nothing : rcOf (Fs.mk middle.cache (Function.update middle.inodes q none)) q = 0 := by
          rw [rcOf,gone]
        rw [nothing,rcOf_found found,Pi.neg_apply,one_self]
        omega
      · rw [rcOf,others q same,← less q]
        exact (emptied.rc q).trans (Int.add_zero _)
    · intro q inode₁ there unused
      by_cases same : q = p
      · subst same
        cases gone.symm.trans there
      · rw [others q same] at there
        rcases emptied.freed q inode₁ there unused with linked | ⟨inode₂,before,rest⟩
        · exact .inl linked
        · have kept : (fs.setInode p {inode with rc := inode.rc-1}).inodes q = fs.inodes q := Function.update_of_ne same ..
          exact .inr ⟨inode₂,kept ▸ before,rest⟩
  · rename_i last
    cases ran
    refine ⟨less,Freed.set ?_⟩
    intro unused
    simp only at unused last ⊢
    by_cases zero : inode.rc-1 = 0
    · exact .inl fun unlinked => last ⟨zero,unlinked⟩
    · exact .inr ⟨inode,found,by omega,rfl⟩

end Layer

section Paths
variable {env : Env} {ctx : Ctx} {fs fs' : Fs} {p ip dp cwd : Usize}

theorem unlockPut_counts (ran : unlockPut env ctx p fs = .ok fs') : Counts (-one p) fs fs' := by
  obtain ⟨middle,unlocked,ran⟩ := Runs.bind_ok.mp ran
  exact (inodeUnlock_counts unlocked).after (inodePut_counts ran)

theorem namexLoop_counts (names : List (List Byte)) {ans : Usize} {parent : Bool}
    (ran : namexLoop env ctx parent names ans fs = .ok (found,fs')) :
    Counts (taken (found.map Prod.fst)-one ans) fs fs' := by
  induction names generalizing ans fs with
  | nil =>
    unfold namexLoop at ran
    split at ran
    · obtain ⟨last,put,ran⟩ := Runs.bind_ok.mp ran
      cases ran
      refine (inodePut_counts put).congr fun q => ?_
      simp [taken]
    · cases ran
      refine (Counts.refl _).congr fun q => ?_
      simp [taken]
  | cons name rest ih =>
    unfold namexLoop at ran
    obtain ⟨a,locked,ran⟩ := Runs.bind_ok.mp ran
    obtain ⟨inode,_,ran⟩ := Runs.bind_ok.mp ran
    have first := inodeLock_counts locked
    split at ran
    · obtain ⟨b,unlocked,ran⟩ := Runs.bind_ok.mp ran
      obtain ⟨c,put,ran⟩ := Runs.bind_ok.mp ran
      cases ran
      refine (first.after ((inodeUnlock_counts unlocked).after (inodePut_counts put))).congr fun q => ?_
      simp [taken]
    · split at ran
      · obtain ⟨b,unlocked,ran⟩ := Runs.bind_ok.mp ran
        cases ran
        refine (first.keep (inodeUnlock_counts unlocked)).congr fun q => ?_
        simp [taken]
      · obtain ⟨⟨no,index,b⟩,looked,ran⟩ := Runs.bind_ok.mp ran
        obtain ⟨⟨next,c⟩,got,ran⟩ := Runs.bind_ok.mp ran
        obtain ⟨d,unlocked,ran⟩ := Runs.bind_ok.mp ran
        obtain ⟨e,put,ran⟩ := Runs.bind_ok.mp ran
        have second : Counts (taken next) fs c := (first.keep (inodeLookup_counts looked)).after (inodeGet_counts got)
        have third : Counts (taken next-one ans) fs e := by
          refine ((second.keep (inodeUnlock_counts unlocked)).trans (inodePut_counts put)).congr fun q => ?_
          rw [Pi.add_apply,Pi.neg_apply,Pi.sub_apply,Int.sub_eq_add_neg]
        cases next with
        | none =>
          cases ran
          exact third
        | some next =>
          refine (third.trans (ih ran)).congr fun q => ?_
          simp only [taken,Pi.add_apply,Pi.sub_apply]
          omega

theorem namex_counts {path : List Byte} {parent : Bool} (ran : namex env ctx cwd path parent fs = .ok (found,fs')) :
    Counts (taken (found.map Prod.fst)) fs fs' := by
  obtain ⟨⟨ans,middle⟩,begun,ran⟩ := Runs.bind_ok.mp ran
  have first : Counts (one ans) fs middle := by
    unfold namexStart at begun
    split at begun
    · obtain ⟨⟨r,fs₁⟩,got,same⟩ := Runs.map_ok begun
      cases same
      rcases inodeGet_cases got with ⟨zero,_⟩ | ⟨_,rfl,_⟩
      · exact absurd zero (by decide)
      · exact inodeGet_counts got
    · obtain ⟨fs₁,shared,same⟩ := Runs.map_ok begun
      cases same
      exact inodeShare_counts shared
  refine (first.trans (namexLoop_counts _ ran)).congr fun q => ?_
  simp only [Pi.add_apply,Pi.sub_apply]
  omega

theorem namei_counts {path : List Byte} (ran : namei env ctx cwd path fs = .ok (found,fs')) :
    Counts (taken found) fs fs' := by
  obtain ⟨⟨ans,middle⟩,walked,ran⟩ := Runs.bind_ok.mp ran
  cases ran
  exact namex_counts walked

theorem getLocked_counts {no : Usize} (ran : getLocked env no fs = .ok (ip,fs')) : Counts (one ip) fs fs' := by
  obtain ⟨⟨q,middle⟩,got,ran⟩ := Runs.bind_ok.mp ran
  have first := inodeGet_counts got
  cases q with
  | none => cases ran
  | some q =>
    obtain ⟨last,locked,ran⟩ := Runs.bind_ok.mp ran
    cases ran
    exact first.keep (inodeLock_counts locked)

theorem relink_counts (held : 0 < rcOf fs p) (ran : relink env ctx p change fs = .ok fs') : Counts 0 fs fs' := by
  obtain ⟨inode,there,ran⟩ := Runs.bind_ok.mp ran
  have found := Fs.inode_ok.mp there
  rw [rcOf_found found] at held
  have changed : Counts 0 fs (fs.setEntry p inode (inode.entry.setNumLinks (change inode.entry.numLinks))) :=
    .reset found rfl fun unused => by omega
  exact changed.keep (inodeSync_counts ran)

theorem newInode_counts (ran : newInode env ctx type major minor fs = .ok (ip,fs')) : Counts (one ip) fs fs' := by
  obtain ⟨⟨no,a⟩,allocated,ran⟩ := Runs.bind_ok.mp ran
  obtain ⟨⟨current,b⟩,got,ran⟩ := Runs.bind_ok.mp ran
  obtain ⟨inode,there,ran⟩ := Runs.bind_ok.mp ran
  obtain ⟨c,synced,ran⟩ := Runs.bind_ok.mp ran
  cases ran
  have linked : Counts 0 b (b.setEntry ip inode ((inode.entry.setDevice major minor).setNumLinks 1#16)) :=
    .reset (Fs.inode_ok.mp there) rfl fun _ => .inl (by decide : (1#16 : U16) ≠ 0#16)
  exact (((inodeAlloc_counts allocated).after (getLocked_counts got)).keep linked).keep (inodeSync_counts synced)

theorem insertDots_counts {current : Usize} (held : 0 < rcOf fs dp)
    (ran : insertDots env ctx dp current fs = .ok fs') : Counts 0 fs fs' := by
  obtain ⟨inode,_,ran⟩ := Runs.bind_ok.mp ran
  obtain ⟨⟨ret1,a⟩,first,ran⟩ := Runs.bind_ok.mp ran
  obtain ⟨parent,_,ran⟩ := Runs.bind_ok.mp ran
  obtain ⟨⟨ret2,b⟩,second,ran⟩ := Runs.bind_ok.mp ran
  simp only at ran
  split at ran
  · cases ran
  · have inserted := (inodeInsert_counts first).keep (inodeInsert_counts second)
    have still : 0 < rcOf b dp := by
      rw [inserted.rc dp]
      simpa using held
    exact inserted.keep (relink_counts still ran)

theorem createNew_counts {filename : List Byte} (held : 0 < rcOf fs dp)
    (ran : createNew env ctx dp filename type major minor fs = .ok (ip,fs')) : Counts (one ip) fs fs' := by
  obtain ⟨⟨current,a⟩,made,ran⟩ := Runs.bind_ok.mp ran
  obtain ⟨b,dots,ran⟩ := Runs.bind_ok.mp ran
  obtain ⟨inode,_,ran⟩ := Runs.bind_ok.mp ran
  obtain ⟨⟨ret,c⟩,inserted,ran⟩ := Runs.bind_ok.mp ran
  have first := newInode_counts made
  have still : 0 < rcOf a dp := by
    have counts := first.rc dp
    have positive := one_nonneg current dp
    omega
  have second : Counts 0 a b := by
    split at dots
    · exact insertDots_counts still dots
    · cases dots
      exact .refl _
  simp only at ran
  split at ran
  · cases ran
  · cases ran
    exact (first.keep second).keep (inodeInsert_counts inserted)

theorem create_counts {path : List Byte} (counted : ∀ q, 0 ≤ rcOf fs q)
    (ran : create env ctx cwd path type major minor fs = .ok (found,fs')) : Counts (taken found) fs fs' := by
  obtain ⟨⟨parent,a⟩,walked,ran⟩ := Runs.bind_ok.mp ran
  have first := namex_counts walked
  cases parent with
  | none =>
    cases ran
    exact first
  | some pair =>
    obtain ⟨dir,name⟩ := pair
    obtain ⟨b,locked,ran⟩ := Runs.bind_ok.mp ran
    obtain ⟨⟨no,index,c⟩,looked,ran⟩ := Runs.bind_ok.mp ran
    obtain ⟨⟨current,d⟩,made,ran⟩ := Runs.bind_ok.mp ran
    obtain ⟨e,unlocked,ran⟩ := Runs.bind_ok.mp ran
    obtain ⟨last,put,ran⟩ := Runs.bind_ok.mp ran
    cases ran
    have second := (first.keep (inodeLock_counts locked)).keep (inodeLookup_counts looked)
    have held : 0 < rcOf c dir := by
      have counts := second.rc dir
      have before := counted dir
      simp only [taken,Option.map_some,one_self] at counts
      omega
    have third : Counts (one current) c d := by
      split at made
      · exact getLocked_counts made
      · exact createNew_counts held made
    have third := second.trans third
    refine ((third.keep (inodeUnlock_counts unlocked)).trans (inodePut_counts put)).congr fun q => ?_
    simp only [taken,Option.map_some,Pi.add_apply,Pi.neg_apply]
    omega

theorem isdirempty_counts (fuel : Nat) (ran : isdirempty env p fuel off fs = .ok (empty,fs')) : Counts 0 fs fs' := by
  induction fuel generalizing off fs with
  | zero =>
    cases ran
    exact .refl _
  | succ fuel ih =>
    obtain ⟨inode,_,ran⟩ := Runs.bind_ok.mp ran
    split at ran
    · obtain ⟨⟨r,bytes,middle⟩,read,ran⟩ := Runs.bind_ok.mp ran
      have first := inodeRead_counts read
      simp only at ran
      split at ran
      · cases ran
      · split at ran
        · cases ran
          exact first
        · exact first.keep (ih ran)
    · cases ran
      exact .refl _

theorem inUse_counts (ran : inUse env ip fs = .ok (busy,fs')) : Counts 0 fs fs' := by
  obtain ⟨inode,_,ran⟩ := Runs.bind_ok.mp ran
  split at ran
  · obtain ⟨⟨empty,middle⟩,tested,ran⟩ := Runs.bind_ok.mp ran
    cases ran
    exact isdirempty_counts _ tested
  · cases ran
    exact .refl _

theorem unlinkEntry_counts {off : Usize} (held : ∀ q, one dp q+one ip q ≤ rcOf fs q)
    (ran : unlinkEntry env ctx dp ip off fs = .ok fs') :
    Counts (-one dp-one ip) fs fs' := by
  obtain ⟨⟨r,a⟩,written,ran⟩ := Runs.bind_ok.mp ran
  simp only at ran
  split at ran
  · cases ran
  · obtain ⟨inode,_,ran⟩ := Runs.bind_ok.mp ran
    obtain ⟨b,fewer,ran⟩ := Runs.bind_ok.mp ran
    obtain ⟨c,put,ran⟩ := Runs.bind_ok.mp ran
    obtain ⟨d,fewer',ran⟩ := Runs.bind_ok.mp ran
    have first := inodeWrite_counts written
    have second : Counts 0 a b := by
      split at fewer
      · refine relink_counts ?_ fewer
        have counts := first.rc dp
        have references := held dp
        have positive := one_nonneg ip dp
        simp only [one_self,Pi.zero_apply] at counts references
        omega
      · cases fewer
        exact .refl _
    have third := (first.keep second).after (unlockPut_counts put)
    have still : 0 < rcOf c ip := by
      have counts := third.rc ip
      have references := held ip
      simp only [one_self,Pi.neg_apply] at counts references
      omega
    refine ((third.keep (relink_counts still fewer')).trans (unlockPut_counts ran)).congr fun q => ?_
    rw [Pi.add_apply,Pi.neg_apply,Pi.neg_apply,Pi.sub_apply,Pi.neg_apply,Int.sub_eq_add_neg]

theorem unlinkat_counts {path : List Byte} (counted : ∀ q, 0 ≤ rcOf fs q)
    (ran : unlinkat env ctx cwd path fs = .ok (done,fs')) : Counts 0 fs fs' := by
  obtain ⟨⟨parent,a⟩,walked,ran⟩ := Runs.bind_ok.mp ran
  have first := namex_counts walked
  cases parent with
  | none =>
    cases ran
    exact first
  | some pair =>
    obtain ⟨dir,name⟩ := pair
    obtain ⟨b,locked,ran⟩ := Runs.bind_ok.mp ran
    have second := first.keep (inodeLock_counts locked)
    simp only [taken,Option.map_some] at second
    split at ran
    · obtain ⟨c,put,ran⟩ := Runs.bind_ok.mp ran
      cases ran
      refine (second.trans (unlockPut_counts put)).congr fun q => ?_
      simp
    · obtain ⟨⟨no,index,c⟩,looked,ran⟩ := Runs.bind_ok.mp ran
      have third := second.keep (inodeLookup_counts looked)
      simp only at ran
      split at ran
      · obtain ⟨d,put,ran⟩ := Runs.bind_ok.mp ran
        cases ran
        refine (third.trans (unlockPut_counts put)).congr fun q => ?_
        simp
      · obtain ⟨⟨q,d⟩,got,ran⟩ := Runs.bind_ok.mp ran
        obtain ⟨inode,_,ran⟩ := Runs.bind_ok.mp ran
        have fourth := third.trans (getLocked_counts got)
        split at ran
        · cases ran
        · obtain ⟨⟨busy,e⟩,tested,ran⟩ := Runs.bind_ok.mp ran
          have fifth := fourth.keep (inUse_counts tested)
          simp only at ran
          split at ran
          · obtain ⟨g,put,ran⟩ := Runs.bind_ok.mp ran
            obtain ⟨h,put',ran⟩ := Runs.bind_ok.mp ran
            cases ran
            refine ((fifth.trans (unlockPut_counts put)).trans (unlockPut_counts put')).congr fun x => ?_
            simp only [Pi.add_apply,Pi.neg_apply,Pi.zero_apply]
            omega
          · obtain ⟨g,removed,ran⟩ := Runs.bind_ok.mp ran
            cases ran
            have held : ∀ x, one dir x+one q x ≤ rcOf e x := by
              intro x
              have counts := fifth.rc x
              have before := counted x
              simp only [Pi.add_apply] at counts
              omega
            refine (fifth.trans (unlinkEntry_counts held removed)).congr fun x => ?_
            simp only [Pi.add_apply,Pi.sub_apply,Pi.neg_apply,Pi.zero_apply]
            omega

theorem findLocked_counts {path : List Byte} (ran : findLocked env ctx cwd path fs = .ok (found,fs')) :
    Counts (taken found) fs fs' := by
  obtain ⟨⟨ip,a⟩,walked,ran⟩ := Runs.bind_ok.mp ran
  have first := namei_counts walked
  cases ip with
  | none =>
    cases ran
    exact first
  | some ip =>
    obtain ⟨b,locked,ran⟩ := Runs.bind_ok.mp ran
    cases ran
    exact first.keep (inodeLock_counts locked)

theorem changeDir_counts {path : List Byte} (ran : changeDir env ctx cwd path fs = .ok (found,fs')) :
    Counts (match found with | none => 0 | some ip => one ip-one cwd) fs fs' := by
  obtain ⟨⟨ip,a⟩,walked,ran⟩ := Runs.bind_ok.mp ran
  have first := namei_counts walked
  cases ip with
  | none =>
    cases ran
    exact first
  | some ip =>
    obtain ⟨b,locked,ran⟩ := Runs.bind_ok.mp ran
    obtain ⟨inode,_,ran⟩ := Runs.bind_ok.mp ran
    have second := first.keep (inodeLock_counts locked)
    simp only [taken] at second
    split at ran
    · obtain ⟨c,put,ran⟩ := Runs.bind_ok.mp ran
      cases ran
      refine (second.trans (unlockPut_counts put)).congr fun q => ?_
      simp
    · obtain ⟨c,unlocked,ran⟩ := Runs.bind_ok.mp ran
      obtain ⟨d,put,ran⟩ := Runs.bind_ok.mp ran
      cases ran
      refine ((second.keep (inodeUnlock_counts unlocked)).trans (inodePut_counts put)).congr fun q => ?_
      simp only [Pi.add_apply,Pi.sub_apply,Pi.neg_apply]
      omega

theorem fileWriteLoop_counts (fuel : Nat) {op : Nat} {src : List Byte} {off : Usize}
    (ran : fileWriteLoop env ip fuel op src off fs = .ok (r,fs')) :
    Counts 0 fs fs' := by
  induction fuel generalizing op src off fs with
  | zero =>
    cases ran
    exact .refl _
  | succ fuel ih =>
    simp only [fileWriteLoop] at ran
    split at ran
    · cases ran
      exact .refl _
    · obtain ⟨⟨w,a⟩,chunk,ran⟩ := Runs.bind_ok.mp ran
      obtain ⟨b,locked,chunk⟩ := Runs.bind_ok.mp chunk
      obtain ⟨⟨w',c⟩,written,chunk⟩ := Runs.bind_ok.mp chunk
      obtain ⟨d,unlocked,chunk⟩ := Runs.bind_ok.mp chunk
      cases chunk
      exact (((inodeLock_counts locked).keep (inodeWrite_counts written)).keep (inodeUnlock_counts unlocked)).keep (ih ran)

end Paths

end SysFile
