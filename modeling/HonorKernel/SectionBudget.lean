import HonorKernel.BlockCache
import HonorKernel.TransactionBudget

-- The sections of file_write, file_close and the system calls on paths: none of them
-- syncs more than OP_MAX_NUM_BLOCKS blocks.
namespace SysFile
open DiskFormat CacheView InodeLayer
open BlockCache (logSync roomFor)

-- A directory with link count 0 is referenced `extra` times and once more.
def Kept (sb : SuperBlock) (fs : Fs) (extra : Usize → Int) : Prop :=
  ∀ no, InTable sb no → (entryOf sb fs no).type = inodeDirectory → (entryOf sb fs no).numLinks = 0#16 →
    ∃ inode, fs.inodes no = some inode ∧ extra no < inode.rc

def one (p : Usize) : Usize → Int := fun q => if q = p then 1 else 0

section Numbers
variable {S : Finset Usize} {fs fs' : Fs} {env : Env} {p ip : Usize} {ctx : Ctx}

theorem unlockPut_adds (numbered : Numbered fs) (bitmap : bitmapBlock env.sblock ∈ S)
    (table : toBlockNo env.sblock p ∈ S) (ran : unlockPut env ctx p fs = .ok fs') : Adds ctx S fs fs' := by
  obtain ⟨middle,unlocked,ran⟩ := Runs.bind_ok.mp ran
  have first : Adds ctx S fs middle := inodeUnlock_adds numbered unlocked
  exact first.trans (inodePut_adds first.numbered bitmap table ran)

theorem getLocked_adds (numbered : Numbered fs) (ran : getLocked env no fs = .ok (ip,fs')) :
    Adds ctx S fs fs' ∧ ip = no := by
  obtain ⟨⟨q,middle⟩,got,ran⟩ := Runs.bind_ok.mp ran
  have first : Adds ctx S fs middle := inodeGet_adds numbered got
  cases q with
  | none => cases ran
  | some q =>
    obtain ⟨last,locked,ran⟩ := Runs.bind_ok.mp ran
    cases ran
    refine ⟨first.trans (inodeLock_adds first.numbered locked),?_⟩
    rcases inodeGet_cases got with ⟨_,none,_⟩ | ⟨_,same,_⟩
    · cases none
    · exact Option.some.inj same

theorem relink_adds (numbered : Numbered fs) (table : toBlockNo env.sblock p ∈ S)
    (ran : relink env ctx p change fs = .ok fs') :
    Adds ctx S fs fs' := by
  obtain ⟨inode,there,ran⟩ := Runs.bind_ok.mp ran
  have relinked : Adds ctx S fs (fs.setEntry p inode (inode.entry.setNumLinks (change inode.entry.numLinks))) :=
    ⟨.refl _,Numbered.set numbered (numbered p inode (Fs.inode_ok.mp there))⟩
  exact relinked.trans (inodeSync_adds relinked.numbered table ran).1

theorem isdirempty_adds (fuel : Nat) (numbered : Numbered fs)
    (ran : isdirempty env p fuel off fs = .ok (empty,fs')) : Adds ctx S fs fs' := by
  induction fuel generalizing off fs with
  | zero =>
    cases ran
    exact .refl numbered
  | succ fuel ih =>
    obtain ⟨inode,_,ran⟩ := Runs.bind_ok.mp ran
    split at ran
    · obtain ⟨⟨n,bytes,middle⟩,read,ran⟩ := Runs.bind_ok.mp ran
      have first : Adds ctx S fs middle := inodeRead_adds numbered read
      simp only at ran
      split at ran
      · cases ran
      · split at ran
        · cases ran
          exact first
        · exact first.trans (ih first.numbered ran)
    · cases ran
      exact .refl numbered

theorem inUse_adds (numbered : Numbered fs) (ran : inUse env ip fs = .ok (busy,fs')) : Adds ctx S fs fs' := by
  obtain ⟨inode,_,ran⟩ := Runs.bind_ok.mp ran
  split at ran
  · obtain ⟨⟨empty,middle⟩,tested,ran⟩ := Runs.bind_ok.mp ran
    cases ran
    exact isdirempty_adds _ numbered tested
  · cases ran
    exact .refl numbered

theorem unlinkEntry_adds (numbered : Numbered fs) (bitmap : bitmapBlock env.sblock ∈ S)
    (table : toBlockNo env.sblock dp ∈ S) (table' : toBlockNo env.sblock ip ∈ S)
    (inside : off.toNat%blockSize+dirEntrySize ≤ blockSize) (ran : unlinkEntry env ctx dp ip off fs = .ok fs') :
    ∃ X : Finset Usize, X.card ≤ 3 ∧ Adds ctx (X ∪ S) fs fs' := by
  obtain ⟨⟨n,a⟩,written,ran⟩ := Runs.bind_ok.mp ran
  obtain ⟨X,bound,first⟩ : ∃ X : Finset Usize, _ ∧ Adds ctx (X ∪ S) fs a :=
    inodeWrite_adds_one numbered bitmap table (by rw [DirEntry.bytes_length]; exact inside) written
  refine ⟨X,bound,first.trans ?_⟩
  have bitmap : bitmapBlock env.sblock ∈ X ∪ S := Finset.mem_union_right _ bitmap
  have table : toBlockNo env.sblock dp ∈ X ∪ S := Finset.mem_union_right _ table
  have table' : toBlockNo env.sblock ip ∈ X ∪ S := Finset.mem_union_right _ table'
  simp only at ran
  split at ran
  · cases ran
  · obtain ⟨inode,_,ran⟩ := Runs.bind_ok.mp ran
    obtain ⟨b,less,ran⟩ := Runs.bind_ok.mp ran
    obtain ⟨c,dropped,ran⟩ := Runs.bind_ok.mp ran
    obtain ⟨d,fewer,ran⟩ := Runs.bind_ok.mp ran
    have second : Adds ctx (X ∪ S) a b := by
      split at less
      · exact relink_adds first.numbered table less
      · cases less
        exact .refl first.numbered
    have third : Adds ctx (X ∪ S) b c := unlockPut_adds second.numbered bitmap table dropped
    have fourth : Adds ctx (X ∪ S) c d := relink_adds third.numbered table' fewer
    have fifth : Adds ctx (X ∪ S) d fs' := unlockPut_adds fourth.numbered bitmap table' ran
    exact ((second.trans third).trans fourth).trans fifth

end Numbers

-- A search in a directory changes no more than its block numbers.
section Searching
variable {env : Env} {live : Usize → Bool} {p : Usize} {fs fs' : Fs} {inode : Inode}

theorem readLoop_found (layout : Layout env.sblock) (fuel : Nat) (owned : Owned env.sblock live fs)
    (found : fs.inodes p = some inode)
    (ran : readLoop env p fuel offset left modified dest fs = .ok (bytes,modified',fs')) :
    ∃ addrs indirect, fs'.inodes p = some (inode.setBlocks addrs indirect) := by
  induction fuel generalizing offset left modified dest fs inode with
  | zero =>
    cases ran
    exact ⟨_,_,found⟩
  | succ fuel ih =>
    simp only [readLoop] at ran
    split at ran
    · cases ran
      exact ⟨_,_,found⟩
    · obtain ⟨⟨b,flag,middle⟩,mapped,rest⟩ := Runs.bind_ok.mp ran
      obtain ⟨maps,_⟩ := inodeMap_maps layout owned found mapped
      obtain ⟨_,_,found'⟩ := maps.found
      obtain ⟨addrs,indirect,last⟩ := ih maps.owned found' rest
      exact ⟨addrs,indirect,last⟩

theorem inodeRead_found (layout : Layout env.sblock) (owned : Owned env.sblock live fs)
    (found : fs.inodes p = some inode) (file : inode.entry.type ≠ inodeDevice)
    (ran : inodeRead env p offset count fs = .ok (n,bytes,fs')) :
    ∃ addrs indirect, fs'.inodes p = some (inode.setBlocks addrs indirect) := by
  obtain ⟨same,there,ran⟩ := Runs.bind_ok.mp ran
  rw [Fs.inode_ok.mpr found] at there
  cases there
  simp only [if_neg file] at ran
  split at ran
  · obtain ⟨⟨read,modified,last⟩,looped,ran⟩ := Runs.bind_ok.mp ran
    simp only at ran
    split at ran
    · cases ran
    · cases ran
      exact readLoop_found layout _ owned found looped
  · cases ran

theorem scanDir_found (layout : Layout env.sblock) (fuel : Nat) (owned : Owned env.sblock live fs)
    (found : fs.inodes p = some inode) (file : inode.entry.type ≠ inodeDevice)
    (ran : scanDir env p stop fuel i dir fs = .ok (j,stopped,dir',fs')) :
    ∃ addrs indirect, fs'.inodes p = some (inode.setBlocks addrs indirect) := by
  induction fuel generalizing i dir fs inode with
  | zero =>
    cases ran
    exact ⟨_,_,found⟩
  | succ fuel ih =>
    obtain ⟨same,there,ran⟩ := Runs.bind_ok.mp ran
    rw [Fs.inode_ok.mpr found] at there
    cases there
    split at ran
    · obtain ⟨⟨n,bytes,middle⟩,read,ran⟩ := Runs.bind_ok.mp ran
      obtain ⟨_,_,found'⟩ := inodeRead_found layout owned found file read
      simp only at ran
      split at ran
      · cases ran
        exact ⟨_,_,found'⟩
      · obtain ⟨addrs,indirect,last⟩ := ih (inodeRead_works layout owned read).owned found' file ran
        exact ⟨addrs,indirect,last⟩
    · cases ran
      exact ⟨_,_,found⟩

theorem inodeLookup_found (layout : Layout env.sblock) (owned : Owned env.sblock live fs)
    (found : fs.inodes p = some inode) (ran : inodeLookup env p name fs = .ok (n,index,fs')) :
    ∃ addrs indirect, fs'.inodes p = some (inode.setBlocks addrs indirect) := by
  obtain ⟨⟨i,stopped,dir,last⟩,scanned,ran⟩ := Runs.bind_ok.mp ran
  obtain ⟨same,there,scanned⟩ := Runs.bind_ok.mp scanned
  rw [Fs.inode_ok.mpr found] at there
  cases there
  split at scanned
  · rename_i directory
    have file : inode.entry.type ≠ inodeDevice := by
      rw [directory]
      decide
    have found' := scanDir_found layout _ owned found file scanned
    simp only [Except.ok.injEq] at ran
    split at ran
    · cases ran
      exact found'
    · cases ran
      exact found'
  · cases scanned

end Searching

section Keeping
variable {env : Env} {sb : SuperBlock} {p no : Usize} {fs fs' : Fs} {inode inode' : Inode} {extra : Usize → Int}
  {ctx : Ctx}

theorem Kept.change (kept : Kept sb fs extra) (others : ∀ q, q ≠ p → fs'.inodes q = fs.inodes q)
    (disk : ∀ q, InTable sb q → q ≠ p → diskEntry sb fs'.cache q = diskEntry sb fs.cache q)
    (found : fs.inodes p = some inode) (found' : fs'.inodes p = some inode')
    (type : inode'.entry.type = inode.entry.type) (links : inode'.entry.numLinks = inode.entry.numLinks)
    {extra' : Usize → Int} (same : ∀ q, q ≠ p → extra' q = extra q)
    (counted : extra' p-extra p = inode'.rc-inode.rc) : Kept sb fs' extra' := by
  intro q inTable directory unlinked
  by_cases here : q = p
  · subst here
    simp only [entryOf,found'] at directory unlinked
    obtain ⟨other,there,more⟩ := kept q inTable (by simp only [entryOf,found]; rw [← type]; exact directory)
      (by simp only [entryOf,found]; rw [← links]; exact unlinked)
    rw [found] at there
    cases there
    exact ⟨inode',found',by omega⟩
  · have entry : entryOf sb fs' q = entryOf sb fs q := by
      unfold entryOf
      rw [others q here,disk q inTable here]
    rw [entry] at directory unlinked
    rw [others q here,same q here]
    exact kept q inTable directory unlinked

theorem Kept.set (kept : Kept sb fs extra) (found : fs.inodes p = some inode) (inode' : Inode)
    (entry : inode'.entry = inode.entry) {extra' : Usize → Int} (same : ∀ q, q ≠ p → extra' q = extra q)
    (counted : extra' p-extra p = inode'.rc-inode.rc) :
    Kept sb (fs.setInode p inode') extra' := by
  have others : ∀ q, q ≠ p → (fs.setInode p inode').inodes q = fs.inodes q := fun q other => Function.update_of_ne other _ _
  have found' : (fs.setInode p inode').inodes p = some inode' := Function.update_self _ _ _
  exact kept.change others (fun _ _ _ => rfl) found found' (by rw [entry]) (by rw [entry]) same counted

theorem inodeLock_kept (kept : Kept sb fs extra) (ran : inodeLock p fs = .ok fs') : Kept sb fs' extra := by
  obtain ⟨inode,lock,found,rfl⟩ := inodeLock_set ran
  exact kept.set found {inode with lock := lock} rfl (fun _ _ => rfl) (by simp)

theorem inodeUnlock_kept (kept : Kept sb fs extra) (ran : inodeUnlock p fs = .ok fs') : Kept sb fs' extra := by
  obtain ⟨inode,lock,found,rfl⟩ := inodeUnlock_set ran
  exact kept.set found {inode with lock := lock} rfl (fun _ _ => rfl) (by simp)

theorem inodeLookup_kept (layout : Layout env.sblock) (consistent : Consistent env.sblock fs)
    (kept : Kept env.sblock fs extra) (ran : inodeLookup env p name fs = .ok (n,index,fs')) :
    Kept env.sblock fs' extra := by
  obtain ⟨_,scanned,_⟩ := Runs.bind_ok.mp ran
  obtain ⟨inode,found⟩ := found_of_bind scanned
  have works := inodeLookup_works layout consistent.owned ran
  obtain ⟨addrs,indirect,found'⟩ := inodeLookup_found layout consistent.owned found ran
  exact kept.change works.beside.inodes works.beside.disk found found' rfl rfl (fun _ _ => rfl) (by simp [Inode.setBlocks])

theorem one_self (p : Usize) : one p p = 1 := if_pos rfl

theorem one_other (other : q ≠ p) : one p q = 0 := if_neg other

theorem inodeShare_kept (kept : Kept sb fs extra) (ran : inodeShare p fs = .ok fs') : Kept sb fs' (extra+one p) := by
  obtain ⟨inode,there,ran⟩ := Runs.bind_ok.mp ran
  cases ran
  refine kept.set (Fs.inode_ok.mp there) {inode with rc := inode.rc+1} rfl ?_ ?_
  · intro q other
    simp [one_other other]
  · simp [one_self]

theorem inodeGet_kept (kept : Kept env.sblock fs extra) (ran : inodeGet env no fs = .ok (some q,fs')) :
    q = no ∧ Kept env.sblock fs' (extra+one no) := by
  rcases inodeGet_cases ran with ⟨_,none,_⟩ | ⟨inTable,same,got⟩
  · cases none
  · refine ⟨Option.some.inj same,?_⟩
    have others : ∀ q, q ≠ no → (extra+one no) q = extra q := fun q other => by simp [one_other other]
    rcases got with ⟨inode,found,rfl⟩ | ⟨unloaded,rfl⟩
    · exact kept.set found {inode with rc := inode.rc+1} rfl others (by simp [one_self])
    · intro r there directory unlinked
      by_cases here : r = no
      · -- A directory with link count 0 would be in memory already.
        subst here
        have entry : entryOf env.sblock (fs.load env.sblock r) r = entryOf env.sblock fs r := by
          simp [entryOf,Fs.load,Fs.setInode,unloaded]
        rw [entry] at directory unlinked
        obtain ⟨_,found,_⟩ := kept r there directory unlinked
        rw [unloaded] at found
        cases found
      · have entry : entryOf env.sblock (fs.load env.sblock no) r = entryOf env.sblock fs r := by
          simp [entryOf,Fs.load,Fs.setInode,Function.update_of_ne here]
        rw [entry] at directory unlinked
        rw [others r here]
        obtain ⟨inode,found,more⟩ := kept r there directory unlinked
        exact ⟨inode,(Function.update_of_ne here _ _).trans found,more⟩

-- The last reference of a directory on a path goes only if the directory has links.
theorem inodePut_kept (kept : Kept env.sblock fs (extra+one p)) (inTable : InTable env.sblock p)
    (found : fs.inodes p = some inode) (directory : inode.entry.type = inodeDirectory) (others : 0 ≤ extra p)
    (ran : inodePut env ctx p fs = .ok fs') :
    fs' = fs.setInode p {inode with rc := inode.rc-1} ∧ Kept env.sblock fs' extra := by
  have same : fs' = fs.setInode p {inode with rc := inode.rc-1} := by
    obtain ⟨other,there,ran⟩ := Runs.bind_ok.mp ran
    rw [Fs.inode_ok.mpr found] at there
    cases there
    simp only at ran
    split at ran
    · rename_i last
      obtain ⟨other,there,more⟩ := kept p inTable (by simp only [entryOf,found]; exact directory)
          (by simp only [entryOf,found]; exact last.2)
      rw [found] at there
      cases there
      simp only [Pi.add_apply,one_self] at more
      omega
    · cases ran
      rfl
  refine ⟨same,?_⟩
  rw [same]
  refine kept.set found {inode with rc := inode.rc-1} rfl ?_ ?_
  · intro q other
    simp [one_other other]
  · simp [one_self]

variable {S : Finset Usize}

-- At something that is no directory, or at the end of the path, nameiparent gives up.
theorem namexLoop_lost (numbered : Numbered fs) (bitmap : bitmapBlock env.sblock ∈ S)
    (table : toBlockNo env.sblock p ∈ S) (found : fs.inodes p = some inode)
    (lost : inode.entry.type ≠ inodeDirectory ∨ names = []) (ran : namexLoop env ctx true names p fs = .ok (r,fs')) :
    r = none ∧ Adds ctx S fs fs' := by
  cases names with
  | nil =>
    simp only [namexLoop,if_true] at ran
    obtain ⟨last,put,ran⟩ := Runs.bind_ok.mp ran
    cases ran
    exact ⟨rfl,inodePut_adds numbered bitmap table put⟩
  | cons name rest =>
    have file := lost.resolve_right (by simp)
    obtain ⟨a,locked,ran⟩ := Runs.bind_ok.mp ran
    have first : Adds ctx S fs a := inodeLock_adds numbered locked
    obtain ⟨inode',lock,there,rfl⟩ := inodeLock_set locked
    rw [found] at there
    cases there
    obtain ⟨inode'',there,ran⟩ := Runs.bind_ok.mp ran
    have there := Fs.inode_ok.mp there
    simp only [Fs.setInode,Function.update_self,Option.some.injEq] at there
    subst there
    rw [if_pos file] at ran
    obtain ⟨b,unlocked,ran⟩ := Runs.bind_ok.mp ran
    obtain ⟨c,put,ran⟩ := Runs.bind_ok.mp ran
    cases ran
    have second : Adds ctx S _ b := inodeUnlock_adds first.numbered unlocked
    exact ⟨rfl,(first.trans second).trans (inodePut_adds second.numbered bitmap table put)⟩

-- What inode_get reads from the table for the number of a free inode is no directory.
theorem free_entry (consistent : Consistent sb fs) (inTable : InTable sb no) (free : ¬ allocated sb fs no = true) :
    fs.inodes no = none ∧ (entryOf sb fs no).type ≠ inodeDirectory := by
  have unloaded : fs.inodes no = none := by
    by_contra some
    obtain ⟨inode,found⟩ := Option.ne_none_iff_exists'.mp some
    exact free (consistent.owned.loaded no inode found).1
  refine ⟨unloaded,?_⟩
  simp only [entryOf,unloaded]
  intro directory
  exact free (allocated_iff.mpr ⟨inTable,by rw [directory]; decide⟩)

theorem leave (numbered : Numbered fs) (kept : Kept env.sblock fs (one no+one p)) (inTable : InTable env.sblock p)
    (found : fs.inodes p = some inode) (directory : inode.entry.type = inodeDirectory)
    (unlocked : inodeUnlock p fs = .ok fs') (put : inodePut env ctx p fs' = .ok fs'') :
    Kept env.sblock fs'' (one no) ∧ Adds ctx ∅ fs fs'' ∧ fs''.cache = fs.cache ∧
      ∃ inode', fs''.inodes = Function.update fs.inodes p (some inode') := by
  have kept' := inodeUnlock_kept kept unlocked
  obtain ⟨other,lock,there,rfl⟩ := inodeUnlock_set unlocked
  rw [found] at there
  cases there
  have found' : (fs.setInode p {inode with lock := lock}).inodes p = some {inode with lock := lock} := Function.update_self _ _ _
  have positive : 0 ≤ one no p := by
    unfold one
    split <;> omega
  obtain ⟨same,kept''⟩ := inodePut_kept kept' inTable found' directory positive put
  have number := numbered p inode found
  have numbered' : Numbered (fs.setInode p {inode with lock := lock}) := numbered.set number
  refine ⟨kept'',?_,by rw [same]; rfl,{inode with lock := lock, rc := inode.rc-1},?_⟩
  · rw [same]
    exact ⟨.refl _,numbered'.set number⟩
  · rw [same]
    simp only [Fs.setInode,Function.update_idem]

-- nameiparent frees at most the inode at which it gives up.
structure Parent (env : Env) (ctx : Ctx) (fs fs' : Fs) (parent : Usize) : Prop where
  consistent : Consistent env.sblock fs'
  adds : Adds ctx ∅ fs fs'
  loaded : ∃ inode, fs'.inodes parent = some inode

theorem namexLoop_budget (layout : Layout env.sblock) (names : List (List Byte)) (consistent : Consistent env.sblock fs)
    (kept : Kept env.sblock fs (one p)) (found : fs.inodes p = some inode)
    (ran : namexLoop env ctx true names p fs = .ok (r,fs')) :
    r = none ∧ (∃ b, Adds ctx {bitmapBlock env.sblock,b} fs fs') ∨
      ∃ parent name, r = some (parent,name) ∧ Parent env ctx fs fs' parent := by
  induction names generalizing p fs inode with
  | nil =>
    obtain ⟨none,adds⟩ : _ ∧ Adds ctx {bitmapBlock env.sblock,toBlockNo env.sblock p} _ _ :=
      namexLoop_lost consistent.owned.numbered (by simp) (by simp) found (.inr rfl) ran
    exact .inl ⟨none,_,adds⟩
  | cons name rest ih =>
    by_cases directory : inode.entry.type = inodeDirectory
    swap
    · obtain ⟨none,adds⟩ : _ ∧ Adds ctx {bitmapBlock env.sblock,toBlockNo env.sblock p} _ _ :=
        namexLoop_lost consistent.owned.numbered (by simp) (by simp) found (.inl directory) ran
      exact .inl ⟨none,_,adds⟩
    obtain ⟨a,locked,ran⟩ := Runs.bind_ok.mp ran
    have consistent₁ := inodeLock_consistent consistent locked
    have kept₁ := inodeLock_kept kept locked
    have first : Adds ctx ∅ fs a := inodeLock_adds consistent.owned.numbered locked
    obtain ⟨other,lock,there,rfl⟩ := inodeLock_set locked
    rw [found] at there
    cases there
    have found₁ : (fs.setInode p {inode with lock := lock}).inodes p = some {inode with lock := lock} := Function.update_self _ _ _
    obtain ⟨other,there,ran⟩ := Runs.bind_ok.mp ran
    rw [Fs.inode_ok.mpr found₁] at there
    cases there
    rw [if_neg (fun file => file directory)] at ran
    split at ran
    · obtain ⟨b,unlocked,ran⟩ := Runs.bind_ok.mp ran
      cases ran
      refine .inr ⟨p,name,rfl,inodeUnlock_consistent consistent₁ unlocked,first.trans (inodeUnlock_adds first.numbered unlocked),?_⟩
      obtain ⟨_,_,_,rfl⟩ := inodeUnlock_set unlocked
      exact ⟨_,Function.update_self _ _ _⟩
    · rename_i deeper
      obtain ⟨⟨no,index,b⟩,looked,ran⟩ := Runs.bind_ok.mp ran
      have consistent₂ := inodeLookup_consistent layout consistent₁ looked
      have kept₂ := inodeLookup_kept layout consistent₁ kept₁ looked
      have second : Adds ctx ∅ _ b := (inodeLookup_adds first.numbered looked).1
      obtain ⟨addrs,indirect,found₂⟩ := inodeLookup_found layout consistent₁.owned found₁ looked
      have inTable := (allocated_iff.mp (consistent₂.owned.loaded p _ found₂).1).1
      obtain ⟨⟨q,c⟩,got,ran⟩ := Runs.bind_ok.mp ran
      have third : Adds ctx ∅ b c := inodeGet_adds second.numbered got
      obtain ⟨d,unlocked,ran⟩ := Runs.bind_ok.mp ran
      have fourth : Adds ctx ∅ c d := inodeUnlock_adds third.numbered unlocked
      obtain ⟨e,put,last⟩ := Runs.bind_ok.mp ran
      have before := ((first.trans second).trans third).trans fourth
      cases q with
      | none =>
        cases last
        have fifth : Adds ctx {bitmapBlock env.sblock,toBlockNo env.sblock p} d fs' := inodePut_adds fourth.numbered
            (by simp) (by simp) put
        exact .inl ⟨rfl,_,(before.mono (Finset.empty_subset _)).trans fifth⟩
      | some q =>
        obtain ⟨rfl,kept₃⟩ := inodeGet_kept kept₂ got
        rw [add_comm] at kept₃
        simp only at last
        obtain ⟨_,inTable',_,⟨there,loaded,entry⟩,others⟩ := inodeGet_found got
        have stays : ∃ inode', c.inodes p = some inode' ∧ inode'.entry.type = inodeDirectory := by
          by_cases here : p = q
          · subst here
            refine ⟨there,loaded,?_⟩
            rw [entry]
            simp only [entryOf,found₂]
            exact directory
          · exact ⟨_,(others p here).trans found₂,directory⟩
        obtain ⟨inode',found₃,directory'⟩ := stays
        obtain ⟨kept₅,left,_,inode'',inodes⟩ : _ ∧ Adds ctx ∅ c e ∧ _ :=
            leave third.numbered kept₃ inTable found₃ directory' unlocked put
        have before := ((first.trans second).trans third).trans left
        by_cases alive : allocated env.sblock b q = true
        · have consistent₃ := inodeGet_consistent consistent₂ (.inr alive) got
          have consistent₅ := inodePut_consistent layout (inodeUnlock_consistent consistent₃ unlocked) put
          have reached : ∃ next, e.inodes q = some next := by
            rw [inodes]
            by_cases here : q = p
            · subst here
              exact ⟨inode'',Function.update_self _ _ _⟩
            · exact ⟨there,(Function.update_of_ne here _ _).trans loaded⟩
          obtain ⟨next,reached⟩ := reached
          rcases ih consistent₅ kept₅ reached last with ⟨none,block,adds⟩ | ⟨parent,name,same,result⟩
          · exact .inl ⟨none,block,(before.mono (Finset.empty_subset _)).trans adds⟩
          · exact .inr ⟨parent,name,same,result.consistent,before.trans result.adds,result.loaded⟩
        · obtain ⟨unloaded,file⟩ := free_entry consistent₂ inTable' alive
          have other : q ≠ p := by
            rintro rfl
            rw [found₂] at unloaded
            cases unloaded
          have reached : e.inodes q = some there := by
            rw [inodes,Function.update_of_ne other]
            exact loaded
          obtain ⟨none,adds⟩ : _ ∧ Adds ctx {bitmapBlock env.sblock,toBlockNo env.sblock q} _ _ :=
            namexLoop_lost left.numbered (by simp) (by simp) reached (.inl (by rw [entry]; exact file)) last
          exact .inl ⟨none,_,(before.mono (Finset.empty_subset _)).trans adds⟩

theorem inodeShare_consistent (consistent : Consistent sb fs) (ran : inodeShare p fs = .ok fs') :
    Consistent sb fs' := by
  obtain ⟨inode,found⟩ := found_of_bind ran
  exact (inodeShare_works consistent.owned ran).consistent consistent found

theorem nameiparent_budget (layout : Layout env.sblock) (consistent : Consistent env.sblock fs)
    (kept : Kept env.sblock fs 0) (ran : nameiparent env ctx cwd path fs = .ok (r,fs')) :
    r = none ∧ (∃ b, Adds ctx {bitmapBlock env.sblock,b} fs fs') ∨
      ∃ parent name, r = some (parent,name) ∧ Parent env ctx fs fs' parent := by
  have numbered := consistent.owned.numbered
  obtain ⟨⟨ans,a⟩,started,ran⟩ := Runs.bind_ok.mp ran
  have onward : ∀ inode, Adds ctx ∅ fs a → Consistent env.sblock a → Kept env.sblock a (one ans) → a.inodes ans = some inode →
      r = none ∧ (∃ b, Adds ctx {bitmapBlock env.sblock,b} fs fs') ∨ ∃ parent name, r = some (parent,name) ∧
          Parent env ctx fs fs' parent := by
    intro inode before consistent' kept' found
    rcases namexLoop_budget layout _ consistent' kept' found ran with ⟨none,block,adds⟩ | ⟨parent,name,same,result⟩
    · exact .inl ⟨none,block,(before.mono (Finset.empty_subset _)).trans adds⟩
    · exact .inr ⟨parent,name,same,result.consistent,before.trans result.adds,result.loaded⟩
  unfold namexStart at started
  split at started
  · obtain ⟨⟨q,b⟩,got,same⟩ := Runs.map_ok started
    cases same
    have before : Adds ctx ∅ fs b := inodeGet_adds numbered got
    cases q with
    | none =>
      rcases inodeGet_cases got with ⟨zero,_⟩ | ⟨_,none,_⟩
      · exact absurd zero (by decide)
      · cases none
    | some q =>
      obtain ⟨rfl,kept'⟩ := inodeGet_kept kept got
      rw [zero_add] at kept'
      obtain ⟨_,inTable,_,⟨inode,found,entry⟩,_⟩ := inodeGet_found got
      by_cases alive : allocated env.sblock fs rootInodeNo = true
      · exact onward inode before (inodeGet_consistent consistent (.inr alive) got) kept' found
      · obtain ⟨_,file⟩ := free_entry consistent inTable alive
        obtain ⟨none,adds⟩ : _ ∧ Adds ctx {bitmapBlock env.sblock,toBlockNo env.sblock rootInodeNo} _ _ :=
          namexLoop_lost before.numbered (by simp) (by simp) found (.inl (by rw [entry]; exact file)) ran
        exact .inl ⟨none,_,(before.mono (Finset.empty_subset _)).trans adds⟩
  · obtain ⟨b,shared,same⟩ := Runs.map_ok started
    cases same
    have kept' := inodeShare_kept kept shared
    rw [zero_add] at kept'
    have before : Adds ctx ∅ fs a := inodeShare_adds numbered shared
    obtain ⟨inode,_,found⟩ := Runs.bind_ok.mp shared
    have consistent' := inodeShare_consistent consistent shared
    cases found
    exact onward _ before consistent' kept' (Function.update_self _ _ _)

end Keeping

section Sections
variable {env : Env} {p cwd : Usize} {fs fs' : Fs} {inode : Inode} {ctx : Ctx} {S : Finset Usize}

theorem getLocked_consistent (consistent : Consistent env.sblock fs) (alive : allocated env.sblock fs no = true)
    (ran : getLocked env no fs = .ok (ip,fs')) : Consistent env.sblock fs' := by
  obtain ⟨⟨q,middle⟩,got,ran⟩ := Runs.bind_ok.mp ran
  have first := inodeGet_consistent consistent (.inr alive) got
  cases q with
  | none => cases ran
  | some q =>
    obtain ⟨last,locked,ran⟩ := Runs.bind_ok.mp ran
    cases ran
    exact inodeLock_consistent first locked

theorem inodeAlloc_enters (ran : inodeAlloc env ctx type fs = .ok (no,fs')) :
    InTable env.sblock no ∧ type ≠ inodeInvalid ∧
    (diskEntry env.sblock fs.cache no).type = inodeInvalid ∧
    fs' = fs.setCache (writeEntry env.sblock ctx fs.cache no (InodeEntry.zero.setType type)) := by
  unfold inodeAlloc at ran
  split at ran
  · cases ran
  · rename_i valid
    by_cases empty : env.sblock.numInodes.toNat-1 = 0
    · rw [empty] at ran
      cases ran
    · obtain ⟨inTable,free,same⟩ := allocLoop_spec _ fs _ (by decide) (by simp; omega) ran
      exact ⟨inTable,valid,free,same⟩

theorem newInode_budget (layout : Layout env.sblock) (consistent : Consistent env.sblock fs)
    (ran : newInode env ctx type major minor fs = .ok (current,fs')) :
    Consistent env.sblock fs' ∧ Adds ctx {toBlockNo env.sblock current} fs fs' := by
  obtain ⟨⟨no,a⟩,entered,ran⟩ := Runs.bind_ok.mp ran
  have consistent₁ := inodeAlloc_consistent layout consistent entered
  obtain ⟨inTable,valid,_,rfl⟩ := inodeAlloc_enters entered
  have alive : allocated env.sblock
      (fs.setCache (writeEntry env.sblock ctx fs.cache no (InodeEntry.zero.setType type))) no = true := by
    refine allocated_iff.mpr ⟨inTable,?_⟩
    exact (congrArg InodeEntry.type (writeEntry_own _ _)).trans_ne valid
  obtain ⟨⟨p,b⟩,got,ran⟩ := Runs.bind_ok.mp ran
  obtain ⟨inode,there,ran⟩ := Runs.bind_ok.mp ran
  obtain ⟨last,synced,ran⟩ := Runs.bind_ok.mp ran
  cases ran
  have first : Adds ctx {toBlockNo env.sblock no} fs
      (fs.setCache (writeEntry env.sblock ctx fs.cache no (InodeEntry.zero.setType type))) :=
    ⟨put_viewAdds (by simp) _ _,consistent.owned.numbered⟩
  obtain ⟨second,rfl⟩ : Adds ctx {toBlockNo env.sblock no} _ b ∧ _ := getLocked_adds first.numbered got
  have consistent₂ := getLocked_consistent consistent₁ alive got
  have found := Fs.inode_ok.mp there
  have number := second.numbered current inode found
  have entered : Adds ctx {toBlockNo env.sblock current} b
      (b.setEntry current inode ((inode.entry.setDevice major minor).setNumLinks 1#16)) := ⟨.refl _,second.numbered.set number⟩
  refine ⟨(sync_consistent layout consistent₂ found ((inode.entry.setDevice major minor).setNumLinks 1#16) rfl rfl rfl synced).1,?_⟩
  exact ((first.trans second).trans entered).trans (inodeSync_adds entered.numbered (by simp) synced).1

theorem relink_consistent (layout : Layout env.sblock) (consistent : Consistent env.sblock fs)
    (ran : relink env ctx p change fs = .ok fs') :
    Consistent env.sblock fs' := by
  obtain ⟨inode,there,ran⟩ := Runs.bind_ok.mp ran
  exact (sync_consistent layout consistent (Fs.inode_ok.mp there)
      (inode.entry.setNumLinks (change inode.entry.numLinks)) rfl rfl rfl ran).1

theorem inodeInsert_consistent (layout : Layout env.sblock) (consistent : Consistent env.sblock fs)
    (ran : inodeInsert env ctx p name no fs = .ok (n,fs')) : Consistent env.sblock fs' :=
  call_consistent layout consistent (.insert ctx p name no) trivial (by simp [call,ran])

theorem insertDots_budget (layout : Layout env.sblock) (consistent : Consistent env.sblock fs)
    (bitmap : bitmapBlock env.sblock ∈ S) (table : toBlockNo env.sblock current ∈ S)
    (table' : toBlockNo env.sblock parentDir ∈ S) (ran : insertDots env ctx parentDir current fs = .ok fs') :
    Consistent env.sblock fs' ∧ ∃ X : Finset Usize, X.card ≤ 4 ∧ Adds ctx (X ∪ S) fs fs' := by
  obtain ⟨inode,_,ran⟩ := Runs.bind_ok.mp ran
  obtain ⟨⟨ret1,a⟩,first,ran⟩ := Runs.bind_ok.mp ran
  obtain ⟨parent,_,ran⟩ := Runs.bind_ok.mp ran
  obtain ⟨⟨ret2,b⟩,second,ran⟩ := Runs.bind_ok.mp ran
  have consistent₁ := inodeInsert_consistent layout consistent first
  have consistent₂ := inodeInsert_consistent layout consistent₁ second
  obtain ⟨X,small,adds⟩ := inodeInsert_adds layout consistent.owned bitmap table first
  obtain ⟨Y,small',adds'⟩ := inodeInsert_adds layout consistent₁.owned bitmap table second
  simp only at ran
  split at ran
  · cases ran
  · refine ⟨relink_consistent layout consistent₂ ran,X ∪ Y,?_,?_⟩
    · have both := Finset.card_union_le X Y
      omega
    · have dots : Adds ctx (X ∪ Y ∪ S) fs b :=
        (adds.mono (Finset.union_subset_union Finset.subset_union_left (Finset.Subset.refl S))).trans
        (adds'.mono (Finset.union_subset_union Finset.subset_union_right (Finset.Subset.refl S)))
      exact dots.trans (relink_adds dots.numbered (Finset.mem_union_right _ table') ran)

theorem createNew_budget (layout : Layout env.sblock) (consistent : Consistent env.sblock fs)
    (ran : createNew env ctx parentDir filename type major minor fs = .ok (current,fs')) : ∃ X :
    Finset Usize, X.card ≤ 6 ∧
      Adds ctx (X ∪ {bitmapBlock env.sblock,toBlockNo env.sblock parentDir,toBlockNo env.sblock current}) fs fs' := by
  obtain ⟨⟨p,a⟩,made,ran⟩ := Runs.bind_ok.mp ran
  obtain ⟨b,dots,ran⟩ := Runs.bind_ok.mp ran
  obtain ⟨inode,_,ran⟩ := Runs.bind_ok.mp ran
  obtain ⟨⟨ret,c⟩,listed,ran⟩ := Runs.bind_ok.mp ran
  obtain ⟨consistent₁,first⟩ := newInode_budget layout consistent made
  simp only at ran
  split at ran
  · cases ran
  · cases ran
    have second : Consistent env.sblock b ∧ ∃ X : Finset Usize, X.card ≤ 4 ∧
        Adds ctx (X ∪ {bitmapBlock env.sblock,toBlockNo env.sblock parentDir,toBlockNo env.sblock current}) a b := by
      split at dots
      · exact insertDots_budget layout consistent₁ (by simp) (by simp) (by simp) dots
      · cases dots
        exact ⟨consistent₁,∅,by simp,.refl first.numbered⟩
    obtain ⟨consistent₂,X,small,second⟩ := second
    obtain ⟨Y,small',third⟩ : ∃ Y : Finset Usize, Y.card ≤ 2 ∧
        Adds ctx (Y ∪ {bitmapBlock env.sblock,toBlockNo env.sblock parentDir,toBlockNo env.sblock current}) b fs' :=
      inodeInsert_adds layout consistent₂.owned (by simp) (by simp) listed
    refine ⟨X ∪ Y,?_,((first.mono ?_).trans (second.mono ?_)).trans (third.mono ?_)⟩
    · have both := Finset.card_union_le X Y
      omega
    · intro x member
      rw [Finset.mem_singleton] at member
      simp [member]
    · exact Finset.union_subset_union Finset.subset_union_left (Finset.Subset.refl _)
    · exact Finset.union_subset_union Finset.subset_union_right (Finset.Subset.refl _)

theorem create_budget (layout : Layout env.sblock) (consistent : Consistent env.sblock fs) (kept : Kept env.sblock fs 0)
    (ran : create env ctx cwd path type major minor fs = .ok (r,fs')) :
    r = none ∧ (∃ b, Adds ctx {bitmapBlock env.sblock,b} fs fs') ∨
      ∃ current b, r = some current ∧ ∃ X : Finset Usize, X.card ≤ 6 ∧
        Adds ctx (X ∪ {bitmapBlock env.sblock,b,toBlockNo env.sblock current}) fs fs' := by
  obtain ⟨⟨parent,a⟩,resolved,ran⟩ := Runs.bind_ok.mp ran
  rcases nameiparent_budget layout consistent kept resolved with ⟨rfl,adds⟩ | ⟨parentDir,filename,rfl,result⟩
  · cases ran
    exact .inl ⟨rfl,adds⟩
  · obtain ⟨b,locked,ran⟩ := Runs.bind_ok.mp ran
    obtain ⟨⟨no,index,c⟩,looked,ran⟩ := Runs.bind_ok.mp ran
    obtain ⟨⟨current,d⟩,made,ran⟩ := Runs.bind_ok.mp ran
    obtain ⟨e,unlocked,ran⟩ := Runs.bind_ok.mp ran
    obtain ⟨last,put,ran⟩ := Runs.bind_ok.mp ran
    cases ran
    have first : Adds ctx ∅ a b := inodeLock_adds result.adds.numbered locked
    have second : Adds ctx ∅ b c := (inodeLookup_adds first.numbered looked).1
    have consistent' := inodeLookup_consistent layout (inodeLock_consistent result.consistent locked) looked
    have before := (result.adds.trans first).trans second
    have third : ∃ X : Finset Usize, X.card ≤ 6 ∧
        Adds ctx (X ∪ {bitmapBlock env.sblock,toBlockNo env.sblock parentDir,toBlockNo env.sblock current}) c d := by
      split at made
      · exact ⟨∅,by simp,(getLocked_adds second.numbered made).1⟩
      · exact createNew_budget layout consistent' made
    obtain ⟨X,small,third⟩ := third
    refine .inr ⟨current,toBlockNo env.sblock parentDir,rfl,X,small,?_⟩
    have fourth : Adds ctx (X ∪ {bitmapBlock env.sblock,toBlockNo env.sblock parentDir,toBlockNo env.sblock current}) d e :=
      inodeUnlock_adds third.numbered unlocked
    exact (((before.mono (Finset.empty_subset _)).trans third).trans fourth).trans
        (inodePut_adds fourth.numbered (by simp) (by simp) put)

theorem card_three (X : Finset Usize) (a b c : Usize) : (X ∪ {a,b,c}).card ≤ X.card+3 := by
  have both := Finset.card_union_le X {a,b,c}
  have three : ({a,b,c} : Finset Usize).card ≤ 3 := Finset.card_le_three
  omega

theorem card_two (a b : Usize) : ({a,b} : Finset Usize).card ≤ 2 := Finset.card_le_two

theorem makeNode_budget (layout : Layout env.sblock) (consistent : Consistent env.sblock fs)
    (kept : Kept env.sblock fs 0) (ran : makeNode env ctx cwd path type major minor fs = .ok (r,fs')) : ∃ S :
    Finset Usize, S.card ≤ opMaxNumBlocks ∧ Adds ctx S fs fs' := by
  obtain ⟨⟨ip,a⟩,made,ran⟩ := Runs.bind_ok.mp ran
  rcases create_budget layout consistent kept made with ⟨rfl,b,adds⟩ | ⟨current,b,rfl,X,small,adds⟩
  · cases ran
    exact ⟨_,(card_two _ _).trans (by decide),adds⟩
  · obtain ⟨last,put,ran⟩ := Runs.bind_ok.mp ran
    cases ran
    refine ⟨_,(card_three X _ _ _).trans ?_,adds.trans (unlockPut_adds adds.numbered (by simp) (by simp) put)⟩
    have limit : opMaxNumBlocks = 10 := rfl
    omega

theorem openInode_budget (layout : Layout env.sblock) (consistent : Consistent env.sblock fs)
    (kept : Kept env.sblock fs 0) (ran : openInode env ctx cwd path true granted fs = .ok (r,fs')) : ∃ S :
    Finset Usize, S.card ≤ opMaxNumBlocks ∧ Adds ctx S fs fs' := by
  obtain ⟨⟨ip,a⟩,made,ran⟩ := Runs.bind_ok.mp ran
  rw [if_pos rfl] at made
  rcases create_budget layout consistent kept made with ⟨rfl,b,adds⟩ | ⟨current,b,rfl,X,small,adds⟩
  · cases ran
    exact ⟨_,(card_two _ _).trans (by decide),adds⟩
  · have limit : opMaxNumBlocks = 10 := rfl
    refine ⟨_,(card_three X _ _ _).trans (by omega),adds.trans ?_⟩
    simp only at ran
    split at ran
    · obtain ⟨last,unlocked,ran⟩ := Runs.bind_ok.mp ran
      cases ran
      exact inodeUnlock_adds adds.numbered unlocked
    · obtain ⟨last,put,ran⟩ := Runs.bind_ok.mp ran
      cases ran
      exact unlockPut_adds adds.numbered (by simp) (by simp) put

theorem unlinkat_budget (layout : Layout env.sblock) (consistent : Consistent env.sblock fs)
    (kept : Kept env.sblock fs 0) (ran : unlinkat env ctx cwd path fs = .ok (r,fs')) : ∃ S :
    Finset Usize, S.card ≤ opMaxNumBlocks ∧ Adds ctx S fs fs' := by
  have limit : opMaxNumBlocks = 10 := rfl
  obtain ⟨⟨parent,a⟩,resolved,ran⟩ := Runs.bind_ok.mp ran
  rcases nameiparent_budget layout consistent kept resolved with ⟨rfl,b,adds⟩ | ⟨dp,name,rfl,result⟩
  · cases ran
    exact ⟨_,(card_two _ _).trans (by decide),adds⟩
  · obtain ⟨b,locked,ran⟩ := Runs.bind_ok.mp ran
    have first : Adds ctx ∅ a b := inodeLock_adds result.adds.numbered locked
    have before := result.adds.trans first
    -- All the ways out with -1 give the directory back.
    have bad : ∀ c, Adds ctx ∅ fs c → unlockPut env ctx dp c = .ok fs' →
        ∃ S : Finset Usize, S.card ≤ opMaxNumBlocks ∧ Adds ctx S fs fs' := by
      intro c so put
      refine ⟨{bitmapBlock env.sblock,toBlockNo env.sblock dp},(card_two _ _).trans (by decide),?_⟩
      exact (so.mono (Finset.empty_subset _)).trans (unlockPut_adds so.numbered (by simp) (by simp) put)
    simp only at ran
    split at ran
    · obtain ⟨last,put,ran⟩ := Runs.bind_ok.mp ran
      cases ran
      exact bad b before put
    · obtain ⟨⟨inumber,off,c⟩,looked,ran⟩ := Runs.bind_ok.mp ran
      obtain ⟨second,inside⟩ : Adds ctx ∅ b c ∧ _ := inodeLookup_adds first.numbered looked
      simp only at ran
      split at ran
      · obtain ⟨last,put,ran⟩ := Runs.bind_ok.mp ran
        cases ran
        exact bad c (before.trans second) put
      · obtain ⟨⟨ip,d⟩,got,ran⟩ := Runs.bind_ok.mp ran
        obtain ⟨third,_⟩ : Adds ctx ∅ c d ∧ _ := getLocked_adds second.numbered got
        obtain ⟨inode,_,ran⟩ := Runs.bind_ok.mp ran
        split at ran
        · cases ran
        · obtain ⟨⟨busy,e⟩,tested,ran⟩ := Runs.bind_ok.mp ran
          have fourth : Adds ctx ∅ d e := inUse_adds third.numbered tested
          have so := ((before.trans second).trans third).trans fourth
          simp only at ran
          split at ran
          · obtain ⟨f,put,ran⟩ := Runs.bind_ok.mp ran
            obtain ⟨last,put',ran⟩ := Runs.bind_ok.mp ran
            cases ran
            have fifth : Adds ctx (∅ ∪ {bitmapBlock env.sblock,toBlockNo env.sblock dp,toBlockNo env.sblock ip}) e f :=
              unlockPut_adds fourth.numbered (by simp) (by simp) put
            refine ⟨_,(card_three ∅ _ _ _).trans (by simp; omega),((so.mono (Finset.empty_subset _)).trans fifth).trans ?_⟩
            exact unlockPut_adds fifth.numbered (by simp) (by simp) put'
          · obtain ⟨last,removed,ran⟩ := Runs.bind_ok.mp ran
            cases ran
            obtain ⟨X,small,fifth⟩ : ∃ X : Finset Usize, _ ∧
                Adds ctx (X ∪ {bitmapBlock env.sblock,toBlockNo env.sblock dp,toBlockNo env.sblock ip}) e fs' :=
              unlinkEntry_adds fourth.numbered (by simp) (by simp) (by simp) inside removed
            exact ⟨_,(card_three X _ _ _).trans (by omega),(so.mono (Finset.empty_subset _)).trans fifth⟩

-- The distinct blocks that transaction `op` has handed to cache->sync, and those among
-- them that were not there before.
def blocksOf (op : Nat) (v : View) : Finset Usize := (v.synced.filterMap fun x => if x.1 = op then some x.2 else none).toFinset
def added (op : Nat) (v v' : View) : Finset Usize := blocksOf op v' \ blocksOf op v

theorem mem_blocksOf {v : View} : b ∈ blocksOf op v ↔ (op,b) ∈ v.synced := by
  simp only [blocksOf,List.mem_toFinset,List.mem_filterMap]
  constructor
  · rintro ⟨⟨op',b'⟩,member,same⟩
    split at same
    · rename_i here
      cases same
      subst here
      exact member
    · cases same
  · intro member
    exact ⟨(op,b),member,by simp⟩

theorem adds_added (adds : Adds (some op) S fs fs') (small : S.card ≤ opMaxNumBlocks) :
    (added op fs.cache fs'.cache).card ≤ opMaxNumBlocks := by
  refine (Finset.card_le_card ?_).trans small
  intro b member
  obtain ⟨after,before⟩ := Finset.mem_sdiff.mp member
  rw [mem_blocksOf] at after before
  exact ((adds.blocks (op,b) after).resolve_left before).2

-- The calls of cache_sync with the ctx of `op`, and what they do to a log when no other
-- thread is in between.
def callsOf (op : Nat) (v : View) : List Usize := v.synced.filterMap fun x => if x.1 = op then some x.2 else none
def logSyncs : List Usize → LogHeader → Nat → Except Fault (LogHeader × Nat)
  | [],header,rm => .ok (header,rm)
  | b::rest,header,rm => do
    let (header,rm) ← logSync header rm b
    logSyncs rest header rm

theorem logSyncs_fit (calls : List Usize) {header : LogHeader} {rm : Nat} (room : header.numBlocks+rm < logMaxSize)
    (few : (calls.toFinset \ header.blocks.toFinset).card ≤ rm) : ∃ r, logSyncs calls header rm = .ok r := by
  induction calls generalizing header rm with
  | nil => exact ⟨_,rfl⟩
  | cons b rest ih =>
    rw [List.toFinset_cons] at few
    by_cases present : b ∈ header.blocks
    · have listed : header.blocks.contains b = true := by simpa using present
      rw [Finset.insert_sdiff_of_mem _ (List.mem_toFinset.mpr present)] at few
      simp only [logSyncs,logSync,if_pos listed,bind,Except.bind]
      exact ih room few
    · have absent : b ∉ header.blocks.toFinset := fun member => present (List.mem_toFinset.mp member)
      have listed : ¬ header.blocks.contains b = true := by simpa using present
      -- The block is charged, and is one of those that are left.
      have charged : (rest.toFinset \ (header.blocks++[b]).toFinset).card+1 ≤
          (insert b rest.toFinset \ header.blocks.toFinset).card := by
        refine Finset.card_lt_card (Finset.ssubset_iff.mpr ⟨b,by simp,?_⟩)
        intro c member
        simp only [Finset.mem_insert,Finset.mem_sdiff,List.mem_toFinset,List.mem_append,List.mem_singleton,not_or] at member ⊢
        rcases member with rfl | ⟨member,old,_⟩
        · exact ⟨.inl rfl,present⟩
        · exact ⟨.inr member,old⟩
      have size : header.numBlocks < logMaxSize := by omega
      have recorded := LogHeader.numBlocks_record header b size
      have allowed : ¬ (rm = 0 ∨ logMaxSize ≤ (header.record b).numBlocks) := by omega
      simp only [logSyncs,logSync,if_neg listed,if_neg (Nat.not_le.mpr size),if_neg allowed,bind,Except.bind]
      refine ih (by omega) ?_
      rw [LogHeader.blocks_record header b size]
      omega

-- A round of file_write: at most four file blocks, a new indirect block, the inode and
-- the bitmap.
theorem writeChunk_budget (layout : Layout env.sblock) (consistent : Consistent env.sblock fs)
    (short : src.length ≤ maxOpWriteN) (ran : writeChunk env ctx ip src off fs = .ok (w,fs')) :
    Consistent env.sblock fs' ∧ ∃ S : Finset Usize, S.card ≤ opMaxNumBlocks ∧ Adds ctx S fs fs' := by
  obtain ⟨a,locked,ran⟩ := Runs.bind_ok.mp ran
  obtain ⟨⟨n,b⟩,written,ran⟩ := Runs.bind_ok.mp ran
  obtain ⟨c,unlocked,ran⟩ := Runs.bind_ok.mp ran
  cases ran
  have consistent₁ := inodeLock_consistent consistent locked
  obtain ⟨inode,found⟩ := found_of_bind written
  have consistent₂ := (inodeWrite_works layout consistent₁.owned written).consistent consistent₁ found
  refine ⟨inodeUnlock_consistent consistent₂ unlocked,?_⟩
  obtain ⟨X,small,second⟩ : ∃ X : Finset Usize, _ ∧ Adds ctx (X ∪ {bitmapBlock env.sblock,toBlockNo env.sblock ip}) a b :=
    inodeWrite_adds layout consistent₁.owned found (by simp) (by simp) written
  have first : Adds ctx (X ∪ {bitmapBlock env.sblock,toBlockNo env.sblock ip}) fs a := inodeLock_adds consistent.owned.numbered locked
  refine ⟨_,?_,(first.trans second).trans (inodeUnlock_adds second.numbered unlocked)⟩
  have limit : opMaxNumBlocks = 10 := rfl
  have chunk : maxOpWriteN = 1536 := rfl
  have total := Finset.card_union_le X {bitmapBlock env.sblock,toBlockNo env.sblock ip}
  have two := card_two (bitmapBlock env.sblock) (toBlockNo env.sblock ip)
  have rounded : rounds off.toNat src.length ≤ 4 := by
    unfold rounds blockSize
    split <;> omega
  omega

theorem fileWriteLoop_budget (layout : Layout env.sblock) (fuel : Nat) (consistent : Consistent env.sblock fs)
    (fresh : ∀ x ∈ fs.cache.synced, x.1 < op) (ran : fileWriteLoop env ip fuel op src off fs = .ok (off',fs')) :
    (∀ x ∈ fs'.cache.synced, x ∈ fs.cache.synced ∨ op ≤ x.1) ∧ ∀ op', op ≤ op' →
    (blocksOf op' fs'.cache).card ≤ opMaxNumBlocks := by
  have nothing : ∀ op', op ≤ op' → (blocksOf op' fs.cache).card ≤ opMaxNumBlocks := by
    intro op' later
    have none : blocksOf op' fs.cache = ∅ := by
      refine Finset.eq_empty_of_forall_notMem ?_
      intro b member
      have earlier := fresh _ (mem_blocksOf.mp member)
      simp only at earlier
      omega
    rw [none]
    exact Nat.zero_le _
  induction fuel generalizing op src off fs with
  | zero =>
    cases ran
    exact ⟨fun _ member => .inl member,nothing⟩
  | succ fuel ih =>
    simp only [fileWriteLoop] at ran
    split at ran
    · cases ran
      exact ⟨fun _ member => .inl member,nothing⟩
    · obtain ⟨⟨w,a⟩,chunk,rest⟩ := Runs.bind_ok.mp ran
      obtain ⟨consistent',S,small,adds⟩ := writeChunk_budget layout consistent (List.length_take_le _ _) chunk
      have own : ∀ x ∈ a.cache.synced, x ∈ fs.cache.synced ∨ x.1 = op := by
        intro x member
        exact (adds.blocks x member).imp_right fun new => (Option.some.inj new.1).symm
      have fresh' : ∀ x ∈ a.cache.synced, x.1 < op+1 := by
        intro x member
        rcases own x member with old | new
        · have earlier := fresh x old
          omega
        · omega
      have here : (blocksOf op a.cache).card ≤ opMaxNumBlocks := by
        refine (Finset.card_le_card ?_).trans small
        intro b member
        rcases adds.blocks _ (mem_blocksOf.mp member) with old | new
        · have earlier := fresh _ old
          simp only at earlier
          omega
        · exact new.2
      have nothing' : ∀ op', op+1 ≤ op' → (blocksOf op' a.cache).card ≤ opMaxNumBlocks := by
        intro op' later
        have none : blocksOf op' a.cache = ∅ := by
          refine Finset.eq_empty_of_forall_notMem ?_
          intro b member
          have earlier := fresh' _ (mem_blocksOf.mp member)
          simp only at earlier
          omega
        rw [none]
        exact Nat.zero_le _
      obtain ⟨after,each⟩ := ih consistent' fresh' rest nothing'
      refine ⟨?_,?_⟩
      · intro x member
        rcases after x member with old | new
        · rcases own x old with old | new
          · exact .inl old
          · exact .inr (by omega)
        · exact .inr (by omega)
      · intro op' later
        by_cases same : op' = op
        · subst same
          refine (Finset.card_le_card ?_).trans here
          intro b member
          rw [mem_blocksOf] at member ⊢
          rcases after _ member with old | new
          · exact old
          · simp only at new
            omega
        · exact each op' (by omega)

-- Every section stays within OP_MAX_NUM_BLOCKS: those of file_write and file_close in
-- every consistent state, those that resolve a path if no directory that nobody holds
-- has link count 0.
theorem transactions_fit (layout : Layout env.sblock) (consistent : Consistent env.sblock fs) :
    (∀ op ip src off off' fs', (∀ x ∈ fs.cache.synced, x.1 < op) → fileWrite env op ip src off fs = .ok (off',fs') →
      ∀ op', op ≤ op' → (blocksOf op' fs'.cache).card ≤ opMaxNumBlocks) ∧
    (∀ op ip fs', inodePut env (some op) ip fs = .ok fs' → (added op fs.cache fs'.cache).card ≤ opMaxNumBlocks) ∧
    (Kept env.sblock fs 0 → ∀ op cwd path,
      (∀ granted r fs', openInode env (some op) cwd path true granted fs = .ok (r,fs') →
      (added op fs.cache fs'.cache).card ≤ opMaxNumBlocks) ∧
      (∀ type major minor r fs', makeNode env (some op) cwd path type major minor fs = .ok (r,fs') →
        (added op fs.cache fs'.cache).card ≤ opMaxNumBlocks) ∧
      ∀ r fs', unlinkat env (some op) cwd path fs = .ok (r,fs') → (added op fs.cache fs'.cache).card ≤ opMaxNumBlocks) ∧
    ∀ op (v : View) header (outstanding : Nat), (blocksOf op v).card ≤ opMaxNumBlocks → roomFor header outstanding →
      ∃ r, logSyncs (callsOf op v) header opMaxNumBlocks = .ok r := by
  refine ⟨?_,?_,?_,?_⟩
  · intro op ip src off off' fs' fresh ran
    exact (fileWriteLoop_budget layout _ consistent fresh ran).2
  · intro op ip fs' ran
    have adds : Adds (some op) {bitmapBlock env.sblock,toBlockNo env.sblock ip} fs fs' :=
      inodePut_adds consistent.owned.numbered (by simp) (by simp) ran
    exact adds_added adds ((card_two _ _).trans (by decide))
  · intro kept op cwd path
    refine ⟨?_,?_,?_⟩
    · intro granted r fs' ran
      obtain ⟨S,small,adds⟩ := openInode_budget layout consistent kept ran
      exact adds_added adds small
    · intro type major minor r fs' ran
      obtain ⟨S,small,adds⟩ := makeNode_budget layout consistent kept ran
      exact adds_added adds small
    · intro r fs' ran
      obtain ⟨S,small,adds⟩ := unlinkat_budget layout consistent kept ran
      exact adds_added adds small
  · intro op v header outstanding few room
    have begun : header.numBlocks+opMaxNumBlocks < logMaxSize := by
      have ten : opMaxNumBlocks = 10 := rfl
      have size : logMaxSize = 63 := rfl
      simp only [roomFor,Bool.not_eq_true',decide_eq_false_iff_not,Int.not_le,ten,size] at room
      omega
    exact logSyncs_fit _ begun ((Finset.card_le_card Finset.sdiff_subset).trans few)

end Sections

-- mkdirat of `a` in the root of the blank disk.
theorem mkdirat_fits :
    ∃ r fs fs', makeNode blankEnv (some 1) 1#64 [47#8,97#8] inodeDirectory 0#16 0#16 fs = .ok (r,fs') ∧
    fs'.cache.synced ≠ fs.cache.synced ∧ (added 1 fs.cache fs'.cache).card ≤ opMaxNumBlocks := by
  obtain ⟨fs,ran,facts⟩ := Runs.some_such
    (x := Runs.execGuarded (next blankEnv) (Permitted mkfsSuperBlock) blankDisk [.alloc (some 0) inodeDirectory,.get 1#64])
    (p := fun fs => ((List.range 200).all fun no => no = 1 ∨ no = 0 ∨
          (entryOf mkfsSuperBlock fs (BitVec.ofNat 64 no)).type = inodeInvalid) &&
        ((fs.inodes 1#64).any fun inode => 0 < inode.rc) &&
        (makeNode blankEnv (some 1) 1#64 [47#8,97#8] inodeDirectory 0#16 0#16 fs).toOption.any
          fun r => r.2.cache.synced ≠ fs.cache.synced) (by decide +kernel)
  obtain ⟨facts,made⟩ := Bool.and_eq_true_iff.mp facts
  obtain ⟨vacant,root⟩ := Bool.and_eq_true_iff.mp facts
  obtain ⟨⟨r,fs'⟩,made,synced⟩ := Runs.some_such made
  obtain ⟨inode,loaded,positive⟩ := Runs.some_such root
  have consistent := run_consistent blank_layout blank_image.consistent (Runs.exec_guarded .start ran)
  have kept : Kept blankEnv.sblock fs 0 := by
    intro no inTable directory _
    have listed := List.all_eq_true.mp vacant no.toNat (List.mem_range.mpr inTable.2)
    rw [BitVec.ofNat_toNat,BitVec.setWidth_eq] at listed
    have positive' : 0 < no.toNat := inTable.1
    rcases of_decide_eq_true listed with first | zero | free
    · have number : no = 1#64 := BitVec.eq_of_toNat_eq first
      subst number
      exact ⟨inode,loaded,of_decide_eq_true positive⟩
    · omega
    · exact absurd (free.symm.trans directory) (by decide)
  have made := Runs.toOption_some made
  exact ⟨r,fs,fs',made,of_decide_eq_true synced,
    ((transactions_fit blank_layout consistent).2.2.1 kept 1 1#64 _).2.1 _ _ _ _ _ made⟩

-- Inodes 1 to 87 of this image are empty directories with link count 0.
def sparse : BlockData := BitVec.ofNat 4096 ((2^4096-1)/(2^512-1))
def ladderDisk : Fs :=
  ⟨⟨fun b => if b = bitmapBlock mkfsSuperBlock then BitVec.ofNat 4096 (2^92-1) else
    if 65 ≤ b.toNat ∧ b.toNat < 76 then sparse else 0#4096,[]⟩,fun _ => none⟩

theorem ladder_holes (no : Usize) (inTable : InTable mkfsSuperBlock no) (place : Place) :
    refsOf ladderDisk.cache (diskEntry mkfsSuperBlock ladderDisk.cache no) place = none := by
  have below := (blank_layout.tableBlock inTable).2
  have other : toBlockNo mkfsSuperBlock no ≠ bitmapBlock mkfsSuperBlock := by
    intro same
    rw [show toBlockNo blankEnv.sblock no = bitmapBlock blankEnv.sblock from same,bitmapBlock_toNat] at below
    exact absurd below (Nat.lt_irrefl _)
  have unset : ∀ d : BlockData, d = sparse ∨ d = 0#4096 → ∀ i, i < 8 →
      (∀ j, (InodeEntry.ofImage (BitSlice.get 512 (512*i) d)).addrs j = 0#32) ∧
          (InodeEntry.ofImage (BitSlice.get 512 (512*i) d)).indirect = 0#32 := by
    rintro d (rfl | rfl)
    · decide +kernel
    · decide +kernel
  have block : ladderDisk.cache.blocks (toBlockNo mkfsSuperBlock no) = sparse ∨ ladderDisk.cache.blocks
      (toBlockNo mkfsSuperBlock no) = 0#4096 := by
    simp only [ladderDisk,if_neg other]
    split
    · exact .inl rfl
    · exact .inr rfl
  obtain ⟨direct,indirect⟩ := unset _ block (no.toNat%8) (Nat.mod_lt _ (by decide))
  have direct : ∀ j, (diskEntry mkfsSuperBlock ladderDisk.cache no).addrs j = 0#32 := direct
  have indirect : (diskEntry mkfsSuperBlock ladderDisk.cache no).indirect = 0#32 := indirect
  cases place with
  | direct j => simp [refsOf,direct,reference]
  | indirect => simp [refsOf,indirect,reference]
  | entry j => simp [refsOf,indirect]

theorem ladder_image : Image mkfsSuperBlock ladderDisk := by
  have none : ∀ slot, refs mkfsSuperBlock (allocated mkfsSuperBlock ladderDisk) ladderDisk slot = none := by
    intro slot
    unfold refs
    split
    · rename_i inUse
      exact ladder_holes _ (allocated_iff.mp inUse).1 _
    · rfl
  have marks : ∀ b, used mkfsSuperBlock ladderDisk.cache b ↔ b.toNat < 92 := by
    intro b
    have same : ladderDisk.cache.blocks (bitmapBlock mkfsSuperBlock) = blankDisk.cache.blocks (bitmapBlock mkfsSuperBlock) := by
      simp [ladderDisk,blankDisk]
    rw [← blank_used]
    unfold used
    rw [same]
    rfl
  refine Image.of_holes blank_layout (fun _ => rfl) ?_ none
  intro b
  have low : mkfsSuperBlock.bitmapStart.toNat = 91 := rfl
  rw [marks,low]
  omega

-- In the path /a/a/.. every directory is the entry `a` of the one before it.
def rungs : List Usize := [1#64,8#64,16#64,24#64,32#64,40#64,48#64,56#64,64#64,72#64,80#64]
def ladder : List Call := rungs.map .get++List.zipWith (fun p no => .insert (some 0) p [97#8] no) rungs rungs.tail
def climb : List Byte := (List.replicate 11 [47#8,97#8]).flatten

-- After a restart nothing is loaded: namex frees each directory as it leaves it, and
-- their entries lie in eleven blocks of the inode table.
set_option maxRecDepth 100000 in
theorem long_path_overflows : ¬ ∀ (env : Env) (fs : Fs), Layout env.sblock → Consistent env.sblock fs →
    ∀ op cwd path r fs', unlinkat env (some op) cwd path fs = .ok (r,fs') →
    (added op fs.cache fs'.cache).card ≤ opMaxNumBlocks := by
  intro fitting
  obtain ⟨fs,ran,facts⟩ := Runs.some_such
    (x := Runs.execGuarded (next blankEnv) (Permitted mkfsSuperBlock) ladderDisk ladder)
    (p := fun fs => (((List.range 200).all fun no => (fs.inodes (BitVec.ofNat 64 no)).all fun inode =>
          decide (BitSlice.get 512 (512*(no%8))
              (fs.cache.blocks (toBlockNo mkfsSuperBlock (BitVec.ofNat 64 no))) = inode.entry.image)) &&
        decide (∀ x ∈ fs.cache.synced, x.1 ≠ 1)) &&
      (unlinkat blankEnv (some 1) 1#64 climb ⟨fs.cache,fun _ => none⟩).toOption.any fun r =>
        (List.range 11).all fun i => decide (((1,BitVec.ofNat 64 (65+i)) : Nat × Usize) ∈
            (r : Bool × Fs).2.cache.synced)) (by decide +kernel)
  obtain ⟨facts,unlinked⟩ := Bool.and_eq_true_iff.mp facts
  obtain ⟨written,fresh⟩ := Bool.and_eq_true_iff.mp facts
  obtain ⟨⟨r,fs'⟩,unlinked,touched⟩ := Runs.some_such unlinked
  have consistent := run_consistent blank_layout ladder_image.consistent (Runs.exec_guarded .start ran)
  have restarted : Consistent blankEnv.sblock ⟨fs.cache,fun _ => none⟩ := by
    refine consistent.restart ?_
    intro p inode loaded
    have small : p.toNat < 200 := (consistent.owned.inTable p (consistent.owned.loaded p inode loaded).1).2
    have image := List.all_eq_true.mp written p.toNat (List.mem_range.mpr small)
    rw [BitVec.ofNat_toNat,BitVec.setWidth_eq,loaded] at image
    have image : BitSlice.get 512 (512*(p.toNat%8)) (fs.cache.blocks (toBlockNo mkfsSuperBlock p)) = inode.entry.image :=
      of_decide_eq_true image
    have entry := congrArg InodeEntry.ofImage image
    rw [InodeEntry.ofImage_image] at entry
    exact entry
  have few := fitting blankEnv ⟨fs.cache,fun _ => none⟩ blank_layout restarted 1 1#64 climb r fs' (Runs.toOption_some unlinked)
  have many : (List.range 11).toFinset.image (fun i => BitVec.ofNat 64 (65+i)) ⊆ added 1 fs.cache fs'.cache := by
    intro b member
    obtain ⟨i,listed,rfl⟩ := Finset.mem_image.mp member
    refine Finset.mem_sdiff.mpr ⟨mem_blocksOf.mpr ?_,?_⟩
    · exact of_decide_eq_true (List.all_eq_true.mp touched i (List.mem_toFinset.mp listed))
    · intro before
      exact of_decide_eq_true fresh _ (mem_blocksOf.mp before) rfl
  have eleven := Finset.card_le_card many
  have count : ((List.range 11).toFinset.image fun i => BitVec.ofNat 64 (65+i)).card = 11 := by decide
  have limit : opMaxNumBlocks = 10 := rfl
  simp only at few
  omega

end SysFile
