import HonorKernel.FileRuns
import HonorKernel.SysFile

-- What reads of any inode, the end of a reference, and file_write leave of a file.
namespace InodeLayer
open DiskFormat CacheView Overlay SysFile

-- The inode stays, its blocks stay where they are and keep their bytes.
def Frames (p : Usize) (fs fs' : Fs) : Prop :=
  ∀ inode, fs.inodes p = some inode → ∃ inode', fs'.inodes p = some inode' ∧ inode'.entry.type = inode.entry.type ∧
    inode'.entry.numBytes = inode.entry.numBytes ∧ inode'.entry.numLinks = inode.entry.numLinks ∧
        ∀ k b, fileBlock fs.cache inode.entry k = some b →
      fileBlock fs'.cache inode'.entry k = some b ∧ fs'.cache.blocks b = fs.cache.blocks b

section Frames
variable {env : Env} {ctx : Ctx} {live : Usize → Bool} {fs fs' fs'' : Fs} {p q b : Usize} {inode : Inode}
  {size : Nat} {bytes : Nat → Option Byte}

theorem Frames.refl (p : Usize) (fs : Fs) : Frames p fs fs :=
  fun inode found => ⟨inode,found,rfl,rfl,rfl,fun _ _ mapped => ⟨mapped,rfl⟩⟩

theorem Frames.trans (first : Frames p fs fs') (second : Frames p fs' fs'') : Frames p fs fs'' := by
  intro inode found
  obtain ⟨inode',found',type,number,links,blocks⟩ := first inode found
  obtain ⟨inode'',found'',type',number',links',blocks'⟩ := second inode' found'
  refine ⟨inode'',found'',type'.trans type,number'.trans number,links'.trans links,?_⟩
  intro k b mapped
  obtain ⟨mapped',data⟩ := blocks k b mapped
  obtain ⟨mapped'',data'⟩ := blocks' k b mapped'
  exact ⟨mapped'',data'.trans data⟩

theorem Frames.holds (frames : Frames p fs fs') (holds : Holds fs p size bytes) : Holds fs' p size bytes := by
  obtain ⟨inode,found,file,whole,sized,painted⟩ := holds.there
  obtain ⟨inode',found',type,number,_,blocks⟩ := frames inode found
  refine ⟨inode',found',by rw [type]; exact file,⟨by rw [number]; exact whole.size,?_⟩,by rw [number]; exact sized,?_⟩
  · intro k below
    rw [number] at below
    obtain ⟨b,mapped⟩ := Option.ne_none_iff_exists'.mp (whole.mapped k below)
    rw [(blocks k b mapped).1]
    simp
  · rw [← painted]
    funext x
    unfold content
    rw [number]
    by_cases below : x < inode.entry.numBytes.toNat
    · obtain ⟨b,mapped⟩ := Option.ne_none_iff_exists'.mp (whole.mapped (x/blockSize) (by unfold blockSize; omega))
      obtain ⟨mapped',data⟩ := blocks _ b mapped
      rw [if_pos below,if_pos below]
      unfold fileByte
      simp only [mapped,mapped',data]
    · rw [if_neg below,if_neg below]

theorem Frames.setInode (p : Usize) (found : fs.inodes q = some inode) {inode' : Inode}
    (entry : inode'.entry = inode.entry) :
    Frames p fs (fs.setInode q inode') := by
  intro other there
  by_cases same : p = q
  · subst same
    cases found.symm.trans there
    have here : (fs.setInode p inode').inodes p = some inode' := Function.update_self ..
    exact ⟨inode',here,by rw [entry],by rw [entry],by rw [entry],fun k b mapped => ⟨by rw [entry]; exact mapped,rfl⟩⟩
  · have kept : (fs.setInode q inode').inodes p = some other := (Function.update_of_ne same ..).trans there
    exact ⟨other,kept,rfl,rfl,rfl,fun k b mapped => ⟨mapped,rfl⟩⟩

theorem inodeLock_frames (p : Usize) (ran : inodeLock q fs = .ok fs') : Frames p fs fs' := by
  obtain ⟨_,_,found,rfl⟩ := inodeLock_set ran
  exact .setInode p found rfl

theorem inodeUnlock_frames (p : Usize) (ran : inodeUnlock q fs = .ok fs') : Frames p fs fs' := by
  obtain ⟨_,_,found,rfl⟩ := inodeUnlock_set ran
  exact .setInode p found rfl

theorem Maps.frames {sb : SuperBlock} (maps : Maps sb live q inode fs fs') (owned : Owned sb live fs)
    (found : fs.inodes q = some inode) (p : Usize) : Frames p fs fs' := by
  intro other there
  obtain ⟨inode',there',type,number,links⟩ : ∃ inode', fs'.inodes p = some inode' ∧ inode'.entry.type = other.entry.type ∧
      inode'.entry.numBytes = other.entry.numBytes ∧ inode'.entry.numLinks = other.entry.numLinks := by
    by_cases same : p = q
    · subst same
      cases found.symm.trans there
      obtain ⟨addrs,indirect,after⟩ := maps.found
      exact ⟨_,after,rfl,rfl,rfl⟩
    · exact ⟨other,(maps.beside.inodes p same).trans there,rfl,rfl,rfl⟩
  refine ⟨inode',there',type,number,links,?_⟩
  intro k b mapped
  obtain ⟨small,refers⟩ := (fileBlock_iff owned there k b).mp mapped
  exact ⟨(fileBlock_iff maps.owned there' k b).mpr ⟨small,maps.grows.refs _ b refers⟩,
    maps.grows.data p _ b (Place.file_ne_indirect _) refers⟩

theorem readLoop_frames (layout : Layout env.sblock) (fuel : Nat) {offset left : Nat} {modified modified' : Bool}
    {dest out : List Byte} (owned : Owned env.sblock live fs) (found : fs.inodes q = some inode) (p : Usize)
    (ran : readLoop env q fuel offset left modified dest fs = .ok (out,modified',fs')) : Frames p fs fs' := by
  induction fuel generalizing offset left modified dest fs inode with
  | zero =>
    cases ran
    exact .refl p _
  | succ fuel ih =>
    simp only [readLoop] at ran
    split at ran
    · cases ran
      exact .refl p _
    · obtain ⟨⟨b,flag,middle⟩,mapped,rest⟩ := Runs.bind_ok.mp ran
      obtain ⟨maps,_⟩ := inodeMap_maps layout owned found mapped
      obtain ⟨addrs,indirect,found'⟩ := maps.found
      exact (maps.frames owned found p).trans (ih maps.owned found' rest)

theorem inodeRead_frames (layout : Layout env.sblock) {offset count n : Usize} {out : List Byte}
    (owned : Owned env.sblock live fs) (p : Usize) (ran : inodeRead env q offset count fs = .ok (n,out,fs')) :
    Frames p fs fs' := by
  obtain ⟨inode,found,ran⟩ := Runs.bind_ok.mp ran
  have found := Fs.inode_ok.mp found
  simp only at ran
  split at ran
  · split at ran
    · obtain ⟨middle,unlocked,ran⟩ := Runs.bind_ok.mp ran
      have first := inodeUnlock_frames p unlocked
      split at ran
      · cases ran
        exact first
      · obtain ⟨last,locked,ran⟩ := Runs.bind_ok.mp ran
        cases ran
        exact first.trans (inodeLock_frames p locked)
    · cases ran
  · split at ran
    · obtain ⟨⟨read,modified,last⟩,looped,ran⟩ := Runs.bind_ok.mp ran
      simp only at ran
      split at ran
      · cases ran
      · cases ran
        exact readLoop_frames layout _ owned found p looped
    · cases ran

end Frames

-- inode_clear writes to the bitmap and to the inode table, and to no data block.
section Clearing
variable {env : Env} {ctx : Ctx} {live : Usize → Bool} {fs fs' : Fs} {p q : Usize} {inode : Inode}

def SameData (sb : SuperBlock) (v v' : View) : Prop := ∀ b, dataBlock sb b → v'.blocks b = v.blocks b

theorem cacheFree_data {sb : SuperBlock} {v v' : View} {b : Usize} (ran : cacheFree sb ctx b v = .ok v') :
    SameData sb v v' := by
  intro c inData
  refine (cacheFree_gives ran).others c ?_
  rintro rfl
  have above := inData.1
  rw [bitmapBlock_toNat] at above
  omega

theorem clearIndirect_data (found : fs.inodes p = some inode) (ran : clearIndirect env ctx p fs = .ok fs') :
    SameData env.sblock fs.cache fs'.cache ∧ ∃ inode', fs'.inodes p = some inode' ∧ inode'.inodeNo = inode.inodeNo := by
  obtain ⟨inode₁,there,ran⟩ := Runs.bind_ok.mp ran
  cases found.symm.trans (Fs.inode_ok.mp there)
  split at ran
  · cases ran
    exact ⟨fun _ _ => rfl,inode,found,rfl⟩
  · obtain ⟨v,entries,ran⟩ := Runs.bind_ok.mp ran
    obtain ⟨v',last,ran⟩ := Runs.bind_ok.mp ran
    cases ran
    have freed : SameData env.sblock fs.cache v := by
      refine Runs.upTo_invariant (fun _ t => SameData env.sblock fs.cache t) inodeNumIndirect 0 (fun _ _ => rfl) ?_ entries
      intro j t t' _ _ before step
      unfold freeEntry at step
      split at step
      · cases step
        exact before
      · intro c inData
        rw [cacheFree_data step c inData]
        exact before c inData
    refine ⟨?_,_,Function.update_self ..,rfl⟩
    intro c inData
    change v'.blocks c = _
    rw [cacheFree_data last c inData]
    exact freed c inData

theorem clearAddr_data {i : Nat} (found : fs.inodes p = some inode) (ran : clearAddr env ctx p i fs = .ok fs') :
    SameData env.sblock fs.cache fs'.cache ∧ ∃ inode', fs'.inodes p = some inode' ∧ inode'.inodeNo = inode.inodeNo := by
  obtain ⟨inode₁,there,ran⟩ := Runs.bind_ok.mp ran
  cases found.symm.trans (Fs.inode_ok.mp there)
  split at ran
  · split at ran
    · cases ran
      exact ⟨fun _ _ => rfl,inode,found,rfl⟩
    · obtain ⟨v,freed,ran⟩ := Runs.bind_ok.mp ran
      cases ran
      exact ⟨cacheFree_data freed,_,Function.update_self ..,rfl⟩
  · cases ran

theorem inodeClear_data (layout : Layout env.sblock) (found : fs.inodes p = some inode)
    (number : InTable env.sblock inode.inodeNo) (ran : inodeClear env ctx p fs = .ok fs') :
    SameData env.sblock fs.cache fs'.cache := by
  obtain ⟨one,first,ran⟩ := Runs.bind_ok.mp ran
  obtain ⟨two,second,ran⟩ := Runs.bind_ok.mp ran
  obtain ⟨inode₂,again,ran⟩ := Runs.bind_ok.mp ran
  obtain ⟨data₁,inode₁,found₁,number₁⟩ := clearIndirect_data found first
  have loop : SameData env.sblock fs.cache two.cache ∧ ∃ inode', two.inodes p = some inode' ∧ inode'.inodeNo = inode.inodeNo := by
    refine Runs.upTo_invariant (fun _ t => SameData env.sblock fs.cache t.cache ∧
        ∃ inode', t.inodes p = some inode' ∧ inode'.inodeNo = inode.inodeNo)
      inodeNumDirect 0 ⟨data₁,inode₁,found₁,number₁⟩ ?_ second
    rintro j t t' _ _ ⟨before,inode',there,same⟩ step
    obtain ⟨data,inode'',there',same'⟩ := clearAddr_data there step
    exact ⟨fun c inData => (data c inData).trans (before c inData),inode'',there',same'.trans same⟩
  obtain ⟨data₂,inode',there,same⟩ := loop
  cases there.symm.trans (Fs.inode_ok.mp again)
  obtain ⟨inode₃,last,ran⟩ := Runs.bind_ok.mp ran
  have here : (two.setEntry p inode₂
      (inode₂.entry.setNumBytes 0#32)).inodes p = some { inode₂ with entry := inode₂.entry.setNumBytes 0#32 } :=
    Function.update_self ..
  cases here.symm.trans (Fs.inode_ok.mp last)
  split at ran
  · cases ran
    intro c inData
    have apart := (layout.apart number inData).1
    rw [← same] at apart
    change (Function.update two.cache.blocks (toBlockNo env.sblock inode₂.inodeNo) _) c = _
    rw [Function.update_of_ne apart]
    exact data₂ c inData
  · simp only [Bool.not_true,Bool.and_false,Bool.false_eq_true,if_false] at ran
    cases ran

-- inode_put: one reference less, or an inode without links is cleared and gone.
theorem inodePut_cases (layout : Layout env.sblock) (owned : Owned env.sblock live fs)
    (ran : inodePut env ctx q fs = .ok fs') :
    ∃ inode, fs.inodes q = some inode ∧ (fs' = fs.setInode q {inode with rc := inode.rc-1} ∨
      inode.rc = 1 ∧ inode.entry.numLinks = 0#16 ∧ ∃ last, Beside env.sblock live q fs last ∧ SameData env.sblock fs.cache last.cache ∧
        (diskEntry env.sblock last.cache q).numBytes = 0#32 ∧ fs' = ⟨last.cache,Function.update last.inodes q none⟩) := by
  obtain ⟨inode,found,ran⟩ := Runs.bind_ok.mp ran
  have found := Fs.inode_ok.mp found
  refine ⟨inode,found,?_⟩
  simp only at ran
  split at ran
  · rename_i unused
    obtain ⟨last,cleared,ran⟩ := Runs.bind_ok.mp ran
    cases ran
    obtain ⟨counted,first⟩ := setInode_owned owned found {inode with rc := inode.rc-1} rfl rfl rfl rfl
    have found₁ : (fs.setInode q {inode with rc := inode.rc-1}).inodes q = some {inode with rc := inode.rc-1} :=
        Function.update_self ..
    obtain ⟨marked,second⟩ := setInode_owned counted found₁
      {inode with
        rc := inode.rc-1
        entry := inode.entry.setType inodeInvalid} rfl rfl rfl rfl
    obtain ⟨alive,number,_⟩ := owned.loaded q inode found
    have found₂ : ((fs.setInode q {inode with rc := inode.rc-1}).setEntry q {inode with rc := inode.rc-1}
        (inode.entry.setType inodeInvalid)).inodes q =
        some {inode with
          rc := inode.rc-1
          entry := inode.entry.setType inodeInvalid} := Function.update_self ..
    have data := inodeClear_data layout found₂ (by simp only [number]; exact owned.inTable q alive) cleared
    obtain ⟨_,third,_,disk⟩ := inodeClear_clears layout marked found₂ cleared
    have left : inode.rc-1 = 0 := unused.1
    refine .inr ⟨by omega,unused.2,last,first.trans owned (second.trans counted third),data,?_,rfl⟩
    rw [disk]
    rfl
  · cases ran
    exact .inl rfl

theorem inodePut_others (layout : Layout env.sblock) (owned : Owned env.sblock live fs)
    (ran : inodePut env ctx q fs = .ok fs') (other : p ≠ q) :
    fs'.inodes p = fs.inodes p := by
  obtain ⟨inode,_,rfl | ⟨_,_,last,beside,_,_,rfl⟩⟩ := inodePut_cases layout owned ran
  · exact Function.update_of_ne other ..
  · exact (Function.update_of_ne other ..).trans (beside.inodes p other)

theorem inodePut_frames (layout : Layout env.sblock) (owned : Owned env.sblock live fs) (p : Usize)
    (ran : inodePut env ctx q fs = .ok fs') :
    Frames p fs fs' ∨ fs'.inodes p = none ∧ ∃ inode, fs.inodes p = some inode ∧ inode.rc = 1 ∧
    inode.entry.numLinks = 0#16 := by
  obtain ⟨inode,found,rfl | ⟨single,unlinked,last,beside,data,_,rfl⟩⟩ := inodePut_cases layout owned ran
  · exact .inl (.setInode p found rfl)
  · by_cases same : p = q
    · subst same
      exact .inr ⟨Function.update_self ..,inode,found,single,unlinked⟩
    · left
      intro other there
      have there' : (Fs.mk last.cache (Function.update last.inodes q none)).inodes p = some other :=
        (Function.update_of_ne same ..).trans ((beside.inodes p same).trans there)
      refine ⟨other,there',rfl,rfl,rfl,?_⟩
      intro k b mapped
      obtain ⟨small,refers⟩ := (fileBlock_iff owned there k b).mp mapped
      have inData := (owned.balanced.sound _ _ refers).1
      have alive := (owned.loaded p other there).1
      have sameRefs := beside.refs owned p same (.file ⟨k,small⟩)
      have kept : refsOf last.cache other.entry (.file ⟨k,small⟩) = refsOf fs.cache other.entry (.file ⟨k,small⟩) := by
        rw [← refs_own last alive ((beside.inodes p same).trans there),← refs_own fs alive there]
        exact sameRefs
      refine ⟨?_,data b inData⟩
      unfold fileBlock at mapped ⊢
      rw [dif_pos small] at mapped ⊢
      exact kept.trans mapped

end Clearing

end InodeLayer
