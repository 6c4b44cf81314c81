import HonorKernel.DirectoryScan

-- Which changes of cached blocks a call hands to cache->sync with its own context.
namespace InodeLayer
open DiskFormat CacheView
open Runs (upTo)

structure Covered (op : Nat) (v v' : View) : Prop where
  kept : ∀ x ∈ v.synced, x ∈ v'.synced
  changed : ∀ b, v'.blocks b ≠ v.blocks b → (op,b) ∈ v'.synced

section Covering
variable {op : Nat} {v v' v'' : View} {env : Env} {p : Usize} {fs fs' : Fs} {sb : SuperBlock}

theorem Covered.refl (v : View) : Covered op v v := ⟨fun _ member => member,fun _ changed => absurd rfl changed⟩

theorem Covered.trans (first : Covered op v v') (second : Covered op v' v'') : Covered op v v'' := by
  refine ⟨fun x member => second.kept x (first.kept x member),?_⟩
  intro b changed
  by_cases late : v''.blocks b = v'.blocks b
  · exact second.kept _ (first.changed b (by rw [← late]; exact changed))
  · exact second.changed b late

theorem put_synced (v : View) (b : Usize) (d : BlockData) : (op,b) ∈ (v.put (some op) b d).synced := by simp [View.put,View.sync]

theorem put_covered (v : View) (b : Usize) (d : BlockData) : Covered op v (v.put (some op) b d) := by
  refine ⟨fun x member => by simp [View.put,View.sync,member],?_⟩
  intro c changed
  have same : c = b := by
    by_contra other
    exact changed (Function.update_of_ne other _ _)
  rw [same]
  exact put_synced v b d

theorem store_covered (v : View) (b : Usize) (d : BlockData) (pinned : (op,b) ∈ v.synced) :
    Covered op v (v.store b d) := by
  refine ⟨fun _ member => member,?_⟩
  intro c changed
  have same : c = b := by
    by_contra other
    exact changed (Function.update_of_ne other _ _)
  rw [same]
  exact pinned

theorem cacheAlloc_covered (ran : cacheAlloc sb (some op) v = .ok (b,v')) :
    Covered op v v' ∧ (op,b) ∈ v'.synced ∧ (b.setWidth 32).setWidth 64 = b := by
  obtain ⟨i,rfl,_,fits,_,_,rfl⟩ := cacheAlloc_spec ran
  refine ⟨(put_covered ..).trans (put_covered ..),put_synced ..,?_⟩
  have small : i < 4096 := fits
  apply BitVec.eq_of_toNat_eq
  simp only [BitVec.toNat_setWidth,BitVec.toNat_ofNat]
  omega

theorem cacheFree_covered (ran : cacheFree sb (some op) b v = .ok v') : Covered op v v' := by
  obtain ⟨_,rfl⟩ := cacheFree_spec ran
  exact put_covered ..

theorem inodeSync_covered (ran : inodeSync env (some op) p true fs = .ok fs') :
    Covered op fs.cache fs'.cache ∧ fs'.inodes = fs.inodes := by
  obtain ⟨inode,_,ran⟩ := Runs.bind_ok.mp ran
  cases valid : inode.valid with
  | true =>
    simp only [valid,Bool.and_self,if_true] at ran
    cases ran
    exact ⟨put_covered ..,rfl⟩
  | false =>
    simp [valid] at ran

theorem freeEntry_covered (ran : freeEntry env (some op) indirect i v = .ok v') : Covered op v v' := by
  unfold freeEntry at ran
  split at ran
  · cases ran
    exact .refl _
  · exact cacheFree_covered ran

theorem clearIndirect_covered (ran : clearIndirect env (some op) p fs = .ok fs') : Covered op fs.cache fs'.cache := by
  obtain ⟨inode,_,ran⟩ := Runs.bind_ok.mp ran
  split at ran
  · cases ran
    exact .refl _
  · obtain ⟨v,freed,ran⟩ := Runs.bind_ok.mp ran
    obtain ⟨w,last,ran⟩ := Runs.bind_ok.mp ran
    cases ran
    have entries : Covered op fs.cache v := by
      refine Runs.upTo_invariant (fun _ w => Covered op fs.cache w) _ _ (.refl _) ?_ freed
      intro j t t' _ _ so far
      exact so.trans (freeEntry_covered far)
    exact entries.trans (cacheFree_covered last)

theorem clearAddr_covered (ran : clearAddr env (some op) p i fs = .ok fs') : Covered op fs.cache fs'.cache := by
  obtain ⟨inode,_,ran⟩ := Runs.bind_ok.mp ran
  split at ran
  · split at ran
    · cases ran
      exact .refl _
    · obtain ⟨v,freed,ran⟩ := Runs.bind_ok.mp ran
      cases ran
      exact cacheFree_covered freed
  · cases ran

theorem inodeClear_covered (ran : inodeClear env (some op) p fs = .ok fs') : Covered op fs.cache fs'.cache := by
  obtain ⟨one,indirect,ran⟩ := Runs.bind_ok.mp ran
  obtain ⟨two,direct,ran⟩ := Runs.bind_ok.mp ran
  obtain ⟨inode,_,ran⟩ := Runs.bind_ok.mp ran
  have addrs : Covered op one.cache two.cache := by
    refine Runs.upTo_invariant (fun _ t => Covered op one.cache t.cache) _ _ (.refl _) ?_ direct
    intro j t t' _ _ so far
    exact so.trans (clearAddr_covered far)
  exact ((clearIndirect_covered indirect).trans addrs).trans (inodeSync_covered ran).1

theorem inodePut_covered (ran : inodePut env (some op) p fs = .ok fs') : Covered op fs.cache fs'.cache := by
  obtain ⟨inode,_,ran⟩ := Runs.bind_ok.mp ran
  simp only at ran
  split at ran
  · obtain ⟨one,cleared,ran⟩ := Runs.bind_ok.mp ran
    cases ran
    have covered := inodeClear_covered cleared
    exact covered
  · cases ran
    exact .refl _

theorem allocLoop_covered (count : Nat) (inodeNo : Usize)
    (ran : allocLoop sb (some op) type fs count inodeNo = .ok (no,fs')) :
    Covered op fs.cache fs'.cache := by
  induction count generalizing inodeNo with
  | zero => cases ran
  | succ count ih =>
    unfold allocLoop at ran
    split at ran
    · cases ran
      exact put_covered ..
    · exact ih _ ran

theorem inodeAlloc_covered (ran : inodeAlloc env (some op) type fs = .ok (no,fs')) : Covered op fs.cache fs'.cache := by
  unfold inodeAlloc at ran
  split at ran
  · cases ran
  · exact allocLoop_covered _ _ ran

end Covering

-- inode_map stores a new entry into an indirect block without cache->sync. That is
-- covered if the transaction made the block, or has synced it before.
def SafeAt (op : Nat) (v : View) (e : InodeEntry) (k : Nat) : Prop :=
  k < inodeNumDirect ∨ e.indirect = 0#32 ∨ (op,e.indirect.setWidth 64) ∈ v.synced ∨ fileBlock v e k ≠ none

-- What a write on `p` has done so far, from a state in which `p` had the entry `e`.
structure Carries (op : Nat) (p : Usize) (e : InodeEntry) (fs fs' : Fs) : Prop where
  covered : Covered op fs.cache fs'.cache
  inode : ∃ inode, fs'.inodes p = some inode ∧ (inode.entry.indirect = e.indirect ∨
    e.indirect = 0#32 ∧ (op,inode.entry.indirect.setWidth 64) ∈ fs'.cache.synced)

section Carrying
variable {op : Nat} {env : Env} {p : Usize} {e : InodeEntry} {fs fs' fs'' : Fs}

theorem Carries.more (carries : Carries op p e fs fs') (covered : Covered op fs'.cache fs''.cache)
    (inodes : fs''.inodes p = fs'.inodes p) :
    Carries op p e fs fs'' := by
  obtain ⟨inode,found,indirect⟩ := carries.inode
  refine ⟨carries.covered.trans covered,inode,inodes.trans found,?_⟩
  rcases indirect with same | ⟨zero,pinned⟩
  · exact .inl same
  · exact .inr ⟨zero,covered.kept _ pinned⟩

theorem mapDirect_carries (carries : Carries op p e fs fs')
    (ran : mapDirect env (some op) p i fs' = .ok (b,modified,fs'')) :
    Carries op p e fs fs'' := by
  obtain ⟨inode,found,indirect⟩ := carries.inode
  simp only [mapDirect,Fs.inode_ok.mpr found,bind,Except.bind] at ran
  split at ran
  · cases ran
    exact carries
  · rw [if_neg (by simp)] at ran
    split at ran
    · cases ran
    · rename_i result taken
      obtain ⟨c,v⟩ := result
      split at ran
      · cases ran
      · rename_i last synced
        cases ran
        obtain ⟨covered,inodes⟩ := inodeSync_covered synced
        have alloc := (cacheAlloc_covered taken).1
        have entry : Carries op p e fs ((fs'.setCache v).setEntry p inode (inode.entry.setAddr i (c.setWidth 32))) := by
          refine ⟨carries.covered.trans alloc,_,Function.update_self .., ?_⟩
          rcases indirect with same | ⟨zero,pinned⟩
          · exact .inl same
          · exact .inr ⟨zero,alloc.kept _ pinned⟩
        exact entry.more covered (by rw [inodes])

theorem needIndirect_carries (carries : Carries op p e fs fs') (ran : needIndirect env (some op) p fs' = .ok (b,fs'')) :
    Carries op p e fs fs'' ∧ ∃ inode, fs''.inodes p = some inode ∧ b = inode.entry.indirect.setWidth 64 ∧
      (inode.entry.indirect = e.indirect ∧ e.indirect ≠ 0#32 ∨
      (op,inode.entry.indirect.setWidth 64) ∈ fs''.cache.synced) := by
  obtain ⟨inode,found,indirect⟩ := carries.inode
  simp only [needIndirect,Fs.inode_ok.mpr found,bind,Except.bind] at ran
  split at ran
  · rename_i zero
    split at ran
    · cases ran
    · rename_i result taken
      obtain ⟨c,v⟩ := result
      cases ran
      obtain ⟨alloc,pinned,wide⟩ := cacheAlloc_covered taken
      rw [← wide] at pinned
      refine ⟨⟨carries.covered.trans alloc,_,Function.update_self ..,.inr ⟨?_,pinned⟩⟩,_,Function.update_self ..,rfl,.inr pinned⟩
      rcases indirect with same | ⟨none,_⟩
      · exact same.symm.trans zero
      · exact none
  · rename_i present
    cases ran
    refine ⟨carries,inode,found,rfl,?_⟩
    rcases indirect with same | ⟨_,pinned⟩
    · exact .inl ⟨same,same ▸ present⟩
    · exact .inr pinned

theorem getAddr_fileBlock {v : View} {k : Nat} (beyond : ¬ k < inodeNumDirect) (mapped : fileBlock v e k ≠ none) :
    e.indirect ≠ 0#32 ∧ getAddr (v.blocks (e.indirect.setWidth 64)) (k-inodeNumDirect) ≠ 0#32 := by
  unfold fileBlock at mapped
  split at mapped
  · rename_i small
    simp only [Place.file,beyond,dite_false,refsOf] at mapped
    split at mapped
    · exact absurd rfl mapped
    · rename_i present
      refine ⟨present,?_⟩
      intro zero
      rw [zero] at mapped
      exact mapped rfl
  · exact absurd rfl mapped

theorem mapEntry_carries {k : Nat} (carries : Carries op p e fs fs') (beyond : ¬ k < inodeNumDirect)
    (safe : SafeAt op fs.cache e k) (ready : indirect = e.indirect ∧ e.indirect ≠ 0#32 ∨
    (op,indirect.setWidth 64) ∈ fs'.cache.synced)
    (ran : mapEntry env (some op) p (indirect.setWidth 64) (k-inodeNumDirect) fs' = .ok (b,modified,fs'')) :
    Carries op p e fs fs'' := by
  unfold mapEntry at ran
  split at ran
  · cases ran
  · split at ran
    · cases ran
      exact carries
    · rename_i absent
      have absent : getAddr (fs'.cache.blocks (indirect.setWidth 64)) (k-inodeNumDirect) = 0#32 := by simpa using absent
      rw [if_neg (by simp)] at ran
      obtain ⟨⟨c,v⟩,taken,ran⟩ := Runs.bind_ok.mp ran
      obtain ⟨last,synced,ran⟩ := Runs.bind_ok.mp ran
      cases ran
      obtain ⟨covered,inodes⟩ := inodeSync_covered synced
      have alloc := (cacheAlloc_covered taken).1
      -- An entry that was there at the start has gone only with a sync of its block.
      have pinned : (op,indirect.setWidth 64) ∈ fs'.cache.synced := by
        rcases ready with ⟨same,present⟩ | pinned
        · rw [same] at absent ⊢
          rcases safe with direct | zero | before | mapped
          · exact absurd direct beyond
          · exact absurd zero present
          · exact carries.covered.kept _ before
          · refine carries.covered.changed _ ?_
            intro unchanged
            rw [unchanged] at absent
            exact (getAddr_fileBlock beyond mapped).2 absent
        · exact pinned
      have taking : Carries op p e fs (fs'.setCache v) := carries.more alloc rfl
      exact taking.more ((store_covered _ _ _ (alloc.kept _ pinned)).trans covered) (by rw [inodes]; rfl)

theorem inodeMap_carries {k : Nat} (carries : Carries op p e fs fs') (safe : SafeAt op fs.cache e k)
    (ran : inodeMap env (some op) p k fs' = .ok (b,modified,fs'')) : Carries op p e fs fs'' := by
  unfold inodeMap at ran
  split at ran
  · exact mapDirect_carries carries ran
  · rename_i beyond
    obtain ⟨⟨ib,middle⟩,needed,ran⟩ := Runs.bind_ok.mp ran
    obtain ⟨carries,inode,found,rfl,ready⟩ := needIndirect_carries carries needed
    exact mapEntry_carries carries beyond safe ready ran

theorem growTo_carries (found : fs.inodes p = some inode) (ran : growTo env (some op) p inode last fs = .ok fs') :
    Carries op p inode.entry fs fs' := by
  unfold growTo at ran
  split at ran
  · obtain ⟨covered,inodes⟩ := inodeSync_covered ran
    refine ⟨covered,{inode with entry := inode.entry.setNumBytes (last.setWidth 32)},?_,.inl rfl⟩
    rw [inodes]
    exact Function.update_self ..
  · cases ran
    exact ⟨.refl _,inode,found,.inl rfl⟩

theorem writeLoop_carries (fuel : Nat) (carries : Carries op p e fs fs')
    (safe : ∀ x, offset ≤ x → x < offset+src.length → SafeAt op fs.cache e (x/blockSize))
    (ran : writeLoop env (some op) p fuel offset src fs' = .ok fs'') : Carries op p e fs fs'' := by
  induction fuel generalizing offset src fs' with
  | zero =>
    cases ran
    exact carries
  | succ fuel ih =>
    simp only [writeLoop] at ran
    split at ran
    · cases ran
      exact carries
    · rename_i more
      obtain ⟨⟨b,modified,middle⟩,mapped,rest⟩ := Runs.bind_ok.mp ran
      simp only at rest
      split at rest
      · cases rest
      · have positive : 0 < src.length := List.length_pos_iff.mpr more
        have here := inodeMap_carries carries (safe offset (Nat.le_refl _) (by omega)) mapped
        have stored : Carries op p e fs
            (middle.setCache (middle.cache.put (some op) b (setBytes (middle.cache.blocks b) (offset%blockSize)
            (src.take (min (blockSize-offset%blockSize) src.length))))) := here.more (put_covered ..) rfl
        refine ih stored ?_ rest
        intro x lower upper
        rw [List.length_drop] at upper
        exact safe x (by omega) (by omega)

-- A write of `count` bytes at `offset` stores no new entry into an indirect block that
-- the transaction has not synced.
def WriteSafe (op : Nat) (v : View) (e : InodeEntry) (offset count : Nat) : Prop :=
  e.type = inodeDevice ∨ ∀ x, offset ≤ x → x < offset+count → SafeAt op v e (x/blockSize)

theorem inodeLock_covered (ran : inodeLock p fs = .ok fs') : Covered op fs.cache fs'.cache := by
  obtain ⟨_,_,_,rfl⟩ := inodeLock_set ran
  exact .refl _

theorem inodeUnlock_covered (ran : inodeUnlock p fs = .ok fs') : Covered op fs.cache fs'.cache := by
  obtain ⟨_,_,_,rfl⟩ := inodeUnlock_set ran
  exact .refl _

theorem inodeWrite_covered (found : fs.inodes p = some inode)
    (safe : WriteSafe op fs.cache inode.entry offset.toNat src.length)
    (ran : inodeWrite env (some op) p src offset fs = .ok (n,fs')) : Covered op fs.cache fs'.cache := by
  obtain ⟨same,there,ran⟩ := Runs.bind_ok.mp ran
  rw [Fs.inode_ok.mpr found] at there
  cases there
  simp only at ran
  split at ran
  · split at ran
    · obtain ⟨one,unlocked,ran⟩ := Runs.bind_ok.mp ran
      obtain ⟨two,locked,ran⟩ := Runs.bind_ok.mp ran
      cases ran
      exact (inodeUnlock_covered unlocked).trans (inodeLock_covered locked)
    · cases ran
  · rename_i file
    split at ran
    · obtain ⟨one,grown,ran⟩ := Runs.bind_ok.mp ran
      obtain ⟨two,looped,ran⟩ := Runs.bind_ok.mp ran
      cases ran
      exact (writeLoop_carries _ (growTo_carries found grown) (safe.resolve_left file) looped).covered
    · cases ran

end Carrying

-- The other direction: a write on `p` syncs the bitmap, the inode's block, blocks that
-- were free and file blocks, and so never an indirect block that was there before.
def Spared (ib : Usize) (v v' : View) : Prop := ∀ op, (op,ib) ∈ v'.synced → (op,ib) ∈ v.synced

section Sparing
variable {env : Env} {live : Usize → Bool} {p ib : Usize} {fs fs' : Fs} {inode : Inode} {ctx : Ctx} {v v' v'' : View}

theorem Spared.trans (first : Spared ib v v') (second : Spared ib v' v'') : Spared ib v v'' :=
  fun op member => first op (second op member)

theorem put_spared (other : b ≠ ib) (ctx : Ctx) (v : View) (d : BlockData) : Spared ib v (v.put ctx b d) := by
  intro op member
  cases ctx with
  | none => simpa [View.put,View.sync] using member
  | some op' =>
    have member : (op,ib) ∈ v.synced ∨ op = op' ∧ ib = b := by simpa [View.put,View.sync] using member
    rcases member with old | ⟨_,same⟩
    · exact old
    · exact absurd same.symm other

theorem cacheAlloc_spared {sb : SuperBlock} {slot : Usize × Place} (owned : Owned sb live fs)
    (refers : refs sb live fs slot = some ib) (taken : cacheAlloc sb ctx fs.cache = .ok (b,v)) :
    Spared ib fs.cache v := by
  have inData := (owned.used_of_ref refers).1
  have fresh := ((cacheAlloc_takes owned.low taken).keeps owned refers).1
  have bitmap : bitmapBlock sb ≠ ib := by
    intro same
    have above := inData.1
    rw [← same,bitmapBlock_toNat] at above
    omega
  obtain ⟨i,same,_,_,_,_,rfl⟩ := cacheAlloc_spec taken
  exact (put_spared bitmap _ _ _).trans (put_spared (same ▸ Ne.symm fresh) _ _ _)

theorem inodeSync_spared (layout : Layout env.sblock) (owned : Owned env.sblock live fs)
    (found : fs.inodes p = some inode) (inData : dataBlock env.sblock ib)
    (ran : inodeSync env ctx p true fs = .ok fs') : Spared ib fs.cache fs'.cache := by
  have apart := layout.apart (owned.inTable p (owned.loaded p inode found).1) inData
  rw [inodeSync_write env owned found] at ran
  cases ran
  exact put_spared (Ne.symm apart.1) _ _ _

theorem mapDirect_spared (layout : Layout env.sblock) (owned : Owned env.sblock live fs)
    (found : fs.inodes p = some inode) (refers : refs env.sblock live fs (p,.indirect) = some ib)
    (ran : mapDirect env ctx p i fs = .ok (b,modified,fs')) :
    Spared ib fs.cache fs'.cache := by
  simp only [mapDirect,Fs.inode_ok.mpr found] at ran
  change (if inode.entry.addrs i ≠ 0#32 then _ else _) = _ at ran
  split at ran
  · cases ran
    exact fun _ member => member
  · rename_i absent
    have absent : inode.entry.addrs i = 0#32 := by simpa using absent
    split at ran
    · cases ran
      exact fun _ member => member
    · obtain ⟨⟨c,v⟩,taken,ran⟩ := Runs.bind_ok.mp ran
      obtain ⟨fs'',synced,ran⟩ := Runs.bind_ok.mp ran
      cases ran
      have takes := cacheAlloc_takes owned.low taken
      obtain ⟨maps,_⟩ := takes.claim_direct layout owned found i absent
      obtain ⟨_,_,found'⟩ := maps.found
      exact (cacheAlloc_spared owned refers taken).trans
        (inodeSync_spared layout maps.owned found' (owned.used_of_ref refers).1 synced)

theorem mapEntry_spared (layout : Layout env.sblock) (owned : Owned env.sblock live fs)
    (found : fs.inodes p = some inode) (present : inode.entry.indirect ≠ 0#32)
    (refers : refs env.sblock live fs (p,.indirect) = some ib)
    (ran : mapEntry env ctx p (inode.entry.indirect.setWidth 64) i fs = .ok (b,modified,fs')) :
    Spared ib fs.cache fs'.cache := by
  unfold mapEntry at ran
  split at ran
  · cases ran
  · rename_i small
    split at ran
    · cases ran
      exact fun _ member => member
    · rename_i absent
      have absent : getAddr (fs.cache.blocks (inode.entry.indirect.setWidth 64)) i = 0#32 := by simpa using absent
      split at ran
      · cases ran
        exact fun _ member => member
      · obtain ⟨⟨c,v⟩,taken,ran⟩ := Runs.bind_ok.mp ran
        obtain ⟨fs'',synced,ran⟩ := Runs.bind_ok.mp ran
        cases ran
        have takes := cacheAlloc_takes owned.low taken
        obtain ⟨maps,_⟩ := takes.claim_entry layout owned found present ⟨i,by omega⟩ absent
        have alloc := cacheAlloc_spared owned refers taken
        exact alloc.trans (inodeSync_spared layout maps.owned found (owned.used_of_ref refers).1 synced)

theorem inodeMap_spared (layout : Layout env.sblock) (owned : Owned env.sblock live fs)
    (found : fs.inodes p = some inode) (refers : refs env.sblock live fs (p,.indirect) = some ib)
    (ran : inodeMap env ctx p k fs = .ok (b,modified,fs')) :
    Spared ib fs.cache fs'.cache := by
  unfold inodeMap at ran
  split at ran
  · exact mapDirect_spared layout owned found refers ran
  · obtain ⟨⟨c,middle⟩,needed,ran⟩ := Runs.bind_ok.mp ran
    have present : inode.entry.indirect ≠ 0#32 := by
      rw [refs_own fs (owned.loaded p inode found).1 found] at refers
      exact (reference_some refers).1
    simp only [needIndirect,Fs.inode_ok.mpr found,bind,Except.bind,present,if_false] at needed
    cases needed
    exact mapEntry_spared layout owned found present refers ran

theorem writeLoop_spared (layout : Layout env.sblock) (fuel : Nat) (owned : Owned env.sblock live fs)
    (found : fs.inodes p = some inode) (refers : refs env.sblock live fs (p,.indirect) = some ib)
    (ran : writeLoop env ctx p fuel offset src fs = .ok fs') :
    Spared ib fs.cache fs'.cache := by
  induction fuel generalizing offset src fs inode with
  | zero =>
    cases ran
    exact fun _ member => member
  | succ fuel ih =>
    simp only [writeLoop] at ran
    split at ran
    · cases ran
      exact fun _ member => member
    · obtain ⟨⟨b,modified,middle⟩,mapped,rest⟩ := Runs.bind_ok.mp ran
      simp only at rest
      split at rest
      · cases rest
      · rename_i nonzero
        obtain ⟨maps,small,data⟩ := inodeMap_maps layout owned found mapped
        obtain ⟨addrs,indirect,found'⟩ := maps.found
        have refers' := maps.grows.refs _ _ refers
        obtain ⟨stored,same⟩ := storeData layout maps.owned found' ⟨_,small⟩ (data nonzero) ctx
          (setBytes (middle.cache.blocks b) (offset%blockSize) (src.take (min (blockSize-offset%blockSize) src.length)))
        have other : b ≠ ib := by
          rintro rfl
          have place := maps.owned.balanced.unique _ _ _ (data nonzero) refers'
          exact Place.file_ne_indirect _ (congrArg Prod.snd place)
        have after := ih stored.owned found' ((same _).trans refers') rest
        exact ((inodeMap_spared layout owned found refers mapped).trans (put_spared other _ _ _)).trans after

theorem growTo_spared (layout : Layout env.sblock) (owned : Owned env.sblock live fs) (found : fs.inodes p = some inode)
    (inData : dataBlock env.sblock ib) (ran : growTo env ctx p inode last fs = .ok fs') :
    Spared ib fs.cache fs'.cache := by
  unfold growTo at ran
  split at ran
  · have longer := setInode_works owned found {inode with entry := inode.entry.setNumBytes (last.setWidth 32)} rfl rfl rfl rfl rfl rfl
    have found' : (fs.setEntry p inode (inode.entry.setNumBytes (last.setWidth 32))).inodes p =
        some {inode with entry := inode.entry.setNumBytes (last.setWidth 32)} := Function.update_self _ _ _
    have spared := inodeSync_spared layout longer.owned found' inData ran
    exact spared
  · cases ran
    exact fun _ member => member

-- A file block behind the direct ones stays missing as long as the indirect block keeps
-- its content.
theorem fileBlock_unchanged (found' : fs'.inodes p = some inode') (owned' : Owned env.sblock live fs')
    (beyond : ¬ k < inodeNumDirect) (present : inode.entry.indirect ≠ 0#32)
    (refers : refs env.sblock live fs' (p,.indirect) = some (inode.entry.indirect.setWidth 64))
    (same : fs'.cache.blocks (inode.entry.indirect.setWidth 64) = fs.cache.blocks (inode.entry.indirect.setWidth 64)) :
    fileBlock fs'.cache inode'.entry k = fileBlock fs.cache inode.entry k := by
  rw [refs_own fs' (owned'.loaded p inode' found').1 found'] at refers
  obtain ⟨present',number⟩ := reference_some refers
  unfold fileBlock
  split
  · simp only [Place.file,beyond,dite_false,refsOf,if_neg present,if_neg present',number,same]
  · rfl

-- An entry that a write has to store changes the indirect block it goes to.
theorem inodeWrite_needs (layout : Layout env.sblock) (owned : Owned env.sblock live fs)
    (found : fs.inodes p = some inode) (ran : inodeWrite env (some op) p src offset fs = .ok (n,fs'))
    (covered : Covered op fs.cache fs'.cache) :
    WriteSafe op fs.cache inode.entry offset.toNat src.length := by
  have owned' := (inodeWrite_works layout owned ran).owned
  obtain ⟨same,there,ran⟩ := Runs.bind_ok.mp ran
  rw [Fs.inode_ok.mpr found] at there
  cases there
  simp only at ran
  split at ran
  · rename_i device
    exact .inl device
  · refine .inr ?_
    intro x lower upper
    split at ran
    · rename_i asserted
      have bounded : inodeMaxBytes = 71680 := rfl
      obtain ⟨middle,grown,ran⟩ := Runs.bind_ok.mp ran
      obtain ⟨last,looped,ran⟩ := Runs.bind_ok.mp ran
      cases ran
      by_cases direct : x/blockSize < inodeNumDirect
      · exact .inl direct
      by_cases present : inode.entry.indirect = 0#32
      · exact .inr (.inl present)
      have refers := owned.own_indirect found present
      obtain ⟨grows,numBytes,found₁,_⟩ := growTo_grows layout owned found (by omega) grown
      have owned₁ := (growTo_works layout owned found grown).owned
      have refers₁ := grows.refs _ _ refers
      have writes := writeLoop_writes layout _ owned₁ found₁ (Nat.le_refl _) looped
      obtain ⟨addrs,indirect,found'⟩ := writeLoop_found layout _ owned₁ found₁ looped
      by_cases unchanged : fs'.cache.blocks (inode.entry.indirect.setWidth 64) = fs.cache.blocks (inode.entry.indirect.setWidth 64)
      · obtain ⟨small,b,written,_⟩ := writes.written x ⟨lower,upper⟩
        have mapped := (fileBlock_iff owned' found' _ b).mpr ⟨small,written⟩
        rw [fileBlock_unchanged found' owned' direct present (writes.grows _ _ refers₁) unchanged] at mapped
        exact .inr (.inr (.inr (by simp [mapped])))
      · have first := growTo_spared layout owned found (owned.used_of_ref refers).1 grown
        have spared := first.trans (writeLoop_spared layout _ owned₁ found₁ refers₁ looped)
        exact .inr (.inr (.inl (spared op (covered.changed _ unchanged))))
    · cases ran

end Sparing

def Call.ctx : Call → Ctx
  | .alloc ctx _ | .put ctx _ | .clear ctx _ | .write ctx _ _ _ | .insert ctx _ _ _ | .remove ctx _ _ => ctx
  | .get _ | .share _ | .read _ _ _ | .lookup _ _ => none

-- The calls of transaction `op` that store no entry into an indirect block it has not
-- synced. A directory is read with ctx NULL on the way, which must find its indirect block.
def Safe (env : Env) (op : Nat) (fs : Fs) : Call → Prop
  | .write _ p src offset => ∀ inode, fs.inodes p = some inode → WriteSafe op fs.cache inode.entry offset.toNat src.length
  | .insert _ p name _ => ∀ inode, fs.inodes p = some inode → Readable inode.entry ∧
      ((walkAll env fs.cache inode.entry (named name)).2.1 = true ∨
        WriteSafe op fs.cache inode.entry (newSlot env fs.cache inode.entry) dirEntrySize)
  | .remove _ p index => ∀ inode, fs.inodes p = some inode → Readable inode.entry ∧
      ((readSlot fs.cache inode.entry index.toNat env.stack).inodeNo = 0#16 ∨
        WriteSafe op fs.cache inode.entry index.toNat dirEntrySize)
  | _ => True

section Calls
variable {env : Env} {op : Nat} {fs fs' : Fs}

theorem call_covered (c : Call) (own : c.ctx = some op) (safe : Safe env op fs c) (ran : call env fs c = .ok fs') :
    Covered op fs.cache fs'.cache := by
  cases c with
  | alloc ctx type =>
    subst own
    obtain ⟨⟨no,_⟩,returned,rfl⟩ := Runs.map_ok ran
    exact inodeAlloc_covered returned
  | put ctx p =>
    subst own
    exact inodePut_covered ran
  | clear ctx p =>
    subst own
    exact inodeClear_covered ran
  | write ctx p src offset =>
    subst own
    obtain ⟨⟨n,_⟩,returned,rfl⟩ := Runs.map_ok ran
    obtain ⟨inode,found⟩ := found_of_bind returned
    exact inodeWrite_covered found (safe inode found) returned
  | insert ctx p name inodeNo =>
    subst own
    obtain ⟨⟨n,_⟩,returned,rfl⟩ := Runs.map_ok ran
    obtain ⟨inode,found,directory⟩ := inodeInsert_directory returned
    obtain ⟨readable,safe⟩ := safe inode found
    rcases inodeInsert_cases found directory readable returned with ⟨_,_,same⟩ | ⟨missing,_,m,written⟩
    · rw [same]
      exact .refl _
    · refine inodeWrite_covered found ?_ written
      rw [newSlot_toNat,DirEntry.bytes_length]
      exact safe.resolve_left (by simp [missing])
  | remove ctx p index =>
    subst own
    obtain ⟨inode,found⟩ := found_of_bind ran
    obtain ⟨readable,safe⟩ := safe inode found
    obtain ⟨_,cases⟩ := inodeRemove_walks found readable ran
    rcases cases with ⟨_,same⟩ | ⟨inUse,dir,n,middle,written,same⟩
    · rw [same]
      exact .refl _
    · rw [same]
      refine inodeWrite_covered found ?_ written
      rw [DirEntry.bytes_length]
      exact safe.resolve_left inUse
  | get _ | share _ | read _ _ _ | lookup _ _ => cases own

-- From a consistent state, the readable directories given, no other call is covered.
theorem call_needs (layout : Layout env.sblock) (consistent : Consistent env.sblock fs)
    (readable : ∀ p inode, fs.inodes p = some inode → inode.entry.type = inodeDirectory → Readable inode.entry)
    (c : Call) (own : c.ctx = some op) (ran : call env fs c = .ok fs') (covered : Covered op fs.cache fs'.cache) :
    Safe env op fs c := by
  have owned := consistent.owned
  cases c with
  | write ctx p src offset =>
    subst own
    obtain ⟨⟨n,_⟩,returned,rfl⟩ := Runs.map_ok ran
    intro inode found
    exact inodeWrite_needs layout owned found returned covered
  | insert ctx p name inodeNo =>
    subst own
    obtain ⟨⟨n,_⟩,returned,rfl⟩ := Runs.map_ok ran
    intro inode found
    obtain ⟨inode',found',directory⟩ := inodeInsert_directory returned
    rw [found] at found'
    cases found'
    have readable := readable p inode found directory
    refine ⟨readable,?_⟩
    rcases inodeInsert_cases found directory readable returned with ⟨there,_⟩ | ⟨_,_,m,written⟩
    · exact .inl there
    · have needs := inodeWrite_needs layout owned found written covered
      rw [newSlot_toNat,DirEntry.bytes_length] at needs
      exact .inr needs
  | remove ctx p index =>
    subst own
    intro inode found
    have directory : inode.entry.type = inodeDirectory := by
      obtain ⟨same,there,ran⟩ := Runs.bind_ok.mp ran
      rw [Fs.inode_ok.mpr found] at there
      cases there
      simp only at ran
      split at ran
      · rename_i asserted
        exact asserted.1
      · cases ran
    have readable := readable p inode found directory
    refine ⟨readable,?_⟩
    obtain ⟨_,cases⟩ := inodeRemove_walks found readable ran
    rcases cases with ⟨empty,_⟩ | ⟨_,dir,n,middle,written,same⟩
    · exact .inl empty
    · rw [same] at covered
      have needs := inodeWrite_needs layout owned found written covered
      rw [DirEntry.bytes_length] at needs
      exact .inr needs
  | alloc _ _ | put _ _ | clear _ _ => trivial
  | get _ | share _ | read _ _ _ | lookup _ _ => cases own

-- Every change is handed to cache->sync as long as the call is safe; from a consistent
-- state it is not otherwise.
theorem changes_synced (c : Call) (own : c.ctx = some op) (ran : call env fs c = .ok fs') :
    (Safe env op fs c → Covered op fs.cache fs'.cache) ∧
    (Layout env.sblock → Consistent env.sblock fs →
      (∀ p inode, fs.inodes p = some inode → inode.entry.type = inodeDirectory → Readable inode.entry) →
      (Covered op fs.cache fs'.cache ↔ Safe env op fs c)) := by
  refine ⟨fun safe => call_covered c own safe ran,?_⟩
  intro layout consistent readable
  exact ⟨call_needs layout consistent readable c own ran,fun safe => call_covered c own safe ran⟩

end Calls

-- Thirteen blocks in transaction 0, and so an indirect block.
def longFile : List Call :=
  [.alloc (some 0) inodeRegular,.get 1#64,.write (some 0) 1#64 (List.replicate 4096 0#8) 0#64,.write (some 1) 1#64
      (List.replicate 2560 0#8) 4096#64]

-- The fourteenth block in transaction 2 changes the indirect block, 104, without a sync.
set_option maxRecDepth 100000 in
theorem indirect_entry_unsynced : ¬ ∀ (fs fs' : Fs) (op : Nat) (c : Call),
    Runs.Guarded (next blankEnv) (Permitted mkfsSuperBlock) blankDisk fs → c.ctx = some op →
    call blankEnv fs c = .ok fs' →
    ∀ b, fs'.cache.blocks b ≠ fs.cache.blocks b → (op,b) ∈ fs'.cache.synced := by
  intro allSynced
  obtain ⟨fs,ready,facts⟩ := Runs.some_such
    (x := Runs.execGuarded (next blankEnv) (Permitted mkfsSuperBlock) blankDisk longFile)
    (p := fun fs => (call blankEnv fs (.write (some 2) 1#64 [7#8] 6656#64)).toOption.any fun fs' : Fs =>
      decide (fs'.cache.blocks 104#64 ≠ fs.cache.blocks 104#64 ∧ (2,104#64) ∉ fs'.cache.synced)) (by decide +kernel)
  obtain ⟨fs',ran,facts⟩ := Runs.some_such facts
  obtain ⟨changed,unsynced⟩ := of_decide_eq_true facts
  exact unsynced (allSynced fs fs' 2 _ (Runs.exec_guarded .start ready) rfl (Runs.toOption_some ran) 104#64 changed)

-- The same block written in the transaction that made the indirect block.
set_option maxRecDepth 100000 in
theorem changes_synced_of_long_file : ∃ fs fs' : Fs, call blankEnv fs (.write (some 1) 1#64 [7#8] 6656#64) = .ok fs' ∧
    fs'.cache.blocks 104#64 ≠ fs.cache.blocks 104#64 ∧ Covered 1 fs.cache fs'.cache ∧
    Safe blankEnv 1 fs (.write (some 1) 1#64 [7#8] 6656#64) := by
  obtain ⟨fs,ready,facts⟩ := Runs.some_such
    (x := Runs.execGuarded (next blankEnv) (Permitted mkfsSuperBlock) blankDisk longFile)
    (p := fun fs => ((List.range 200).all fun no => (fs.inodes (BitVec.ofNat 64 no)).all fun inode => decide
        (inode.entry.type = inodeRegular)) &&
      (((fs.inodes 1#64).any fun inode => decide (inode.entry.indirect = 104#32 ∧ (1,104#64) ∈ fs.cache.synced)) &&
      ((call blankEnv fs (.write (some 1) 1#64 [7#8] 6656#64)).toOption.any fun fs' : Fs =>
        decide (fs'.cache.blocks 104#64 ≠ fs.cache.blocks 104#64)))) (by decide +kernel)
  obtain ⟨regular,facts⟩ := Bool.and_eq_true_iff.mp facts
  obtain ⟨synced,wrote⟩ := Bool.and_eq_true_iff.mp facts
  obtain ⟨inode,found,synced⟩ := Runs.some_such synced
  obtain ⟨indirect,synced⟩ := of_decide_eq_true synced
  obtain ⟨fs',ran,changed⟩ := Runs.some_such wrote
  have ran := Runs.toOption_some ran
  have consistent : Consistent blankEnv.sblock fs := run_consistent blank_layout blank_image.consistent
      (Runs.exec_guarded .start ready)
  have files : ∀ p inode, fs.inodes p = some inode → inode.entry.type = inodeDirectory → Readable inode.entry := by
    intro p other there directory
    have small : p.toNat < 200 := (allocated_iff.mp (consistent.owned.loaded p other there).1).1.2
    have type := List.all_eq_true.mp regular p.toNat (List.mem_range.mpr small)
    rw [BitVec.ofNat_toNat,BitVec.setWidth_eq,there] at type
    have type : other.entry.type = inodeRegular := of_decide_eq_true type
    exact absurd (directory.symm.trans type) (by decide)
  have own : Call.ctx (.write (some 1) 1#64 [7#8] 6656#64) = some 1 := rfl
  obtain ⟨_,exact⟩ := changes_synced _ own ran
  have safe : Safe blankEnv 1 fs (.write (some 1) 1#64 [7#8] 6656#64) := by
    intro other there
    rw [found] at there
    cases there
    refine .inr fun x _ _ => .inr (.inr (.inl ?_))
    rw [indirect]
    exact synced
  exact ⟨fs,fs',ran,of_decide_eq_true changed,(exact blank_layout consistent files).mpr safe,safe⟩

end InodeLayer
