import HonorKernel.BlockOwnership

namespace InodeLayer
open DiskFormat CacheView Ownership Semaphores
open Runs (upTo)

-- A call on inode `p` that frees nothing: block numbers stay in order, the other
-- inodes stay as they are, and `p` keeps its type.
structure Works (sb : SuperBlock) (live : Usize → Bool) (p : Usize) (fs fs' : Fs) : Prop where
  owned : Owned sb live fs'
  beside : Beside sb live p fs fs'
  found : ∀ inode, fs.inodes p = some inode → ∃ inode', fs'.inodes p = some inode' ∧
    inode'.entry.type = inode.entry.type ∧ inode'.entry.numLinks = inode.entry.numLinks
  type : ∀ inode, fs.inodes p = some inode → (diskEntry sb fs'.cache p).type = (diskEntry sb fs.cache p).type ∨
    (diskEntry sb fs'.cache p).type = inode.entry.type

section Works
variable {sb : SuperBlock} {live : Usize → Bool} {p : Usize} {fs fs' fs'' : Fs} {inode : Inode}

theorem Works.refl (owned : Owned sb live fs) : Works sb live p fs fs :=
  ⟨owned,.refl fs,fun inode found => ⟨inode,found,rfl,rfl⟩,fun _ _ => .inl rfl⟩

theorem Works.trans (owned : Owned sb live fs) (first : Works sb live p fs fs') (second : Works sb live p fs' fs'') :
    Works sb live p fs fs'' := by
  refine ⟨second.owned,first.beside.trans owned second.beside,?_,?_⟩
  · intro inode found
    obtain ⟨middle,there,type,links⟩ := first.found inode found
    obtain ⟨last,end_,type',links'⟩ := second.found middle there
    exact ⟨last,end_,type'.trans type,links'.trans links⟩
  · intro inode found
    obtain ⟨middle,there,type,_⟩ := first.found inode found
    rcases second.type middle there with same | same
    · rw [same]; exact first.type inode found
    · exact .inr (same.trans type)

theorem Maps.works (maps : Maps sb live p inode fs fs') (found : fs.inodes p = some inode) :
    Works sb live p fs fs' := by
  refine ⟨maps.owned,maps.beside,?_,?_⟩
  · intro other there
    rw [found] at there
    cases there
    obtain ⟨addrs,indirect,after⟩ := maps.found
    exact ⟨_,after,rfl,rfl⟩
  · intro other there
    rw [found] at there
    cases there
    exact maps.type

-- The structure in memory changes in fields that no block number is kept in.
theorem setInode_owned (owned : Owned sb live fs) (found : fs.inodes p = some inode) (inode' : Inode)
    (number : inode'.inodeNo = inode.inodeNo) (valid : inode'.valid = inode.valid)
    (addrs : inode'.entry.addrs = inode.entry.addrs) (indirect : inode'.entry.indirect = inode.entry.indirect) :
    Owned sb live (fs.setInode p inode') ∧ Beside sb live p fs (fs.setInode p inode') := by
  obtain ⟨_,same,loaded⟩ := owned.loaded p inode found
  have beside : Beside sb live p fs (fs.setInode p inode') :=
    ⟨fun no other => Function.update_of_ne other _ _,fun _ _ _ => rfl,fun _ _ _ _ => rfl⟩
  have found' : (fs.setInode p inode').inodes p = some inode' := Function.update_self _ _ _
  exact ⟨(owned.keep beside found found' (number.trans same) (valid.trans loaded) addrs indirect (fun _ => rfl) rfl).1,beside⟩

theorem setInode_works (owned : Owned sb live fs) (found : fs.inodes p = some inode) (inode' : Inode)
    (number : inode'.inodeNo = inode.inodeNo) (valid : inode'.valid = inode.valid)
    (addrs : inode'.entry.addrs = inode.entry.addrs) (indirect : inode'.entry.indirect = inode.entry.indirect)
    (type : inode'.entry.type = inode.entry.type) (links : inode'.entry.numLinks = inode.entry.numLinks) :
    Works sb live p fs (fs.setInode p inode') := by
  obtain ⟨still,beside⟩ := setInode_owned owned found inode' number valid addrs indirect
  refine ⟨still,beside,?_,fun _ _ => .inl rfl⟩
  intro other there
  rw [found] at there
  cases there
  exact ⟨inode',Function.update_self _ _ _,type,links⟩

theorem inodeLock_set (ran : inodeLock p fs = .ok fs') :
    ∃ inode lock, fs.inodes p = some inode ∧ fs' = fs.setInode p {inode with lock := lock} := by
  obtain ⟨inode,found,ran⟩ := Runs.bind_ok.mp ran
  split at ran
  · cases ran
  · split at ran
    · cases ran
      exact ⟨inode,_,Fs.inode_ok.mp found,rfl⟩
    · cases ran

theorem inodeUnlock_set (ran : inodeUnlock p fs = .ok fs') :
    ∃ inode lock, fs.inodes p = some inode ∧ fs' = fs.setInode p {inode with lock := lock} := by
  obtain ⟨inode,found,ran⟩ := Runs.bind_ok.mp ran
  split at ran
  · cases ran
  · obtain ⟨⟨who,lock⟩,_,ran⟩ := Runs.bind_ok.mp ran
    cases ran
    exact ⟨inode,_,Fs.inode_ok.mp found,rfl⟩

theorem inodeLock_works (owned : Owned sb live fs) (ran : inodeLock p fs = .ok fs') : Works sb live p fs fs' := by
  obtain ⟨inode,lock,found,rfl⟩ := inodeLock_set ran
  exact setInode_works owned found {inode with lock := lock} rfl rfl rfl rfl rfl rfl

theorem inodeUnlock_works (owned : Owned sb live fs) (ran : inodeUnlock p fs = .ok fs') : Works sb live p fs fs' := by
  obtain ⟨inode,lock,found,rfl⟩ := inodeUnlock_set ran
  exact setInode_works owned found {inode with lock := lock} rfl rfl rfl rfl rfl rfl

theorem storeData (layout : Layout sb) (owned : Owned sb live fs) (found : fs.inodes p = some inode)
    (k : Fin inodeMaxBlocks) (refers : refs sb live fs (p,.file k) = some b) (ctx : Ctx) (d : BlockData) :
    Works sb live p fs (fs.setCache (fs.cache.put ctx b d)) ∧
      ∀ slot, refs sb live (fs.setCache (fs.cache.put ctx b d)) slot = refs sb live fs slot := by
  obtain ⟨alive,number,valid⟩ := owned.loaded p inode found
  have inTable := owned.inTable p alive
  have inData := (owned.used_of_ref refers).1
  have elsewhere : ∀ c, c ≠ b → (fs.cache.put ctx b d).blocks c = fs.cache.blocks c := by
    intro c other
    simp [other]
  have notIndirect : ∀ no, refs sb live fs (no,.indirect) ≠ some b := by
    intro no there
    have same := owned.balanced.unique _ _ _ there refers
    exact Place.file_ne_indirect k (congrArg Prod.snd same).symm
  have beside : Beside sb live p fs (fs.setCache (fs.cache.put ctx b d)) := by
    refine owned.beside_store (fun _ _ => rfl) ?_
    intro c moved
    have here : c = b := by
      by_contra other
      exact moved (elsewhere c other)
    subst here
    exact ⟨fun no inTable => (layout.apart inTable inData).1,fun no _ => notIndirect no⟩
  obtain ⟨still,same⟩ := owned.keep beside found found number valid rfl rfl
    (fun nonzero => elsewhere _ fun equal => notIndirect p (equal ▸ owned.own_indirect found nonzero))
    (elsewhere _ (Ne.symm (layout.apart inTable inData).2.1))
  refine ⟨⟨still,beside,fun other there => ⟨other,there,rfl,rfl⟩,fun _ _ => .inl ?_⟩,same⟩
  change (getEntry ((fs.cache.put ctx b d).blocks _) p).type = _
  rw [elsewhere _ (Ne.symm (layout.apart inTable inData).1)]
  rfl

end Works

section Calls
variable {env : Env} {live : Usize → Bool} {p : Usize} {fs fs' : Fs} {ctx : Ctx}

theorem readLoop_works (layout : Layout env.sblock) (fuel : Nat) (owned : Owned env.sblock live fs)
    (found : fs.inodes p = some inode)
    (ran : readLoop env p fuel offset left modified dest fs = .ok (bytes,modified',fs')) :
    Works env.sblock live p fs fs' := by
  induction fuel generalizing offset left modified dest fs inode with
  | zero => cases ran; exact .refl owned
  | succ fuel ih =>
    simp only [readLoop] at ran
    split at ran
    · cases ran; exact .refl owned
    · obtain ⟨⟨b,flag,middle⟩,mapped,rest⟩ := Runs.bind_ok.mp ran
      obtain ⟨maps,_⟩ := inodeMap_maps layout owned found mapped
      obtain ⟨addrs,indirect,found'⟩ := maps.found
      exact (maps.works found).trans owned (ih maps.owned found' rest)

theorem inodeRead_works (layout : Layout env.sblock) (owned : Owned env.sblock live fs)
    (ran : inodeRead env p offset count fs = .ok (n,bytes,fs')) : Works env.sblock live p fs fs' := by
  obtain ⟨inode,found,ran⟩ := Runs.bind_ok.mp ran
  have found := Fs.inode_ok.mp found
  simp only at ran
  split at ran
  · split at ran
    · obtain ⟨middle,unlocked,ran⟩ := Runs.bind_ok.mp ran
      have first := inodeUnlock_works owned unlocked
      split at ran
      · cases ran; exact first
      · obtain ⟨last,locked,ran⟩ := Runs.bind_ok.mp ran
        cases ran
        exact first.trans owned (inodeLock_works first.owned locked)
    · cases ran
  · split at ran
    · obtain ⟨⟨read,modified,last⟩,looped,ran⟩ := Runs.bind_ok.mp ran
      simp only at ran
      split at ran
      · cases ran
      · cases ran
        exact readLoop_works layout _ owned found looped
    · cases ran

theorem growTo_works (layout : Layout env.sblock) (owned : Owned env.sblock live fs) (found : fs.inodes p = some inode)
    (ran : growTo env ctx p inode last fs = .ok fs') : Works env.sblock live p fs fs' := by
  unfold growTo at ran
  split at ran
  · have grown : Works env.sblock live p fs (fs.setEntry p inode (inode.entry.setNumBytes (last.setWidth 32))) :=
      setInode_works owned found _ rfl rfl rfl rfl rfl rfl
    have found' : (fs.setEntry p inode (inode.entry.setNumBytes (last.setWidth 32))).inodes p =
        some {inode with entry := inode.entry.setNumBytes (last.setWidth 32)} := Function.update_self _ _ _
    rw [inodeSync_write env grown.owned found'] at ran
    cases ran
    exact grown.trans owned ((sync_maps layout ctx grown.owned found').works found')
  · cases ran
    exact .refl owned

theorem writeLoop_works (layout : Layout env.sblock) (fuel : Nat) (owned : Owned env.sblock live fs)
    (found : fs.inodes p = some inode) (ran : writeLoop env ctx p fuel offset src fs = .ok fs') :
    Works env.sblock live p fs fs' := by
  induction fuel generalizing offset src fs inode with
  | zero => cases ran; exact .refl owned
  | succ fuel ih =>
    simp only [writeLoop] at ran
    split at ran
    · cases ran; exact .refl owned
    · obtain ⟨⟨b,flag,middle⟩,mapped,rest⟩ := Runs.bind_ok.mp ran
      simp only at rest
      split at rest
      · cases rest
      · rename_i nonzero
        obtain ⟨maps,small,refers⟩ := inodeMap_maps layout owned found mapped
        obtain ⟨addrs,indirect,found'⟩ := maps.found
        have stored := (storeData layout maps.owned found' ⟨_,small⟩ (refers nonzero) ctx
          (setBytes (middle.cache.blocks b) (offset%blockSize) (src.take (min (blockSize-offset%blockSize) src.length)))).1
        have mapping := maps.works found
        exact mapping.trans owned (stored.trans maps.owned (ih stored.owned found' rest))

theorem inodeWrite_works (layout : Layout env.sblock) (owned : Owned env.sblock live fs)
    (ran : inodeWrite env ctx p src offset fs = .ok (n,fs')) : Works env.sblock live p fs fs' := by
  obtain ⟨inode,found,ran⟩ := Runs.bind_ok.mp ran
  have found := Fs.inode_ok.mp found
  simp only at ran
  split at ran
  · split at ran
    · obtain ⟨middle,unlocked,ran⟩ := Runs.bind_ok.mp ran
      obtain ⟨last,locked,ran⟩ := Runs.bind_ok.mp ran
      cases ran
      have first := inodeUnlock_works owned unlocked
      exact first.trans owned (inodeLock_works first.owned locked)
    · cases ran
  · split at ran
    · obtain ⟨middle,grown,ran⟩ := Runs.bind_ok.mp ran
      obtain ⟨last,looped,ran⟩ := Runs.bind_ok.mp ran
      cases ran
      have first := growTo_works layout owned found grown
      obtain ⟨inode',found',_⟩ := first.found inode found
      exact first.trans owned (writeLoop_works layout _ first.owned found' looped)
    · cases ran

theorem scanDir_works (layout : Layout env.sblock) (fuel : Nat) (owned : Owned env.sblock live fs)
    (ran : scanDir env p stop fuel i dir fs = .ok (j,stopped,dir',fs')) : Works env.sblock live p fs fs' := by
  induction fuel generalizing i dir fs with
  | zero => cases ran; exact .refl owned
  | succ fuel ih =>
    obtain ⟨inode,found,ran⟩ := Runs.bind_ok.mp ran
    split at ran
    · obtain ⟨⟨n,bytes,middle⟩,read,ran⟩ := Runs.bind_ok.mp ran
      have first := inodeRead_works layout owned read
      simp only at ran
      split at ran
      · cases ran; exact first
      · exact first.trans owned (ih first.owned ran)
    · cases ran; exact .refl owned

theorem scan_works (layout : Layout env.sblock) (owned : Owned env.sblock live fs)
    (ran : scan env p stop fs = .ok (j,stopped,dir',fs')) : Works env.sblock live p fs fs' := by
  obtain ⟨inode,found,ran⟩ := Runs.bind_ok.mp ran
  split at ran
  · exact scanDir_works layout _ owned ran
  · cases ran

theorem inodeLookup_works (layout : Layout env.sblock) (owned : Owned env.sblock live fs)
    (ran : inodeLookup env p name fs = .ok (n,index,fs')) : Works env.sblock live p fs fs' := by
  obtain ⟨⟨i,stopped,dir,last⟩,scanned,ran⟩ := Runs.bind_ok.mp ran
  have works := scan_works layout owned scanned
  simp only [Except.ok.injEq] at ran
  split at ran <;> cases ran <;> exact works

theorem inodeInsert_works (layout : Layout env.sblock) (owned : Owned env.sblock live fs)
    (ran : inodeInsert env ctx p name no fs = .ok (n,fs')) : Works env.sblock live p fs fs' := by
  obtain ⟨⟨existing,index,middle⟩,looked,ran⟩ := Runs.bind_ok.mp ran
  have first := inodeLookup_works layout owned looked
  simp only at ran
  split at ran
  · cases ran; exact first
  · obtain ⟨⟨i,stopped,dir,later⟩,scanned,ran⟩ := Runs.bind_ok.mp ran
    obtain ⟨⟨count,last⟩,written,ran⟩ := Runs.bind_ok.mp ran
    cases ran
    have second := scan_works layout first.owned scanned
    have third := inodeWrite_works layout second.owned written
    exact first.trans owned (second.trans first.owned third)

theorem inodeRemove_works (layout : Layout env.sblock) (owned : Owned env.sblock live fs)
    (ran : inodeRemove env ctx p index fs = .ok fs') : Works env.sblock live p fs fs' := by
  obtain ⟨inode,_,ran⟩ := Runs.bind_ok.mp ran
  simp only at ran
  split at ran
  · obtain ⟨⟨n,bytes,one⟩,read,ran⟩ := Runs.bind_ok.mp ran
    have first := inodeRead_works layout owned read
    simp only at ran
    split at ran
    · cases ran; exact first
    · obtain ⟨⟨n',bytes',two⟩,again,ran⟩ := Runs.bind_ok.mp ran
      obtain ⟨⟨count,three⟩,written,ran⟩ := Runs.bind_ok.mp ran
      obtain ⟨inode',found,ran⟩ := Runs.bind_ok.mp ran
      cases ran
      have second := inodeRead_works layout first.owned again
      have third := inodeWrite_works layout second.owned written
      have last := setInode_works third.owned (Fs.inode_ok.mp found)
        {inode' with entry := inode'.entry.setNumBytes (inode'.entry.numBytes-BitVec.ofNat 32 dirEntrySize)}
        rfl rfl rfl rfl rfl rfl
      exact first.trans owned (second.trans first.owned (third.trans second.owned last))
  · cases ran

end Calls

-- The block numbers that are left when the first `i` entries of the indirect block
-- of `p` have been given back.
def cut (all : Usize × Place → Option Usize) (p : Usize) (i : Nat) : Usize × Place → Option Usize
  | (no,.entry j) => if no = p ∧ j.val < i then none else all (no,.entry j)
  | slot => all slot

theorem cut_succ (all : Usize × Place → Option Usize) (p : Usize) (i : Fin inodeNumIndirect) (slot : Usize × Place) :
    cut all p (i.val+1) slot = if slot = (p,.entry i) then none else cut all p i.val slot := by
  obtain ⟨no,place⟩ := slot
  cases place with
  | direct j => simp [cut]
  | indirect => simp [cut]
  | entry j =>
    simp only [cut,Prod.mk.injEq,Place.entry.injEq]
    by_cases own : no = p
    · by_cases here : j = i
      · simp [own,here]
      · have apart : j.val ≠ i.val := fun same => here (Fin.ext same)
        have same : j.val < i.val+1 ↔ j.val < i.val := by omega
        simp [own,here,same]
    · simp [own]

section Clear
variable {env : Env} {live : Usize → Bool} {p : Usize} {fs fs' : Fs} {ctx : Ctx} {inode : Inode}

theorem Gives.low {sb : SuperBlock} {v v' : View} (gives : Gives sb v b v') (inData : dataBlock sb b)
    (low : ∀ c : Usize, c.toNat ≤ sb.bitmapStart.toNat → used sb v c) (c : Usize)
    (reserved : c.toNat ≤ sb.bitmapStart.toNat) :
    used sb v' c := by
  refine (gives.marks c).mpr ⟨?_,low c reserved⟩
  intro same
  have above := inData.1
  rw [← same] at above
  omega

structure Freeing (sb : SuperBlock) (live : Usize → Bool) (p : Usize) (fs : Fs) (i : Nat) (v : View) : Prop where
  others : ∀ c, c ≠ bitmapBlock sb → v.blocks c = fs.cache.blocks c
  low : ∀ c : Usize, c.toNat ≤ sb.bitmapStart.toNat → used sb v c
  balanced : Balanced (dataBlock sb) (cut (refs sb live fs) p i) (used sb v)

theorem freeEntry_freeing (layout : Layout env.sblock) (owned : Owned env.sblock live fs)
    (found : fs.inodes p = some inode) (present : inode.entry.indirect ≠ 0#32) (small : i < inodeNumIndirect)
    (freeing : Freeing env.sblock live p fs i v)
    (ran : freeEntry env ctx (inode.entry.indirect.setWidth 64) i v = .ok v') :
    Freeing env.sblock live p fs (i+1) v' := by
  have alive := (owned.loaded p inode found).1
  have holder := (owned.used_of_ref (owned.own_indirect found present)).1
  have block := freeing.others _ (layout.apart (owned.inTable p alive) holder).2.1
  have slot : refs env.sblock live fs (p,.entry ⟨i,small⟩) =
      reference (getAddr (fs.cache.blocks (inode.entry.indirect.setWidth 64)) i) := by
    rw [refs_own fs alive found]
    simp only [refsOf,if_neg present]
  have current : cut (refs env.sblock live fs) p i (p,.entry ⟨i,small⟩) = refs env.sblock live fs (p,.entry ⟨i,small⟩) := by
    simp [cut]
  unfold freeEntry at ran
  rw [block] at ran
  split at ran
  · rename_i zero
    cases ran
    refine ⟨freeing.others,freeing.low,freeing.balanced.congr ?_ fun _ _ => Iff.rfl⟩
    intro other
    rw [cut_succ _ p ⟨i,small⟩]
    split
    · rename_i here
      rw [here,current,slot,zero,reference_zero]
    · rfl
  · rename_i nonzero
    have refers := current.trans (slot.trans (reference_of_ne nonzero))
    have gives := cacheFree_gives ran
    have inData := (freeing.balanced.sound _ _ refers).1
    refine ⟨?_,gives.low inData freeing.low,?_⟩
    · intro c notBitmap
      rw [gives.others c notBitmap,freeing.others c notBitmap]
    · refine freeing.balanced.release refers ?_ ?_ fun c _ => gives.marks c
      · rw [cut_succ _ p ⟨i,small⟩,if_pos rfl]
      · intro other different
        rw [cut_succ _ p ⟨i,small⟩,if_neg different]

-- Inode `p` is as before but for what clearing has set to zero.
structure Cleared (sb : SuperBlock) (live : Usize → Bool) (p : Usize) (fs fs' : Fs) : Prop where
  owned : Owned sb live fs'
  beside : Beside sb live p fs fs'
  disk : diskEntry sb fs'.cache p = diskEntry sb fs.cache p

theorem clearIndirect_cleared (layout : Layout env.sblock) (owned : Owned env.sblock live fs)
    (found : fs.inodes p = some inode) (ran : clearIndirect env ctx p fs = .ok fs') :
    Cleared env.sblock live p fs fs' ∧ fs'.inodes p = some {inode with entry := inode.entry.setIndirect 0#32} := by
  obtain ⟨alive,number,valid⟩ := owned.loaded p inode found
  simp only [clearIndirect,Fs.inode_ok.mpr found] at ran
  change (if inode.entry.indirect = 0#32 then _ else _) = _ at ran
  split at ran
  · rename_i absent
    cases ran
    refine ⟨⟨owned,.refl fs,rfl⟩,?_⟩
    rw [found]
    simp [InodeEntry.setIndirect,← absent]
  · rename_i present
    obtain ⟨v,freed,ran⟩ := Runs.bind_ok.mp ran
    obtain ⟨v',last,ran⟩ := Runs.bind_ok.mp ran
    cases ran
    have holder := owned.own_indirect found present
    have inData := (owned.used_of_ref holder).1
    have start : Freeing env.sblock live p fs 0 fs.cache := by
      refine ⟨fun _ _ => rfl,owned.low,owned.balanced.congr ?_ fun _ _ => Iff.rfl⟩
      rintro ⟨no,place⟩
      cases place <;> simp [cut]
    have freeing : Freeing env.sblock live p fs (0+inodeNumIndirect) v :=
      Runs.upTo_invariant (Freeing env.sblock live p fs) inodeNumIndirect 0 start
        (fun i w w' _ small before ran => freeEntry_freeing layout owned found present (by omega) before ran) freed
    have gives := cacheFree_gives last
    have elsewhere : ∀ c, c ≠ bitmapBlock env.sblock → v'.blocks c = fs.cache.blocks c := by
      intro c notBitmap
      rw [gives.others c notBitmap,freeing.others c notBitmap]
    have apart := layout.apart (owned.inTable p alive) inData
    have beside : Beside env.sblock live p fs ((fs.setCache v').setEntry p inode (inode.entry.setIndirect 0#32)) := by
      refine owned.beside_store (fun no other => Function.update_of_ne other _ _) ?_
      intro c moved
      have bitmap : c = bitmapBlock env.sblock := by
        by_contra other
        exact moved (elsewhere c other)
      subst bitmap
      refine ⟨fun no inTable => Ne.symm (layout.apart inTable inData).2.2,?_⟩
      intro no _ refers
      exact (layout.apart (owned.inTable p alive) (owned.used_of_ref refers).1).2.1 rfl
    have found' : ((fs.setCache v').setEntry p inode (inode.entry.setIndirect 0#32)).inodes p =
        some {inode with entry := inode.entry.setIndirect 0#32} := Function.update_self _ _ _
    -- Every entry is cut and the indirect block itself has been given back.
    have left : ∀ slot, slot ≠ (p,.indirect) →
        refs env.sblock live ((fs.setCache v').setEntry p inode (inode.entry.setIndirect 0#32)) slot =
          cut (refs env.sblock live fs) p (0+inodeNumIndirect) slot := by
      rintro ⟨no,place⟩ different
      by_cases own : no = p
      · subst own
        rw [refs_own _ alive found']
        cases place with
        | direct j => simp [refsOf,InodeEntry.setIndirect,cut,refs_own fs alive found]
        | indirect => exact absurd rfl different
        | entry j => simp [refsOf,InodeEntry.setIndirect,cut]
      · rw [beside.refs owned no own place]
        cases place <;> simp [cut,own]
    refine ⟨⟨⟨owned.inTable,?_,gives.low inData freeing.low,?_⟩,beside,?_⟩,found'⟩
    · intro q other there
      by_cases own : q = p
      · subst own
        rw [found'] at there
        cases there
        exact ⟨alive,number,valid⟩
      · rw [beside.inodes q own] at there
        exact owned.loaded q other there
    · have refers : cut (refs env.sblock live fs) p (0+inodeNumIndirect) (p,.indirect) =
          some (inode.entry.indirect.setWidth 64) := holder
      refine freeing.balanced.release refers ?_ left fun c _ => gives.marks c
      rw [refs_own _ alive found']
      rfl
    · change getEntry (v'.blocks _) p = _
      rw [elsewhere _ apart.2.2]
      rfl

theorem Cleared.trans {sb : SuperBlock} {fs'' : Fs} (owned : Owned sb live fs) (first : Cleared sb live p fs fs')
    (second : Cleared sb live p fs' fs'') : Cleared sb live p fs fs'' :=
  ⟨second.owned,first.beside.trans owned second.beside,second.disk.trans first.disk⟩

theorem clearAddr_cleared (layout : Layout env.sblock) (owned : Owned env.sblock live fs)
    (found : fs.inodes p = some inode) (i : Fin inodeNumDirect) (ran : clearAddr env ctx p i.val fs = .ok fs') :
    Cleared env.sblock live p fs fs' ∧ fs'.inodes p = some {inode with entry := inode.entry.setAddr i 0#32} := by
  obtain ⟨alive,number,valid⟩ := owned.loaded p inode found
  simp only [clearAddr,Fs.inode_ok.mpr found,i.isLt,dite_true] at ran
  change (if inode.entry.addrs i = 0#32 then _ else _) = _ at ran
  split at ran
  · rename_i absent
    cases ran
    refine ⟨⟨owned,.refl fs,rfl⟩,?_⟩
    have same : Function.update inode.entry.addrs i 0#32 = inode.entry.addrs := by
      rw [← absent]
      exact Function.update_eq_self i _
    rw [found]
    simp [InodeEntry.setAddr,same]
  · rename_i present
    obtain ⟨v,freed,ran⟩ := Runs.bind_ok.mp ran
    cases ran
    have gives := cacheFree_gives freed
    have holder : refs env.sblock live fs (p,.direct i) = some ((inode.entry.addrs i).setWidth 64) := by
      rw [refs_own fs alive found]
      exact reference_of_ne present
    have inData := (owned.used_of_ref holder).1
    have kept : ∀ slot c, refs env.sblock live fs slot = some c → v.blocks c = fs.cache.blocks c := fun slot c refers =>
      gives.others c (layout.apart (owned.inTable p alive) (owned.used_of_ref refers).1).2.1
    have beside : Beside env.sblock live p fs ((fs.setCache v).setEntry p inode (inode.entry.setAddr i 0#32)) := by
      refine owned.beside_store (fun no other => Function.update_of_ne other _ _) ?_
      intro c moved
      have bitmap : c = bitmapBlock env.sblock := by
        by_contra other
        exact moved (gives.others c other)
      subst bitmap
      refine ⟨fun no inTable => Ne.symm (layout.apart inTable inData).2.2,?_⟩
      intro no _ refers
      exact moved (kept _ _ refers)
    have found' : ((fs.setCache v).setEntry p inode (inode.entry.setAddr i 0#32)).inodes p =
        some {inode with entry := inode.entry.setAddr i 0#32} := Function.update_self _ _ _
    have left : ∀ slot, slot ≠ (p,.direct i) →
        refs env.sblock live ((fs.setCache v).setEntry p inode (inode.entry.setAddr i 0#32)) slot = refs env.sblock live fs slot := by
      rintro ⟨no,place⟩ different
      by_cases own : no = p
      · subst own
        rw [refs_own _ alive found',refs_own fs alive found]
        cases place with
        | direct j =>
          have apart : j ≠ i := fun same => different (by rw [same])
          simp [refsOf,InodeEntry.setAddr,apart]
        | indirect => rfl
        | entry j =>
          by_cases zero : inode.entry.indirect = 0#32
          · simp [refsOf,InodeEntry.setAddr,zero]
          · have block := kept _ _ (owned.own_indirect found zero)
            simp [refsOf,InodeEntry.setAddr,zero,Fs.setEntry,Fs.setInode,Fs.setCache,block]
      · exact beside.refs owned no own place
    refine ⟨⟨⟨owned.inTable,?_,gives.low inData owned.low,?_⟩,beside,?_⟩,found'⟩
    · intro q other there
      by_cases own : q = p
      · subst own
        rw [found'] at there
        cases there
        exact ⟨alive,number,valid⟩
      · rw [beside.inodes q own] at there
        exact owned.loaded q other there
    · refine owned.balanced.release holder ?_ left fun c _ => gives.marks c
      rw [refs_own _ alive found']
      simp [refsOf,InodeEntry.setAddr,reference_zero]
    · change getEntry (v.blocks _) p = _
      rw [gives.others _ (layout.apart (owned.inTable p alive) inData).2.2]
      rfl

def Inode.emptied (inode : Inode) : Inode :=
  {inode with entry := (inode.setBlocks (fun _ => 0#32) 0#32).entry.setNumBytes 0#32}

-- inode_clear: the inode owns nothing afterwards, in memory and in the table.
theorem inodeClear_clears (layout : Layout env.sblock) (owned : Owned env.sblock live fs)
    (found : fs.inodes p = some inode) (ran : inodeClear env ctx p fs = .ok fs') : Owned env.sblock live fs' ∧
      Beside env.sblock live p fs fs' ∧ fs'.inodes p = some inode.emptied ∧
      diskEntry env.sblock fs'.cache p = inode.emptied.entry := by
  obtain ⟨one,first,ran⟩ := Runs.bind_ok.mp ran
  obtain ⟨two,second,ran⟩ := Runs.bind_ok.mp ran
  obtain ⟨inode',again,ran⟩ := Runs.bind_ok.mp ran
  obtain ⟨cleared,there⟩ := clearIndirect_cleared layout owned found first
  have loop : Cleared env.sblock live p fs two ∧ ∃ addrs, two.inodes p = some (inode.setBlocks addrs 0#32) ∧
      ∀ j : Fin inodeNumDirect, j.val < 0+inodeNumDirect → addrs j = 0#32 := by
    refine Runs.upTo_invariant (fun i s => Cleared env.sblock live p fs s ∧ ∃ addrs,
      s.inodes p = some (inode.setBlocks addrs 0#32) ∧ ∀ j : Fin inodeNumDirect, j.val < i → addrs j = 0#32)
      inodeNumDirect 0 ⟨cleared,_,there,fun j small => absurd small (by omega)⟩ ?_ second
    intro i s s' _ small before step
    obtain ⟨before,addrs,held,zeros⟩ := before
    have small : i < inodeNumDirect := by omega
    obtain ⟨after,held'⟩ := clearAddr_cleared layout before.owned held ⟨i,small⟩ step
    refine ⟨before.trans owned after,Function.update addrs ⟨i,small⟩ 0#32,held',?_⟩
    intro j earlier
    by_cases here : j = ⟨i,small⟩
    · rw [here,Function.update_self]
    · have apart : j.val ≠ i := fun same => here (Fin.ext same)
      rw [Function.update_of_ne here]
      exact zeros j (by omega)
  obtain ⟨cleared,addrs,held,zeros⟩ := loop
  have all : addrs = fun _ => 0#32 := funext fun j => zeros j (by have := j.isLt; omega)
  have same : inode' = inode.setBlocks addrs 0#32 := by
    have other := Fs.inode_ok.mp again
    rw [held] at other
    exact (Option.some.inj other).symm
  subst same all
  have truncated : Works env.sblock live p two (two.setEntry p (inode.setBlocks (fun _ => 0#32) 0#32)
      ((inode.setBlocks (fun _ => 0#32) 0#32).entry.setNumBytes 0#32)) :=
    setInode_works cleared.owned held _ rfl rfl rfl rfl rfl rfl
  have found' : (two.setEntry p (inode.setBlocks (fun _ => 0#32) 0#32)
      ((inode.setBlocks (fun _ => 0#32) 0#32).entry.setNumBytes 0#32)).inodes p = some inode.emptied :=
    Function.update_self _ _ _
  rw [inodeSync_write env truncated.owned found'] at ran
  cases ran
  have synced := sync_maps layout ctx truncated.owned found'
  refine ⟨synced.owned,cleared.beside.trans owned (truncated.beside.trans cleared.owned synced.beside),found',?_⟩
  exact writeEntry_own _ _

end Clear

-- The inode numbers whose entry in the table is in use.
def allocated (sb : SuperBlock) (fs : Fs) (no : Usize) : Bool :=
  decide ((0 < no.toNat ∧ no.toNat < sb.numInodes.toNat) ∧ (diskEntry sb fs.cache no).type ≠ inodeInvalid)

structure Consistent (sb : SuperBlock) (fs : Fs) : Prop where
  owned : Owned sb (allocated sb fs) fs
  typed : ∀ p inode, fs.inodes p = some inode → inode.entry.type ≠ inodeInvalid

-- inode_get is called with the number of an inode that is in use, or with 0.
def Permitted (sb : SuperBlock) (fs : Fs) : Call → Prop
  | .get inodeNo => inodeNo = 0#64 ∨ allocated sb fs inodeNo = true
  | _ => True

instance (sb : SuperBlock) (fs : Fs) (c : Call) : Decidable (Permitted sb fs c) :=
  match c with
  | .get inodeNo => inferInstanceAs (Decidable (inodeNo = 0#64 ∨ allocated sb fs inodeNo = true))
  | .alloc _ _ | .share _ | .put _ _ | .clear _ _ | .read _ _ _ | .write _ _ _ _ | .lookup _ _ | .insert _ _ _ _
  | .remove _ _ _ => inferInstanceAs (Decidable True)

section Allocation
variable {sb : SuperBlock} {p no : Usize} {fs fs' : Fs} {env : Env} {ctx : Ctx}

theorem allocated_iff : allocated sb fs no = true ↔ InTable sb no ∧ (diskEntry sb fs.cache no).type ≠ inodeInvalid := by
  simp [allocated,InTable]

theorem Owned.of_live {live live' : Usize → Bool} (owned : Owned sb live fs) (same : ∀ no, live' no = live no) :
    Owned sb live' fs := by
  have equal : live' = live := funext same
  rw [equal]
  exact owned

theorem Consistent.retyped (consistent : Consistent sb fs) (found : fs.inodes p = some inode)
    (owned : Owned sb (allocated sb fs) fs') (beside : Beside sb (allocated sb fs) p fs fs')
    (found' : fs'.inodes p = some inode') (type : inode'.entry.type = inode.entry.type)
    (disk : (diskEntry sb fs'.cache p).type = (diskEntry sb fs.cache p).type ∨
    (diskEntry sb fs'.cache p).type = inode.entry.type) :
    Consistent sb fs' ∧ allocated sb fs' = allocated sb fs := by
  have own := consistent.typed p inode found
  have same : ∀ no, allocated sb fs' no = allocated sb fs no := by
    intro no
    rw [Bool.eq_iff_iff,allocated_iff,allocated_iff]
    by_cases here : no = p
    · subst here
      obtain ⟨inTable,used⟩ := allocated_iff.mp (consistent.owned.loaded no inode found).1
      have stays : (diskEntry sb fs'.cache no).type ≠ inodeInvalid := by
        rcases disk with equal | equal
        · rw [equal]; exact used
        · rw [equal]; exact own
      exact ⟨fun _ => ⟨inTable,used⟩,fun _ => ⟨inTable,stays⟩⟩
    · by_cases inTable : InTable sb no
      · rw [beside.disk no inTable here]
      · simp [inTable]
  refine ⟨⟨owned.of_live same,?_⟩,funext same⟩
  intro q other there
  by_cases here : q = p
  · subst here
    rw [found'] at there
    cases there
    rw [type]
    exact own
  · rw [beside.inodes q here] at there
    exact consistent.typed q other there

theorem Works.consistent (consistent : Consistent sb fs) (found : fs.inodes p = some inode)
    (works : Works sb (allocated sb fs) p fs fs') : Consistent sb fs' := by
  obtain ⟨inode',found',type,_⟩ := works.found inode found
  exact (consistent.retyped found works.owned works.beside found' type (works.type inode found)).1

-- The entry of a loaded inode changes in fields that hold no block number, and is synced.
theorem sync_consistent (layout : Layout env.sblock) (consistent : Consistent env.sblock fs)
    (found : fs.inodes p = some inode) (e : InodeEntry) (type : e.type = inode.entry.type)
    (addrs : e.addrs = inode.entry.addrs) (indirect : e.indirect = inode.entry.indirect)
    (ran : inodeSync env ctx p true (fs.setEntry p inode e) = .ok fs') :
    Consistent env.sblock fs' ∧ allocated env.sblock fs' = allocated env.sblock fs ∧
    Beside env.sblock (allocated env.sblock fs) p fs fs' ∧
      fs' = (fs.setEntry p inode e).setCache (writeEntry env.sblock ctx fs.cache p e) := by
  have found' : (fs.setEntry p inode e).inodes p = some {inode with entry := e} := Function.update_self _ _ _
  obtain ⟨owned,beside⟩ := setInode_owned consistent.owned found {inode with entry := e} rfl rfl addrs indirect
  have owned : Owned env.sblock (allocated env.sblock fs) (fs.setEntry p inode e) := owned
  rw [inodeSync_write env owned found'] at ran
  cases ran
  have maps := sync_maps layout ctx owned found'
  have beside' := beside.trans consistent.owned maps.beside
  obtain ⟨consistent',same⟩ := consistent.retyped found maps.owned beside' found' type
    (.inr ((congrArg InodeEntry.type (writeEntry_own _ _)).trans type))
  exact ⟨consistent',same,beside',rfl⟩

theorem inodeShare_works {live : Usize → Bool} (owned : Owned sb live fs) (ran : inodeShare p fs = .ok fs') :
    Works sb live p fs fs' := by
  obtain ⟨inode,found,ran⟩ := Runs.bind_ok.mp ran
  cases ran
  exact setInode_works owned (Fs.inode_ok.mp found) _ rfl rfl rfl rfl rfl rfl

-- inode_get of an inode that is not in memory: the structure gets the table's entry.
theorem inodeGet_load (unloaded : fs.inodes no = none) (ran : inodeGet env no fs = .ok (q,fs')) :
    no = 0#64 ∧ fs' = fs ∨
      no ≠ 0#64 ∧ fs' = fs.setInode no ⟨initSem 1,1,no,true,diskEntry env.sblock fs.cache no⟩ := by
  unfold inodeGet at ran
  split at ran
  · rename_i zero
    cases ran
    exact .inl ⟨zero,rfl⟩
  · rename_i nonzero
    split at ran
    · cases ran
    · refine .inr ⟨nonzero,?_⟩
      rw [unloaded] at ran
      simp [inodeLock,Fs.inode,Fs.setInode,initSem,Semaphores.waitSem,inodeSync,inodeUnlock,Semaphores.postSem,
        bind,Except.bind] at ran
      rw [← ran.2]
      rfl

def Fs.load (fs : Fs) (sb : SuperBlock) (no : Usize) : Fs := fs.setInode no ⟨initSem 1,1,no,true,diskEntry sb fs.cache no⟩

-- What inode_get returns: NULL for 0, else the inode with one more reference.
theorem inodeGet_cases (ran : inodeGet env no fs = .ok (q,fs')) : no = 0#64 ∧ q = none ∧ fs' = fs ∨
    InTable env.sblock no ∧ q = some no ∧ ((∃ inode, fs.inodes no = some inode ∧ fs' = fs.setInode no {inode with rc := inode.rc+1}) ∨
      fs.inodes no = none ∧ fs' = fs.load env.sblock no) := by
  have ran' := ran
  unfold inodeGet at ran
  split at ran
  · rename_i zero
    cases ran
    exact .inl ⟨zero,rfl,rfl⟩
  · rename_i nonzero
    split at ran
    · cases ran
    · rename_i inside
      have inTable : InTable env.sblock no := by
        refine ⟨Nat.pos_of_ne_zero fun zero => nonzero (BitVec.eq_of_toNat_eq zero),by omega⟩
      refine .inr ⟨inTable,?_⟩
      cases there : fs.inodes no with
      | some inode =>
        rw [there] at ran
        cases ran
        exact ⟨rfl,.inl ⟨inode,rfl,rfl⟩⟩
      | none =>
        have loaded := ((inodeGet_load there ran').resolve_left fun zero => nonzero zero.1).2
        rw [there] at ran
        obtain ⟨_,_,ran⟩ := Runs.bind_ok.mp ran
        obtain ⟨_,_,ran⟩ := Runs.bind_ok.mp ran
        obtain ⟨_,_,ran⟩ := Runs.bind_ok.mp ran
        cases ran
        exact ⟨rfl,.inr ⟨rfl,loaded⟩⟩

theorem inodeGet_found (ran : inodeGet env no fs = .ok (some q,fs')) :
    q = no ∧ InTable env.sblock no ∧ fs'.cache = fs.cache ∧
    (∃ inode, fs'.inodes no = some inode ∧ inode.entry = entryOf env.sblock fs no) ∧ ∀ r, r ≠ no →
    fs'.inodes r = fs.inodes r := by
  rcases inodeGet_cases ran with ⟨_,none,_⟩ | ⟨inTable,same,got⟩
  · cases none
  · refine ⟨Option.some.inj same,inTable,?_⟩
    rcases got with ⟨inode,found,rfl⟩ | ⟨unloaded,rfl⟩
    · refine ⟨rfl,⟨_,Function.update_self _ _ _,?_⟩,fun r other => Function.update_of_ne other _ _⟩
      simp only [entryOf,found]
    · refine ⟨rfl,⟨_,Function.update_self _ _ _,?_⟩,fun r other => Function.update_of_ne other _ _⟩
      simp only [entryOf,unloaded]

theorem load_consistent (consistent : Consistent sb fs) (inUse : allocated sb fs no = true)
    (unloaded : fs.inodes no = none) :
    Consistent sb (fs.setInode no ⟨initSem 1,1,no,true,diskEntry sb fs.cache no⟩) := by
  have entries : ∀ q, entryOf sb (fs.setInode no ⟨initSem 1,1,no,true,diskEntry sb fs.cache no⟩) q = entryOf sb fs q := by
    intro q
    unfold entryOf
    by_cases here : q = no
    · subst here
      simp [Fs.setInode,unloaded]
    · simp [Fs.setInode,Function.update_of_ne here]
  refine ⟨⟨consistent.owned.inTable,?_,consistent.owned.low,consistent.owned.balanced.congr ?_ fun _ _ => Iff.rfl⟩,?_⟩
  · intro q inode found
    by_cases here : q = no
    · subst here
      simp only [Fs.setInode,Function.update_self,Option.some.injEq] at found
      subst found
      exact ⟨inUse,rfl,rfl⟩
    · simp only [Fs.setInode,Function.update_of_ne here] at found
      exact consistent.owned.loaded q inode found
  · intro slot
    unfold refs
    rw [entries]
    rfl
  · intro q inode found
    by_cases here : q = no
    · subst here
      simp only [Fs.setInode,Function.update_self,Option.some.injEq] at found
      subst found
      exact (allocated_iff.mp inUse).2
    · simp only [Fs.setInode,Function.update_of_ne here] at found
      exact consistent.typed q inode found

theorem allocLoop_spec (count : Nat) (fs : Fs) (first : Usize) (positive : 0 < first.toNat)
    (bound : first.toNat+count ≤ sb.numInodes.toNat) (ran : allocLoop sb ctx type fs count first = .ok (no,fs')) :
    InTable sb no ∧ (diskEntry sb fs.cache no).type = inodeInvalid ∧
      fs' = fs.setCache (writeEntry sb ctx fs.cache no (InodeEntry.zero.setType type)) := by
  induction count generalizing first with
  | zero => cases ran
  | succ count ih =>
    unfold allocLoop at ran
    split at ran
    · rename_i free
      cases ran
      exact ⟨⟨positive,by omega⟩,free,rfl⟩
    · have next : (first+1).toNat = first.toNat+1 := by
        have small : sb.numInodes.toNat < 2^32 := sb.numInodes.isLt
        rw [BitVec.toNat_add]
        exact Nat.mod_eq_of_lt (by simp; omega)
      exact ih (first+1) (by omega) (by omega) ran

theorem refsOf_zero (v : View) (type : U16) (place : Place) : refsOf v (InodeEntry.zero.setType type) place = none := by
  cases place <;> rfl

-- A free entry of the table is filled in: the new inode owns nothing yet.
theorem enter_consistent (layout : Layout sb) (consistent : Consistent sb fs) (inTable : InTable sb no)
    (free : (diskEntry sb fs.cache no).type = inodeInvalid) (ctx : Ctx) (type : U16) :
    Consistent sb (fs.setCache (writeEntry sb ctx fs.cache no (InodeEntry.zero.setType type))) := by
  have own : diskEntry sb (writeEntry sb ctx fs.cache no (InodeEntry.zero.setType type)) no = InodeEntry.zero.setType type :=
    writeEntry_own _ _
  have others : ∀ q, InTable sb q → q ≠ no →
      diskEntry sb (writeEntry sb ctx fs.cache no (InodeEntry.zero.setType type)) q = diskEntry sb fs.cache q :=
    fun q there other => writeEntry_other layout fs.cache inTable there other _
  have elsewhere : ∀ c, c ≠ toBlockNo sb no →
      (writeEntry sb ctx fs.cache no (InodeEntry.zero.setType type)).blocks c = fs.cache.blocks c := by
    intro c other
    unfold writeEntry
    simp [other]
  generalize writeEntry sb ctx fs.cache no (InodeEntry.zero.setType type) = v at *
  have unused : allocated sb fs no = false := by
    rw [Bool.eq_false_iff,ne_eq,allocated_iff]
    exact fun both => both.2 free
  have unloaded : fs.inodes no = none := by
    cases there : fs.inodes no with
    | none => rfl
    | some inode =>
      have inUse := (consistent.owned.loaded no inode there).1
      rw [unused] at inUse
      cases inUse
  have live : ∀ q, q ≠ no → allocated sb (fs.setCache v) q = allocated sb fs q := by
    intro q other
    rw [Bool.eq_iff_iff,allocated_iff,allocated_iff]
    by_cases there : InTable sb q
    · change _ ∧ (diskEntry sb v q).type ≠ _ ↔ _
      rw [others q there other]
    · simp [there]
  have beside : Beside sb (allocated sb fs) no fs (fs.setCache v) := by
    refine ⟨fun _ _ => rfl,others,?_⟩
    intro q alive _ nonzero
    exact elsewhere _ (layout.apart inTable (consistent.owned.indirect_data alive nonzero).2.1).1
  have same : ∀ slot, refs sb (allocated sb (fs.setCache v)) (fs.setCache v) slot = refs sb (allocated sb fs) fs slot := by
    rintro ⟨q,place⟩
    by_cases here : q = no
    · subst here
      have entry : entryOf sb (fs.setCache v) q = InodeEntry.zero.setType type := by
        unfold entryOf
        simp only [Fs.setCache,unloaded]
        exact own
      simp [refs,unused,entry,refsOf_zero]
    · rw [← beside.refs consistent.owned q here place]
      unfold refs
      simp only [live q here]
  have bitmap : v.blocks (bitmapBlock sb) = fs.cache.blocks (bitmapBlock sb) := by
    refine elsewhere _ ?_
    intro equal
    have table := (layout.tableBlock inTable).2
    rw [← equal,bitmapBlock_toNat] at table
    omega
  have marks : ∀ c, used sb v c ↔ used sb fs.cache c := by
    intro c
    unfold used
    rw [bitmap]
  refine ⟨⟨fun q alive => (allocated_iff.mp alive).1,?_,fun c reserved => (marks c).mpr (consistent.owned.low c reserved),
    consistent.owned.balanced.congr same fun c _ => marks c⟩,consistent.typed⟩
  intro q inode found
  have other : q ≠ no := by
    intro same
    rw [same] at found
    exact absurd (found.symm.trans unloaded) (by simp)
  rw [live q other]
  exact consistent.owned.loaded q inode found

theorem inodeAlloc_consistent (layout : Layout env.sblock) (consistent : Consistent env.sblock fs)
    (ran : inodeAlloc env ctx type fs = .ok (no,fs')) : Consistent env.sblock fs' := by
  unfold inodeAlloc at ran
  split at ran
  · cases ran
  · by_cases empty : env.sblock.numInodes.toNat-1 = 0
    · rw [empty] at ran
      cases ran
    · obtain ⟨inTable,free,rfl⟩ := allocLoop_spec _ fs _ (by decide) (by simp; omega) ran
      exact enter_consistent layout consistent inTable free ctx type

theorem refsOf_emptied (v : View) (inode : Inode) (place : Place) : refsOf v inode.emptied.entry place = none := by
  cases place <;> rfl

-- The structure of an inode that owns nothing and is free in the table goes away.
theorem drop_consistent (consistent : Consistent sb fs) (owned : Owned sb (allocated sb fs) fs')
    (beside : Beside sb (allocated sb fs) p fs fs') (found : fs'.inodes p = some inode) (empty : ∀ v place,
      refsOf v inode.entry place = none) (free : (diskEntry sb fs'.cache p).type = inodeInvalid) :
    Consistent sb ⟨fs'.cache,Function.update fs'.inodes p none⟩ := by
  have live : ∀ q, q ≠ p → allocated sb ⟨fs'.cache,Function.update fs'.inodes p none⟩ q = allocated sb fs q := by
    intro q other
    rw [Bool.eq_iff_iff,allocated_iff,allocated_iff]
    by_cases there : InTable sb q
    · change _ ∧ (diskEntry sb fs'.cache q).type ≠ _ ↔ _
      rw [beside.disk q there other]
    · simp [there]
  have gone : allocated sb ⟨fs'.cache,Function.update fs'.inodes p none⟩ p = false := by
    rw [Bool.eq_false_iff,ne_eq,allocated_iff]
    exact fun both => both.2 free
  have same : ∀ slot, refs sb (allocated sb ⟨fs'.cache,Function.update fs'.inodes p none⟩)
      ⟨fs'.cache,Function.update fs'.inodes p none⟩ slot = refs sb (allocated sb fs) fs' slot := by
    rintro ⟨q,place⟩
    by_cases here : q = p
    · subst here
      rw [refs_own fs' (owned.loaded q inode found).1 found place,empty]
      simp [refs,gone]
    · unfold refs entryOf
      simp only [live q here,Function.update_of_ne here]
  refine ⟨⟨fun q alive => (allocated_iff.mp alive).1,?_,owned.low,owned.balanced.congr same fun _ _ => Iff.rfl⟩,?_⟩
  · intro q other there
    by_cases here : q = p
    · subst here
      simp at there
    · simp only [Function.update_of_ne here] at there
      rw [live q here]
      exact owned.loaded q other there
  · intro q other there
    by_cases here : q = p
    · subst here
      simp at there
    · simp only [Function.update_of_ne here] at there
      rw [beside.inodes q here] at there
      exact consistent.typed q other there

theorem inodePut_consistent (layout : Layout env.sblock) (consistent : Consistent env.sblock fs)
    (ran : inodePut env ctx p fs = .ok fs') : Consistent env.sblock fs' := by
  obtain ⟨inode,found,ran⟩ := Runs.bind_ok.mp ran
  have found := Fs.inode_ok.mp found
  obtain ⟨counted,first⟩ := setInode_owned consistent.owned found {inode with rc := inode.rc-1} rfl rfl rfl rfl
  have found₁ : (fs.setInode p {inode with rc := inode.rc-1}).inodes p = some {inode with rc := inode.rc-1} :=
    Function.update_self _ _ _
  simp only at ran
  split at ran
  · obtain ⟨last,cleared,ran⟩ := Runs.bind_ok.mp ran
    cases ran
    obtain ⟨marked,second⟩ := setInode_owned counted found₁
      {inode with
        rc := inode.rc-1
        entry := inode.entry.setType inodeInvalid} rfl rfl rfl rfl
    obtain ⟨owned,third,found₂,disk⟩ := inodeClear_clears layout marked (Function.update_self _ _ _) cleared
    refine drop_consistent consistent owned (first.trans consistent.owned (second.trans counted third)) found₂
      (fun v place => refsOf_emptied v _ place) ?_
    rw [disk]
    rfl
  · cases ran
    exact (setInode_works consistent.owned found {inode with rc := inode.rc-1} rfl rfl rfl rfl rfl rfl).consistent
      consistent found

theorem inodeGet_consistent (consistent : Consistent env.sblock fs) (permitted : Permitted env.sblock fs (.get no))
    (ran : inodeGet env no fs = .ok (q,fs')) : Consistent env.sblock fs' := by
  cases there : fs.inodes no with
  | none =>
    rcases inodeGet_load there ran with ⟨_,rfl⟩ | ⟨nonzero,rfl⟩
    · exact consistent
    · exact load_consistent consistent (permitted.resolve_left nonzero) there
  | some inode =>
    unfold inodeGet at ran
    rw [there] at ran
    split at ran
    · cases ran; exact consistent
    · split at ran
      · cases ran
      · cases ran
        exact (setInode_works consistent.owned there {inode with rc := inode.rc+1} rfl rfl rfl rfl rfl rfl).consistent
          consistent there

theorem inodeClear_consistent (layout : Layout env.sblock) (consistent : Consistent env.sblock fs)
    (ran : inodeClear env ctx p fs = .ok fs') : Consistent env.sblock fs' := by
  cases there : fs.inodes p with
  | none =>
    simp [inodeClear,clearIndirect,Fs.inode,there,bind,Except.bind] at ran
  | some inode =>
    obtain ⟨owned,beside,found,disk⟩ := inodeClear_clears layout consistent.owned there ran
    refine Works.consistent consistent there ⟨owned,beside,?_,?_⟩
    · intro other same
      rw [there] at same
      cases same
      exact ⟨_,found,rfl,rfl⟩
    · intro other same
      rw [there] at same
      cases same
      rw [disk]
      exact .inr rfl

theorem found_of_bind {β : Type} {f : Inode → Except Fault β} {r : β} (ran : fs.inode p >>= f = .ok r) :
    ∃ inode, fs.inodes p = some inode := by
  obtain ⟨inode,found,_⟩ := Runs.bind_ok.mp ran
  exact ⟨inode,Fs.inode_ok.mp found⟩

theorem inodeUnlock_consistent (consistent : Consistent sb fs) (ran : inodeUnlock p fs = .ok fs') :
    Consistent sb fs' := by
  obtain ⟨inode,_,found,_⟩ := inodeUnlock_set ran
  exact (inodeUnlock_works consistent.owned ran).consistent consistent found

theorem inodeLock_consistent (consistent : Consistent sb fs) (ran : inodeLock p fs = .ok fs') : Consistent sb fs' := by
  obtain ⟨inode,_,found,_⟩ := inodeLock_set ran
  exact (inodeLock_works consistent.owned ran).consistent consistent found

theorem inodeLookup_consistent (layout : Layout env.sblock) (consistent : Consistent env.sblock fs)
    (ran : inodeLookup env p name fs = .ok (n,index,fs')) : Consistent env.sblock fs' := by
  obtain ⟨_,scanned,_⟩ := Runs.bind_ok.mp ran
  obtain ⟨inode,found⟩ := found_of_bind scanned
  exact (inodeLookup_works layout consistent.owned ran).consistent consistent found

theorem call_consistent (layout : Layout env.sblock) (consistent : Consistent env.sblock fs) (c : Call)
    (permitted : Permitted env.sblock fs c) (ran : call env fs c = .ok fs') : Consistent env.sblock fs' := by
  have owned := consistent.owned
  cases c with
  | alloc ctx type =>
    obtain ⟨⟨no,_⟩,returned,rfl⟩ := Runs.map_ok ran
    exact inodeAlloc_consistent layout consistent returned
  | get no =>
    obtain ⟨⟨q,_⟩,returned,rfl⟩ := Runs.map_ok ran
    exact inodeGet_consistent consistent permitted returned
  | share p =>
    obtain ⟨inode,found⟩ := found_of_bind ran
    exact (inodeShare_works owned ran).consistent consistent found
  | put ctx p => exact inodePut_consistent layout consistent ran
  | clear ctx p => exact inodeClear_consistent layout consistent ran
  | read p offset count =>
    obtain ⟨⟨n,bytes,_⟩,returned,rfl⟩ := Runs.map_ok ran
    obtain ⟨inode,found⟩ := found_of_bind returned
    exact (inodeRead_works layout owned returned).consistent consistent found
  | write ctx p src offset =>
    obtain ⟨⟨n,_⟩,returned,rfl⟩ := Runs.map_ok ran
    obtain ⟨inode,found⟩ := found_of_bind returned
    exact (inodeWrite_works layout owned returned).consistent consistent found
  | lookup p name =>
    obtain ⟨⟨n,index,_⟩,returned,rfl⟩ := Runs.map_ok ran
    exact inodeLookup_consistent layout consistent returned
  | insert ctx p name no =>
    obtain ⟨⟨n,_⟩,returned,rfl⟩ := Runs.map_ok ran
    obtain ⟨_,looked,_⟩ := Runs.bind_ok.mp returned
    obtain ⟨_,scanned,_⟩ := Runs.bind_ok.mp looked
    obtain ⟨inode,found⟩ := found_of_bind scanned
    exact (inodeInsert_works layout owned returned).consistent consistent found
  | remove ctx p index =>
    obtain ⟨inode,found⟩ := found_of_bind ran
    exact (inodeRemove_works layout owned ran).consistent consistent found

end Allocation

-- A mounted image: nothing loaded, every block up to the bitmap marked, and the data
-- blocks marked exactly where one inode refers to them once.
structure Image (sb : SuperBlock) (fs : Fs) : Prop where
  layout : Layout sb
  unloaded : ∀ p, fs.inodes p = none
  low : ∀ b : Usize, b.toNat ≤ sb.bitmapStart.toNat → used sb fs.cache b
  balanced : Balanced (dataBlock sb) (refs sb (allocated sb fs) fs) (used sb fs.cache)

theorem Image.consistent {sb : SuperBlock} {fs : Fs} (image : Image sb fs) : Consistent sb fs := by
  have none : ∀ p inode, fs.inodes p ≠ some inode := by
    intro p inode found
    rw [image.unloaded p] at found
    cases found
  refine ⟨⟨fun no alive => (allocated_iff.mp alive).1,?_,image.low,image.balanced⟩,?_⟩
  · intro p inode found
    exact absurd found (none p inode)
  · intro p inode found
    exact absurd found (none p inode)

-- With no block number set, the bitmap has the low blocks and nothing else.
theorem Image.of_holes {sb : SuperBlock} {fs : Fs} (layout : Layout sb) (unloaded : ∀ p, fs.inodes p = none)
    (marks : ∀ b, used sb fs.cache b ↔ b.toNat ≤ sb.bitmapStart.toNat)
    (none : ∀ slot, refs sb (allocated sb fs) fs slot = none) : Image sb fs := by
  refine ⟨layout,unloaded,fun b low => (marks b).mpr low,⟨?_,?_,?_⟩⟩
  · intro slot b refers
    rw [none] at refers
    cases refers
  · intro slot slot' b refers
    rw [none] at refers
    cases refers
  · intro b inData taken
    have above := inData.1
    have below := (marks b).mp taken
    omega

theorem Consistent.restart {sb : SuperBlock} {fs : Fs} (consistent : Consistent sb fs)
    (written : ∀ p inode, fs.inodes p = some inode → diskEntry sb fs.cache p = inode.entry) :
    Consistent sb ⟨fs.cache,fun _ => none⟩ := by
  have same : refs sb (allocated sb fs) ⟨fs.cache,fun _ => none⟩ = refs sb (allocated sb fs) fs := by
    funext slot
    unfold refs entryOf
    cases loaded : fs.inodes slot.1 with
    | none => simp
    | some inode => simp [written _ _ loaded]
  refine ⟨⟨consistent.owned.inTable,?_,consistent.owned.low,?_⟩,?_⟩
  · intro p inode found
    cases found
  · have balanced := consistent.owned.balanced
    rw [← same] at balanced
    exact balanced
  · intro p inode found
    cases found

theorem run_consistent {env : Env} {start fs : Fs} (layout : Layout env.sblock)
    (consistent : Consistent env.sblock start) (path : Runs.Guarded (next env) (Permitted env.sblock) start fs) :
    Consistent env.sblock fs :=
  path.invariant (Consistent env.sblock) consistent fun _ c _ consistent permitted ran =>
    call_consistent layout consistent c permitted (Runs.toOption_some ran)

-- Every block number of every inode in use is that of a marked data block, none occurs
-- twice, and every marked data block occurs.
theorem blocks_owned_once {env : Env} {start fs : Fs} (image : Image env.sblock start)
    (path : Runs.Guarded (next env) (Permitted env.sblock) start fs) :
    Balanced (dataBlock env.sblock) (refs env.sblock (allocated env.sblock fs) fs) (used env.sblock fs.cache) :=
  (run_consistent image.layout image.consistent path).owned.balanced

-- The layout of mkfs with an inode table of zeros: nothing is in use yet.
def blankEnv : Env := ⟨mkfsSuperBlock,fun _ => none,0#128⟩
def blankDisk : Fs :=
  ⟨⟨fun b => if b = bitmapBlock mkfsSuperBlock then BitVec.ofNat 4096 (2^92-1) else 0#4096,[]⟩,fun _ => none⟩

theorem blank_layout : Layout blankEnv.sblock := ⟨by decide,by decide,by decide⟩

theorem blank_used (b : Usize) : used blankEnv.sblock blankDisk.cache b ↔ b.toNat < 92 := by
  unfold used
  have bitmap : blankDisk.cache.blocks (bitmapBlock blankEnv.sblock) = BitVec.ofNat 4096 (2^92-1) := by
    simp [blankDisk,blankEnv]
  rw [bitmap,bitmapGet_bit,BitVec.getLsbD_ofNat,Nat.testBit_two_pow_sub_one]
  by_cases low : b.toNat < 92
  · have fits : b.toNat < 4096 := by omega
    simp [low,fits]
  · simp [low]

theorem blank_table {no : Usize} (inTable : InTable blankEnv.sblock no) :
    blankDisk.cache.blocks (toBlockNo blankEnv.sblock no) = 0#4096 := by
  have table := (blank_layout.tableBlock inTable).2
  have other : toBlockNo blankEnv.sblock no ≠ bitmapBlock mkfsSuperBlock := by
    intro same
    rw [same,bitmapBlock_toNat] at table
    exact absurd table (Nat.lt_irrefl _)
  simp [blankDisk,other]

theorem blank_unallocated (no : Usize) : allocated blankEnv.sblock blankDisk no = false := by
  rw [Bool.eq_false_iff,ne_eq,allocated_iff]
  rintro ⟨inTable,valid⟩
  apply valid
  unfold diskEntry getEntry InodeEntry.ofImage
  rw [blank_table inTable]
  simp only [BitSlice.get_zero]
  rfl

theorem blank_image : Image blankEnv.sblock blankDisk := by
  have none : ∀ slot, refs blankEnv.sblock (allocated blankEnv.sblock blankDisk) blankDisk slot = none := by
    intro slot
    unfold refs
    simp [blank_unallocated]
  refine Image.of_holes blank_layout (fun _ => rfl) ?_ none
  intro b
  have low : blankEnv.sblock.bitmapStart.toNat = 91 := rfl
  rw [blank_used,low]
  omega

-- The number of a free inode is good enough for inode_get; what is then written into
-- the inode marks block 92, which no inode in use refers to.
theorem free_inode_leaks : ¬ ∀ (env : Env) (start fs : Fs), Image env.sblock start → Runs.Reached (next env) start fs →
    Balanced (dataBlock env.sblock) (refs env.sblock (allocated env.sblock fs) fs) (used env.sblock fs.cache) := by
  intro balanced
  obtain ⟨fs,ran,facts⟩ := Runs.some_such
    (x := Runs.exec (next blankEnv) blankDisk [.get 5#64,.write (some 0) 5#64 [7#8] 0#64])
    (p := fun fs => bitmapGet (fs.cache.blocks (bitmapBlock mkfsSuperBlock)) 92 &&
      (List.range 200).all fun i => !allocated mkfsSuperBlock fs (BitVec.ofNat 64 i)) (by decide +kernel)
  obtain ⟨marked,unallocated⟩ := Bool.and_eq_true_iff.mp facts
  have balanced := balanced blankEnv blankDisk fs blank_image (Runs.exec_reached .start ran)
  obtain ⟨⟨no,place⟩,refers⟩ := balanced.complete 92#64 ⟨by decide,by decide⟩ marked
  unfold refs at refers
  split at refers
  · rename_i inUse
    have small : no.toNat < 200 := (allocated_iff.mp inUse).1.2
    have free := List.all_eq_true.mp unallocated no.toNat (List.mem_range.mpr small)
    rw [BitVec.ofNat_toNat,BitVec.setWidth_eq] at free
    have free : allocated mkfsSuperBlock fs no = false := by simpa using free
    exact absurd (inUse.symm.trans free) (by simp)
  · cases refers

-- A file and a directory that lists it.
theorem blocks_owned_once_of_two_inodes : ∃ fs :
    Fs, bitmapGet (fs.cache.blocks (bitmapBlock mkfsSuperBlock)) 93 = true ∧
    Balanced (dataBlock mkfsSuperBlock) (refs mkfsSuperBlock (allocated mkfsSuperBlock fs) fs)
    (used mkfsSuperBlock fs.cache) := by
  obtain ⟨fs,ran,facts⟩ := Runs.some_such
    (x := Runs.execGuarded (next blankEnv) (Permitted mkfsSuperBlock) blankDisk
      [.alloc (some 0) inodeRegular,.alloc (some 0) inodeDirectory,.get 1#64,.get 2#64,.write (some 0) 1#64 [7#8,8#8] 0#64,
        .insert (some 0) 2#64 [97#8] 1#64,.share 1#64,.put (some 0) 1#64])
    (p := fun fs => bitmapGet (fs.cache.blocks (bitmapBlock mkfsSuperBlock)) 93) (by decide +kernel)
  have balanced := blocks_owned_once blank_image (Runs.exec_guarded .start ran)
  exact ⟨fs,facts,balanced⟩

end InodeLayer
