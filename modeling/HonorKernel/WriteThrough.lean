import HonorKernel.DirectoryScan

-- Which calls leave the entry of an inode in memory and in the inode table the same.
namespace InodeLayer
open DiskFormat CacheView

-- Dropping the structure and loading it again would change nothing.
def Synced (sb : SuperBlock) (fs : Fs) (p : Usize) : Prop := ∃ inode, fs.inodes p = some inode ∧ inode.entry = diskEntry sb fs.cache p

-- Neither the structure's entry nor the table's has changed.
def SameEntries (sb : SuperBlock) (p : Usize) (fs fs' : Fs) : Prop :=
  (∀ inode, fs.inodes p = some inode → ∃ inode', fs'.inodes p = some inode' ∧ inode'.entry = inode.entry) ∧
    diskEntry sb fs'.cache p = diskEntry sb fs.cache p

section Entries
variable {sb : SuperBlock} {p : Usize} {fs fs' fs'' : Fs} {inode : Inode}

theorem SameEntries.refl (sb : SuperBlock) (p : Usize) (fs : Fs) : SameEntries sb p fs fs := ⟨fun inode found => ⟨inode,found,rfl⟩,rfl⟩

theorem SameEntries.trans (first : SameEntries sb p fs fs') (second : SameEntries sb p fs' fs'') :
    SameEntries sb p fs fs'' := by
  refine ⟨?_,second.2.trans first.2⟩
  intro inode found
  obtain ⟨inode',found',same⟩ := first.1 inode found
  obtain ⟨inode'',found'',again⟩ := second.1 inode' found'
  exact ⟨inode'',found'',again.trans same⟩

theorem SameEntries.synced (same : SameEntries sb p fs fs') (synced : Synced sb fs p) : Synced sb fs' p := by
  obtain ⟨inode,found,entry⟩ := synced
  obtain ⟨inode',found',equal⟩ := same.1 inode found
  exact ⟨inode',found',by rw [equal,entry,same.2]⟩

theorem Synced.entry (synced : Synced sb fs p) (found : fs.inodes p = some inode) :
    inode.entry = diskEntry sb fs.cache p := by
  obtain ⟨other,there,entry⟩ := synced
  cases there.symm.trans found
  exact entry

theorem setInode_sameEntries (found : fs.inodes p = some inode) {inode' : Inode} (entry : inode'.entry = inode.entry) :
    SameEntries sb p fs (fs.setInode p inode') := by
  refine ⟨?_,rfl⟩
  intro other there
  cases there.symm.trans found
  exact ⟨inode',Function.update_self _ _ _,entry⟩

theorem inodeLock_sameEntries (ran : inodeLock p fs = .ok fs') : SameEntries sb p fs fs' := by
  obtain ⟨inode,lock,found,rfl⟩ := inodeLock_set ran
  exact setInode_sameEntries found rfl

theorem inodeUnlock_sameEntries (ran : inodeUnlock p fs = .ok fs') : SameEntries sb p fs fs' := by
  obtain ⟨inode,lock,found,rfl⟩ := inodeUnlock_set ran
  exact setInode_sameEntries found rfl

theorem put_sameEntries {live : Usize → Bool} (layout : Layout sb) (owned : Owned sb live fs)
    (found : fs.inodes p = some inode) {slot : Usize × Place} {b : Usize} (refers : refs sb live fs slot = some b)
    (ctx : Ctx) (d : BlockData) : SameEntries sb p fs (fs.setCache (fs.cache.put ctx b d)) := by
  refine ⟨fun other there => ⟨other,there,rfl⟩,?_⟩
  have inTable := owned.inTable p (owned.loaded p inode found).1
  have apart := (layout.apart inTable (owned.used_of_ref refers).1).1
  change getEntry ((fs.cache.put ctx b d).blocks _) p = _
  rw [View.put_blocks,Function.update_of_ne (Ne.symm apart)]
  rfl

theorem sync_synced {live : Usize → Bool} {env : Env} {ctx : Ctx} (owned : Owned env.sblock live fs)
    (found : fs.inodes p = some inode) (ran : inodeSync env ctx p true fs = .ok fs') : Synced env.sblock fs' p := by
  rw [inodeSync_write env owned found] at ran
  cases ran
  exact ⟨inode,found,(writeEntry_own _ _).symm⟩

end Entries

section Writing
variable {env : Env} {live : Usize → Bool} {p : Usize} {fs fs' : Fs} {inode : Inode} {op : Nat}

-- inode_map with a ctx changes nothing, or its last step is an inode_sync.
theorem mapDirect_syncs {i : Fin inodeNumDirect} {b : Usize} {modified : Bool} (layout : Layout env.sblock)
    (owned : Owned env.sblock live fs) (found : fs.inodes p = some inode)
    (ran : mapDirect env (some op) p i fs = .ok (b,modified,fs')) : Synced env.sblock fs' p ∨ fs' = fs := by
  simp only [mapDirect,Fs.inode_ok.mpr found] at ran
  change (if inode.entry.addrs i ≠ 0#32 then _ else _) = _ at ran
  split at ran
  · cases ran
    exact .inr rfl
  · rename_i absent
    rw [if_neg (by simp)] at ran
    obtain ⟨⟨c,v⟩,taken,ran⟩ := Runs.bind_ok.mp ran
    obtain ⟨last,synced,ran⟩ := Runs.bind_ok.mp ran
    cases ran
    have takes := cacheAlloc_takes owned.low taken
    obtain ⟨maps,_⟩ := takes.claim_direct layout owned found i (by simpa using absent)
    exact .inl (sync_synced maps.owned (Function.update_self _ _ _) synced)

theorem mapEntry_syncs {i : Nat} {b : Usize} {modified : Bool} (layout : Layout env.sblock)
    (owned : Owned env.sblock live fs) (found : fs.inodes p = some inode) (present : inode.entry.indirect ≠ 0#32)
    (ran : mapEntry env (some op) p (inode.entry.indirect.setWidth 64) i fs = .ok (b,modified,fs')) :
    Synced env.sblock fs' p ∨ fs' = fs ∧ getAddr (fs.cache.blocks (inode.entry.indirect.setWidth 64)) i ≠ 0#32 := by
  unfold mapEntry at ran
  split at ran
  · cases ran
  · rename_i small
    have small : i < inodeNumIndirect := by omega
    split at ran
    · rename_i mapped
      cases ran
      exact .inr ⟨rfl,mapped⟩
    · rename_i absent
      rw [if_neg (by simp)] at ran
      obtain ⟨⟨c,v⟩,taken,ran⟩ := Runs.bind_ok.mp ran
      obtain ⟨last,synced,ran⟩ := Runs.bind_ok.mp ran
      cases ran
      have takes := cacheAlloc_takes owned.low taken
      obtain ⟨maps,_⟩ := takes.claim_entry layout owned found present ⟨i,small⟩ (by simpa using absent)
      exact .inl (sync_synced maps.owned found synced)

theorem inodeMap_syncs {k : Nat} {b : Usize} {modified : Bool} (layout : Layout env.sblock)
    (owned : Owned env.sblock live fs) (found : fs.inodes p = some inode)
    (ran : inodeMap env (some op) p k fs = .ok (b,modified,fs')) : Synced env.sblock fs' p ∨ fs' = fs := by
  unfold inodeMap at ran
  split at ran
  · exact mapDirect_syncs layout owned found ran
  · obtain ⟨⟨ib,middle⟩,needed,ran⟩ := Runs.bind_ok.mp ran
    obtain ⟨maps,inode',found',present,rfl⟩ := needIndirect_maps layout owned found needed
    rcases mapEntry_syncs layout maps.owned found' present ran with synced | ⟨rfl,mapped⟩
    · exact .inl synced
    · -- A new indirect block is empty, so its entry cannot have been mapped.
      simp only [needIndirect,Fs.inode_ok.mpr found,bind,Except.bind] at needed
      split at needed
      · split at needed
        · cases needed
        · rename_i r taken
          obtain ⟨c,v⟩ := r
          have takes := cacheAlloc_takes owned.low taken
          simp only [Except.ok.injEq,Prod.mk.injEq] at needed
          obtain ⟨number,rfl⟩ := needed
          rw [← number,(dataBlock_narrow layout takes.inData).1] at mapped
          have empty : getAddr (v.blocks c) (k-inodeNumDirect) = 0#32 := by rw [takes.zero]; exact getAddr_zero _
          exact absurd empty mapped
      · simp only [Except.ok.injEq,Prod.mk.injEq] at needed
        exact .inr needed.2.symm

theorem writeLoop_syncs (layout : Layout env.sblock) (fuel : Nat) {offset : Nat} {src : List Byte}
    (owned : Owned env.sblock live fs) (found : fs.inodes p = some inode)
    (ran : writeLoop env (some op) p fuel offset src fs = .ok fs') :
    Synced env.sblock fs' p ∨ SameEntries env.sblock p fs fs' := by
  induction fuel generalizing offset src fs inode with
  | zero =>
    cases ran
    exact .inr (.refl _ _ _)
  | succ fuel ih =>
    simp only [writeLoop] at ran
    split at ran
    · cases ran
      exact .inr (.refl _ _ _)
    · obtain ⟨⟨b,flag,middle⟩,mapped,rest⟩ := Runs.bind_ok.mp ran
      simp only at rest
      split at rest
      · cases rest
      · rename_i nonzero
        obtain ⟨maps,small,refers⟩ := inodeMap_maps layout owned found mapped
        obtain ⟨addrs,indirect,found'⟩ := maps.found
        have works := (storeData layout maps.owned found' ⟨_,small⟩ (refers nonzero) (some op)
          (setBytes (middle.cache.blocks b) (offset%blockSize) (src.take (min (blockSize-offset%blockSize) src.length)))).1
        have stored := put_sameEntries layout maps.owned found' (refers nonzero) (some op)
          (setBytes (middle.cache.blocks b) (offset%blockSize) (src.take (min (blockSize-offset%blockSize) src.length)))
        rcases ih works.owned found' rest with synced | same
        · exact .inl synced
        · rcases inodeMap_syncs layout owned found mapped with synced | rfl
          · exact .inl ((stored.trans same).synced synced)
          · exact .inr (stored.trans same)

theorem growTo_syncs {last : Usize} (owned : Owned env.sblock live fs) (found : fs.inodes p = some inode)
    (ran : growTo env (some op) p inode last fs = .ok fs') : Synced env.sblock fs' p ∨ fs' = fs := by
  unfold growTo at ran
  split at ran
  · have longer : Works env.sblock live p fs (fs.setEntry p inode (inode.entry.setNumBytes (last.setWidth 32))) :=
      setInode_works owned found _ rfl rfl rfl rfl rfl rfl
    exact .inl (sync_synced longer.owned (Function.update_self _ _ _) ran)
  · cases ran
    exact .inr rfl

theorem inodeWrite_syncs {src : List Byte} {offset n : Usize} (layout : Layout env.sblock)
    (owned : Owned env.sblock live fs) (found : fs.inodes p = some inode)
    (ran : inodeWrite env (some op) p src offset fs = .ok (n,fs')) :
    Synced env.sblock fs' p ∨ SameEntries env.sblock p fs fs' := by
  obtain ⟨same,there,ran⟩ := Runs.bind_ok.mp ran
  cases (Fs.inode_ok.mp there).symm.trans found
  simp only at ran
  split at ran
  · split at ran
    · obtain ⟨middle,unlocked,ran⟩ := Runs.bind_ok.mp ran
      obtain ⟨last,locked,ran⟩ := Runs.bind_ok.mp ran
      cases ran
      exact .inr ((inodeUnlock_sameEntries unlocked).trans (inodeLock_sameEntries locked))
    · cases ran
  · split at ran
    · obtain ⟨middle,grown,ran⟩ := Runs.bind_ok.mp ran
      obtain ⟨last,looped,ran⟩ := Runs.bind_ok.mp ran
      cases ran
      have works := growTo_works layout owned found grown
      obtain ⟨inode',found',_⟩ := works.found inode found
      rcases writeLoop_syncs layout _ works.owned found' looped with synced | same
      · exact .inl synced
      · rcases growTo_syncs owned found grown with synced | rfl
        · exact .inl (same.synced synced)
        · exact .inr same
    · cases ran

end Writing

-- What a read behind the direct blocks leaves of an inode without indirect block: it has
-- one now, the table does not know it, and every byte reads as before.
structure Leaves (sb : SuperBlock) (live : Usize → Bool) (p : Usize) (inode : Inode) (fs fs' : Fs) : Prop where
  owned : Owned sb live fs'
  entry : ∃ b, b ≠ 0#32 ∧ fs'.inodes p = some {inode with entry := inode.entry.setIndirect b}
  disk : diskEntry sb fs'.cache p = diskEntry sb fs.cache p
  blocks : ∀ inode', fs'.inodes p = some inode' → ∀ k, fileBlock fs'.cache inode'.entry k = fileBlock fs.cache inode.entry k
  bytes : ∀ inode', fs'.inodes p = some inode' → ∀ x, readByte fs'.cache inode'.entry x = readByte fs.cache inode.entry x

section Reading
variable {env : Env} {live : Usize → Bool} {p : Usize} {fs fs' : Fs} {inode : Inode}

theorem readByte_congr {v v' : View} {e e' : InodeEntry} {x : Nat}
    (same : fileBlock v' e' (x/blockSize) = fileBlock v e (x/blockSize))
    (data : v'.blocks (readBlock v e (x/blockSize)) = v.blocks (readBlock v e (x/blockSize))) :
    readByte v' e' x = readByte v e x := by
  have block : readBlock v' e' (x/blockSize) = readBlock v e (x/blockSize) := by rw [readBlock,readBlock,same]
  rw [readByte,readByte,block,data]

theorem fileBlock_behind {v : View} {e : InodeEntry} {k : Nat} (beyond : ¬ k < inodeNumDirect)
    (absent : e.indirect = 0#32) : fileBlock v e k = none := by
  unfold fileBlock
  split
  · simp [Place.file,beyond,refsOf,absent]
  · rfl

theorem needIndirect_leaves {b : Usize} (layout : Layout env.sblock) (owned : Owned env.sblock live fs)
    (found : fs.inodes p = some inode) (absent : inode.entry.indirect = 0#32)
    (ran : needIndirect env none p fs = .ok (b,fs')) :
    Leaves env.sblock live p inode fs fs' ∧ ∀ i, getAddr (fs'.cache.blocks b) i = 0#32 := by
  have maps := (needIndirect_maps layout owned found ran).1
  simp only [needIndirect,Fs.inode_ok.mpr found,bind,Except.bind,if_pos absent] at ran
  cases taken : cacheAlloc env.sblock none fs.cache with
  | error fault => rw [taken] at ran; cases ran
  | ok r =>
    obtain ⟨c,v⟩ := r
    rw [taken] at ran
    cases ran
    have takes := cacheAlloc_takes owned.low taken
    obtain ⟨wide,nonzero⟩ := dataBlock_narrow layout takes.inData
    have alive := (owned.loaded p inode found).1
    have there : ((fs.setCache v).setEntry p inode (inode.entry.setIndirect (c.setWidth 32))).inodes p =
        some {inode with entry := inode.entry.setIndirect (c.setWidth 32)} := Function.update_self _ _ _
    have blocks : ∀ k, fileBlock v (inode.entry.setIndirect (c.setWidth 32)) k = fileBlock fs.cache inode.entry k := by
      intro k
      by_cases direct : k < inodeNumDirect
      · unfold fileBlock
        split
        · simp only [Place.file,direct,dite_true,refsOf]
          rfl
        · rfl
      · rw [fileBlock_behind direct absent]
        unfold fileBlock
        split
        · simp only [Place.file,direct,dite_false,refsOf]
          change (if c.setWidth 32 = 0#32 then none else reference (getAddr (v.blocks ((c.setWidth 32).setWidth 64)) _)) = none
          rw [if_neg nonzero,wide,takes.zero,getAddr_zero]
          rfl
        · rfl
    have kept : ∀ k, v.blocks (readBlock fs.cache inode.entry k) = fs.cache.blocks (readBlock fs.cache inode.entry k) := by
      intro k
      unfold readBlock
      cases mapped : fileBlock fs.cache inode.entry k with
      | none =>
        -- Block 0 is neither a data block nor the bitmap.
        have positive : 0 < env.sblock.bitmapStart.toNat := Nat.lt_of_le_of_lt (Nat.zero_le _) layout.table
        refine takes.others _ (Ne.symm (dataBlock_ne_zero takes.inData)) ?_
        intro same
        have number := congrArg BitVec.toNat same
        rw [bitmapBlock_toNat] at number
        simp only [Option.getD_none,BitVec.toNat_ofNat] at number
        omega
      | some d =>
        obtain ⟨_,refers⟩ := (fileBlock_iff owned found k d).mp mapped
        exact (takes.keeps owned refers).2
    refine ⟨⟨maps.owned,⟨_,nonzero,there⟩,?_,?_,?_⟩,?_⟩
    · change getEntry (v.blocks _) p = _
      rw [takes.table layout (owned.inTable p alive)]
      rfl
    · intro inode' found' k
      cases there.symm.trans found'
      exact blocks k
    · intro inode' found' x
      cases there.symm.trans found'
      exact readByte_congr (blocks _) (kept _)
    · intro i
      change getAddr (v.blocks ((c.setWidth 32).setWidth 64)) i = _
      rw [wide,takes.zero,getAddr_zero]

theorem readLoop_round {fuel offset left : Nat} {modified flag : Bool} {dest out : List Byte} (more : left ≠ 0)
    (ran : readLoop env p (fuel+1) offset left modified dest fs = .ok (out,flag,fs')) :
    ∃ b modified' middle sz, inodeMap env none p (offset/blockSize) fs = .ok (b,modified',middle) ∧ 0 < sz ∧
    sz ≤ left ∧ offset%blockSize+sz ≤ blockSize ∧
      (sz = left ∨ offset%blockSize+sz = blockSize) ∧
      readLoop env p fuel (offset+sz)
      (left-sz) modified' (dest++getBytes (middle.cache.blocks b) (offset%blockSize) sz) middle = .ok (out,flag,fs') := by
  unfold readLoop at ran
  rw [if_neg more] at ran
  obtain ⟨⟨b,modified',middle⟩,mapped,rest⟩ := Runs.bind_ok.mp ran
  refine ⟨b,modified',middle,_,mapped,?_,?_,?_,?_,rest⟩ <;>
    (unfold blockSize; split <;> omega)

theorem range_bytes (f : Nat → Byte) (offset : Nat) {sz left : Nat} (part : sz ≤ left) :
    ((List.range sz).map fun j => f (offset+j))++((List.range (left-sz)).map fun j => f (offset+sz+j)) =
        (List.range left).map fun j => f (offset+j) := by
  have parts : left = sz+(left-sz) := by omega
  conv => rhs; rw [parts]
  rw [List.range_add,List.map_append,List.map_map]
  congr 1
  refine List.map_congr_left ?_
  intro j _
  simp [Nat.add_assoc]

theorem inodeMap_bound {ctx : Ctx} {k : Nat} {r : Usize × Bool × Fs} (ran : inodeMap env ctx p k fs = .ok r) :
    k < inodeMaxBlocks := by
  have total : inodeMaxBlocks = inodeNumDirect+inodeNumIndirect := rfl
  unfold inodeMap at ran
  split at ran
  · omega
  · obtain ⟨⟨indirect,middle⟩,_,ran⟩ := Runs.bind_ok.mp ran
    by_contra large
    simp only [mapEntry,if_pos (show inodeNumIndirect ≤ k-inodeNumDirect by omega)] at ran
    cases ran

theorem readLoop_quiet (fuel : Nat) {offset left : Nat} {modified flag : Bool} {dest out : List Byte}
    (found : fs.inodes p = some inode) (enough : left ≤ fuel)
    (quiet : inode.entry.indirect ≠ 0#32 ∨ offset+left ≤ inodeNumDirect*blockSize)
    (ran : readLoop env p fuel offset left modified dest fs = .ok (out,flag,fs')) :
    fs' = fs ∧ out = dest++(List.range left).map fun j => readByte fs.cache inode.entry (offset+j) := by
  induction fuel generalizing offset left modified dest with
  | zero =>
    have none : left = 0 := by omega
    subst none
    cases ran
    exact ⟨rfl,by simp⟩
  | succ fuel ih =>
    by_cases more : left = 0
    · subst more
      simp only [readLoop,if_true,Except.ok.injEq,Prod.mk.injEq] at ran
      obtain ⟨rfl,_,rfl⟩ := ran
      exact ⟨rfl,by simp⟩
    · obtain ⟨b,modified',middle,sz,mapped,positive,part,inside,_,rest⟩ := readLoop_round more ran
      have reached : offset/blockSize < inodeNumDirect ∨ inode.entry.indirect ≠ 0#32 := by
        rcases quiet with present | short
        · exact .inr present
        · unfold inodeNumDirect blockSize at *
          exact .inl (by omega)
      rw [inodeMap_reader found (inodeMap_bound mapped) reached] at mapped
      simp only [Except.ok.injEq,Prod.mk.injEq] at mapped
      obtain ⟨rfl,_,rfl⟩ := mapped
      obtain ⟨same,bytes⟩ := ih (by omega) (quiet.imp id fun short => by omega) rest
      refine ⟨same,?_⟩
      rw [bytes,getBytes_read _ _ inside,List.append_assoc,range_bytes _ offset part]

-- Where it is missing, the round that gets behind the direct blocks takes one.
theorem readLoop_leaves (layout : Layout env.sblock) (fuel : Nat) {offset left : Nat} {modified flag : Bool}
    {dest out : List Byte} (owned : Owned env.sblock live fs) (found : fs.inodes p = some inode)
    (enough : left ≤ fuel) (absent : inode.entry.indirect = 0#32) (some_bytes : 0 < left)
    (behind : inodeNumDirect*blockSize < offset+left)
    (ran : readLoop env p fuel offset left modified dest fs = .ok (out,flag,fs')) :
    Leaves env.sblock live p inode fs fs' ∧
    out = dest++(List.range left).map fun j => readByte fs.cache inode.entry (offset+j) := by
  induction fuel generalizing offset left modified dest with
  | zero => omega
  | succ fuel ih =>
    obtain ⟨b,modified',middle,sz,mapped,positive,part,inside,last,rest⟩ := readLoop_round (by omega) ran
    by_cases direct : offset/blockSize < inodeNumDirect
    · rw [inodeMap_reader found (inodeMap_bound mapped) (.inl direct)] at mapped
      simp only [Except.ok.injEq,Prod.mk.injEq] at mapped
      obtain ⟨rfl,_,rfl⟩ := mapped
      have further : 0 < left-sz := by
        unfold inodeNumDirect blockSize at *
        omega
      obtain ⟨leaves,bytes⟩ := ih (by omega) further (by omega) rest
      refine ⟨leaves,?_⟩
      rw [bytes,getBytes_read _ _ inside,List.append_assoc,range_bytes _ offset part]
    · have bound := inodeMap_bound mapped
      unfold inodeMap at mapped
      rw [dif_neg direct] at mapped
      obtain ⟨⟨ib,taken⟩,needed,mapped⟩ := Runs.bind_ok.mp mapped
      obtain ⟨leaves,empty⟩ := needIndirect_leaves layout owned found absent needed
      have outside : ¬ inodeNumIndirect ≤ offset/blockSize-inodeNumDirect := by
        unfold inodeMaxBlocks at bound
        omega
      simp only [mapEntry,empty,if_neg outside,ne_eq,not_true_eq_false,if_false,if_true,Except.ok.injEq,Prod.mk.injEq] at mapped
      obtain ⟨rfl,_,rfl⟩ := mapped
      obtain ⟨c,nonzero,found'⟩ := leaves.entry
      obtain ⟨same,bytes⟩ := readLoop_quiet fuel found' (by omega) (.inl nonzero) rest
      refine ⟨same ▸ leaves,?_⟩
      -- The block that is read is block 0, as for any missing block.
      have hole : (0#64 : Usize) = readBlock taken.cache (inode.entry.setIndirect c) (offset/blockSize) := by
        rw [readBlock,leaves.blocks _ found',fileBlock_behind direct absent]
        rfl
      have bytesSame : ∀ x, readByte taken.cache (inode.entry.setIndirect c) x = readByte fs.cache inode.entry x :=
          leaves.bytes _ found'
      rw [bytes,hole,getBytes_read _ _ inside,List.append_assoc,range_bytes _ offset part]
      simp only [bytesSame]

-- inode_read(offset, count) needs a block number from an indirect block that is missing.
def readsBehind (e : InodeEntry) (offset count : Usize) : Prop :=
  e.indirect = 0#32 ∧ 0 < (readCount (e.numBytes.setWidth 64) offset count).toNat ∧
    inodeNumDirect*blockSize < offset.toNat+(readCount (e.numBytes.setWidth 64) offset count).toNat

theorem inodeRead_parts {offset count n : Usize} {bytes : List Byte} (layout : Layout env.sblock)
    (owned : Owned env.sblock live fs) (found : fs.inodes p = some inode) (file : inode.entry.type ≠ inodeDevice)
    (ran : inodeRead env p offset count fs = .ok (n,bytes,fs')) :
    offset.toNat ≤ inode.entry.numBytes.toNat ∧
    bytes = (List.range (readCount (inode.entry.numBytes.setWidth 64) offset count).toNat).map
        (fun j => readByte fs.cache inode.entry (offset.toNat+j)) ∧
    (¬ readsBehind inode.entry offset count ∧ fs' = fs ∨ readsBehind inode.entry offset count ∧
    Leaves env.sblock live p inode fs fs') := by
  obtain ⟨same,there,ran⟩ := Runs.bind_ok.mp ran
  cases (Fs.inode_ok.mp there).symm.trans found
  simp only [if_neg file] at ran
  split at ran
  · rename_i asserted
    obtain ⟨⟨out,flag,last⟩,looped,ran⟩ := Runs.bind_ok.mp ran
    simp only at ran
    split at ran
    · cases ran
    · cases ran
      have starts := asserted.1
      rw [BitVec.le_def,BitVec.toNat_setWidth,Nat.mod_eq_of_lt (by omega)] at starts
      refine ⟨starts,?_⟩
      by_cases behind : readsBehind inode.entry offset count
      · obtain ⟨leaves,bytes⟩ := readLoop_leaves layout _ owned found (Nat.le_refl _) behind.1 behind.2.1 behind.2.2 looped
        exact ⟨bytes,.inr ⟨behind,leaves⟩⟩
      · by_cases some_bytes : 0 < (readCount (inode.entry.numBytes.setWidth 64) offset count).toNat
        · have quiet : inode.entry.indirect ≠ 0#32 ∨
              offset.toNat+(readCount (inode.entry.numBytes.setWidth 64) offset count).toNat ≤ inodeNumDirect*blockSize := by
            by_contra neither
            rw [not_or,not_not] at neither
            exact behind ⟨neither.1,some_bytes,by omega⟩
          obtain ⟨rfl,bytes⟩ := readLoop_quiet _ found (Nat.le_refl _) quiet looped
          exact ⟨bytes,.inl ⟨behind,rfl⟩⟩
        · have none : (readCount (inode.entry.numBytes.setWidth 64) offset count).toNat = 0 := by omega
          rw [none] at looped ⊢
          cases looped
          exact ⟨rfl,.inl ⟨behind,rfl⟩⟩
  · cases ran

theorem inodeRead_slot_parts {i n : Usize} {bytes : List Byte} (layout : Layout env.sblock)
    (owned : Owned env.sblock live fs) (found : fs.inodes p = some inode)
    (directory : inode.entry.type = inodeDirectory)
    (ran : inodeRead env p i (BitVec.ofNat 64 dirEntrySize) fs = .ok (n,bytes,fs')) (dir : DirEntry) :
    setBytes dir 0 bytes = readSlot fs.cache inode.entry i.toNat dir ∧
    (¬ readsBehind inode.entry i (BitVec.ofNat 64 dirEntrySize) ∧ fs' = fs ∨
      readsBehind inode.entry i (BitVec.ofNat 64 dirEntrySize) ∧ Leaves env.sblock live p inode fs fs') := by
  obtain ⟨starts,bytes,after⟩ := inodeRead_parts layout owned found (directory_file directory) ran
  have size : dirEntrySize = 16 := rfl
  have count : (BitVec.ofNat 64 dirEntrySize).toNat = dirEntrySize := rfl
  have counted := readCount_toNat inode.entry.numBytes i (BitVec.ofNat 64 dirEntrySize) starts (by omega)
  refine ⟨?_,after⟩
  rw [bytes,counted,count]
  rfl

theorem slot_behind {e : InodeEntry} {i : Nat} (aligned : i%dirEntrySize = 0) (inside : i < e.numBytes.toNat) :
    readsBehind e (BitVec.ofNat 64 i) (BitVec.ofNat 64 dirEntrySize) ↔ e.indirect = 0#32 ∧
    inodeNumDirect*blockSize ≤ i := by
  have size : dirEntrySize = 16 := rfl
  have count : (BitVec.ofNat 64 dirEntrySize).toNat = dirEntrySize := rfl
  have position : (BitVec.ofNat 64 i).toNat = i := by
    rw [BitVec.toNat_ofNat,Nat.mod_eq_of_lt (by omega)]
  have counted := readCount_toNat e.numBytes (BitVec.ofNat 64 i) (BitVec.ofNat 64 dirEntrySize) (by omega) (by omega)
  unfold readsBehind
  rw [size] at aligned
  rw [counted,count,position]
  unfold inodeNumDirect blockSize
  constructor
  · rintro ⟨absent,_,_⟩
    exact ⟨absent,by omega⟩
  · rintro ⟨absent,_⟩
    exact ⟨absent,by omega,by omega⟩

end Reading

section Scanning
variable {env : Env} {live : Usize → Bool} {p : Usize} {fs fs' : Fs} {inode : Inode} {stop : DirEntry → Bool}

theorem walk_congr {v v' : View} {e e' : InodeEntry} (size : e'.numBytes = e.numBytes)
    (bytes : ∀ x, readByte v' e' x = readByte v e x) (stop : DirEntry → Bool) (fuel i : Nat) (dir : DirEntry) :
    walk v' e' stop fuel i dir = walk v e stop fuel i dir := by
  have slot : ∀ i dir, readSlot v' e' i dir = readSlot v e i dir := by
    intro i dir
    simp only [readSlot,size,bytes]
  induction fuel generalizing i dir with
  | zero => rfl
  | succ fuel ih => simp only [walk,size,slot,ih]

theorem walk_start_le (v : View) (e : InodeEntry) (stop : DirEntry → Bool) (fuel i : Nat) (dir : DirEntry) :
    i ≤ (walk v e stop fuel i dir).1 := by
  induction fuel generalizing i dir with
  | zero => exact Nat.le_refl _
  | succ fuel ih =>
    unfold walk
    split
    · split
      · exact Nat.le_refl _
      · exact Nat.le_trans (Nat.le_add_right _ _) (ih _ _)
    · exact Nat.le_refl _

theorem walk_aligned (v : View) (e : InodeEntry) (stop : DirEntry → Bool) (fuel i : Nat) (dir : DirEntry)
    (start : i%dirEntrySize = 0) :
    (walk v e stop fuel i dir).1%dirEntrySize = 0 := by
  induction fuel generalizing i dir with
  | zero => exact start
  | succ fuel ih =>
    unfold walk
    split
    · split
      · exact start
      · exact ih _ _ (by rw [Nat.add_mod_right]; exact start)
    · exact start

-- The walk has read an entry behind the direct blocks, and no indirect block is there.
def walksBehind (e : InodeEntry) (reached : Nat × Bool × DirEntry) : Prop :=
  e.indirect = 0#32 ∧ inodeNumDirect*blockSize < reached.1+if reached.2.1 then dirEntrySize else 0

theorem scanDir_quiet (layout : Layout env.sblock) (owned : Owned env.sblock live fs)
    (found : fs.inodes p = some inode) (directory : inode.entry.type = inodeDirectory)
    (present : inode.entry.indirect ≠ 0#32) (fuel : Nat) {i : Nat} {dir : DirEntry} {r : Nat × Bool × DirEntry × Fs}
    (ran : scanDir env p stop fuel i dir fs = .ok r) :
    (r.1,r.2.1,r.2.2.1) = walk fs.cache inode.entry stop fuel i dir ∧ r.2.2.2 = fs := by
  induction fuel generalizing i dir with
  | zero =>
    cases ran
    exact ⟨rfl,rfl⟩
  | succ fuel ih =>
    simp only [scanDir,Fs.inode_ok.mpr found,bind,Except.bind] at ran
    unfold walk
    by_cases more : i < inode.entry.numBytes.toNat
    · rw [if_pos more] at ran ⊢
      split at ran
      · cases ran
      · rename_i got read
        obtain ⟨n,bytes,middle⟩ := got
        obtain ⟨slot,⟨_,rfl⟩ | ⟨behind,_⟩⟩ := inodeRead_slot_parts layout owned found directory read dir
        · have position : (BitVec.ofNat 64 i).toNat = i := by
            rw [BitVec.toNat_ofNat,Nat.mod_eq_of_lt (by omega)]
          rw [position] at slot
          simp only [slot] at ran
          split at ran
          · rename_i here
            cases ran
            rw [if_pos here]
            exact ⟨rfl,rfl⟩
          · rename_i going
            rw [if_neg going]
            exact ih ran
        · exact absurd behind.1 present
    · rw [if_neg more] at ran ⊢
      cases ran
      exact ⟨rfl,rfl⟩

theorem Leaves.directory (leaves : Leaves env.sblock live p inode fs fs')
    (directory : inode.entry.type = inodeDirectory) :
    ∃ inode', fs'.inodes p = some inode' ∧ inode'.entry.type = inodeDirectory ∧ inode'.entry.indirect ≠ 0#32 ∧
    inode'.entry.numBytes = inode.entry.numBytes := by
  obtain ⟨b,nonzero,found'⟩ := leaves.entry
  exact ⟨_,found',directory,nonzero,rfl⟩

theorem scanDir_parts (layout : Layout env.sblock) (owned : Owned env.sblock live fs)
    (found : fs.inodes p = some inode) (directory : inode.entry.type = inodeDirectory) (fuel : Nat) {i : Nat}
    {dir : DirEntry} {r : Nat × Bool × DirEntry × Fs} (aligned : i%dirEntrySize = 0)
    (low : inode.entry.indirect = 0#32 → i ≤ inodeNumDirect*blockSize)
    (ran : scanDir env p stop fuel i dir fs = .ok r) :
    (r.1,r.2.1,r.2.2.1) = walk fs.cache inode.entry stop fuel i dir ∧
    (¬ walksBehind inode.entry (walk fs.cache inode.entry stop fuel i dir) ∧ r.2.2.2 = fs ∨
      walksBehind inode.entry (walk fs.cache inode.entry stop fuel i dir) ∧
      Leaves env.sblock live p inode fs r.2.2.2) := by
  have size : dirEntrySize = 16 := rfl
  have limit : inodeNumDirect*blockSize = 6144 := rfl
  -- A walk that ends here has read nothing behind the direct blocks.
  have ends : ∀ dir, ¬ walksBehind inode.entry (i,false,dir) := by
    rintro dir ⟨absent,reached⟩
    have below := low absent
    simp only [Bool.false_eq_true,if_false] at reached
    omega
  induction fuel generalizing i dir with
  | zero =>
    cases ran
    exact ⟨rfl,.inl ⟨ends dir,rfl⟩⟩
  | succ fuel ih =>
    simp only [scanDir,Fs.inode_ok.mpr found,bind,Except.bind] at ran
    unfold walk
    by_cases more : i < inode.entry.numBytes.toNat
    · rw [if_pos more] at ran ⊢
      split at ran
      · cases ran
      · rename_i got read
        obtain ⟨n,bytes,middle⟩ := got
        obtain ⟨slot,after⟩ := inodeRead_slot_parts layout owned found directory read dir
        have position : (BitVec.ofNat 64 i).toNat = i := by
          rw [BitVec.toNat_ofNat,Nat.mod_eq_of_lt (by omega)]
        rw [position] at slot
        rw [slot_behind aligned more] at after
        simp only [slot] at ran
        split at ran
        · rename_i here
          cases ran
          rw [if_pos here]
          refine ⟨rfl,after.imp ?_ ?_⟩
          · rintro ⟨near,same⟩
            refine ⟨?_,same⟩
            rintro ⟨absent,reached⟩
            simp only [if_true] at reached
            rw [size] at aligned
            exact near ⟨absent,by omega⟩
          · rintro ⟨⟨absent,far⟩,leaves⟩
            refine ⟨⟨absent,?_⟩,leaves⟩
            simp only [if_true]
            omega
        · rename_i going
          rw [if_neg going]
          rcases after with ⟨near,rfl⟩ | ⟨⟨absent,far⟩,leaves⟩
          · have next : inode.entry.indirect = 0#32 → i+dirEntrySize ≤ inodeNumDirect*blockSize := by
              intro absent
              rw [size] at aligned
              have below : ¬ inodeNumDirect*blockSize ≤ i := fun far => near ⟨absent,far⟩
              omega
            refine ih (by rw [Nat.add_mod_right]; exact aligned) next ran ?_
            rintro dir ⟨absent,reached⟩
            have below := next absent
            simp only [Bool.false_eq_true,if_false] at reached
            omega
          · obtain ⟨inode',found',directory',present,numBytes⟩ := leaves.directory directory
            obtain ⟨walked,same⟩ := scanDir_quiet layout leaves.owned found' directory' present fuel ran
            have moved := walk_congr numBytes (leaves.bytes _ found') stop fuel (i+dirEntrySize) (readSlot fs.cache inode.entry i dir)
            rw [moved] at walked
            have further := walk_start_le fs.cache inode.entry stop fuel (i+dirEntrySize) (readSlot fs.cache inode.entry i dir)
            refine ⟨walked,.inr ⟨⟨absent,?_⟩,same ▸ leaves⟩⟩
            omega
    · rw [if_neg more] at ran ⊢
      cases ran
      exact ⟨rfl,.inl ⟨ends dir,rfl⟩⟩

theorem scan_parts (layout : Layout env.sblock) (owned : Owned env.sblock live fs) (found : fs.inodes p = some inode)
    {i : Nat} {stopped : Bool} {dir : DirEntry} (ran : scan env p stop fs = .ok (i,stopped,dir,fs')) :
    inode.entry.type = inodeDirectory ∧ (i,stopped,dir) = walkAll env fs.cache inode.entry stop ∧
    (¬ walksBehind inode.entry (walkAll env fs.cache inode.entry stop) ∧ fs' = fs ∨
      walksBehind inode.entry (walkAll env fs.cache inode.entry stop) ∧ Leaves env.sblock live p inode fs fs') := by
  obtain ⟨same,there,ran⟩ := Runs.bind_ok.mp ran
  cases (Fs.inode_ok.mp there).symm.trans found
  split at ran
  · rename_i directory
    exact ⟨directory,scanDir_parts layout owned found directory _ (Nat.zero_mod _) (fun _ => Nat.zero_le _) ran⟩
  · cases ran

theorem inodeLookup_parts (layout : Layout env.sblock) (owned : Owned env.sblock live fs)
    (found : fs.inodes p = some inode) {name : List Byte} {no : Usize} {index : Option Usize}
    (ran : inodeLookup env p name fs = .ok (no,index,fs')) :
    inode.entry.type = inodeDirectory ∧ (no ≠ 0#64 ↔ (walkAll env fs.cache inode.entry (named name)).2.1 = true) ∧
    (¬ walksBehind inode.entry (walkAll env fs.cache inode.entry (named name)) ∧ fs' = fs ∨
      walksBehind inode.entry (walkAll env fs.cache inode.entry (named name)) ∧
      Leaves env.sblock live p inode fs fs') := by
  obtain ⟨⟨i,stopped,dir,last⟩,scanned,ran⟩ := Runs.bind_ok.mp ran
  change scan env p (named name) fs = _ at scanned
  obtain ⟨directory,walked,after⟩ := scan_parts layout owned found scanned
  have stops : (walkAll env fs.cache inode.entry (named name)).2.1 = stopped := by rw [← walked]
  have entry : (walkAll env fs.cache inode.entry (named name)).2.2 = dir := by rw [← walked]
  simp only [Except.ok.injEq] at ran
  rw [stops]
  split at ran
  · rename_i there
    cases ran
    have nonzero : dir.inodeNo.setWidth 64 ≠ 0#64 := by
      rw [← entry]
      exact named_nonzero (walkAll_stopped _ _ _ (by rw [stops]; exact there))
    exact ⟨directory,⟨fun _ => there,fun _ => nonzero⟩,after⟩
  · rename_i missing
    cases ran
    exact ⟨directory,⟨fun impossible => absurd rfl impossible,fun there => absurd there missing⟩,after⟩

theorem inodeInsert_parts (layout : Layout env.sblock) (owned : Owned env.sblock live fs)
    (found : fs.inodes p = some inode) {ctx : Ctx} {name : List Byte} {no r : Usize}
    (ran : inodeInsert env ctx p name no fs = .ok (r,fs')) : inode.entry.type = inodeDirectory ∧
    ((walkAll env fs.cache inode.entry (named name)).2.1 = true ∧
      (¬ walksBehind inode.entry (walkAll env fs.cache inode.entry (named name)) ∧ fs' = fs ∨
        walksBehind inode.entry (walkAll env fs.cache inode.entry (named name)) ∧
        Leaves env.sblock live p inode fs fs') ∨
    (walkAll env fs.cache inode.entry (named name)).2.1 = false ∧ ∃ (dir : DirEntry) (n : Usize) (middle : Fs),
      inodeWrite env ctx p dir.bytes (BitVec.ofNat 64 (newSlot env fs.cache inode.entry)) middle = .ok (n,fs') ∧
      (¬ walksBehind inode.entry (walkAll env fs.cache inode.entry (named name)) ∧
      ¬ walksBehind inode.entry (walkAll env fs.cache inode.entry unused) ∧ middle = fs ∨
        (walksBehind inode.entry (walkAll env fs.cache inode.entry (named name)) ∨
        walksBehind inode.entry (walkAll env fs.cache inode.entry unused)) ∧
          Leaves env.sblock live p inode fs middle)) := by
  obtain ⟨⟨existing,index,one⟩,looked,ran⟩ := Runs.bind_ok.mp ran
  obtain ⟨directory,bound,after⟩ := inodeLookup_parts layout owned found looked
  refine ⟨directory,?_⟩
  simp only at ran
  split at ran
  · rename_i there
    cases ran
    exact .inl ⟨bound.mp there,after⟩
  · rename_i missing
    obtain ⟨⟨i,stopped,dir,two⟩,scanned,ran⟩ := Runs.bind_ok.mp ran
    obtain ⟨⟨n,last⟩,written,ran⟩ := Runs.bind_ok.mp ran
    cases ran
    change scan env p unused one = _ at scanned
    have unbound : (walkAll env fs.cache inode.entry (named name)).2.1 = false := by
      rw [← Bool.not_eq_true,← bound]
      exact missing
    refine .inr ⟨unbound,(dir.setName (strncpy name fileNameMaxLength)).setInodeNo (no.setWidth 16),n,two,?_⟩
    rcases after with ⟨near,rfl⟩ | ⟨far,leaves⟩
    · obtain ⟨_,walked,again⟩ := scan_parts layout owned found scanned
      have slot : i = newSlot env one.cache inode.entry := congrArg Prod.fst walked
      subst slot
      refine ⟨written,again.imp ?_ ?_⟩
      · rintro ⟨close,same⟩
        exact ⟨near,close,same⟩
      · rintro ⟨far,leaves⟩
        exact ⟨.inr far,leaves⟩
    · -- The first walk has left an indirect block, so the second one changes nothing.
      obtain ⟨inode',found',_,present,numBytes⟩ := leaves.directory directory
      obtain ⟨_,walked,again⟩ := scan_parts layout leaves.owned found' scanned
      have moved : walkAll env one.cache inode'.entry unused = walkAll env fs.cache inode.entry unused := by
        unfold walkAll
        rw [numBytes]
        exact walk_congr numBytes (leaves.bytes _ found') _ _ _ _
      rw [moved] at walked
      have slot : i = newSlot env fs.cache inode.entry := congrArg Prod.fst walked
      subst slot
      rcases again with ⟨_,rfl⟩ | ⟨⟨absent,_⟩,_⟩
      · exact ⟨written,.inr ⟨.inl far,leaves⟩⟩
      · exact absurd absent present

end Scanning

section Slots
variable {env : Env} {live : Usize → Bool} {p : Usize} {fs fs' : Fs} {inode : Inode} {op : Nat}

theorem Leaves.unsynced (leaves : Leaves env.sblock live p inode fs fs') (absent : inode.entry.indirect = 0#32)
    (synced : Synced env.sblock fs p) (found : fs.inodes p = some inode) : ¬ Synced env.sblock fs' p := by
  intro again
  obtain ⟨b,nonzero,found'⟩ := leaves.entry
  have entry := again.entry found'
  rw [leaves.disk,← synced.entry found] at entry
  have indirect := congrArg InodeEntry.indirect entry
  exact nonzero (indirect.trans absent)

theorem SameEntries.unsynced {sb : SuperBlock} (same : SameEntries sb p fs fs') (found : fs.inodes p = some inode)
    (unsynced : ¬ Synced sb fs p) :
    ¬ Synced sb fs' p := by
  intro synced
  obtain ⟨inode',found',entry⟩ := same.1 inode found
  refine unsynced ⟨inode,found,?_⟩
  rw [← entry,← same.2]
  exact synced.entry found'

-- Writing one entry to an inode that is not in step with the table: it is afterwards if
-- the file grows or the entry's block is new.
theorem writeSlot_syncs (layout : Layout env.sblock) (owned : Owned env.sblock live fs)
    (found : fs.inodes p = some inode) (directory : inode.entry.type = inodeDirectory)
    (unsynced : ¬ Synced env.sblock fs p) {dir : DirEntry} {i : Nat} {n : Usize} (aligned : i%dirEntrySize = 0)
    (small : i < 2^63) (ran : inodeWrite env (some op) p dir.bytes (BitVec.ofNat 64 i) fs = .ok (n,fs')) :
    Synced env.sblock fs' p ↔ inode.entry.numBytes.toNat < i+dirEntrySize ∨
    fileBlock fs.cache inode.entry (i/blockSize) = none := by
  have size : dirEntrySize = 16 := rfl
  have length := dir.bytes_length
  have position : (BitVec.ofNat 64 i).toNat = i := by
    rw [BitVec.toNat_ofNat,Nat.mod_eq_of_lt (by omega)]
  have ends : (BitVec.ofNat 64 i+BitVec.ofNat 64 dir.bytes.length).toNat = i+dirEntrySize := by
    rw [length,BitVec.toNat_add,position,BitVec.toNat_ofNat]
    omega
  obtain ⟨same,there,ran⟩ := Runs.bind_ok.mp ran
  cases (Fs.inode_ok.mp there).symm.trans found
  simp only [if_neg (directory_file directory)] at ran
  split at ran
  · obtain ⟨middle,grown,ran⟩ := Runs.bind_ok.mp ran
    obtain ⟨last,looped,ran⟩ := Runs.bind_ok.mp ran
    cases ran
    by_cases grows : inode.entry.numBytes.toNat < i+dirEntrySize
    · have longer : inode.entry.numBytes.setWidth 64 < BitVec.ofNat 64 i+BitVec.ofNat 64 dir.bytes.length := by
        rw [BitVec.lt_def,ends,BitVec.toNat_setWidth,Nat.mod_eq_of_lt (by omega)]
        exact grows
      have works := growTo_works layout owned found grown
      obtain ⟨inode',found',_⟩ := works.found inode found
      have now : Synced env.sblock middle p := by
        unfold growTo at grown
        rw [if_pos longer] at grown
        have set : Works env.sblock live p fs
            (fs.setEntry p inode (inode.entry.setNumBytes
            ((BitVec.ofNat 64 i+BitVec.ofNat 64 dir.bytes.length).setWidth 32))) :=
          setInode_works owned found _ rfl rfl rfl rfl rfl rfl
        exact sync_synced set.owned (Function.update_self _ _ _) grown
      refine ⟨fun _ => .inl grows,fun _ => ?_⟩
      rcases writeLoop_syncs layout _ works.owned found' looped with synced | same
      · exact synced
      · exact same.synced now
    · have shorter : ¬ inode.entry.numBytes.setWidth 64 < BitVec.ofNat 64 i+BitVec.ofNat 64 dir.bytes.length := by
        rw [BitVec.lt_def,ends,BitVec.toNat_setWidth,Nat.mod_eq_of_lt (by omega)]
        exact grows
      unfold growTo at grown
      rw [if_neg shorter] at grown
      cases grown
      -- An entry lies in one block, so the loop makes one round.
      obtain ⟨fuel,rounds⟩ : ∃ fuel, dir.bytes.length = fuel+1 := ⟨15,by omega⟩
      have within : min (blockSize-i%blockSize) dir.bytes.length = dir.bytes.length := by
        rw [size] at aligned
        unfold blockSize
        omega
      have some_bytes : dir.bytes ≠ [] := by
        intro empty
        rw [empty,List.length_nil] at rounds
        cases rounds
      rw [rounds,position] at looped
      simp only [writeLoop,if_neg some_bytes] at looped
      obtain ⟨⟨b,flag,mapped⟩,mapping,rest⟩ := Runs.bind_ok.mp looped
      simp only at rest
      split at rest
      · cases rest
      · rename_i nonzero
        rw [within,List.drop_length] at rest
        have ended : fs' = mapped.setCache
            (mapped.cache.put (some op) b (setBytes (mapped.cache.blocks b) (i%blockSize)
            (dir.bytes.take dir.bytes.length))) := by
          cases fuel with
          | zero => cases rest; rfl
          | succ fuel => simp only [writeLoop,if_true,Except.ok.injEq] at rest; exact rest.symm
        obtain ⟨maps,inside,refers⟩ := inodeMap_maps layout owned found mapping
        obtain ⟨addrs,indirect,found'⟩ := maps.found
        have stored := put_sameEntries layout maps.owned found' (refers nonzero) (some op)
          (setBytes (mapped.cache.blocks b) (i%blockSize) (dir.bytes.take dir.bytes.length))
        rw [← ended] at stored
        rcases inodeMap_syncs layout owned found mapping with synced | rfl
        · refine ⟨fun _ => .inr ?_,fun _ => stored.synced synced⟩
          by_contra there
          obtain ⟨c,there⟩ := Option.ne_none_iff_exists'.mp there
          rw [fileBlock_mapped found there] at mapping
          cases mapping
          exact unsynced synced
        · have there : fileBlock mapped.cache inode.entry (i/blockSize) ≠ none := by
            have mapped := (fileBlock_iff owned found (i/blockSize) b).mpr ⟨inside,refers nonzero⟩
            rw [mapped]
            simp
          refine ⟨fun synced => absurd synced (stored.unsynced found unsynced),?_⟩
          rintro (grown | missing)
          · exact absurd grown grows
          · exact absurd missing there
  · cases ran

-- inode_remove of an entry in use takes 16 bytes off the size in memory, and nothing else
-- writes the table behind it.
theorem inodeRemove_parts (layout : Layout env.sblock) (owned : Owned env.sblock live fs)
    (found : fs.inodes p = some inode) (synced : Synced env.sblock fs p) {index : Usize}
    (ran : inodeRemove env (some op) p index fs = .ok fs') :
    (readSlot fs.cache inode.entry index.toNat env.stack).inodeNo = 0#16 ∧
      (¬ readsBehind inode.entry index (BitVec.ofNat 64 dirEntrySize) ∧ fs' = fs ∨
        readsBehind inode.entry index (BitVec.ofNat 64 dirEntrySize) ∧ Leaves env.sblock live p inode fs fs') ∨
    (readSlot fs.cache inode.entry index.toNat env.stack).inodeNo ≠ 0#16 ∧ ¬ Synced env.sblock fs' p := by
  obtain ⟨same,there,ran⟩ := Runs.bind_ok.mp ran
  cases (Fs.inode_ok.mp there).symm.trans found
  simp only at ran
  split at ran
  · rename_i asserted
    obtain ⟨⟨n,bytes,one⟩,read,ran⟩ := Runs.bind_ok.mp ran
    obtain ⟨slot,after⟩ := inodeRead_slot_parts layout owned found asserted.1 read env.stack
    simp only [slot] at ran
    split at ran
    · rename_i empty
      cases ran
      exact .inl ⟨empty,after⟩
    · rename_i used
      refine .inr ⟨used,?_⟩
      obtain ⟨⟨n',bytes',two⟩,again,ran⟩ := Runs.bind_ok.mp ran
      obtain ⟨⟨count,three⟩,written,ran⟩ := Runs.bind_ok.mp ran
      obtain ⟨inode₃,found₃,ran⟩ := Runs.bind_ok.mp ran
      cases ran
      have found₃ := Fs.inode_ok.mp found₃
      -- The sizes agree up to the subtraction.
      have first : ∃ inode₁, one.inodes p = some inode₁ ∧ Owned env.sblock live one ∧ inode₁.entry.type = inodeDirectory ∧
          inode₁.entry.numBytes = (diskEntry env.sblock one.cache p).numBytes := by
        rcases after with ⟨_,rfl⟩ | ⟨_,leaves⟩
        · exact ⟨inode,found,owned,asserted.1,congrArg InodeEntry.numBytes (synced.entry found)⟩
        · obtain ⟨inode₁,found₁,directory,_,size⟩ := leaves.directory asserted.1
          exact ⟨inode₁,found₁,leaves.owned,directory,by rw [size,leaves.disk,← synced.entry found]⟩
      obtain ⟨inode₁,found₁,owned₁,directory₁,size₁⟩ := first
      have second : ∃ inode₂, two.inodes p = some inode₂ ∧ Owned env.sblock live two ∧ inode₂.entry.numBytes =
          (diskEntry env.sblock two.cache p).numBytes := by
        obtain ⟨_,⟨_,rfl⟩ | ⟨_,leaves⟩⟩ := inodeRead_slot_parts layout owned₁ found₁ directory₁ again env.stack
        · exact ⟨inode₁,found₁,owned₁,size₁⟩
        · obtain ⟨inode₂,found₂,_,_,size⟩ := leaves.directory directory₁
          exact ⟨inode₂,found₂,leaves.owned,by rw [size,leaves.disk,size₁]⟩
      obtain ⟨inode₂,found₂,owned₂,size₂⟩ := second
      have third : inode₃.entry.numBytes = (diskEntry env.sblock three.cache p).numBytes := by
        rcases inodeWrite_syncs layout owned₂ found₂ written with synced | same
        · exact congrArg InodeEntry.numBytes (synced.entry found₃)
        · obtain ⟨other,there,entry⟩ := same.1 inode₂ found₂
          cases there.symm.trans found₃
          rw [entry,same.2,size₂]
      rintro ⟨other,held,entry⟩
      simp only [Fs.setEntry,Fs.setInode,Function.update_self,Option.some.injEq] at held
      subst held
      have shorter := congrArg (fun e : InodeEntry => e.numBytes.toNat) entry
      change (inode₃.entry.numBytes-BitVec.ofNat 32 dirEntrySize).toNat =
          (diskEntry env.sblock three.cache p).numBytes.toNat at shorter
      rw [← third,BitVec.toNat_sub] at shorter
      have size : (BitVec.ofNat 32 dirEntrySize).toNat = 16 := rfl
      have bound := inode₃.entry.numBytes.isLt
      omega
  · cases ran

-- The calls on inode `p` in question; a writing one has a running ctx.
inductive OneCall where
  | read (offset count : Usize)
  | write (op : Nat) (src : List Byte) (offset : Usize)
  | insert (op : Nat) (name : List Byte) (inodeNo : Usize)
  | remove (op : Nat) (index : Usize)
  | clear (op : Nat)

def OneCall.on (p : Usize) : OneCall → Call
  | .read offset count => .read p offset count
  | .write op src offset => .write (some op) p src offset
  | .insert op name inodeNo => .insert (some op) p name inodeNo
  | .remove op index => .remove (some op) p index
  | .clear op => .clear (some op) p

-- A read stays clear of a missing indirect block. So do the walks of inode_insert, or the
-- entry it writes makes the file longer or fills a hole; inode_remove finds the entry unused.
def WritesThrough (env : Env) (v : View) (e : InodeEntry) : OneCall → Prop
  | .read offset count => e.type = inodeDevice ∨ ¬ readsBehind e offset count
  | .write _ _ _ | .clear _ => True
  | .insert _ name _ => ¬ walksBehind e (walkAll env v e (named name)) ∧ ((walkAll env v e (named name)).2.1 = true ∨ ¬ walksBehind e (walkAll env v e unused)) ∨
      (walkAll env v e (named name)).2.1 = false ∧ (e.numBytes.toNat < newSlot env v e+dirEntrySize ∨ fileBlock v e
          (newSlot env v e/blockSize) = none)
  | .remove _ index => (readSlot v e index.toNat env.stack).inodeNo = 0#16 ∧ ¬ readsBehind e index (BitVec.ofNat 64 dirEntrySize)

theorem inodeRead_through {offset count n : Usize} {bytes : List Byte} (layout : Layout env.sblock)
    (owned : Owned env.sblock live fs) (found : fs.inodes p = some inode) (synced : Synced env.sblock fs p)
    (ran : inodeRead env p offset count fs = .ok (n,bytes,fs')) :
    Synced env.sblock fs' p ↔ inode.entry.type = inodeDevice ∨ ¬ readsBehind inode.entry offset count := by
  by_cases device : inode.entry.type = inodeDevice
  · refine ⟨fun _ => .inl device,fun _ => ?_⟩
    obtain ⟨same,there,ran⟩ := Runs.bind_ok.mp ran
    cases (Fs.inode_ok.mp there).symm.trans found
    simp only [if_pos device] at ran
    split at ran
    · obtain ⟨middle,unlocked,ran⟩ := Runs.bind_ok.mp ran
      have same : SameEntries env.sblock p fs middle := inodeUnlock_sameEntries unlocked
      have first := same.synced synced
      split at ran
      · cases ran
        exact first
      · obtain ⟨last,locked,ran⟩ := Runs.bind_ok.mp ran
        cases ran
        exact (inodeLock_sameEntries locked).synced first
    · cases ran
  · obtain ⟨_,_,⟨quiet,rfl⟩ | ⟨behind,leaves⟩⟩ := inodeRead_parts layout owned found device ran
    · exact ⟨fun _ => .inr quiet,fun _ => synced⟩
    · refine ⟨fun again => absurd again (leaves.unsynced behind.1 synced found),?_⟩
      rintro (impossible | quiet)
      · exact absurd impossible device
      · exact absurd behind quiet

theorem inodeInsert_through {name : List Byte} {no r : Usize} (layout : Layout env.sblock)
    (owned : Owned env.sblock live fs) (found : fs.inodes p = some inode) (synced : Synced env.sblock fs p)
    (ran : inodeInsert env (some op) p name no fs = .ok (r,fs')) :
    Synced env.sblock fs' p ↔ WritesThrough env fs.cache inode.entry (.insert op name no) := by
  obtain ⟨directory,⟨bound,after⟩ | ⟨unbound,dir,n,middle,written,between⟩⟩ := inodeInsert_parts layout owned found ran
  · have simpler : WritesThrough env fs.cache inode.entry (.insert op name no) ↔ ¬ walksBehind inode.entry
      (walkAll env fs.cache inode.entry (named name)) := by
      simp [WritesThrough,bound]
    rw [simpler]
    rcases after with ⟨near,rfl⟩ | ⟨far,leaves⟩
    · exact ⟨fun _ => near,fun _ => synced⟩
    · exact ⟨fun again => absurd again (leaves.unsynced far.1 synced found),fun near => absurd far near⟩
  · rcases between with ⟨near,close,rfl⟩ | ⟨far,leaves⟩
    · refine ⟨fun _ => .inl ⟨near,.inr close⟩,fun _ => ?_⟩
      rcases inodeWrite_syncs layout owned found written with again | same
      · exact again
      · exact same.synced synced
    · have absent : inode.entry.indirect = 0#32 := far.elim And.left And.left
      have unsynced := leaves.unsynced absent synced found
      obtain ⟨inode',found',directory',_,size⟩ := leaves.directory directory
      have bound : newSlot env fs.cache inode.entry < inode.entry.numBytes.toNat+dirEntrySize :=
        walk_bound fs.cache inode.entry _ _ _ _ (by unfold dirEntrySize; omega)
      have slot := writeSlot_syncs
          (i := newSlot env fs.cache inode.entry) layout leaves.owned found' directory' unsynced
          (walk_aligned fs.cache inode.entry _ _ _ _ (Nat.zero_mod _))
        (by unfold dirEntrySize at bound; omega) written
      rw [size,leaves.blocks _ found'] at slot
      rw [slot]
      refine ⟨fun grows => .inr ⟨unbound,grows⟩,?_⟩
      rintro (⟨near,close⟩ | ⟨_,grows⟩)
      · rcases close with bound | close
        · rw [unbound] at bound
          cases bound
        · exact (far.elim near close).elim
      · exact grows

theorem written_through {c : OneCall} (layout : Layout env.sblock) (owned : Owned env.sblock live fs)
    (found : fs.inodes p = some inode) (synced : inode.entry = diskEntry env.sblock fs.cache p)
    (ran : call env fs (c.on p) = .ok fs') :
    Synced env.sblock fs' p ↔ WritesThrough env fs.cache inode.entry c := by
  have synced : Synced env.sblock fs p := ⟨inode,found,synced⟩
  cases c with
  | read offset count =>
    obtain ⟨⟨n,bytes,last⟩,read,same⟩ := Runs.map_ok ran
    cases same
    exact inodeRead_through layout owned found synced read
  | write op src offset =>
    obtain ⟨⟨n,last⟩,written,same⟩ := Runs.map_ok ran
    cases same
    refine ⟨fun _ => trivial,fun _ => ?_⟩
    rcases inodeWrite_syncs layout owned found written with again | same
    · exact again
    · exact same.synced synced
  | insert op name no =>
    obtain ⟨⟨r,last⟩,inserted,same⟩ := Runs.map_ok ran
    cases same
    exact inodeInsert_through layout owned found synced inserted
  | remove op index =>
    rcases inodeRemove_parts layout owned found synced ran with ⟨empty,⟨quiet,rfl⟩ | ⟨behind,leaves⟩⟩ | ⟨used,unsynced⟩
    · exact ⟨fun _ => ⟨empty,quiet⟩,fun _ => synced⟩
    · exact ⟨fun again => absurd again (leaves.unsynced behind.1 synced found),fun quiet => absurd behind quiet.2⟩
    · exact ⟨fun again => absurd again unsynced,fun quiet => absurd quiet.1 used⟩
  | clear op =>
    obtain ⟨_,_,found',disk⟩ := inodeClear_clears layout owned found ran
    exact ⟨fun _ => trivial,fun _ => ⟨_,found',disk.symm⟩⟩

-- inode_remove of the only entry of a directory: the table keeps the old size.
def oneEntry : List Call := [.alloc (some 0) inodeDirectory,.get 1#64,.insert (some 0) 1#64 [97#8] 1#64]

theorem image_injective {e e' : InodeEntry} (same : e.image = e'.image) : e = e' := by
  rw [← e.ofImage_image,same,e'.ofImage_image]

theorem remove_not_written : ¬ ∀ (env : Env) (live : Usize → Bool) (p : Usize) (fs fs' : Fs) (inode : Inode)
    (c : OneCall), Layout env.sblock → Owned env.sblock live fs →
    fs.inodes p = some inode → inode.entry = diskEntry env.sblock fs.cache p → call env fs (c.on p) = .ok fs' →
    Synced env.sblock fs' p := by
  intro writtenThrough
  obtain ⟨fs,ran,facts⟩ := Runs.some_such (x := Runs.execGuarded (next blankEnv) (Permitted mkfsSuperBlock) blankDisk oneEntry)
    (p := fun fs => (fs.inodes 1#64).any fun inode => decide (inode.entry.image = (diskEntry mkfsSuperBlock fs.cache 1#64).image ∧
      ¬ (readSlot fs.cache inode.entry 0 0#128).inodeNo = 0#16 ∧
          (call blankEnv fs (.remove (some 0) 1#64 0#64)).toOption.isSome)) (by decide +kernel)
  obtain ⟨inode,found,facts⟩ := Runs.some_such facts
  obtain ⟨synced,used,returns⟩ := of_decide_eq_true facts
  have synced := image_injective synced
  obtain ⟨fs',removed⟩ := Option.isSome_iff_exists.mp returns
  have consistent : Consistent blankEnv.sblock fs := run_consistent blank_layout blank_image.consistent (Runs.exec_guarded .start ran)
  have removed := Runs.toOption_some removed
  have again := writtenThrough blankEnv _ 1#64 fs fs' inode (.remove 0 0#64) blank_layout consistent.owned found synced removed
  have through := (written_through (c := .remove 0 0#64) blank_layout consistent.owned found synced removed).mp again
  exact used through.1

theorem written_through_insert : ∃ fs fs' :
    Fs, Synced mkfsSuperBlock fs 1#64 ∧ call blankEnv fs (.insert (some 0) 1#64 [98#8] 1#64) = .ok fs' ∧
    Synced mkfsSuperBlock fs' 1#64 := by
  obtain ⟨fs,ran,facts⟩ := Runs.some_such (x := Runs.execGuarded (next blankEnv) (Permitted mkfsSuperBlock) blankDisk oneEntry)
    (p := fun fs => (fs.inodes 1#64).any fun inode => decide (inode.entry.image = (diskEntry mkfsSuperBlock fs.cache 1#64).image ∧
      (walkAll blankEnv fs.cache inode.entry (named [98#8])).2.1 = false ∧
          inode.entry.numBytes.toNat < newSlot blankEnv fs.cache inode.entry+dirEntrySize ∧
      (call blankEnv fs (.insert (some 0) 1#64 [98#8] 1#64)).toOption.isSome)) (by decide +kernel)
  obtain ⟨inode,found,facts⟩ := Runs.some_such facts
  obtain ⟨synced,unbound,grows,returns⟩ := of_decide_eq_true facts
  have synced := image_injective synced
  obtain ⟨fs',inserted⟩ := Option.isSome_iff_exists.mp returns
  have consistent : Consistent blankEnv.sblock fs := run_consistent blank_layout blank_image.consistent (Runs.exec_guarded .start ran)
  have inserted := Runs.toOption_some inserted
  exact ⟨fs,fs',⟨inode,found,synced⟩,inserted,
    (written_through (c := .insert 0 [98#8] 1#64) blank_layout consistent.owned found synced inserted).mpr (.inr ⟨unbound,.inl grows⟩)⟩

end Slots

end InodeLayer
