import HonorKernel.FileContents

-- inode_map as a reader calls it, with the device beside the cache: cache_sync without a
-- ctx writes the block to the device at once.
namespace InodeLayer
open DiskFormat CacheView

abbrev Device := Usize → BlockData

def syncNull (v : View) (b : Usize) (device : Device) : Device := Function.update device b (v.blocks b)

def cacheAllocNull (sb : SuperBlock) (v : View) (device : Device) : Except Fault (Usize × View × Device) := do
  let i ← findFree (v.blocks (bitmapBlock sb)) sb.numBlocks.toNat 0
  let v := v.store (bitmapBlock sb) (bitmapSet (v.blocks (bitmapBlock sb)) i)
  let device := syncNull v (bitmapBlock sb) device
  let v := v.store (BitVec.ofNat 64 i) 0#4096
  .ok (BitVec.ofNat 64 i,v,syncNull v (BitVec.ofNat 64 i) device)

def needIndirectNull (env : Env) (p : Usize) (fs : Fs) (device : Device) : Except Fault (Usize × Fs × Device) := do
  let inode ← fs.inode p
  if inode.entry.indirect = 0#32 then do
    let (b,v,device) ← cacheAllocNull env.sblock fs.cache device
    .ok ((b.setWidth 32).setWidth 64,(fs.setCache v).setEntry p inode (inode.entry.setIndirect (b.setWidth 32)),device)
  else .ok (inode.entry.indirect.setWidth 64,fs,device)

-- The other tests of ctx stand before anything is changed.
def inodeMapNull (env : Env) (p : Usize) (k : Nat) (fs : Fs) (device : Device) : Except Fault (Usize × Bool × Fs × Device) :=
  if small : k < inodeNumDirect then do
    let inode ← fs.inode p
    if inode.entry.addrs ⟨k,small⟩ = 0#32 then .ok (0#64,false,fs,device)
    else .ok ((inode.entry.addrs ⟨k,small⟩).setWidth 64,false,fs,device)
  else do
    let (indirect,fs,device) ← needIndirectNull env p fs device
    if inodeNumIndirect ≤ k-inodeNumDirect then .error .outOfBounds
    else if getAddr (fs.cache.blocks indirect) (k-inodeNumDirect) = 0#32 then .ok (0#64,false,fs,device)
    else .ok ((getAddr (fs.cache.blocks indirect) (k-inodeNumDirect)).setWidth 64,false,fs,device)

section Lookup
variable {env : Env} {p : Usize} {fs : Fs} {inode : Inode} {k : Nat}

theorem cacheAllocNull_view (sb : SuperBlock) (v : View) (device : Device) :
    (fun r => (r.1,r.2.1)) <$> cacheAllocNull sb v device = cacheAlloc sb none v := by
  have sync : ∀ (v : View) (b : Usize), v.sync none b = v := fun v b => by simp [View.sync]
  unfold cacheAllocNull cacheAlloc
  cases findFree (v.blocks (bitmapBlock sb)) sb.numBlocks.toNat 0 with
  | error fault => rfl
  | ok i =>
    simp only [View.put,sync]
    rfl

theorem needIndirectNull_view (env : Env) (p : Usize) (fs : Fs) (device : Device) :
    (fun r => (r.1,r.2.1)) <$> needIndirectNull env p fs device = needIndirect env none p fs := by
  unfold needIndirectNull needIndirect
  cases fs.inode p with
  | error fault => rfl
  | ok inode =>
    simp only [bind,Except.bind]
    split
    · rw [← cacheAllocNull_view _ _ device]
      cases cacheAllocNull env.sblock fs.cache device <;> rfl
    · rfl

theorem inodeMapNull_view (env : Env) (p : Usize) (k : Nat) (fs : Fs) (device : Device) :
    (fun r => (r.1,r.2.1,r.2.2.1)) <$> inodeMapNull env p k fs device = inodeMap env none p k fs := by
  unfold inodeMapNull inodeMap
  split
  · rename_i small
    unfold mapDirect
    cases fs.inode p with
    | error fault => rfl
    | ok inode =>
      simp only [bind,Except.bind]
      by_cases absent : inode.entry.addrs ⟨k,small⟩ = 0#32
      · simp only [absent,if_true,ne_eq,not_true_eq_false,if_false]
        rfl
      · simp only [absent,if_false,ne_eq,not_false_eq_true,if_true]
        rfl
  · rw [← needIndirectNull_view _ _ _ device]
    cases needIndirectNull env p fs device with
    | error fault => rfl
    | ok r =>
      simp only [bind,Except.bind,Functor.map,Except.map,mapEntry]
      by_cases outside : inodeNumIndirect ≤ k-inodeNumDirect
      · simp only [if_pos outside]
      · simp only [if_neg outside]
        by_cases absent : getAddr (r.2.1.cache.blocks r.1) (k-inodeNumDirect) = 0#32
        · simp only [absent,if_true,ne_eq,not_true_eq_false,if_false]
        · simp only [absent,if_false,ne_eq,not_false_eq_true,if_true]

theorem inodeMapNull_device (found : fs.inodes p = some inode)
    (reached : k < inodeNumDirect ∨ inode.entry.indirect ≠ 0#32) {b : Usize} {modified : Bool} {fs' : Fs}
    {device device' : Device} (ran : inodeMapNull env p k fs device = .ok (b,modified,fs',device')) :
    device' = device := by
  unfold inodeMapNull at ran
  split at ran
  · obtain ⟨_,_,ran⟩ := Runs.bind_ok.mp ran
    split at ran <;> cases ran <;> rfl
  · rename_i beyond
    have present := reached.resolve_left beyond
    simp only [needIndirectNull,Fs.inode_ok.mpr found,bind,Except.bind,if_neg present] at ran
    split at ran
    · cases ran
    · split at ran <;> cases ran <;> rfl

theorem inodeMapNull_quiet (found : fs.inodes p = some inode) (small : k < inodeMaxBlocks)
    (reached : k < inodeNumDirect ∨ inode.entry.indirect ≠ 0#32) (device : Device) :
    inodeMapNull env p k fs device = .ok (readBlock fs.cache inode.entry k,false,fs,device) := by
  have plain : (fun r => (r.1,r.2.1,r.2.2.1)) <$> inodeMapNull env p k fs device = .ok (readBlock fs.cache inode.entry k,false,fs) :=
    (inodeMapNull_view env p k fs device).trans (inodeMap_reader found small reached)
  obtain ⟨⟨b,modified,fs',device'⟩,ran,same⟩ := Runs.map_ok plain
  have still := inodeMapNull_device found reached ran
  simp only [Prod.mk.injEq] at same
  rw [ran,same.1,same.2.1,same.2.2,still]

-- A reader behind the direct blocks takes a block if there is no indirect block.
theorem needIndirectNull_takes (found : fs.inodes p = some inode) (absent : inode.entry.indirect = 0#32) {b : Usize}
    {fs' : Fs} {device device' : Device} (ran : needIndirectNull env p fs device = .ok (b,fs',device')) :
    ∃ c v, cacheAlloc env.sblock none fs.cache = .ok (c,v) ∧
    fs' = (fs.setCache v).setEntry p inode (inode.entry.setIndirect (c.setWidth 32)) := by
  simp only [needIndirectNull,Fs.inode_ok.mpr found,bind,Except.bind,if_pos absent] at ran
  cases taken : cacheAllocNull env.sblock fs.cache device with
  | error fault => rw [taken] at ran; cases ran
  | ok r =>
    have plain := cacheAllocNull_view env.sblock fs.cache device
    rw [taken] at plain ran
    cases ran
    exact ⟨r.1,r.2.1,plain.symm,rfl⟩

theorem lookup_never_allocates (found : fs.inodes p = some inode) (small : k < inodeMaxBlocks)
    (bitmap : bitmapBlock env.sblock ≠ 0#64) (device : Device) :
    inodeMapNull env p k fs device = .ok (readBlock fs.cache inode.entry k,false,fs,device) ↔ k < inodeNumDirect ∨
    inode.entry.indirect ≠ 0#32 := by
  refine ⟨?_,fun reached => inodeMapNull_quiet found small reached device⟩
  intro quiet
  by_contra reached
  obtain ⟨beyond,absent⟩ := not_or.mp reached
  have absent : inode.entry.indirect = 0#32 := not_not.mp absent
  unfold inodeMapNull at quiet
  rw [dif_neg beyond] at quiet
  obtain ⟨⟨b,fs',device'⟩,needed,quiet⟩ := Runs.bind_ok.mp quiet
  obtain ⟨c,v,taken,rfl⟩ := needIndirectNull_takes found absent needed
  have unchanged : (fs.setCache v).setEntry p inode (inode.entry.setIndirect (c.setWidth 32)) = fs := by
    simp only at quiet
    split at quiet
    · cases quiet
    · split at quiet
      · simp only [Except.ok.injEq,Prod.mk.injEq] at quiet
        exact quiet.2.2.1
      · simp only [Except.ok.injEq,Prod.mk.injEq] at quiet
        exact quiet.2.2.1
  obtain ⟨i,rfl,_,fits,free,_,rfl⟩ := cacheAlloc_spec taken
  have fits : i < 4096 := fits
  have entry : inode.entry.setIndirect ((BitVec.ofNat 64 i).setWidth 32) = inode.entry := by
    have there := congrArg (fun fs : Fs => fs.inodes p) unchanged
    simp only [Fs.setEntry,Fs.setInode,Function.update_self,found,Option.some.injEq] at there
    exact congrArg Inode.entry there
  have first : i = 0 := by
    have number := congrArg (fun e : InodeEntry => e.indirect.toNat) entry
    simp only [InodeEntry.setIndirect,absent,BitVec.toNat_setWidth,BitVec.toNat_ofNat] at number
    omega
  subst first
  -- Bit 0 was clear and is set now.
  have bits := congrArg (fun fs : Fs => bitmapGet (fs.cache.blocks (bitmapBlock env.sblock)) 0) unchanged
  have marked := bitmapGet_set (fs.cache.blocks (bitmapBlock env.sblock)) 0 0 fits
  simp only [Fs.setEntry,Fs.setInode,Fs.setCache,View.put_blocks,Function.update_of_ne bitmap,Function.update_self,
      marked,if_true,free] at bits
  cases bits

-- On an empty disk: inode 1 has just been made, and a reader asks for its block 12.
def freshInode : Inode := ⟨Semaphores.initSem 1,1,1#64,true,InodeEntry.zero.setType inodeRegular⟩

theorem freshInode_found : (blankDisk.setInode 1#64 freshInode).inodes 1#64 = some freshInode := by simp [Fs.setInode]

theorem lookup_allocates : ¬ ∀ (env : Env) (p : Usize) (fs : Fs) (inode : Inode) (k : Nat) (device : Device),
    fs.inodes p = some inode → k < inodeMaxBlocks →
    inodeMapNull env p k fs device = .ok (readBlock fs.cache inode.entry k,false,fs,device) := by
  intro readsOnly
  have quiet := readsOnly blankEnv 1#64
      (blankDisk.setInode 1#64 freshInode) freshInode 12 blankDisk.cache.blocks freshInode_found (by decide)
  have reached := (lookup_never_allocates freshInode_found (by decide) (by decide) _).mp quiet
  revert reached
  decide

theorem lookup_never_allocates_direct : inodeMapNull blankEnv 1#64 3 (blankDisk.setInode 1#64 freshInode)
    (fun _ => 0#4096) =
    .ok (readBlock blankDisk.cache freshInode.entry 3,false,blankDisk.setInode 1#64 freshInode,fun _ => 0#4096) :=
  (lookup_never_allocates freshInode_found (by decide) (by decide) fun _ => 0#4096).mpr (.inl (by decide))

end Lookup

end InodeLayer
