import HonorKernel.MkfsFiles
import HonorKernel.CacheLaws

-- The image of mkfs as init_filesystem finds it.
namespace Mkfs
open DiskFormat InodeLayer CacheView Semaphores Ownership BlockCache

-- get_super_block: sblock_data has the bytes of block 1.
def superBlockOf (d : BlockData) : SuperBlock :=
  ⟨BitSlice.get 32 0 d,BitSlice.get 32 32 d,BitSlice.get 32 64 d,BitSlice.get 32 96 d,BitSlice.get 32 128 d,BitSlice.get 32 160 d,
    BitSlice.get 32 192 d⟩

-- Without a root inode init_inodes only warns.
def initInodes (env : Env) (v : View) : Except Fault Fs :=
  if rootInodeNo.toNat < env.sblock.numInodes.toNat then do
    let (_,fs) ← inodeGet env rootInodeNo ⟨v,fun _ => none⟩
    .ok fs
  else .ok ⟨v,fun _ => none⟩

def initFilesystem (consoleRead : Usize → Option (List Byte)) (stack : DirEntry) (device : Usize → BlockData) : Except Fault (Env × Fs) := do
  let sblock := superBlockOf (device 1#64)
  let bcache ← initBcache sblock device
  let fs ← initInodes ⟨sblock,consoleRead,stack⟩ ⟨bcache.view,[]⟩
  .ok (⟨sblock,consoleRead,stack⟩,fs)

theorem superBlockOf_image (sb : SuperBlock) : superBlockOf (superBlockImage sb) = sb := by
  have field : ∀ (pos : Nat) (v : U32), pos+32 ≤ 4096 → ∀ d, BitSlice.get 32 pos (BitSlice.put pos v d : BlockData) = v :=
    fun pos v fits d => BitSlice.get_put pos v d fits
  have other : ∀ (pos pos' : Nat) (v : U32) (d : BlockData), pos+32 ≤ pos' ∨ pos'+32 ≤ pos →
      BitSlice.get 32 pos' (BitSlice.put pos v d) = BitSlice.get 32 pos' d := fun pos pos' v d apart =>
          BitSlice.get_put_apart pos v d 32 pos' apart
  cases sb with
  | mk numBlocks numDataBlocks numInodes numLogBlocks logStart inodeStart bitmapStart =>
    simp only [superBlockOf,SuperBlock.mk.injEq]
    unfold superBlockImage
    simp (disch := omega) only [field,other,and_self]

theorem put_zero (n w pos : Nat) : BitSlice.put pos 0#w 0#n = 0#n := by
  refine BitVec.eq_of_getLsbD_eq ?_
  intro i _
  rw [BitSlice.put_bit]
  simp

theorem reset_empty : LogHeader.reset 0#4096 = 0#4096 := by
  have count : LogHeader.setNumBlocks 0#4096 0 = 0#4096 := put_zero 4096 64 0
  unfold LogHeader.reset
  rw [count]
  exact put_zero 4096 504 64

theorem initBcache_empty (sb : SuperBlock) {device : Usize → BlockData}
    (empty : device (sb.logStart.setWidth 64) = 0#4096) :
    ∃ bcache, initBcache sb device = .ok bcache ∧ bcache.view = device := by
  have none : LogHeader.numBlocks 0#4096 = 0 := congrArg BitVec.toNat (BitSlice.get_zero 4096 64 0)
  unfold initBcache
  simp only [empty,none,Runs.upTo,bind,Except.bind,reset_empty]
  refine ⟨_,rfl,?_⟩
  funext b
  change Function.update device (sb.logStart.setWidth 64) 0#4096 b = device b
  by_cases head : b = sb.logStart.setWidth 64
  · rw [head,Function.update_self,empty]
  · rw [Function.update_of_ne head]

section Mounting
variable {files : Files} {d : State} {hosts : List HostFile} {no : Usize}

theorem Finished.super (finished : Finished files d) : superBlockOf (d.sectors 1#64) = sb := by
  have start := inodeStart_toNat
  rw [finished.reserved 1#64 (by rw [start]; decide)]
  unfold blank State.wsect
  simp only [Function.update_self]
  exact superBlockOf_image mkfsSuperBlock

-- The super block is the one that the image was laid out by, the log is empty, and the
-- root is in memory.
theorem Finished.mounts (finished : Finished files d) (consoleRead : Usize → Option (List Byte)) (stack : DirEntry) :
    initFilesystem consoleRead stack d.sectors = .ok (⟨sb,consoleRead,stack⟩,(idle d.view).load sb rootInodeNo) := by
  have start := inodeStart_toNat
  have super := finished.super
  have log : d.sectors (sb.logStart.setWidth 64) = 0#4096 := by
    rw [finished.reserved _ (by rw [start]; decide)]
    exact blank_sectors (by decide)
  obtain ⟨bcache,booted,view⟩ := initBcache_empty sb log
  have got : inodeGet ⟨sb,consoleRead,stack⟩ rootInodeNo (idle d.view) = .ok (some rootInodeNo,(idle d.view).load sb rootInodeNo) := by
    have small : ¬sb.numInodes.toNat ≤ rootInodeNo.toNat := by decide
    unfold inodeGet
    rw [if_neg (by decide),if_neg small]
    simp [idle,inodeLock,Fs.inode,Fs.setInode,initSem,waitSem,inodeSync,inodeUnlock,postSem,bind,Except.bind,Fs.load]
  have inside : rootInodeNo.toNat < sb.numInodes.toNat := by decide
  have started : initInodes ⟨sb,consoleRead,stack⟩ d.view = .ok ((idle d.view).load sb rootInodeNo) := by
    unfold initInodes
    rw [if_pos inside]
    change (inodeGet ⟨sb,consoleRead,stack⟩ rootInodeNo (idle d.view) >>= _) = _
    rw [got]
    rfl
  unfold initFilesystem
  unfold State.view at started
  simp only [super,booted,bind,Except.bind,view,started]
  rfl

theorem pictured_invalid (inTable : InTable sb no) (vacant : (pictured hosts no).1 = inodeInvalid) :
    hosts.length+2 ≤ no.toNat := by
  have positive := (inTable_iff.mp inTable).1
  have root : no ≠ rootInodeNo := by
    rintro rfl
    rw [pictured_root] at vacant
    exact absurd (show inodeDirectory = inodeInvalid from vacant) (by decide)
  have one : no.toNat ≠ 1 := fun one => root (BitVec.eq_of_toNat_eq one)
  unfold pictured at vacant
  rw [if_neg root,if_pos (by omega)] at vacant
  by_contra low
  rw [List.getElem?_eq_getElem (show no.toNat-2 < hosts.length by omega)] at vacant
  exact absurd (show inodeRegular = inodeInvalid from vacant) (by decide)

theorem Finished.allocated (finished : Finished files d) : allocated sb (idle d.view) no = true ↔ InTable sb no ∧
    (files no).1 ≠ inodeInvalid := by
  rw [allocated_iff]
  refine and_congr_right fun inTable => ?_
  rw [← (finished.heads no inTable).1]
  rfl

theorem Finished.refs (finished : Finished (pictured hosts) d) (counter : d.freeinode.toNat = hosts.length+2)
    (slot : Usize × Place) :
    refs sb (InodeLayer.allocated sb (idle d.view))
    (idle d.view) slot = InodeLayer.refs sb table (idle d.view) slot := by
  obtain ⟨no,place⟩ := slot
  unfold InodeLayer.refs
  by_cases inUse : InodeLayer.allocated sb (idle d.view) no = true
  · have there : table no = true := table_iff.mpr (finished.allocated.mp inUse).1
    simp only [inUse,there]
  · by_cases inTable : InTable sb no
    · have vacant : (pictured hosts no).1 = inodeInvalid := by
        by_contra valid
        exact inUse (finished.allocated.mpr ⟨inTable,valid⟩)
      have entry : entryOf sb (idle d.view) no = InodeEntry.zero :=
        finished.unused no inTable (by rw [counter]; exact pictured_invalid inTable vacant)
      have there : table no = true := table_iff.mpr inTable
      simp only [inUse,there,entry,if_true]
      cases place <;> rfl
    · have there : ¬table no = true := fun there => inTable (table_iff.mp there)
      simp only [inUse,there]

theorem Finished.image (finished : Finished (pictured hosts) d) (counter : d.freeinode.toNat = hosts.length+2) :
    Image sb (idle d.view) :=
  ⟨layout,fun _ => rfl,finished.owned.low,finished.owned.balanced.congr (finished.refs counter) fun _ _ => Iff.rfl⟩

theorem Finished.start (finished : Finished (pictured hosts) d) (counter : d.freeinode.toNat = hosts.length+2) :
    Consistent sb ((idle d.view).load sb rootInodeNo) := by
  refine load_consistent (finished.image counter).consistent (finished.allocated.mpr ⟨root_inTable,?_⟩) rfl
  rw [pictured_root]
  exact (by decide : inodeDirectory ≠ inodeInvalid)

end Mounting

end Mkfs
