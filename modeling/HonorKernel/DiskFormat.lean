import HonorKernel.BitSlice
import Mathlib.Data.List.Basic
import Mathlib.Data.List.Nodup

-- fs/defines.h and common/bitmap.h: the layouts the kernel lays over 512 bytes.
-- Structures are read and written through casts in the source, so each one is
-- the little-endian memory image itself and its fields are slices of it.
namespace DiskFormat
open BitSlice

abbrev Usize := BitVec 64
abbrev U32 := BitVec 32
abbrev U16 := BitVec 16
abbrev Byte := BitVec 8

instance : LawfulBEq Usize := inferInstance
instance : LawfulBEq Byte := inferInstance

def blockSize : Nat := 512
def logMaxSize : Nat := (blockSize-8)/8
def inodeNumDirect : Nat := 12
def inodeNumIndirect : Nat := blockSize/4
def inodePerBlock : Nat := blockSize/64
def inodeMaxBlocks : Nat := inodeNumDirect+inodeNumIndirect
def inodeMaxBytes : Nat := inodeMaxBlocks*blockSize
def fileNameMaxLength : Nat := 14
def bitPerBlock : Nat := blockSize*8
def opMaxNumBlocks : Nat := 10
def evictionThreshold : Nat := 20

abbrev BlockData := BitVec 4096

structure SuperBlock where
  numBlocks : U32
  numDataBlocks : U32
  numInodes : U32
  numLogBlocks : U32
  logStart : U32
  inodeStart : U32
  bitmapStart : U32
  deriving DecidableEq

-- The super block user/mkfs writes: boot block, super block, log, inodes, bitmap, data.
def fsSize : Nat := 1000
def nInodes : Nat := 200
def mkfsSuperBlock : SuperBlock :=
  let ninodeblocks := nInodes/inodePerBlock+1
  let nbitmap := fsSize/(blockSize*8)+1
  let nmeta := 2+logMaxSize+ninodeblocks+nbitmap
  ⟨.ofNat 32 fsSize,.ofNat 32 (fsSize-nmeta),.ofNat 32 nInodes,.ofNat 32 logMaxSize,2#32,.ofNat 32 (2+logMaxSize),
    .ofNat 32 (2+logMaxSize+ninodeblocks)⟩

-- Where execution of kernel code stops instead of returning. `blocked` is a wait
-- that no step of a sequential run can end.
inductive Fault where
  | logLimit | noFreeBlock | noFreeInode | syncInvalid | invalidType | assertion | outOfBounds | dangling | blocked
  deriving DecidableEq, Repr

-- common/bitmap.h: 64-bit cells, bit `index % 64` of cell `index / 64`.
def bitmapCell (d : BlockData) (index : Nat) : BitVec 64 := get 64 (64*(index/64)) d
def bitmapGet (d : BlockData) (index : Nat) : Bool := (bitmapCell d index >>> (index%64)).getLsbD 0
def bitmapSet (d : BlockData) (index : Nat) : BlockData :=
  put (64*(index/64)) (bitmapCell d index ||| (1#64 <<< (index%64))) d
def bitmapClear (d : BlockData) (index : Nat) : BlockData :=
  put (64*(index/64)) (bitmapCell d index &&& ~~~(1#64 <<< (index%64))) d

theorem bitmapGet_bit (d : BlockData) (index : Nat) : bitmapGet d index = d.getLsbD index := by
  have inCell : index%64 < 64 := Nat.mod_lt _ (by decide)
  simp only [bitmapGet,bitmapCell,BitVec.getLsbD_ushiftRight,get_bit,Nat.add_zero,inCell,decide_true,
    Bool.true_and,Nat.div_add_mod]

theorem oneBit_shift (k i : Nat) (small : k < 64) : (1#64 <<< k).getLsbD i = decide (i = k) := by
  by_cases below : i < k
  · have different : i ≠ k := by omega
    simp [BitVec.getLsbD_shiftLeft,below,different]
  · by_cases same : i = k
    · subst same; simp [small]
    · have positive : i-k ≠ 0 := by omega
      simp [BitVec.getLsbD_shiftLeft,below,same,positive]

theorem bitmapCell_bit (d : BlockData) (index j : Nat) (same : j/64 = index/64) :
    (bitmapCell d index).getLsbD (j%64) = bitmapGet d j := by
  have inCell : j%64 < 64 := Nat.mod_lt _ (by decide)
  rw [bitmapGet_bit,bitmapCell,get_bit,← same,Nat.div_add_mod]
  simp only [inCell,decide_true,Bool.true_and]

theorem bitmapGet_put (d : BlockData) (index j : Nat) (cell : BitVec 64) (small : index < bitPerBlock) :
    bitmapGet (put (64*(index/64)) cell d) j =
      if j/64 = index/64 then cell.getLsbD (j%64) else bitmapGet d j := by
  have bound : index < 4096 := small
  rw [bitmapGet_bit,bitmapGet_bit,put_bit]
  by_cases same : j/64 = index/64
  · have inside : 64*(index/64) ≤ j ∧ j < 64*(index/64)+64 := by omega
    have offset : j-64*(index/64) = j%64 := by omega
    have fits : j < 4096 := by omega
    rw [if_pos inside,if_pos same,offset]
    simp only [fits,decide_true,Bool.true_and]
  · have outside : ¬ (64*(index/64) ≤ j ∧ j < 64*(index/64)+64) := by omega
    rw [if_neg outside,if_neg same]

theorem bitmapGet_set (d : BlockData) (index j : Nat) (small : index < bitPerBlock) :
    bitmapGet (bitmapSet d index) j = if j = index then true else bitmapGet d j := by
  rw [bitmapSet,bitmapGet_put d index j _ small,BitVec.getLsbD_or,
    oneBit_shift _ _ (Nat.mod_lt index (by decide))]
  by_cases cell : j/64 = index/64
  · rw [if_pos cell,bitmapCell_bit d index j cell]
    by_cases same : j = index
    · simp [same]
    · have offset : j%64 ≠ index%64 := by omega
      simp [same,offset]
  · have different : j ≠ index := fun same => cell (same ▸ rfl)
    rw [if_neg cell,if_neg different]

theorem bitmapGet_clear (d : BlockData) (index j : Nat) (small : index < bitPerBlock) :
    bitmapGet (bitmapClear d index) j = if j = index then false else bitmapGet d j := by
  have inCell : j%64 < 64 := Nat.mod_lt _ (by decide)
  rw [bitmapClear,bitmapGet_put d index j _ small,BitVec.getLsbD_and,BitVec.getLsbD_not,
    oneBit_shift _ _ (Nat.mod_lt index (by decide))]
  by_cases cell : j/64 = index/64
  · rw [if_pos cell,bitmapCell_bit d index j cell]
    by_cases same : j = index
    · simp [same]
    · have offset : j%64 ≠ index%64 := by omega
      simp [same,offset,inCell]
  · have different : j ≠ index := fun same => cell (same ▸ rfl)
    rw [if_neg cell,if_neg different]

-- LogHeader: usize num_blocks; usize block_no[LOG_MAX_SIZE].
abbrev LogHeader := BlockData
def LogHeader.numBlocks (h : LogHeader) : Nat := (get 64 0 h).toNat
def LogHeader.blockNo (h : LogHeader) (i : Nat) : Usize := get 64 (64+64*i) h
def LogHeader.setNumBlocks (h : LogHeader) (n : Nat) : LogHeader := put 0 (BitVec.ofNat 64 n) h
def LogHeader.setBlockNo (h : LogHeader) (i : Nat) (b : Usize) : LogHeader := put (64+64*i) b h
def LogHeader.blocks (h : LogHeader) : List Usize := (List.range h.numBlocks).map h.blockNo

-- header.block_no[header.num_blocks++] = b
def LogHeader.record (h : LogHeader) (b : Usize) : LogHeader :=
  (h.setBlockNo h.numBlocks b).setNumBlocks (h.numBlocks+1)

-- memset(header.block_no, 0, LOG_MAX_SIZE) clears LOG_MAX_SIZE bytes, not words.
def LogHeader.reset (h : LogHeader) : LogHeader := put 64 (0#504) (h.setNumBlocks 0)

namespace LogHeader

theorem numBlocks_setNumBlocks (h : LogHeader) (n : Nat) (small : n < 2^64) :
    (h.setNumBlocks n).numBlocks = n := by
  have read : get 64 0 (put 0 (BitVec.ofNat 64 n) h) = BitVec.ofNat 64 n := get_put 0 _ h (by decide)
  rw [numBlocks,setNumBlocks,read,BitVec.toNat_ofNat,Nat.mod_eq_of_lt small]

theorem blockNo_setNumBlocks (h : LogHeader) (n i : Nat) : (h.setNumBlocks n).blockNo i = h.blockNo i :=
  get_put_apart 0 _ h 64 (64+64*i) (.inl (by omega))

theorem blockNo_setBlockNo (h : LogHeader) (i j : Nat) (b : Usize) (small : i < logMaxSize) :
    (h.setBlockNo i b).blockNo j = if j = i then b else h.blockNo j := by
  have bound : i < 63 := small
  by_cases same : j = i
  · subst same
    rw [if_pos rfl]
    exact get_put _ b h (by omega)
  · rw [if_neg same]
    exact get_put_apart _ b h 64 (64+64*j) (by omega)

@[simp] theorem blocks_length (h : LogHeader) : h.blocks.length = h.numBlocks := by simp [blocks]

theorem blocks_getElem (h : LogHeader) (i : Nat) (small : i < h.blocks.length) : h.blocks[i] = h.blockNo i := by
  simp [blocks]

theorem mem_blocks (h : LogHeader) (b : Usize) : b ∈ h.blocks ↔ ∃ i, i < h.numBlocks ∧ h.blockNo i = b := by
  simp [blocks]

theorem blocks_setNumBlocks (h : LogHeader) (n : Nat) (small : n < 2^64) :
    (h.setNumBlocks n).blocks = (List.range n).map h.blockNo := by
  rw [blocks,numBlocks_setNumBlocks h n small]
  exact List.map_congr_left (fun i _ => blockNo_setNumBlocks h n i)

theorem blocks_clear (h : LogHeader) : (h.setNumBlocks 0).blocks = [] := by
  rw [blocks_setNumBlocks h 0 (by decide)]; rfl

theorem numBlocks_record (h : LogHeader) (b : Usize) (room : h.numBlocks < logMaxSize) :
    (h.record b).numBlocks = h.numBlocks+1 := by
  have bound : h.numBlocks < 63 := room
  exact numBlocks_setNumBlocks _ _ (by omega)

theorem blocks_record (h : LogHeader) (b : Usize) (room : h.numBlocks < logMaxSize) :
    (h.record b).blocks = h.blocks++[b] := by
  have bound : h.numBlocks < 63 := room
  rw [record,blocks_setNumBlocks _ _ (by omega),List.range_succ,List.map_append]
  congr 1
  · refine List.map_congr_left ?_
    intro i member
    have earlier : i ≠ h.numBlocks := by have := List.mem_range.mp member; omega
    rw [blockNo_setBlockNo _ _ _ _ room,if_neg earlier]
  · simp only [List.map_cons,List.map_nil,blockNo_setBlockNo _ _ _ _ room,if_true]

theorem numBlocks_reset (h : LogHeader) : h.reset.numBlocks = 0 := by
  have read : get 64 0 (put 64 (0#504) (h.setNumBlocks 0)) = get 64 0 (h.setNumBlocks 0) :=
    get_put_apart 64 _ _ 64 0 (.inr (by omega))
  rw [numBlocks,reset,read]
  exact numBlocks_setNumBlocks h 0 (by decide)

theorem blocks_reset (h : LogHeader) : h.reset.blocks = [] := by
  rw [blocks,numBlocks_reset]; rfl

end LogHeader
end DiskFormat
