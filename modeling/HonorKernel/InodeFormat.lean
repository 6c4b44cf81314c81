import HonorKernel.DiskFormat
import Mathlib.Logic.Function.Basic

-- The inode table, indirect blocks and directory entries of fs/defines.h, and the
-- string functions that compare and fill names.
namespace DiskFormat
open BitSlice

def byteAt (d : BitVec n) (k : Nat) : Byte := get 8 (8*k) d

-- memcpy into an image from byte `k` on, and out of it.
def setBytes (d : BitVec n) : Nat → List Byte → BitVec n
  | _,[] => d
  | k,b::rest => setBytes (put (8*k) b d) (k+1) rest

def getBytes (d : BitVec n) (k count : Nat) : List Byte := (List.range count).map fun j => byteAt d (k+j)

theorem byteAt_setBytes (d : BitVec n) (k : Nat) (bytes : List Byte) (fits : 8*(k+bytes.length) ≤ n) (j : Nat) :
    byteAt (setBytes d k bytes) j = if k ≤ j ∧ j < k+bytes.length then bytes.getD (j-k) 0#8 else byteAt d j := by
  induction bytes generalizing d k with
  | nil =>
    rw [if_neg (by simp only [List.length_nil]; omega)]
    rfl
  | cons b rest ih =>
    simp only [List.length_cons] at fits ⊢
    rw [setBytes,ih _ _ (by omega)]
    by_cases later : k+1 ≤ j ∧ j < k+1+rest.length
    · have inside : k ≤ j ∧ j < k+(rest.length+1) := by omega
      have offset : j-k = (j-(k+1))+1 := by omega
      rw [if_pos later,if_pos inside,offset,List.getD_cons_succ]
    · rw [if_neg later]
      by_cases here : j = k
      · subst here
        have inside : j ≤ j ∧ j < j+(rest.length+1) := by omega
        rw [if_pos inside,Nat.sub_self,List.getD_cons_zero]
        exact get_put _ _ _ (by omega)
      · have outside : ¬ (k ≤ j ∧ j < k+(rest.length+1)) := by omega
        rw [if_neg outside]
        exact get_put_apart _ _ _ _ _ (by omega)

theorem byteAt_ext {d d' : BitVec n} (bytes : ∀ j, 8*j < n → byteAt d j = byteAt d' j) : d = d' := by
  apply BitVec.eq_of_getLsbD_eq
  intro i small
  have place : 8*(i/8)+i%8 = i := by omega
  have bit : ∀ d : BitVec n, d.getLsbD i = (byteAt d (i/8)).getLsbD (i%8) := by
    intro d
    have inByte : i%8 < 8 := Nat.mod_lt _ (by decide)
    rw [byteAt,get_bit,place,decide_eq_true inByte,Bool.true_and]
  rw [bit d,bit d',bytes (i/8) (by omega)]

theorem getBytes_length (d : BitVec n) (k count : Nat) : (getBytes d k count).length = count := by simp [getBytes]

theorem getBytes_getD (d : BitVec n) (small : j < count) : (getBytes d k count).getD j 0#8 = byteAt d (k+j) := by
  simp [getBytes,small]

theorem setBytes_getBytes (d d' : BitVec n) (whole : 8*count = n) : setBytes d 0 (getBytes d' 0 count) = d' := by
  refine byteAt_ext ?_
  intro j small
  rw [byteAt_setBytes _ _ _ (by rw [getBytes_length]; omega),getBytes_length,if_pos ⟨Nat.zero_le j,by omega⟩,
      getBytes_getD _ (by omega),
    Nat.sub_zero,Nat.zero_add]

def inodeInvalid : U16 := 0#16
def inodeDirectory : U16 := 1#16
def inodeRegular : U16 := 2#16
def inodeDevice : U16 := 3#16
def rootInodeNo : Usize := 1#64

-- struct dinode; it has no padding, so 64 bytes in memory are one of these and back.
structure InodeEntry where
  type : U16
  major : U16
  minor : U16
  numLinks : U16
  numBytes : U32
  addrs : Fin inodeNumDirect → U32
  indirect : U32
  deriving DecidableEq

def InodeEntry.zero : InodeEntry := ⟨0,0,0,0,0,fun _ => 0,0⟩
def InodeEntry.setType (e : InodeEntry) (type : U16) : InodeEntry := {e with type := type}
def InodeEntry.setNumBytes (e : InodeEntry) (numBytes : U32) : InodeEntry := {e with numBytes := numBytes}
def InodeEntry.setAddr (e : InodeEntry) (i : Fin inodeNumDirect) (a : U32) : InodeEntry :=
  {e with addrs := Function.update e.addrs i a}
def InodeEntry.setNumLinks (e : InodeEntry) (numLinks : U16) : InodeEntry := {e with numLinks := numLinks}
def InodeEntry.setDevice (e : InodeEntry) (major minor : U16) : InodeEntry := {e with major := major,minor := minor}
def InodeEntry.setIndirect (e : InodeEntry) (a : U32) : InodeEntry := {e with indirect := a}

def InodeEntry.ofImage (d : BitVec 512) : InodeEntry :=
  ⟨get 16 0 d,get 16 16 d,get 16 32 d,get 16 48 d,get 32 64 d,fun i => get 32 (96+32*i.val) d,get 32 480 d⟩

def putAddrs (f : Fin inodeNumDirect → U32) : Nat → BitVec 512 → BitVec 512
  | 0,d => d
  | k+1,d => if small : k < inodeNumDirect then put (96+32*k) (f ⟨k,small⟩) (putAddrs f k d) else putAddrs f k d

def InodeEntry.image (e : InodeEntry) : BitVec 512 :=
  put 0 e.type (put 16 e.major (put 32 e.minor (put 48 e.numLinks (put 64 e.numBytes
    (put 480 e.indirect (putAddrs e.addrs inodeNumDirect 0#512))))))

theorem get_putAddrs (f : Fin inodeNumDirect → U32) (k : Nat) (d : BitVec 512) (i : Fin inodeNumDirect)
    (before : i.val < k) :
    get 32 (96+32*i.val) (putAddrs f k d) = f i := by
  induction k with
  | zero => cases before
  | succ k ih =>
    have bound : i.val < 12 := i.isLt
    unfold putAddrs
    split
    · rename_i small
      have small : k < 12 := small
      by_cases here : i.val = k
      · subst here
        exact get_put _ _ _ (by omega)
      · rw [get_put_apart _ _ _ _ _ (by omega)]
        exact ih (by omega)
    · rename_i large
      have large : ¬ k < 12 := large
      exact ih (by omega)

theorem InodeEntry.ofImage_image (e : InodeEntry) : InodeEntry.ofImage e.image = e := by
  have addrs : ∀ i : Fin inodeNumDirect, get 32 (96+32*i.val) e.image = e.addrs i := by
    intro i
    have bound : i.val < 12 := i.isLt
    unfold image
    rw [get_put_apart _ _ _ _ _ (by omega),get_put_apart _ _ _ _ _ (by omega),get_put_apart _ _ _ _ _ (by omega),
      get_put_apart _ _ _ _ _ (by omega),get_put_apart _ _ _ _ _ (by omega),get_put_apart _ _ _ _ _ (by omega)]
    exact get_putAddrs e.addrs inodeNumDirect _ i i.isLt
  have field : ∀ (w : Nat) (pos : Nat) (v : BitVec w), pos+w ≤ 512 → ∀ d, get w pos (put pos v d : BitVec 512) = v :=
    fun w pos v fits d => get_put pos v d fits
  have other : ∀ (w u pos pos' : Nat) (v : BitVec w) (d : BitVec 512), pos+w ≤ pos' ∨ pos'+u ≤ pos →
      get u pos' (put pos v d) = get u pos' d := fun w u pos pos' v d apart => get_put_apart pos v d u pos' apart
  cases e with
  | mk type major minor numLinks numBytes addresses indirect =>
    simp only [ofImage,mk.injEq]
    refine ⟨?_,?_,?_,?_,?_,funext addrs,?_⟩
    all_goals
      unfold image
      simp (disch := omega) only [field,other]

-- get_entry: slot `inode_no % INODE_PER_BLOCK` of its block.
def getEntry (d : BlockData) (inodeNo : Usize) : InodeEntry := .ofImage (get 512 (512*(inodeNo.toNat%inodePerBlock)) d)
def putEntry (d : BlockData) (inodeNo : Usize) (e : InodeEntry) : BlockData :=
  put (512*(inodeNo.toNat%inodePerBlock)) e.image d

theorem getEntry_putEntry (d : BlockData) (inodeNo : Usize) (e : InodeEntry) :
    getEntry (putEntry d inodeNo e) inodeNo = e := by
  have slot : inodeNo.toNat%inodePerBlock < 8 := Nat.mod_lt _ (by decide)
  unfold getEntry putEntry
  rw [get_put _ _ _ (by omega),InodeEntry.ofImage_image]

theorem getEntry_putEntry_other (d : BlockData) {inodeNo other : Usize} (e : InodeEntry)
    (different : inodeNo.toNat%inodePerBlock ≠ other.toNat%inodePerBlock) :
    getEntry (putEntry d inodeNo e) other = getEntry d other := by
  unfold getEntry putEntry
  rw [get_put_apart _ _ _ _ _ (by omega)]

theorem putEntry_twice (d : BlockData) (p : Usize) (e e' : InodeEntry) :
    putEntry (putEntry d p e) p e' = putEntry d p e' := by
  have slot : p.toNat%inodePerBlock < 8 := Nat.mod_lt _ (by decide)
  unfold putEntry
  apply BitVec.eq_of_getLsbD_eq
  intro i small
  rw [put_bit,put_bit,put_bit]
  split <;> rfl

-- get_addrs: the block as u32 addrs[INODE_NUM_INDIRECT].
def getAddr (d : BlockData) (i : Nat) : U32 := get 32 (32*i) d
def putAddr (d : BlockData) (i : Nat) (a : U32) : BlockData := put (32*i) a d

theorem getAddr_putAddr (d : BlockData) (i j : Nat) (a : U32) (small : i < inodeNumIndirect) :
    getAddr (putAddr d i a) j = if j = i then a else getAddr d j := by
  have bound : i < 128 := small
  unfold getAddr putAddr
  by_cases same : j = i
  · subst same
    rw [if_pos rfl]
    exact get_put _ a d (by omega)
  · rw [if_neg same]
    exact get_put_apart _ a d _ _ (by omega)

theorem getAddr_zero (i : Nat) : getAddr 0#4096 i = 0#32 := get_zero 4096 32 (32*i)

-- struct dirent: u16 inode_no; char name[FILE_NAME_MAX_LENGTH].
abbrev DirEntry := BitVec 128
def dirEntrySize : Nat := 16
def DirEntry.inodeNo (e : DirEntry) : U16 := get 16 0 e
def DirEntry.name (e : DirEntry) : List Byte := getBytes e 2 fileNameMaxLength
def DirEntry.setInodeNo (e : DirEntry) (inodeNo : U16) : DirEntry := put 0 inodeNo e
def DirEntry.setName (e : DirEntry) (name : List Byte) : DirEntry := setBytes e 2 name
def DirEntry.bytes (e : DirEntry) : List Byte := getBytes e 0 dirEntrySize

-- A `const char *` is the list of its bytes up to the terminating NUL, which is what
-- `s[i]` reads behind the list.
def charAt (s : List Byte) (i : Nat) : Byte := s.getD i 0#8

-- strncmp(s1, s2, n) == 0, from index `i` on.
def sameName (s1 s2 : List Byte) : Nat → Nat → Bool
  | 0,_ => true
  | n+1,i =>
    if charAt s1 i ≠ charAt s2 i then false
    else if charAt s1 i = 0#8 ∨ charAt s2 i = 0#8 then true
    else sameName s1 s2 n (i+1)

-- The `n` bytes strncpy stores: the string up to its NUL, then NULs.
def strncpy (src : List Byte) (n : Nat) : List Byte :=
  (List.range n).map fun i => charAt (src.takeWhile (· ≠ 0#8)) i

theorem DirEntry.bytes_length (e : DirEntry) : e.bytes.length = dirEntrySize := getBytes_length e 0 dirEntrySize

end DiskFormat
