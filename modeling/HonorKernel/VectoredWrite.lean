import HonorKernel.ChunkedWrite

-- sys_writev beside sys_write.
namespace SysFile
open DiskFormat CacheView InodeLayer
open Runs (Agrees)

-- file_write of a file of type FD_INODE: the value and the offset it leaves. Both grow
-- with every transaction.
def fileWriteValue (env : Env) (op : Nat) (writable : Bool) (ip : Usize) (src : List Byte) (off : Usize) (fs : Fs) :
    Except Fault (Usize × Usize × Fs) :=
  if writable = false then .ok (-1#64,off,fs)
  else do
    let (last,fs) ← fileWrite env op ip src off fs
    .ok (last-off,last,fs)

-- `granted` is what user_readable answers for the buffer.
def sysWrite (env : Env) (op : Nat) (writable : Bool) (ip : Usize) (granted : Bool) (src : List Byte) (off : Usize) (fs : Fs) :
    Except Fault (Usize × Usize × Fs) :=
  if src = [] ∨ granted = false then .ok (-1#64,off,fs) else fileWriteValue env op writable ip src off fs

-- A buffer takes no more operations than it has bytes, so that `op+src.length` is new.
def sysWritevLoop (env : Env) (writable : Bool) (ip : Usize) : Nat → List (Bool × List Byte) → Usize → Usize → Fs →
    Except Fault (Usize × Usize × Fs)
  | _,[],tot,off,fs => .ok (tot,off,fs)
  | op,(granted,src)::rest,tot,off,fs =>
    if granted = false then .ok (-1#64,off,fs)
    else do
      let (n,off,fs) ← fileWriteValue env op writable ip src off fs
      sysWritevLoop env writable ip (op+src.length) rest (tot+n) off fs

def sysWritev (env : Env) (op : Nat) (writable : Bool) (ip : Usize) (granted : Bool) (buffers : List (Bool × List Byte)) (off : Usize) (fs : Fs) :
    Except Fault (Usize × Usize × Fs) :=
  if buffers = [] ∨ granted = false then .ok (-1#64,off,fs) else sysWritevLoop env writable ip op buffers 0#64 off fs

def readable (buffers : List (List Byte)) : List (Bool × List Byte) := buffers.map fun src => (true,src)

-- The same value, the same offset, the same file.
def SameWrite (sb : SuperBlock) (p : Usize) (many one : Usize × Usize × Fs) : Prop :=
  many.1 = one.1 ∧ many.2.1 = one.2.1 ∧ SameFile sb p one.2.2 many.2.2

structure LikeOneWrite (env : Env) (op op' : Nat) (writable : Bool) (p : Usize) (buffers : List (List Byte)) (off : Usize) (fs : Fs) : Prop where
  same : Agrees (SameWrite env.sblock p) (sysWritev env op writable p true (readable buffers) off fs)
      (sysWrite env op' writable p true buffers.flatten off fs)
  value : ∀ r, sysWritev env op writable p true (readable buffers) off fs = .ok r →
    if writable then r.1.toNat = min buffers.flatten.length (inodeMaxBytes-off.toNat) else r = (-1#64,off,fs)

section Buffers
variable {env : Env} {live : Usize → Bool} {p : Usize} {fs fs' : Fs} {inode : Inode}

theorem SameFile.refl (sb : SuperBlock) (p : Usize) (fs : Fs) : SameFile sb p fs fs := ⟨rfl,fun _ _ => rfl,fun _ _ => rfl,fun _ _ _ => rfl⟩

-- A value next to the result of a loop.
def ValueResult (sb : SuperBlock) (live : Usize → Bool) (p : Usize) (inode : Inode) (size : Nat) (v n : Usize) (r : Usize × Usize × Fs) (fs' : Fs) : Prop :=
  r.1 = v ∧ LoopResult sb live p inode size n r.2 fs'

theorem fileWrite_take (op : Nat) (src : List Byte) (offset : Usize) (inside : offset.toNat ≤ inodeMaxBytes)
    (short : src.length < 2^64) :
    fileWrite env op p src offset fs = fileWriteLoop env p src.length op (src.take (inodeMaxBytes-offset.toNat)) offset fs := by
  rw [fileWrite,FileTable.writeCount_toNat offset inside,BitVec.toNat_ofNat,Nat.mod_eq_of_lt short]
  rcases Nat.le_total src.length (inodeMaxBytes-offset.toNat) with fits | cut
  · rw [Nat.min_eq_left fits,List.take_length,List.take_of_length_le fits]
  · rw [Nat.min_eq_right cut]

theorem fileWriteValue_loop (layout : Layout env.sblock) (alike : Alike env.sblock live p fs fs')
    (found : fs.inodes p = some inode) (file : inode.entry.type ≠ inodeDevice) (free : inode.lock = ⟨1,[]⟩)
    (held : 0 < inode.rc) (src one : List Byte) (offset : Usize) (starts : offset.toNat ≤ inode.entry.numBytes.toNat)
    (inside : offset.toNat ≤ inodeMaxBytes) (short : src.length < 2^64)
    (cut : one = src.take (inodeMaxBytes-offset.toNat)) (op op' : Nat) :
    Agrees (ValueResult env.sblock live p inode (max inode.entry.numBytes.toNat (offset.toNat+one.length)) (BitVec.ofNat 64 one.length)
        (offset+BitVec.ofNat 64 one.length))
      (fileWriteValue env op true p src offset fs) (writeLoop env (some op') p one.length offset.toNat one fs') := by
  have length : one.length = min (inodeMaxBytes-offset.toNat) src.length := by rw [cut,List.length_take]
  have loop := fileWriteLoop_loop layout src.length alike found file free held one offset starts (by omega) (by omega) op op'
  rw [cut,← fileWrite_take op src offset inside short,← cut] at loop
  rw [fileWriteValue,if_neg (by decide),← bind_pure (writeLoop env (some op') p one.length offset.toNat one fs')]
  refine loop.bind ?_
  rintro ⟨last,middle⟩ fs'' ⟨moved,rest⟩
  have moved : last = offset+BitVec.ofNat 64 one.length := moved
  refine ⟨?_,moved,rest⟩
  rw [moved,BitVec.add_comm,BitVec.add_sub_cancel]

-- The loop of sys_writev against one loop over all bytes that fit into the file; the
-- buffers behind its end write nothing.
theorem sysWritevLoop_loop (layout : Layout env.sblock) (buffers : List (List Byte))
    (alike : Alike env.sblock live p fs fs') (found : fs.inodes p = some inode)
    (file : inode.entry.type ≠ inodeDevice) (free : inode.lock = ⟨1,[]⟩) (held : 0 < inode.rc) (src : List Byte)
    (tot offset : Usize) (starts : offset.toNat ≤ inode.entry.numBytes.toNat) (inside : offset.toNat ≤ inodeMaxBytes)
    (short : buffers.flatten.length < 2^64) (cut : src = buffers.flatten.take (inodeMaxBytes-offset.toNat))
    (op op' : Nat) :
    Agrees (ValueResult env.sblock live p inode (max inode.entry.numBytes.toNat (offset.toNat+src.length))
        (tot+BitVec.ofNat 64 src.length)
        (offset+BitVec.ofNat 64 src.length))
      (sysWritevLoop env true p op (readable buffers) tot offset fs)
      (writeLoop env (some op') p src.length offset.toNat src fs') := by
  have bound : inodeMaxBytes = 71680 := rfl
  induction buffers generalizing op src tot offset fs fs' inode with
  | nil =>
    have nothing : src = [] := by rw [cut,List.flatten_nil,List.take_nil]
    subst nothing
    rw [writeLoop_nothing]
    refine ⟨by simp,by simp,alike,inode,found,?_,rfl,rfl,rfl⟩
    rw [List.length_nil]
    omega
  | cons bytes rest ih =>
    rw [List.flatten_cons,List.length_append] at short
    obtain ⟨one,is⟩ : ∃ one, one = bytes.take (inodeMaxBytes-offset.toNat) := ⟨_,rfl⟩
    obtain ⟨two,is'⟩ : ∃ two, two = rest.flatten.take (inodeMaxBytes-offset.toNat-one.length) := ⟨_,rfl⟩
    have length : one.length = min (inodeMaxBytes-offset.toNat) bytes.length := by rw [is,List.length_take]
    have length' : two.length ≤ inodeMaxBytes-offset.toNat-one.length := by
      rw [is']
      exact List.length_take_le _ _
    have parts : src = one++two := by
      have left : inodeMaxBytes-offset.toNat-bytes.length = inodeMaxBytes-offset.toNat-one.length := by omega
      rw [cut,List.flatten_cons,List.take_append,left,← is,← is']
    have moved : (offset+BitVec.ofNat 64 one.length).toNat = offset.toNat+one.length := by
      rw [BitVec.toNat_add,BitVec.toNat_ofNat]
      omega
    obtain ⟨lock',n',found'⟩ := alike.found found
    have split := writeLoop_append layout src.length one.length two.length offset.toNat one two op' alike.owned' found'
      (by rw [parts,List.length_append]) (Nat.le_refl _) (Nat.le_refl _)
    rw [← parts] at split
    have first := fileWriteValue_loop layout alike found file free held bytes one offset starts inside (by omega) is op op'
    have total : src.length = one.length+two.length := by rw [parts,List.length_append]
    rw [readable,List.map_cons,sysWritevLoop,if_neg (by decide)]
    refine (first.bind (S := ValueResult env.sblock live p inode (max inode.entry.numBytes.toNat (offset.toNat+src.length))
      (tot+BitVec.ofNat 64 src.length) (offset+BitVec.ofNat 64 src.length)) ?_).trans split.symm ?_
    · rintro ⟨n,off,one_fs⟩ two_fs ⟨count,last,between,inode',found',resized⟩
      have count : n = BitVec.ofNat 64 one.length := count
      have last : off = offset+BitVec.ofNat 64 one.length := last
      have size := resized.size
      subst count last
      have later := ih between found' (by rw [resized.type]; exact file) (resized.lock.trans free) (by rw [resized.rc]; exact held) two
        (tot+BitVec.ofNat 64 one.length) (offset+BitVec.ofNat 64 one.length) (by omega) (by omega) (by omega)
        (by rw [is',moved,Nat.sub_add_eq]) (op+bytes.length)
      rw [moved] at later
      refine later.mono ?_
      rintro r last ⟨value,final,after,inode'',there,again⟩
      have sum : BitVec.ofNat 64 src.length = BitVec.ofNat 64 one.length+BitVec.ofNat 64 two.length := by rw [total,BitVec.ofNat_add]
      refine ⟨?_,?_,after,inode'',there,?_⟩
      · rw [value,sum,BitVec.add_assoc]
      · rw [final,sum,BitVec.add_assoc]
      · have both := Resized.trans resized again
        refine ⟨?_,both.lock,both.rc,both.type⟩
        have reach := both.size
        omega
    · rintro r middle last ⟨value,moved,one,resized⟩ two
      exact ⟨value,moved,one.trans two.symm,resized⟩

theorem writeCount_zero (off n : Usize) : writeCount off n = 0#64 ↔ n = 0#64 ∨ off = BitVec.ofNat 64 inodeMaxBytes := by
  have ends : BitVec.ofNat 64 inodeMaxBytes-off = 0#64 ↔ off = BitVec.ofNat 64 inodeMaxBytes := by
    constructor
    · intro same
      rw [← BitVec.zero_add off,← same,BitVec.sub_add_cancel]
    · intro same
      rw [same,BitVec.sub_self]
  unfold writeCount
  split
  · rename_i less
    refine ⟨.inl,?_⟩
    rintro (none | full)
    · exact none
    · rw [ends.mpr full] at less
      exact absurd less BitVec.not_lt_zero
  · rename_i more
    refine ⟨fun none => .inr (ends.mp none),?_⟩
    rintro (none | full)
    · rw [none] at more
      exact BitVec.le_zero_iff.mp (BitVec.not_lt.mp more)
    · exact ends.mpr full

theorem fileWriteLoop_nil (fuel op : Nat) (offset : Usize) :
    fileWriteLoop env p fuel op [] offset fs = .ok (offset,fs) := by
  cases fuel with
  | zero => rfl
  | succ fuel => rfl

theorem fileWriteValue_nothing (op : Nat) (src : List Byte) (offset : Usize)
    (nothing : src = [] ∨ offset = BitVec.ofNat 64 inodeMaxBytes) :
    fileWriteValue env op true p src offset fs = .ok (0#64,offset,fs) := by
  have count : writeCount offset (BitVec.ofNat 64 src.length) = 0#64 := by
    refine (writeCount_zero _ _).mpr (nothing.imp_left fun none => ?_)
    rw [none]
    rfl
  rw [fileWriteValue,if_neg (by decide),fileWrite,count,BitVec.toNat_zero,List.take_zero,fileWriteLoop_nil]
  exact congrArg (fun v => Except.ok (v,offset,fs)) (BitVec.sub_self offset)

-- An offset that inode_write asserts against.
def Blocked (inode : Inode) (offset : Usize) : Prop := ¬ (offset.toNat ≤ inode.entry.numBytes.toNat ∧ offset.toNat ≤ inodeMaxBytes)

theorem writeChunk_blocked {offset : Usize} (found : fs.inodes p = some inode)
    (file : inode.entry.type ≠ inodeDevice) (free : inode.lock = ⟨1,[]⟩) (held : 0 < inode.rc)
    (blocked : Blocked inode offset) (op : Nat) (part : List Byte) :
    writeChunk env (some op) p part offset fs = .error .assertion := by
  have locked : inodeLock p fs = .ok (fs.setInode p {inode with lock := ⟨0,[]⟩}) := by
    simp [inodeLock,Fs.inode_ok.mpr found,bind,Except.bind,free,not_le.mpr held]
  have there : (fs.setInode p {inode with lock := ⟨0,[]⟩}).inodes p = some {inode with lock := ⟨0,[]⟩} := Function.update_self _ _ _
  have refused : ¬ (offset ≤ inode.entry.numBytes.setWidth 64 ∧ (offset+BitVec.ofNat 64 part.length).toNat ≤ inodeMaxBytes ∧
      offset ≤ offset+BitVec.ofNat 64 part.length) := by
    rintro ⟨starts,ends,order⟩
    rw [BitVec.le_def,BitVec.toNat_setWidth,Nat.mod_eq_of_lt (by omega)] at starts
    exact blocked ⟨starts,Nat.le_trans (BitVec.le_def.mp order) ends⟩
  have failed : inodeWrite env (some op) p part offset (fs.setInode p {inode with lock := ⟨0,[]⟩}) = .error .assertion := by
    unfold inodeWrite
    simp only [Fs.inode_ok.mpr there,bind,Except.bind]
    rw [if_neg file,if_neg refused]
  unfold writeChunk
  rw [locked]
  change (inodeWrite env (some op) p part offset _ >>= _) = _
  rw [failed]
  rfl

theorem fileWriteValue_blocked {offset : Usize} (found : fs.inodes p = some inode)
    (file : inode.entry.type ≠ inodeDevice) (free : inode.lock = ⟨1,[]⟩) (held : 0 < inode.rc)
    (blocked : Blocked inode offset) (op : Nat) (src : List Byte) (short : src.length < 2^64) (some_bytes : src ≠ [])
    (inside : offset ≠ BitVec.ofNat 64 inodeMaxBytes) :
    fileWriteValue env op true p src offset fs = .error .assertion := by
  have positive := List.length_pos_iff.mpr some_bytes
  have count : writeCount offset (BitVec.ofNat 64 src.length) ≠ 0#64 := by
    refine mt (writeCount_zero _ _).mp (not_or.mpr ⟨fun none => ?_,inside⟩)
    have number := congrArg BitVec.toNat none
    rw [BitVec.toNat_ofNat,Nat.mod_eq_of_lt short,BitVec.toNat_zero] at number
    omega
  have taken : src.take (writeCount offset (BitVec.ofNat 64 src.length)).toNat ≠ [] := by
    rw [ne_eq,List.take_eq_nil_iff]
    exact not_or.mpr ⟨fun none => count (BitVec.eq_of_toNat_eq none),some_bytes⟩
  obtain ⟨fuel,length⟩ := Nat.exists_eq_succ_of_ne_zero (Nat.pos_iff_ne_zero.mp positive)
  have stops : fileWrite env op p src offset fs = .error .assertion := by
    rw [fileWrite,length,fileWriteLoop,← length,if_neg taken,writeChunk_blocked found file free held blocked]
    rfl
  rw [fileWriteValue,if_neg (by decide),stops]
  rfl

theorem sysWritevLoop_full (op : Nat) (buffers : List (List Byte)) (tot offset : Usize)
    (full : offset = BitVec.ofNat 64 inodeMaxBytes) :
    sysWritevLoop env true p op (readable buffers) tot offset fs = .ok (tot,offset,fs) := by
  induction buffers generalizing op tot with
  | nil => rfl
  | cons src rest ih =>
    rw [readable,List.map_cons,sysWritevLoop,if_neg (by decide),fileWriteValue_nothing op src offset (.inr full)]
    change sysWritevLoop env true p (op+src.length) (readable rest) (tot+0#64) offset fs = _
    rw [BitVec.add_zero]
    exact ih (op+src.length) tot

theorem sysWritevLoop_blocked {offset : Usize} (found : fs.inodes p = some inode)
    (file : inode.entry.type ≠ inodeDevice) (free : inode.lock = ⟨1,[]⟩) (held : 0 < inode.rc)
    (blocked : Blocked inode offset) (op : Nat) (buffers : List (List Byte)) (tot : Usize)
    (short : buffers.flatten.length < 2^64) (some_bytes : buffers.flatten ≠ [])
    (inside : offset ≠ BitVec.ofNat 64 inodeMaxBytes) :
    sysWritevLoop env true p op (readable buffers) tot offset fs = .error .assertion := by
  induction buffers generalizing op tot with
  | nil => exact absurd rfl some_bytes
  | cons src rest ih =>
    rw [List.flatten_cons,List.length_append] at short
    rw [readable,List.map_cons,sysWritevLoop,if_neg (by decide)]
    by_cases nothing : src = []
    · rw [fileWriteValue_nothing op src offset (.inl nothing)]
      rw [List.flatten_cons,nothing,List.nil_append] at some_bytes
      exact ih (op+src.length) (tot+0#64) (by omega) some_bytes
    · rw [fileWriteValue_blocked found file free held blocked op src (by omega) nothing inside]
      rfl

theorem sysWritevLoop_refused (op : Nat) (buffers : List (List Byte)) (tot offset : Usize) :
    sysWritevLoop env false p op (readable buffers) tot offset fs = .ok (tot-BitVec.ofNat 64 buffers.length,offset,fs) := by
  induction buffers generalizing op tot with
  | nil => exact congrArg (fun v => Except.ok (v,offset,fs)) (BitVec.sub_zero tot).symm
  | cons src rest ih =>
    rw [readable,List.map_cons,sysWritevLoop,if_neg (by decide),fileWriteValue,if_pos rfl]
    refine (ih (op+src.length) (tot+(-1#64))).trans (congrArg (fun v => Except.ok (v,offset,fs)) ?_)
    rw [List.length_cons,BitVec.ofNat_add]
    grind

theorem writev_in_range (layout : Layout env.sblock) (owned : Owned env.sblock live fs)
    (found : fs.inodes p = some inode) (file : inode.entry.type ≠ inodeDevice) (free : inode.lock = ⟨1,[]⟩)
    (held : 0 < inode.rc) (buffers : List (List Byte)) (offset : Usize) (short : buffers.flatten.length < 2^31)
    (starts : offset.toNat ≤ inode.entry.numBytes.toNat) (inside : offset.toNat ≤ inodeMaxBytes) (op op' : Nat) :
    Agrees (SameWrite env.sblock p) (sysWritevLoop env true p op (readable buffers) 0#64 offset fs)
    (fileWriteValue env op' true p buffers.flatten offset fs) ∧
    ∀ r, sysWritevLoop env true p op (readable buffers) 0#64 offset fs = .ok r →
      r.1.toNat = min buffers.flatten.length (inodeMaxBytes-offset.toNat) := by
  have bound : inodeMaxBytes = 71680 := rfl
  have alike : Alike env.sblock live p fs fs := .refl owned found
  obtain ⟨src,is⟩ : ∃ src, src = buffers.flatten.take (inodeMaxBytes-offset.toNat) := ⟨_,rfl⟩
  have many := sysWritevLoop_loop layout buffers alike found file free held src 0#64 offset starts inside (by omega) is op op
  have one := fileWriteValue_loop layout alike found file free held buffers.flatten src offset starts inside (by omega) is op' op
  constructor
  · refine many.trans one.symm ?_
    rintro r middle r' ⟨value,moved,left,inode₁,found₁,resized₁⟩ ⟨value',moved',right,inode₂,found₂,resized₂⟩
    refine ⟨?_,moved.trans moved'.symm,sameFile_of_alike (right.trans left.symm) layout found₂ found₁ ?_ ?_⟩
    · rw [value,value',BitVec.zero_add]
    · exact BitVec.eq_of_toNat_eq (resized₁.size.trans resized₂.size.symm)
    · exact resized₁.lock.trans resized₂.lock.symm
  · intro r ran
    rw [ran] at many
    obtain ⟨_,_,value,_⟩ := many.ok_left
    have length : src.length = min (inodeMaxBytes-offset.toNat) buffers.flatten.length := by rw [is,List.length_take]
    rw [value,BitVec.zero_add,BitVec.toNat_ofNat]
    omega

theorem writev_blocked (found : fs.inodes p = some inode) (file : inode.entry.type ≠ inodeDevice)
    (free : inode.lock = ⟨1,[]⟩) (held : 0 < inode.rc) (buffers : List (List Byte)) (offset : Usize)
    (some_bytes : buffers.flatten ≠ []) (short : buffers.flatten.length < 2^31) (blocked : Blocked inode offset)
    (op op' : Nat) :
    Agrees (SameWrite env.sblock p) (sysWritevLoop env true p op (readable buffers) 0#64 offset fs)
    (fileWriteValue env op' true p buffers.flatten offset fs) ∧
    ∀ r, sysWritevLoop env true p op (readable buffers) 0#64 offset fs = .ok r →
      r.1.toNat = min buffers.flatten.length (inodeMaxBytes-offset.toNat) := by
  by_cases full : offset = BitVec.ofNat 64 inodeMaxBytes
  · rw [sysWritevLoop_full op buffers 0#64 offset full,fileWriteValue_nothing op' _ offset (.inr full)]
    refine ⟨⟨rfl,rfl,.refl env.sblock p fs⟩,fun r ran => ?_⟩
    cases ran
    have ends : offset.toNat = inodeMaxBytes := by rw [full]; rfl
    rw [ends,Nat.sub_self,Nat.min_zero]
    rfl
  · rw [sysWritevLoop_blocked found file free held blocked op buffers 0#64 (by omega) some_bytes full,
      fileWriteValue_blocked found file free held blocked op' buffers.flatten (by omega) some_bytes full]
    exact ⟨trivial,fun r ran => by cases ran⟩

theorem writev_like_write (layout : Layout env.sblock) (owned : Owned env.sblock live fs)
    (found : fs.inodes p = some inode) (regular : inode.entry.type = inodeRegular) (free : inode.lock = ⟨1,[]⟩)
    (held : 0 < inode.rc) (writable : Bool) (buffers : List (List Byte)) (some_bytes : buffers.flatten ≠ [])
    (short : buffers.flatten.length < 2^31) (few : buffers.length < 2^31) (offset : Usize) (op op' : Nat) :
    LikeOneWrite env op op' writable p buffers offset fs ↔ writable = true ∨ buffers.length = 1 := by
  have file : inode.entry.type ≠ inodeDevice := by rw [regular]; decide
  have some_buffers : readable buffers ≠ [] := by
    rintro none
    rw [List.map_eq_nil_iff.mp none] at some_bytes
    exact some_bytes rfl
  have many : sysWritev env op writable p true (readable buffers) offset fs = sysWritevLoop env writable p op
      (readable buffers) 0#64 offset fs :=
    if_neg (not_or.mpr ⟨some_buffers,Bool.true_eq_false_eq_False⟩)
  have one : sysWrite env op' writable p true buffers.flatten offset fs = fileWriteValue env op' writable p buffers.flatten offset fs :=
    if_neg (not_or.mpr ⟨some_bytes,Bool.true_eq_false_eq_False⟩)
  cases writable with
  | true =>
    refine ⟨fun _ => .inl rfl,fun _ => ?_⟩
    have both : Agrees (SameWrite env.sblock p) (sysWritevLoop env true p op (readable buffers) 0#64 offset fs)
        (fileWriteValue env op' true p buffers.flatten offset fs) ∧
        ∀ r, sysWritevLoop env true p op (readable buffers) 0#64 offset fs = .ok r →
          r.1.toNat = min buffers.flatten.length (inodeMaxBytes-offset.toNat) := by
      by_cases range : offset.toNat ≤ inode.entry.numBytes.toNat ∧ offset.toNat ≤ inodeMaxBytes
      · exact writev_in_range layout owned found file free held buffers offset short range.1 range.2 op op'
      · exact writev_blocked found file free held buffers offset some_bytes short range op op'
    exact ⟨by rw [many,one]; exact both.1,fun r ran => both.2 r (many.symm.trans ran)⟩
  | false =>
    rw [sysWritevLoop_refused] at many
    have refused : fileWriteValue env op' false p buffers.flatten offset fs = .ok (-1#64,offset,fs) := if_pos rfl
    rw [refused] at one
    have single : 0#64-BitVec.ofNat 64 buffers.length = -1#64 ↔ buffers.length = 1 := by
      rw [BitVec.zero_sub,BitVec.neg_inj]
      refine ⟨fun same => ?_,fun same => by rw [same]⟩
      have number := congrArg BitVec.toNat same
      rw [BitVec.toNat_ofNat,Nat.mod_eq_of_lt (by omega)] at number
      exact number
    constructor
    · rintro ⟨same,_⟩
      rw [many,one] at same
      exact .inr (single.mp same.1)
    · rintro (yes | length)
      · cases yes
      · rw [single.mpr length] at many
        refine ⟨by rw [many,one]; exact ⟨rfl,rfl,.refl env.sblock p fs⟩,fun r ran => ?_⟩
        rw [many] at ran
        cases ran
        rfl

end Buffers

theorem open_file : ∃ (fs : Fs) (inode : Inode), Owned blankEnv.sblock (allocated blankEnv.sblock fs) fs ∧
    fs.inodes 1#64 = some inode ∧
    inode.entry.type = inodeRegular ∧ inode.lock = ⟨1,[]⟩ ∧ 0 < inode.rc := by
  obtain ⟨fs,ran,facts⟩ := Runs.some_such
    (x := Runs.execGuarded (next blankEnv) (Permitted mkfsSuperBlock) blankDisk [.alloc (some 0) inodeRegular,.get 1#64])
    (p := fun fs => (fs.inodes 1#64).any fun inode : Inode => decide (inode.entry.type = inodeRegular ∧ inode.lock =
        ⟨1,[]⟩ ∧ 0 < inode.rc)) (by decide +kernel)
  obtain ⟨inode,found,facts⟩ := Runs.some_such facts
  obtain ⟨regular,free,held⟩ := of_decide_eq_true facts
  have consistent : Consistent blankEnv.sblock fs := run_consistent blank_layout blank_image.consistent (Runs.exec_guarded .start ran)
  exact ⟨fs,inode,consistent.owned,found,regular,free,held⟩

theorem writev_like_write_three : ∃ fs :
    Fs, (fs.inodes 1#64).isSome ∧ LikeOneWrite blankEnv 0 0 true 1#64 [[7#8],[],[8#8,9#8]] 0#64 fs := by
  obtain ⟨fs,inode,owned,found,regular,free,held⟩ := open_file
  exact ⟨fs,by rw [found]; rfl,(writev_like_write blank_layout owned found regular free held true [[7#8],[],[8#8,9#8]] (by simp) (by simp) (by simp)
    0#64 0 0).mpr (.inl rfl)⟩

-- Two buffers and a file that is open for reading: -2 and -1.
theorem writev_refused_twice : ∃ fs : Fs, (fs.inodes 1#64).any (fun inode => decide (inode.entry.type = inodeRegular)) ∧
    sysWritev blankEnv 0 false 1#64 true (readable [[7#8],[8#8]]) 0#64 fs = .ok (-2#64,0#64,fs) ∧
    sysWrite blankEnv 0 false 1#64 true [7#8,8#8] 0#64 fs = .ok (-1#64,0#64,fs) ∧
    ¬ LikeOneWrite blankEnv 0 0 false 1#64 [[7#8],[8#8]] 0#64 fs := by
  obtain ⟨fs,inode,_,found,regular,_⟩ := open_file
  refine ⟨fs,by rw [found,Option.any_some,regular]; rfl,rfl,rfl,fun like => ?_⟩
  have same : (-2#64 : Usize) = -1#64 := like.same.1
  exact absurd same (by decide)

end SysFile
