import HonorKernel.FileFrames
import HonorKernel.InodeReferences
import HonorKernel.PageWalk

-- The offsets of open files: what read, write, writev, mmap and munmap do to `off`, and
-- when an inode_read or inode_write that comes of it fails its assertions.
namespace FileTable
open DiskFormat CacheView InodeLayer SysFile
open PageTable (Section U64 Page splitAt getFreeVm pageOffset pagesOf larger smaller pageSize stMmapShared stMmapPrivate)
open Runs (Avoids)

structure Io (n : Nat) where
  kernel : Kernel n
  off : Nat → Usize

-- `asserted`: an assertion of inode_read or inode_write on its offset and its end. All
-- other ways in which a call does not return are told apart from it.
inductive Stop where
  | asserted
  | fault (fault : Fault)
  deriving DecidableEq

def lift : Except Fault α → Except Stop α
  | .ok a => .ok a
  | .error fault => .error (.fault fault)

variable {n : Nat}

namespace Io

def seek (io : Io n) (f : Nat) (off : Usize) : Io n := { io with off := Function.update io.off f off }
def setFs (io : Io n) (fs : Fs) (op : Nat) : Io n := { io with kernel := { io.kernel with fs := fs, op := op } }

end Io

def ReadAsserts (inode : Inode) (offset count : Usize) : Prop :=
  let numBytes : Usize := inode.entry.numBytes.setWidth 64
  inode.entry.type = inodeDevice ∨
    offset ≤ numBytes ∧ offset+readCount numBytes offset count ≤ numBytes ∧ offset ≤ offset+readCount numBytes offset count
instance (inode : Inode) (offset count : Usize) : Decidable (ReadAsserts inode offset count) := inferInstanceAs (Decidable (_ ∨ _))

def WriteAsserts (inode : Inode) (offset count : Usize) : Prop :=
  inode.entry.type = inodeDevice ∨
    offset ≤ inode.entry.numBytes.setWidth 64 ∧ (offset+count).toNat ≤ inodeMaxBytes ∧ offset ≤ offset+count
instance (inode : Inode) (offset count : Usize) : Decidable (WriteAsserts inode offset count) := inferInstanceAs (Decidable (_ ∨ _))

-- file_read and file_write of file `f`; the ends of a pipe have no offset.
def ioRead (env : Env) (f : Nat) (count : Usize) (io : Io n) : Except Stop (Io n) :=
  let file := io.kernel.files f
  if file.readable = false ∨ file.type = .pipe then .ok io
  else if file.type = .inode then do
    let fs ← lift (inodeLock file.ip io.kernel.fs)
    let inode ← lift (fs.inode file.ip)
    if ¬ ReadAsserts inode (io.off f) count then .error .asserted
    else do
      let (nread,_,fs) ← lift (inodeRead env file.ip (io.off f) count fs)
      let fs ← lift (inodeUnlock file.ip fs)
      .ok ((io.setFs fs io.kernel.op).seek f (io.off f+nread))
  else .error (.fault .assertion)

def ioWriteLoop (env : Env) (f : Nat) : Nat → List Byte → Io n → Except Stop (Io n)
  | 0,_,io => .ok io
  | fuel+1,src,io =>
    if src = [] then .ok io
    else do
      let ip := (io.kernel.files f).ip
      let chunk := src.take maxOpWriteN
      let fs ← lift (inodeLock ip io.kernel.fs)
      let inode ← lift (fs.inode ip)
      if ¬ WriteAsserts inode (io.off f) (BitVec.ofNat 64 chunk.length) then .error .asserted
      else do
        let (w,fs) ← lift (inodeWrite env (some io.kernel.op) ip chunk (io.off f) fs)
        let fs ← lift (inodeUnlock ip fs)
        ioWriteLoop env f fuel (src.drop w.toNat) ((io.setFs fs (io.kernel.op+1)).seek f (io.off f+w))

def ioWrite (env : Env) (f : Nat) (src : List Byte) (io : Io n) : Except Stop (Io n) :=
  let file := io.kernel.files f
  if file.writable = false ∨ file.type = .pipe then .ok io
  else if file.type = .inode then
    ioWriteLoop env f src.length (src.take (writeCount (io.off f) (BitVec.ofNat 64 src.length)).toNat) io
  else .error (.fault .assertion)

-- sys_openat from the point where it has the inode, locked and with a reference: the one
-- that the path names, or a new one that create has made for it. The directories on the
-- path are left out: no file here is open on one.
def openInodeOf (env : Env) (pid : Fin n) (found : Option Usize) (wronly rdwr : Bool) (io : Io n) : Except Stop (Io n) := do
  let k := io.kernel
  let p ← lift (k.proc pid)
  let ctx := some k.op
  let (ip,fs) ← lift (match found with
    | some no => getLocked env no k.fs
    | none => newInode env ctx inodeRegular 0#16 0#16 k.fs)
  match fileAlloc k with
  | none => do
    let fs ← lift (unlockPut env ctx ip fs)
    .ok { io with kernel := k.commit fs }
  | some (f,k) =>
    match fdalloc p with
    | none => do
      let k ← lift (fileClose env 0 f { k with fs := fs })
      let fs ← lift (unlockPut env ctx ip k.fs)
      .ok { io with kernel := k.commit fs }
    | some fd => do
      let fs ← lift (inodeUnlock ip fs)
      let k := (k.setFile f { k.files f with type := .inode, ip := ip, readable := !wronly, writable := wronly || rdwr }).commit fs
      .ok (({ io with kernel := k.setProc pid (some (p.setSlot fd (some f))) } : Io n).seek f 0#64)

-- PAGE_ALIGN_UP of an int.
def alignInt (length : BitVec 32) : BitVec 32 := (length+BitVec.ofNat 32 pageSize-1#32) &&& ~~~(4095#32)

def protNone : U64 := 0#64
def protExec : U64 := 4#64

-- sys_mmap with addr = 0. The offset is an int and goes into the file as it is; file_read
-- is called whether the file can be read or not.
def ioMmap (env : Env) (pid : Fin n) (fd : Int) (length prot flags offset : BitVec 32) (io : Io n) : Except Stop (Io n) := do
  let k := io.kernel
  let prot : U64 := prot.signExtend 64
  let p ← lift (k.proc pid)
  if prot = protNone ∨ prot &&& protExec ≠ 0#64 ∨ length.toInt ≤ 0 then .ok io
  else
    match fd2file p fd with
    | none => .ok io
    | some f =>
      if prot &&& protWrite ≠ 0#64 ∧ (k.files f).writable = false ∧ flags ≠ mapPrivate then .ok io
      else
        let (first,last) := getFreeVm p.sections ((alignInt length).signExtend 64)
        if last = first ∨ pageOffset first ≠ 0 then .ok io
        else do
          let k ← lift (fileDup f k)
          let st : Section := ⟨if flags &&& mapShared ≠ 0#32 then stMmapShared else stMmapPrivate,first,last,some f,
              offset.signExtend 64,prot⟩
          ioRead env f ((alignInt length).signExtend 64)
            (({ io with kernel := k.setProc pid (some (p.setSections (st::p.sections))) } : Io n).seek f (offset.signExtend 64))

-- The parts of the pages from st->begin to `last` that munmap writes, with their offsets.
-- free_section_pages takes those in `touched`: valid, not read-only, with one reference.
def writesOf (st : Section) (last : U64) (touched : U64 → Bool) (contents : U64 → Page) : List (Usize × List Byte) :=
  ((pagesOf st.first last).filter touched).map fun va =>
    (st.offset+larger va st.first-st.first,
      getBytes (contents va) 0 (min pageSize (smaller (va+BitVec.ofNat 64 pageSize) last-larger va st.first).toNat))

def ioWriteBack (env : Env) (f : Nat) : List (Usize × List Byte) → Io n → Except Stop (Io n)
  | [],io => .ok io
  | (off,bytes)::rest,io =>
    if (io.kernel.files f).type ≠ .inode then .error (.fault .assertion)
    else do
      let io ← ioWrite env f bytes (io.seek f off)
      ioWriteBack env f rest io

def ioMunmap (env : Env) (pid : Fin n) (va length : U64) (touched : U64 → Bool) (contents : U64 → Page) (io : Io n) : Except Stop (Io n) := do
  let p ← lift (io.kernel.proc pid)
  match splitAt va p.sections with
  | none => .ok io
  | some (before,st,after) =>
    if ¬ (st.flags = stMmapPrivate ∨ st.flags = stMmapShared) then .error (.fault .assertion)
    else
      match st.fp with
      | none => .error (.fault .dangling)
      | some f =>
        if st.last-st.first ≤ length then do
          let io ← ioWriteBack env f (writesOf st st.last touched contents) io
          let k ← lift (fileClose env (io.kernel.held f) f (io.kernel.setProc pid (some (p.setSections (before++after)))))
          .ok { io with kernel := k }
        else do
          let io ← ioWriteBack env f (writesOf st (st.first+length) (fun _ => true) contents) io
          .ok { io with kernel := io.kernel.setProc pid (some (p.setSections (before++{ st with first := st.first+length }::after))) }

-- `granted` is what user_readable or user_writeable answers for a buffer.
def ioWritev (env : Env) (f : Nat) : List (Bool × List Byte) → Io n → Except Stop (Io n)
  | [],io => .ok io
  | (granted,bytes)::rest,io =>
    if granted then do
      let io ← ioWrite env f bytes io
      ioWritev env f rest io
    else .ok io

inductive IoCall (n : Nat) where
  | openat (pid : Fin n) (found : Option Usize) (wronly rdwr : Bool)
  | read (pid : Fin n) (fd : Int) (size : BitVec 32) (granted : Bool)
  | write (pid : Fin n) (fd : Int) (bytes : List Byte) (granted : Bool)
  | writev (pid : Fin n) (fd : Int) (buffers : List (Bool × List Byte))
  | mmap (pid : Fin n) (fd : Int) (length prot flags offset : BitVec 32)
  | munmap (pid : Fin n) (va length : U64) (touched : U64 → Bool) (contents : U64 → Page)

-- The file of a descriptor, if there is one.
def withFile (pid : Fin n) (fd : Int) (io : Io n) (body : Nat → Except Stop (Io n)) : Except Stop (Io n) := do
  let p ← lift (io.kernel.proc pid)
  match fd2file p fd with
  | none => .ok io
  | some f => body f

def ioRun (env : Env) (io : Io n) : IoCall n → Except Stop (Io n)
  | .openat pid found wronly rdwr => openInodeOf env pid found wronly rdwr io
  | .read pid fd size granted => withFile pid fd io fun f =>
    if size.toInt ≤ 0 ∨ granted = false then .ok io else ioRead env f (size.signExtend 64) io
  | .write pid fd bytes granted => withFile pid fd io fun f =>
    if bytes = [] ∨ granted = false then .ok io else ioWrite env f bytes io
  | .writev pid fd buffers => withFile pid fd io fun f => ioWritev env f buffers io
  | .mmap pid fd length prot flags offset => ioMmap env pid fd length prot flags offset io
  | .munmap pid va length touched contents => ioMunmap env pid va length touched contents io

def ioNext (env : Env) (io : Io n) (call : IoCall n) : Option (Io n) := (ioRun env io call).toOption

-- Every page goes to an offset inside the file as the pages before it have left it.
def Covered (writable : Bool) : Nat → List (Usize × List Byte) → Prop
  | _,[] => True
  | size,(off,bytes)::rest => off.toNat ≤ size ∧
    Covered writable (if writable then max size (off.toNat+min bytes.length (inodeMaxBytes-off.toNat)) else size) rest

-- The size of the inode behind file `f`.
def sizeOf (io : Io n) (f : Nat) : Nat :=
  match io.kernel.fs.inodes (io.kernel.files f).ip with
  | some inode => inode.entry.numBytes.toNat
  | none => 0

instance (writable : Bool) : ∀ (size : Nat) (writes : List (Usize × List Byte)), Decidable (Covered writable size writes)
  | _,[] => inferInstanceAs (Decidable True)
  | size,(off,bytes)::rest =>
    have := instDecidableCovered writable
        (if writable then max size (off.toNat+min bytes.length (inodeMaxBytes-off.toNat)) else size) rest
    inferInstanceAs (Decidable (_ ∧ _))

-- openat is called for a regular file, mmap with an offset inside the file, and munmap
-- of pages whose offsets are in the file.
def Inside (env : Env) (io : Io n) : IoCall n → Prop
  | .openat _ found _ _ => found.all fun no => allocated env.sblock io.kernel.fs no && (entryOf env.sblock io.kernel.fs no).type == inodeRegular
  | .mmap pid fd length prot _ offset => 0 < length.toInt → (prot.signExtend 64 : U64) ≠ protNone → (prot.signExtend 64 : U64) &&& protExec = 0#64 →
      ∀ p ∈ io.kernel.procs pid, ∀ f ∈ fd2file p fd, (io.kernel.files f).type = .inode →
          (offset.signExtend 64 : Usize).toNat ≤ sizeOf io f
  | .munmap pid va length touched contents => ∀ p ∈ io.kernel.procs pid, ∀ found ∈ splitAt va p.sections, ∀ f ∈ found.2.1.fp,
      (io.kernel.files f).type = .inode → Covered (io.kernel.files f).writable (sizeOf io f)
        (if found.2.1.last-found.2.1.first ≤ length then writesOf found.2.1 found.2.1.last touched contents
          else writesOf found.2.1 (found.2.1.first+length) (fun _ => true) contents)
  | _ => True

instance (env : Env) (io : Io n) : ∀ call, Decidable (Inside env io call)
  | .openat .. => inferInstanceAs (Decidable (_ = true))
  | .mmap .. => inferInstanceAs (Decidable (_ → _))
  | .munmap .. => inferInstanceAs (Decidable (∀ _, _))
  | .read .. => inferInstanceAs (Decidable True)
  | .write .. => inferInstanceAs (Decidable True)
  | .writev .. => inferInstanceAs (Decidable True)

-- No inode is longer than its blocks can be.
def Sized (sb : SuperBlock) (fs : Fs) : Prop := ∀ no, InTable sb no → (entryOf sb fs no).numBytes.toNat ≤ inodeMaxBytes

structure InBounds (env : Env) (io : Io n) : Prop where
  consistent : Consistent env.sblock io.kernel.fs
  sized : Sized env.sblock io.kernel.fs
  typed : ∀ f, (io.kernel.files f).type ≠ .none → 0 < (io.kernel.files f).ref
  counted : ∀ p, (io.kernel.filesOn p : Int) ≤ rcOf io.kernel.fs p
  inside : ∀ f, (io.kernel.files f).type = .inode → f < nFile ∧ ∃ inode, io.kernel.fs.inodes (io.kernel.files f).ip = some inode ∧
    inode.entry.type = inodeRegular ∧ (io.off f).toNat ≤ inode.entry.numBytes.toNat

section layer
variable {env : Env} {ctx : Ctx} {sb : SuperBlock} {fs fs' fs'' : Fs} {p q : Usize} {inode : Inode}

-- What reads and writes of open files leave of the inodes.
structure Steady (sb : SuperBlock) (fs fs' : Fs) : Prop where
  consistent : Consistent sb fs'
  sized : Sized sb fs'
  rc : ∀ q, rcOf fs' q = rcOf fs q
  inodes : ∀ q inode, fs.inodes q = some inode → ∃ inode', fs'.inodes q = some inode' ∧ inode'.entry.type = inode.entry.type ∧
    inode.entry.numBytes.toNat ≤ inode'.entry.numBytes.toNat

theorem Steady.trans (first : Steady sb fs fs') (second : Steady sb fs' fs'') : Steady sb fs fs'' := by
  refine ⟨second.consistent,second.sized,fun q => (second.rc q).trans (first.rc q),fun q inode found => ?_⟩
  obtain ⟨inode',found',type,size⟩ := first.inodes q inode found
  obtain ⟨inode'',found'',type',size'⟩ := second.inodes q inode' found'
  exact ⟨inode'',found'',type'.trans type,Nat.le_trans size size'⟩

theorem steady_of_works (consistent : Consistent sb fs) (sized : Sized sb fs) (found : fs.inodes p = some inode)
    (works : Works sb (allocated sb fs) p fs fs') (counts : Counts 0 fs fs')
    (own : ∃ inode', fs'.inodes p = some inode' ∧
      inode'.entry.type = inode.entry.type ∧ inode.entry.numBytes.toNat ≤ inode'.entry.numBytes.toNat ∧
      inode'.entry.numBytes.toNat ≤ inodeMaxBytes) : Steady sb fs fs' := by
  obtain ⟨inode',found',type,grown,bound⟩ := own
  refine ⟨works.consistent consistent found,?_,fun q => (counts.rc q).trans (Int.add_zero _),?_⟩
  · intro no inTable
    by_cases mine : no = p
    · subst mine
      rw [entryOf,found']
      exact bound
    · rw [works.beside.entryOf no inTable mine]
      exact sized no inTable
  · intro q other there
    by_cases mine : q = p
    · subst mine
      cases found.symm.trans there
      exact ⟨inode',found',type,grown⟩
    · exact ⟨other,(works.beside.inodes q mine).trans there,rfl,Nat.le_refl _⟩

theorem Sized.loaded (sized : Sized sb fs) (consistent : Consistent sb fs) (found : fs.inodes p = some inode) :
    inode.entry.numBytes.toNat ≤ inodeMaxBytes := by
  have bound := sized p (consistent.owned.inTable p (consistent.owned.loaded p inode found).1)
  rwa [entryOf,found] at bound

theorem inodeLock_steady (consistent : Consistent sb fs) (sized : Sized sb fs) (ran : inodeLock p fs = .ok fs') :
    Steady sb fs fs' := by
  have works := inodeLock_works consistent.owned ran
  have counts := inodeLock_counts ran
  obtain ⟨inode,lock,found,rfl⟩ := inodeLock_set ran
  have bound := sized.loaded consistent found
  exact steady_of_works consistent sized found works counts ⟨_,Function.update_self ..,rfl,Nat.le_refl _,bound⟩

theorem inodeUnlock_steady (consistent : Consistent sb fs) (sized : Sized sb fs) (ran : inodeUnlock p fs = .ok fs') :
    Steady sb fs fs' := by
  have works := inodeUnlock_works consistent.owned ran
  have counts := inodeUnlock_counts ran
  obtain ⟨inode,lock,found,rfl⟩ := inodeUnlock_set ran
  have bound := sized.loaded consistent found
  exact steady_of_works consistent sized found works counts ⟨_,Function.update_self ..,rfl,Nat.le_refl _,bound⟩

theorem inodeRead_steady {bytes : List Byte} {r offset count : Usize} (layout : Layout env.sblock)
    (consistent : Consistent env.sblock fs) (sized : Sized env.sblock fs)
    (ran : inodeRead env p offset count fs = .ok (r,bytes,fs')) : Steady env.sblock fs fs' := by
  have works := inodeRead_works layout consistent.owned ran
  have frames := inodeRead_frames layout consistent.owned p ran
  obtain ⟨inode,found,_⟩ := Runs.bind_ok.mp ran
  have found := Fs.inode_ok.mp found
  obtain ⟨inode',found',type,number,_⟩ := frames inode found
  refine steady_of_works consistent sized found works (inodeRead_counts ran) ⟨inode',found',type,by rw [number],?_⟩
  rw [number]
  exact sized.loaded consistent found

theorem inodeWrite_steady {src : List Byte} {r offset : Usize} (layout : Layout env.sblock)
    (consistent : Consistent env.sblock fs) (sized : Sized env.sblock fs) (found : fs.inodes p = some inode)
    (file : inode.entry.type ≠ inodeDevice) (fits : offset.toNat+src.length ≤ inodeMaxBytes)
    (ran : inodeWrite env ctx p src offset fs = .ok (r,fs')) :
    Steady env.sblock fs fs' ∧ r.toNat = src.length ∧ ∃ inode', fs'.inodes p = some inode' ∧
    offset.toNat+src.length ≤ inode'.entry.numBytes.toNat := by
  have works := inodeWrite_works layout consistent.owned ran
  have old := sized.loaded consistent found
  have bound : inodeMaxBytes = 71680 := rfl
  obtain ⟨rfl,_,_,_,_,inode',found',type,size⟩ := inodeWrite_content layout consistent.owned found file fits ran
  refine ⟨steady_of_works consistent sized found works (inodeWrite_counts ran)
      ⟨inode',found',type,by omega,by omega⟩,?_,inode',found',by omega⟩
  rw [BitVec.toNat_ofNat,Nat.mod_eq_of_lt (by omega)]

theorem inodePut_sized (layout : Layout env.sblock) (consistent : Consistent env.sblock fs)
    (sized : Sized env.sblock fs) (ran : inodePut env ctx p fs = .ok fs') : Sized env.sblock fs' := by
  obtain ⟨inode,found,rfl | ⟨_,_,last,beside,_,empty,rfl⟩⟩ := inodePut_cases layout consistent.owned ran
  · have bound := sized.loaded consistent found
    have first := (setInode_owned consistent.owned found {inode with rc := inode.rc-1} rfl rfl rfl rfl).2
    intro no inTable
    by_cases mine : no = p
    · subst mine
      have here : (fs.setInode no {inode with rc := inode.rc-1}).inodes no = some {inode with rc := inode.rc-1} :=
          Function.update_self ..
      rw [entryOf,here]
      exact bound
    · rw [first.entryOf no inTable mine]
      exact sized no inTable
  · intro no inTable
    by_cases mine : no = p
    · subst mine
      have gone : (Fs.mk last.cache (Function.update last.inodes no none)).inodes no = none := Function.update_self ..
      rw [entryOf,gone]
      change (diskEntry env.sblock last.cache no).numBytes.toNat ≤ inodeMaxBytes
      rw [empty]
      exact Nat.zero_le _
    · have kept : (Fs.mk last.cache (Function.update last.inodes p none)).inodes no = last.inodes no := Function.update_of_ne mine ..
      have same := beside.entryOf no inTable mine
      rw [entryOf,kept]
      change (entryOf env.sblock last no).numBytes.toNat ≤ inodeMaxBytes
      rw [same]
      exact sized no inTable

-- The inode that openat works on, with its reference.
structure Opened (sb : SuperBlock) (ip : Usize) (fs fs' : Fs) : Prop where
  consistent : Consistent sb fs'
  sized : Sized sb fs'
  rc : ∀ q, rcOf fs' q = rcOf fs q+one ip q
  inodes : ∀ q inode, fs.inodes q = some inode → ∃ inode', fs'.inodes q = some inode' ∧ inode'.entry.type = inode.entry.type ∧
    inode.entry.numBytes.toNat ≤ inode'.entry.numBytes.toNat
  own : ∃ inode, fs'.inodes ip = some inode ∧ inode.entry.type = inodeRegular

theorem Opened.steady (opened : Opened sb p fs fs') (steady : Steady sb fs' fs'') : Opened sb p fs fs'' := by
  refine ⟨steady.consistent,steady.sized,fun q => (steady.rc q).trans (opened.rc q),fun q inode found => ?_,?_⟩
  · obtain ⟨inode',found',type,size⟩ := opened.inodes q inode found
    obtain ⟨inode'',found'',type',size'⟩ := steady.inodes q inode' found'
    exact ⟨inode'',found'',type'.trans type,Nat.le_trans size size'⟩
  · obtain ⟨inode,found,type⟩ := opened.own
    obtain ⟨inode',found',type',_⟩ := steady.inodes p inode found
    exact ⟨inode',found',type'.trans type⟩

theorem getLocked_opened {no : Usize} (consistent : Consistent env.sblock fs) (sized : Sized env.sblock fs)
    (alive : allocated env.sblock fs no = true) (regular : (entryOf env.sblock fs no).type = inodeRegular)
    (ran : getLocked env no fs = .ok (p,fs')) : Opened env.sblock p fs fs' := by
  obtain ⟨⟨q,middle⟩,got,ran⟩ := Runs.bind_ok.mp ran
  have first := inodeGet_consistent consistent (.inr alive) got
  cases q with
  | none => cases ran
  | some q =>
    obtain ⟨last,locked,ran⟩ := Runs.bind_ok.mp ran
    cases ran
    have counts := inodeGet_counts got
    obtain ⟨rfl,inTable,cache,⟨inode,found,entry⟩,others⟩ := inodeGet_found got
    have same : ∀ no, entryOf env.sblock middle no = entryOf env.sblock fs no := by
      intro no
      by_cases mine : no = p
      · subst mine
        rw [← entry]
        simp only [entryOf,found]
      · simp only [entryOf,others no mine,cache]
    have sized₁ : Sized env.sblock middle := fun no inTable => by
      rw [same no]
      exact sized no inTable
    have opened : Opened env.sblock p fs middle := by
      refine ⟨first,sized₁,counts.rc,fun r other there => ?_,inode,found,by rw [entry]; exact regular⟩
      by_cases mine : r = p
      · subst mine
        refine ⟨inode,found,?_⟩
        rw [entry,entryOf,there]
        exact ⟨rfl,Nat.le_refl _⟩
      · exact ⟨other,(others r mine).trans there,rfl,Nat.le_refl _⟩
    exact opened.steady (inodeLock_steady first sized₁ locked)

theorem newInode_opened {major minor : U16} (layout : Layout env.sblock) (consistent : Consistent env.sblock fs)
    (sized : Sized env.sblock fs) (ran : newInode env ctx inodeRegular major minor fs = .ok (p,fs')) :
    Opened env.sblock p fs fs' := by
  obtain ⟨⟨no,a⟩,entered,ran⟩ := Runs.bind_ok.mp ran
  have consistent₁ := inodeAlloc_consistent layout consistent entered
  obtain ⟨inTable,valid,free,rfl⟩ := inodeAlloc_enters entered
  obtain ⟨⟨q,b⟩,got,ran⟩ := Runs.bind_ok.mp ran
  obtain ⟨inode,there,ran⟩ := Runs.bind_ok.mp ran
  obtain ⟨last,synced,ran⟩ := Runs.bind_ok.mp ran
  cases ran
  have unloaded : fs.inodes no = none := by
    by_contra loaded
    obtain ⟨inode,found⟩ := Option.ne_none_iff_exists'.mp loaded
    exact (allocated_iff.mp (consistent.owned.loaded no inode found).1).2 free
  generalize entry : InodeEntry.zero.setType inodeRegular = fresh at got consistent₁
  have own : entryOf env.sblock (fs.setCache (writeEntry env.sblock ctx fs.cache no fresh)) no = fresh := by
    simp only [entryOf,Fs.setCache,unloaded]
    exact writeEntry_own _ _
  have sized₁ : Sized env.sblock (fs.setCache (writeEntry env.sblock ctx fs.cache no fresh)) := by
    intro other inside
    by_cases mine : other = no
    · subst mine
      rw [own,← entry]
      exact Nat.zero_le _
    · have same : entryOf env.sblock
        (fs.setCache (writeEntry env.sblock ctx fs.cache no fresh)) other = entryOf env.sblock fs other := by
        simp only [entryOf,Fs.setCache,writeEntry_other layout fs.cache inTable inside mine]
      rw [same]
      exact sized other inside
  have alive : allocated env.sblock (fs.setCache (writeEntry env.sblock ctx fs.cache no fresh)) no = true := by
    refine allocated_iff.mpr ⟨inTable,?_⟩
    rw [show diskEntry env.sblock
        (fs.setCache (writeEntry env.sblock ctx fs.cache no fresh)).cache no = fresh from writeEntry_own _ _,← entry]
    exact valid
  have opened : Opened env.sblock p (fs.setCache (writeEntry env.sblock ctx fs.cache no fresh)) b :=
    getLocked_opened consistent₁ sized₁ alive (by rw [own,← entry]; rfl) got
  have found := Fs.inode_ok.mp there
  have bound := opened.sized.loaded opened.consistent found
  obtain ⟨consistent₃,_,beside,rfl⟩ := sync_consistent layout opened.consistent found
      ((inode.entry.setDevice major minor).setNumLinks 1#16) rfl rfl rfl synced
  generalize updated : (inode.entry.setDevice major minor).setNumLinks 1#16 = e at consistent₃ beside
  have here : ((b.setEntry p inode e).setCache (writeEntry env.sblock ctx b.cache p e)).inodes p = some {inode with entry := e} :=
    Function.update_self ..
  have steady : Steady env.sblock b ((b.setEntry p inode e).setCache (writeEntry env.sblock ctx b.cache p e)) := by
    refine ⟨consistent₃,?_,fun q => ?_,fun q other loaded => ?_⟩
    · intro q inside
      by_cases mine : q = p
      · subst mine
        rw [entryOf,here,← updated]
        exact bound
      · rw [beside.entryOf q inside mine]
        exact opened.sized q inside
    · have same : rcOf (b.setInode p {inode with entry := e}) q = rcOf b q+0*one p q :=
        rcOf_set found 0 (show ({inode with entry := e} : Inode).rc = inode.rc+0 from (Int.add_zero _).symm) q
      rw [Int.zero_mul,Int.add_zero] at same
      exact same
    · by_cases mine : q = p
      · subst mine
        cases found.symm.trans loaded
        exact ⟨_,here,by rw [← updated]; rfl,by rw [← updated]; exact Nat.le_refl _⟩
      · exact ⟨other,(beside.inodes q mine).trans loaded,rfl,Nat.le_refl _⟩
  have all := opened.steady steady
  exact ⟨all.consistent,all.sized,all.rc,all.inodes,all.own⟩

end layer

section files
variable {env : Env} {io io' : Io n} {f : Nat} {fs' : Fs}

theorem lift_avoids {x : Except Fault α} {post : α → Prop} (holds : ∀ a, x = .ok a → post a) :
    Avoids .asserted post (lift x) := by
  cases x with
  | error fault => simp [lift,Avoids]
  | ok a => exact holds a rfl

theorem InBounds.fs (bounds : InBounds env io) (steady : Steady env.sblock io.kernel.fs fs') (op : Nat) :
    InBounds env (io.setFs fs' op) := by
  refine ⟨steady.consistent,steady.sized,bounds.typed,?_,?_⟩
  · intro p
    exact (bounds.counted p).trans_eq (steady.rc p).symm
  · intro f open_
    obtain ⟨small,inode,found,type,below⟩ := bounds.inside f open_
    obtain ⟨inode',found',type',grown⟩ := steady.inodes _ inode found
    exact ⟨small,inode',found',type'.trans type,Nat.le_trans below grown⟩

theorem sizeOf_found (io : Io n) {inode : Inode} (found : io.kernel.fs.inodes (io.kernel.files f).ip = some inode) :
    sizeOf io f = inode.entry.numBytes.toNat := by
  rw [sizeOf,found]

theorem sizeOf_grows (io : Io n) (steady : Steady env.sblock io.kernel.fs fs') (op : Nat) :
    sizeOf io f ≤ sizeOf (io.setFs fs' op) f := by
  cases found : io.kernel.fs.inodes (io.kernel.files f).ip with
  | none =>
    rw [sizeOf,found]
    exact Nat.zero_le _
  | some inode =>
    obtain ⟨inode',found',_,grown⟩ := steady.inodes _ inode found
    rw [sizeOf_found _ found,sizeOf_found (io.setFs fs' op) found']
    exact grown

theorem InBounds.seek (bounds : InBounds env io) (off : Usize)
    (fits : (io.kernel.files f).type = .inode → off.toNat ≤ sizeOf io f) :
    InBounds env (io.seek f off) := by
  refine ⟨bounds.consistent,bounds.sized,bounds.typed,bounds.counted,?_⟩
  intro g open_
  obtain ⟨small,inode,found,type,below⟩ := bounds.inside g open_
  refine ⟨small,inode,found,type,?_⟩
  by_cases mine : g = f
  · subst mine
    have here : (io.seek g off).off g = off := Function.update_self ..
    rw [here,← sizeOf_found _ found]
    exact fits open_
  · have other : (io.seek f off).off g = io.off g := Function.update_of_ne mine ..
    rw [other]
    exact below

theorem regular_file {inode : Inode} (regular : inode.entry.type = inodeRegular) : inode.entry.type ≠ inodeDevice := by
  rw [regular]
  decide

-- inode_read below the end of a file: the offset moves no further than the end.
theorem readAsserts_inside {inode : Inode} {offset : Usize} (inside : offset.toNat ≤ inode.entry.numBytes.toNat)
    (count : Usize) (small : offset.toNat+count.toNat < 2^64) : ReadAsserts inode offset count ∧
      (offset+readCount (inode.entry.numBytes.setWidth 64) offset count).toNat ≤ inode.entry.numBytes.toNat := by
  have counted := readCount_toNat inode.entry.numBytes offset count inside small
  have wide : (inode.entry.numBytes.setWidth 64).toNat = inode.entry.numBytes.toNat := by
    rw [BitVec.toNat_setWidth,Nat.mod_eq_of_lt (by omega)]
  have ends : (offset+readCount (inode.entry.numBytes.setWidth 64) offset count).toNat =
      offset.toNat+min count.toNat (inode.entry.numBytes.toNat-offset.toNat) := by
    rw [BitVec.toNat_add,counted,Nat.mod_eq_of_lt (by omega)]
  refine ⟨.inr ⟨?_,?_,?_⟩,by omega⟩
  · rw [BitVec.le_def,wide]
    exact inside
  · rw [BitVec.le_def,ends,wide]
    omega
  · rw [BitVec.le_def,ends]
    omega

theorem inodeRead_count {inode : Inode} {fs fs' : Fs} {p r offset count : Usize} {bytes : List Byte}
    (found : fs.inodes p = some inode) (file : inode.entry.type ≠ inodeDevice)
    (ran : inodeRead env p offset count fs = .ok (r,bytes,fs')) :
    r = readCount (inode.entry.numBytes.setWidth 64) offset count := by
  obtain ⟨same,there,ran⟩ := Runs.bind_ok.mp ran
  cases (Fs.inode_ok.mp there).symm.trans found
  simp only [if_neg file] at ran
  split at ran
  · obtain ⟨⟨_,modified,_⟩,_,ran⟩ := Runs.bind_ok.mp ran
    cases modified with
    | true => cases ran
    | false =>
      cases ran
      rfl
  · cases ran

theorem ioRead_bounds (layout : Layout env.sblock) (bounds : InBounds env io) (f : Nat) {count : Usize}
    (small : inodeMaxBytes+count.toNat < 2^64) :
    Avoids .asserted (InBounds env) (ioRead env f count io) := by
  unfold ioRead
  simp only
  split
  · exact bounds
  · split
    · rename_i open_
      refine (lift_avoids fun _ ran => ran).bind fun fs₁ locked => ?_
      have first := inodeLock_steady bounds.consistent bounds.sized locked
      have bounds₁ := bounds.fs first io.kernel.op
      obtain ⟨_,inode,found,type,below⟩ := bounds₁.inside f open_
      have found : fs₁.inodes (io.kernel.files f).ip = some inode := found
      have below : (io.off f).toNat ≤ inode.entry.numBytes.toNat := below
      have bound := bounds₁.sized.loaded bounds₁.consistent found
      obtain ⟨asserts,ends⟩ := readAsserts_inside below count (by omega)
      refine (lift_avoids fun _ ran => ran).bind fun inode' there => ?_
      cases (Fs.inode_ok.mp there).symm.trans found
      rw [if_neg (not_not.mpr asserts)]
      refine (lift_avoids fun _ ran => ran).bind ?_
      rintro ⟨nread,bytes,fs₂⟩ read
      have second := inodeRead_steady layout first.consistent first.sized read
      have number := inodeRead_count found (regular_file type) read
      refine (lift_avoids fun _ ran => ran).bind fun fs₃ unlocked => ?_
      have third := inodeUnlock_steady second.consistent second.sized unlocked
      have later := second.trans third
      refine (bounds.fs (first.trans later) io.kernel.op).seek _ fun _ => ?_
      have grown : sizeOf (io.setFs fs₁ io.kernel.op) f ≤ sizeOf (io.setFs fs₃ io.kernel.op) f := sizeOf_grows
          (io.setFs fs₁ io.kernel.op) later _
      rw [sizeOf_found (io.setFs fs₁ io.kernel.op) found] at grown
      rw [number]
      exact Nat.le_trans ends grown
    · simp [Avoids]

-- What a write leaves: the file is open as before and reaches at least to `last`.
structure Written (env : Env) (f : Nat) (io : Io n) (last : Nat) (io' : Io n) : Prop where
  bounds : InBounds env io'
  files : io'.kernel.files = io.kernel.files
  procs : io'.kernel.procs = io.kernel.procs
  size : max (sizeOf io f) last ≤ sizeOf io' f

theorem writeAsserts_inside {inode : Inode} {offset : Usize} {count : Nat}
    (inside : offset.toNat ≤ inode.entry.numBytes.toNat) (fits : offset.toNat+count ≤ inodeMaxBytes) :
    WriteAsserts inode offset (BitVec.ofNat 64 count) := by
  have bound : inodeMaxBytes = 71680 := rfl
  have ends : (offset+BitVec.ofNat 64 count).toNat = offset.toNat+count := by
    rw [BitVec.toNat_add,BitVec.toNat_ofNat,Nat.mod_eq_of_lt (a := count) (by omega),Nat.mod_eq_of_lt (by omega)]
  refine .inr ⟨?_,by omega,?_⟩
  · rw [BitVec.le_def,BitVec.toNat_setWidth,Nat.mod_eq_of_lt (by omega)]
    exact inside
  · rw [BitVec.le_def,ends]
    omega

theorem ioWriteLoop_bounds (layout : Layout env.sblock) (fuel : Nat) (src : List Byte) (bounds : InBounds env io)
    (open_ : (io.kernel.files f).type = .inode) (enough : src.length ≤ fuel)
    (fits : (io.off f).toNat+src.length ≤ inodeMaxBytes) :
    Avoids .asserted (Written env f io ((io.off f).toNat+src.length)) (ioWriteLoop env f fuel src io) := by
  induction fuel generalizing src io with
  | zero =>
    have none : src = [] := List.length_eq_zero_iff.mp (by omega)
    subst none
    obtain ⟨_,inode,found,_,below⟩ := bounds.inside f open_
    refine ⟨bounds,rfl,rfl,?_⟩
    rw [sizeOf_found _ found]
    exact Nat.max_le.mpr ⟨Nat.le_refl _,below⟩
  | succ fuel ih =>
    unfold ioWriteLoop
    split
    · rename_i none
      subst none
      obtain ⟨_,inode,found,_,below⟩ := bounds.inside f open_
      refine ⟨bounds,rfl,rfl,?_⟩
      rw [sizeOf_found _ found]
      exact Nat.max_le.mpr ⟨Nat.le_refl _,below⟩
    · rename_i some_left
      have length : (src.take maxOpWriteN).length = min maxOpWriteN src.length := List.length_take
      have positive : 0 < (src.take maxOpWriteN).length := by
        have unit : maxOpWriteN = 1536 := rfl
        have left := List.length_pos_iff.mpr some_left
        omega
      refine (lift_avoids fun _ ran => ran).bind fun fs₁ locked => ?_
      have first := inodeLock_steady bounds.consistent bounds.sized locked
      have bounds₁ := bounds.fs first io.kernel.op
      obtain ⟨_,inode,found,type,below⟩ := bounds₁.inside f open_
      have found : fs₁.inodes (io.kernel.files f).ip = some inode := found
      have below : (io.off f).toNat ≤ inode.entry.numBytes.toNat := below
      refine (lift_avoids fun _ ran => ran).bind fun inode' there => ?_
      cases (Fs.inode_ok.mp there).symm.trans found
      rw [if_neg (not_not.mpr (writeAsserts_inside below (by omega)))]
      refine (lift_avoids fun _ ran => ran).bind ?_
      rintro ⟨w,fs₂⟩ wrote
      obtain ⟨second,number,inode₂,found₂,reached⟩ := inodeWrite_steady layout first.consistent first.sized found
          (regular_file type) (by omega) wrote
      refine (lift_avoids fun _ ran => ran).bind fun fs₃ unlocked => ?_
      have third := inodeUnlock_steady second.consistent second.sized unlocked
      have all := (first.trans second).trans third
      have bound : inodeMaxBytes = 71680 := rfl
      have moved : (io.off f+w).toNat = (io.off f).toNat+(src.take maxOpWriteN).length := by
        rw [BitVec.toNat_add,number,Nat.mod_eq_of_lt (by omega)]
      -- The state behind this round.
      have grown := sizeOf_grows io (f := f) all (io.kernel.op+1)
      have ahead : (io.off f).toNat+(src.take maxOpWriteN).length ≤ sizeOf (io.setFs fs₃ (io.kernel.op+1)) f := by
        obtain ⟨inode₃,found₃,_,more⟩ := third.inodes _ inode₂ found₂
        rw [sizeOf_found (io.setFs fs₃ (io.kernel.op+1)) found₃]
        omega
      have bounds₃ : InBounds env ((io.setFs fs₃ (io.kernel.op+1)).seek f (io.off f+w)) := by
        refine (bounds.fs all (io.kernel.op+1)).seek _ fun _ => ?_
        rw [moved]
        exact ahead
      have here : ((io.setFs fs₃ (io.kernel.op+1)).seek f (io.off f+w)).off f = io.off f+w := Function.update_self ..
      have rest : (src.drop w.toNat).length = src.length-(src.take maxOpWriteN).length := by
        rw [List.length_drop,number]
      refine (ih (src.drop w.toNat) bounds₃ open_ (by omega) (by rw [here,moved,rest]; omega)).mono fun io' written => ?_
      refine ⟨written.bounds,written.files,written.procs,?_⟩
      have size := written.size
      rw [here,moved,rest] at size
      change max (sizeOf (io.setFs fs₃ (io.kernel.op+1)) f) _ ≤ _ at size
      omega

theorem writeCount_toNat (off : Usize) (inside : off.toNat ≤ inodeMaxBytes) (count : Usize) :
    (writeCount off count).toNat = min count.toNat (inodeMaxBytes-off.toNat) := by
  have bound : inodeMaxBytes = 71680 := rfl
  have room : (BitVec.ofNat 64 inodeMaxBytes-off).toNat = inodeMaxBytes-off.toNat := by
    rw [BitVec.toNat_sub,BitVec.toNat_ofNat]
    omega
  unfold writeCount
  split
  · rename_i less
    rw [BitVec.lt_def,room] at less
    omega
  · rename_i less
    rw [BitVec.lt_def,room] at less
    rw [room]
    omega

theorem ioWrite_bounds (layout : Layout env.sblock) (bounds : InBounds env io) (f : Nat) (src : List Byte) :
    Avoids .asserted (Written env f io (if (io.kernel.files f).type = .inode ∧ (io.kernel.files f).writable = true ∧
    src.length < 2^64 then
      (io.off f).toNat+min src.length (inodeMaxBytes-(io.off f).toNat) else 0)) (ioWrite env f src io) := by
  unfold ioWrite
  simp only
  by_cases closed : (io.kernel.files f).writable = false ∨ (io.kernel.files f).type = .pipe
  · rw [if_pos closed,if_neg]
    · exact ⟨bounds,rfl,rfl,by omega⟩
    · rintro ⟨open_,writable,_⟩
      rcases closed with unwritable | pipe
      · cases unwritable.symm.trans writable
      · cases pipe.symm.trans open_
  · rw [if_neg closed]
    by_cases open_ : (io.kernel.files f).type = .inode
    · obtain ⟨_,inode,found,_,below⟩ := bounds.inside f open_
      have bound := bounds.sized.loaded bounds.consistent found
      have count := writeCount_toNat (io.off f) (by omega) (BitVec.ofNat 64 src.length)
      have length : (src.take (writeCount (io.off f) (BitVec.ofNat 64 src.length)).toNat).length =
          min (writeCount (io.off f) (BitVec.ofNat 64 src.length)).toNat src.length := List.length_take
      rw [if_pos open_]
      refine (ioWriteLoop_bounds layout src.length _ bounds open_ (by omega) (by omega)).mono fun io' written => ?_
      refine ⟨written.bounds,written.files,written.procs,?_⟩
      have size := written.size
      split
      · rename_i all
        rw [BitVec.toNat_ofNat,Nat.mod_eq_of_lt all.2.2] at count
        omega
      · omega
    · rw [if_neg open_]
      simp [Avoids]

theorem ioWritev_bounds (layout : Layout env.sblock) (buffers : List (Bool × List Byte)) (bounds : InBounds env io)
    (f : Nat) :
    Avoids .asserted (InBounds env) (ioWritev env f buffers io) := by
  induction buffers generalizing io with
  | nil => exact bounds
  | cons buffer rest ih =>
    obtain ⟨granted,bytes⟩ := buffer
    unfold ioWritev
    split
    · exact (ioWrite_bounds layout bounds f bytes).bind fun io' written => ih written.bounds
    · exact bounds

theorem Covered.mono {writable : Bool} {size size' : Nat} (writes : List (Usize × List Byte))
    (covered : Covered writable size writes) (more : size ≤ size') :
    Covered writable size' writes := by
  induction writes generalizing size size' with
  | nil => trivial
  | cons write rest ih =>
    obtain ⟨off,bytes⟩ := write
    obtain ⟨inside,later⟩ := covered
    refine ⟨by omega,ih later ?_⟩
    split <;> omega

theorem ioWriteBack_bounds (layout : Layout env.sblock) (writes : List (Usize × List Byte))
    (bounds : InBounds env io) (f : Nat) (short : ∀ write ∈ writes, write.2.length < 2^64)
    (covered : (io.kernel.files f).type = .inode → Covered (io.kernel.files f).writable (sizeOf io f) writes) :
    Avoids .asserted (fun io' => InBounds env io' ∧ io'.kernel.files = io.kernel.files ∧
    io'.kernel.procs = io.kernel.procs) (ioWriteBack env f writes io) := by
  induction writes generalizing io with
  | nil => exact ⟨bounds,rfl,rfl⟩
  | cons write rest ih =>
    obtain ⟨off,bytes⟩ := write
    unfold ioWriteBack
    split
    · simp [Avoids]
    · rename_i inode
      have open_ : (io.kernel.files f).type = .inode := not_not.mp inode
      obtain ⟨inside,later⟩ := covered open_
      have sought := bounds.seek (f := f) off fun _ => inside
      refine (ioWrite_bounds layout sought f bytes).bind fun io' written => ?_
      have here : (io.seek f off).off f = off := Function.update_self ..
      have size := written.size
      rw [here] at size
      refine (ih written.bounds (fun write member => short write (List.mem_cons_of_mem _ member)) fun _ => ?_).mono fun _ after =>
        ⟨after.1,after.2.1.trans written.files,after.2.2.trans written.procs⟩
      rw [written.files]
      refine later.mono rest ?_
      have length := short (off,bytes) List.mem_cons_self
      split
      · rename_i writable
        have all : ((io.seek f off).kernel.files f).type = .inode ∧
            ((io.seek f off).kernel.files f).writable = true ∧ bytes.length < 2^64 :=
          ⟨open_,writable,length⟩
        rw [if_pos all] at size
        exact size
      · exact Nat.le_trans (Nat.le_max_left _ _) size

theorem pointsTo_some {file : File} (open_ : file.type = .inode) (positive : 0 < file.ref) : pointsTo file.ip file = 1 := if_pos ⟨open_,positive,rfl⟩

theorem pointsTo_other {file : File} (closed : file.type ≠ .inode) (p : Usize) : pointsTo p file = 0 := if_neg fun all => closed all.1

theorem InBounds.referred (bounds : InBounds env io) (open_ : (io.kernel.files f).type = .inode) :
    1 ≤ io.kernel.filesOn (io.kernel.files f).ip := by
  have small := (bounds.inside f open_).1
  have positive := bounds.typed f (by rw [open_]; decide)
  have member := Finset.single_le_sum (f := fun g => pointsTo (io.kernel.files f).ip (io.kernel.files g)) (fun _ _ => Nat.zero_le _)
    (Finset.mem_range.mpr small)
  rw [pointsTo_some open_ positive] at member
  exact member

theorem InBounds.procs (bounds : InBounds env io) (pid : Fin n) (p : Option Process) :
    InBounds env { io with kernel := io.kernel.setProc pid p } :=
  ⟨bounds.consistent,bounds.sized,bounds.typed,bounds.counted,bounds.inside⟩

theorem InBounds.record (bounds : InBounds env io) (closing : Closing) : InBounds env { io with kernel := io.kernel.record closing } :=
  ⟨bounds.consistent,bounds.sized,bounds.typed,bounds.counted,bounds.inside⟩

theorem InBounds.setFile (bounds : InBounds env io) (small : f < nFile) (file : File)
    (typed : file.type ≠ .none → 0 < file.ref)
    (counted : ∀ p, ((io.kernel.setFile f file).filesOn p : Int) ≤ rcOf io.kernel.fs p)
    (inside : file.type = .inode → (io.kernel.files f).type = .inode ∧ file.ip = (io.kernel.files f).ip) :
    InBounds env { io with kernel := io.kernel.setFile f file } := by
  have here : (io.kernel.setFile f file).files f = file := Function.update_self ..
  have others : ∀ g, g ≠ f → (io.kernel.setFile f file).files g = io.kernel.files g := fun g other => Function.update_of_ne other ..
  refine ⟨bounds.consistent,bounds.sized,fun g => ?_,counted,fun g => ?_⟩
  · by_cases mine : g = f
    · subst mine
      simp only [here]
      exact typed
    · simp only [others g mine]
      exact bounds.typed g
  · by_cases mine : g = f
    · subst mine
      simp only [here]
      intro open_
      obtain ⟨before,ip⟩ := inside open_
      rw [ip]
      exact bounds.inside g before
    · simp only [others g mine]
      exact bounds.inside g

theorem fileDup_bounds {k' : Kernel n} (bounds : InBounds env io) (ran : fileDup f io.kernel = .ok k') :
    InBounds env { io with kernel := k' } ∧ k'.fs = io.kernel.fs ∧ ∀ g, (k'.files g).ip = (io.kernel.files g).ip ∧
        (k'.files g).type = (io.kernel.files g).type := by
  unfold fileDup at ran
  split at ran
  · cases ran
  · rename_i inside
    cases ran
    refine ⟨bounds.setFile (by omega) _ (fun typed => ?_) (fun p => ?_) (fun open_ => ⟨open_,rfl⟩),rfl,fun g => ?_⟩
    · have positive := bounds.typed f typed
      simp only
      omega
    · have update := filesOn_setFile (show f < nFile by omega) io.kernel { io.kernel.files f with ref := (io.kernel.files f).ref+1 } p
      have same : pointsTo p { io.kernel.files f with ref := (io.kernel.files f).ref+1 } = pointsTo p (io.kernel.files f) := by
        by_cases open_ : (io.kernel.files f).type = .inode
        · have positive := bounds.typed f (by rw [open_]; decide)
          have more : 0 < (io.kernel.files f).ref+1 := by omega
          simp only [pointsTo,open_,positive,more]
        · rw [pointsTo_other open_,pointsTo_other
            (show ({ io.kernel.files f with ref := (io.kernel.files f).ref+1 } : File).type ≠ .inode from open_)]
      have counted := bounds.counted p
      omega
    · by_cases mine : g = f
      · subst mine
        simp only [Kernel.setFile,Function.update_self,and_self]
      · simp only [Kernel.setFile,Function.update_of_ne mine,and_self]

theorem InBounds.put {ip : Usize} {ctx : Ctx} (layout : Layout env.sblock) (bounds : InBounds env io)
    (spare : (io.kernel.filesOn ip : Int)+1 ≤ rcOf io.kernel.fs ip)
    (ran : inodePut env ctx ip io.kernel.fs = .ok fs') (op : Nat) :
    InBounds env (io.setFs fs' op) := by
  have counts := inodePut_counts ran
  have counted : ∀ p, (io.kernel.filesOn p : Int) ≤ rcOf fs' p := by
    intro p
    rw [counts.rc p,Pi.neg_apply]
    by_cases mine : p = ip
    · subst mine
      rw [one_self]
      omega
    · rw [one_other mine]
      have before := bounds.counted p
      omega
  refine ⟨inodePut_consistent layout bounds.consistent ran,inodePut_sized layout bounds.consistent bounds.sized ran,
      bounds.typed,counted,?_⟩
  intro f open_
  obtain ⟨small,inode,found,type,below⟩ := bounds.inside f open_
  refine ⟨small,?_⟩
  rcases inodePut_frames layout bounds.consistent.owned (io.kernel.files f).ip ran with frames | ⟨gone,_⟩
  · obtain ⟨inode',found',type',number,_⟩ := frames inode found
    exact ⟨inode',found',type'.trans type,by rw [number]; exact below⟩
  · -- An open file still refers to the inode.
    have referred := bounds.referred open_
    have left := counted (io.kernel.files f).ip
    rw [rcOf,gone] at left
    simp only at left
    omega

theorem fileClose_bounds {holders : Nat} {k' : Kernel n} (layout : Layout env.sblock) (bounds : InBounds env io)
    (ran : fileClose env holders f io.kernel = .ok k') : InBounds env { io with kernel := k' } := by
  unfold fileClose at ran
  split at ran
  · cases ran
  · rename_i inside
    have small : f < nFile := by omega
    simp only at ran
    split at ran
    · cases ran
      exact bounds.record _
    · rename_i typed
      split at ran
      · rename_i shared
        cases ran
        refine (bounds.setFile small { io.kernel.files f with ref := (io.kernel.files f).ref-1 } (fun _ => shared)
            (fun p => ?_) fun open_ => ⟨open_,rfl⟩).record _
        have update := filesOn_setFile small io.kernel { io.kernel.files f with ref := (io.kernel.files f).ref-1 } p
        have fewer : pointsTo p { io.kernel.files f with ref := (io.kernel.files f).ref-1 } ≤ pointsTo p (io.kernel.files f) := by
          have positive : 0 < (io.kernel.files f).ref := by omega
          simp only [pointsTo,shared,positive]
          exact Nat.le_refl _
        have counted := bounds.counted p
        omega
      · have update := filesOn_setFile small io.kernel { io.kernel.files f with ref := 0, type := .none }
        have none : ∀ p, pointsTo p { io.kernel.files f with ref := 0, type := .none } = 0 := pointsTo_other (by simp)
        have closed := bounds.setFile small { io.kernel.files f with ref := 0, type := .none }
            (fun typed => absurd rfl typed) (fun p => by
          have counted := bounds.counted p
          have update := update p
          have none := none p
          omega) (fun open_ => by cases open_)
        split at ran
        · cases ran
          exact closed.record _
        · rename_i pipe
          obtain ⟨fs,put,ran⟩ := Runs.bind_ok.mp ran
          cases ran
          have open_ : (io.kernel.files f).type = .inode := by
            cases type : (io.kernel.files f).type with
            | none => exact absurd type typed
            | pipe => exact absurd type pipe
            | inode => rfl
          have spare : ((io.kernel.setFile f { io.kernel.files f with ref := 0, type := .none }).filesOn
              (io.kernel.files f).ip : Int)+1 ≤
              rcOf io.kernel.fs (io.kernel.files f).ip := by
            have update := update (io.kernel.files f).ip
            rw [none,pointsTo_some open_ (bounds.typed f typed)] at update
            have counted := bounds.counted (io.kernel.files f).ip
            omega
          exact (closed.put layout spare put _).record _

-- openat's inode: the open files are as they were, and the reference is spare.
theorem InBounds.opened {ip : Usize} (bounds : InBounds env io) (opened : Opened env.sblock ip io.kernel.fs fs')
    (op : Nat) :
    InBounds env (io.setFs fs' op) ∧ (io.kernel.filesOn ip : Int)+1 ≤ rcOf fs' ip := by
  refine ⟨⟨opened.consistent,opened.sized,bounds.typed,fun p => ?_,fun f open_ => ?_⟩,?_⟩
  · have before := bounds.counted p
    have more := one_nonneg ip p
    have rc := opened.rc p
    change (io.kernel.filesOn p : Int) ≤ rcOf fs' p
    omega
  · obtain ⟨small,inode,found,type,below⟩ := bounds.inside f open_
    obtain ⟨inode',found',type',grown⟩ := opened.inodes _ inode found
    exact ⟨small,inode',found',type'.trans type,Nat.le_trans below grown⟩
  · have before := bounds.counted ip
    have rc := opened.rc ip
    rw [one_self] at rc
    omega

theorem unlockPut_bounds {ip : Usize} {ctx : Ctx} (layout : Layout env.sblock) (bounds : InBounds env io)
    (spare : (io.kernel.filesOn ip : Int)+1 ≤ rcOf io.kernel.fs ip)
    (ran : unlockPut env ctx ip io.kernel.fs = .ok fs') (op : Nat) :
    InBounds env (io.setFs fs' op) := by
  obtain ⟨middle,unlocked,ran⟩ := Runs.bind_ok.mp ran
  have steady := inodeUnlock_steady bounds.consistent bounds.sized unlocked
  have first := bounds.fs steady op
  refine first.put layout ?_ ran op
  exact spare.trans_eq (steady.rc ip).symm

theorem filesOn_closed (small : f < nFile) (k : Kernel n) (file : File) (closed : (k.files f).type ≠ .inode)
    (closed' : file.type ≠ .inode) (p : Usize) :
    (k.setFile f file).filesOn p = k.filesOn p := by
  have update := filesOn_setFile small k file p
  have before := pointsTo_other closed p
  have after := pointsTo_other closed' p
  omega

theorem fileAlloc_bounds {k' : Kernel n} (bounds : InBounds env io) (found : fileAlloc io.kernel = some (f,k')) :
    InBounds env { io with kernel := k' } ∧ f < nFile ∧ k'.files f = { io.kernel.files f with ref := 1 } ∧ (k'.files f).type = .none ∧
      ∀ p, k'.filesOn p = io.kernel.filesOn p := by
  have small := fileAlloc_inside found
  obtain ⟨free,rfl⟩ := fileAlloc_free found
  have none : (io.kernel.files f).type = .none := by
    by_contra typed
    have positive := bounds.typed f typed
    omega
  have here : (io.kernel.setFile f { io.kernel.files f with ref := 1 }).files f = { io.kernel.files f with ref := 1 } := Function.update_self ..
  have closed : (io.kernel.files f).type ≠ .inode := by rw [none]; decide
  have same := filesOn_closed small io.kernel { io.kernel.files f with ref := 1 } closed closed
  refine ⟨bounds.setFile small _ (fun _ => Int.one_pos) (fun p => ?_) fun open_ => absurd open_ closed,small,here,
      by rw [here]; exact none,same⟩
  rw [same p]
  exact bounds.counted p

theorem InBounds.install {ip : Usize} (bounds : InBounds env io) (file : File) (small : f < nFile)
    (closed : (io.kernel.files f).type = .none) (spare : (io.kernel.filesOn ip : Int)+1 ≤ rcOf io.kernel.fs ip)
    (own : ∃ inode, io.kernel.fs.inodes ip = some inode ∧ inode.entry.type = inodeRegular)
    (open_ : file.type = .inode) (same : file.ip = ip) (positive : 0 < file.ref) :
    InBounds env (({ io with kernel := io.kernel.setFile f file } : Io n).seek f 0#64) := by
  have here : (io.kernel.setFile f file).files f = file := Function.update_self ..
  have others : ∀ g, g ≠ f → (io.kernel.setFile f file).files g = io.kernel.files g := fun g other => Function.update_of_ne other ..
  refine ⟨bounds.consistent,bounds.sized,fun g => ?_,fun p => ?_,fun g => ?_⟩
  · change ((io.kernel.setFile f file).files g).type ≠ .none → 0 < ((io.kernel.setFile f file).files g).ref
    by_cases mine : g = f
    · subst mine
      rw [here]
      exact fun _ => positive
    · rw [others g mine]
      exact bounds.typed g
  · have update := filesOn_setFile small io.kernel file p
    rw [pointsTo_other (by rw [closed]; decide)] at update
    change ((io.kernel.setFile f file).filesOn p : Int) ≤ rcOf io.kernel.fs p
    by_cases mine : p = ip
    · subst mine
      rw [← same,pointsTo_some open_ positive,same] at update
      omega
    · have other : pointsTo p file = 0 := if_neg fun all => mine (all.2.2.symm.trans same)
      have counted := bounds.counted p
      omega
  · change ((io.kernel.setFile f file).files g).type = .inode → g < nFile ∧ ∃ inode, io.kernel.fs.inodes
      ((io.kernel.setFile f file).files g).ip = some inode ∧
      inode.entry.type = inodeRegular ∧ (Function.update io.off f 0#64 g).toNat ≤ inode.entry.numBytes.toNat
    by_cases mine : g = f
    · subst mine
      obtain ⟨inode,found,regular⟩ := own
      rw [here,same,Function.update_self]
      exact fun _ => ⟨small,inode,found,regular,Nat.zero_le _⟩
    · rw [others g mine,Function.update_of_ne mine]
      exact bounds.inside g

theorem openInodeOf_bounds (layout : Layout env.sblock) (bounds : InBounds env io) {pid : Fin n}
    {found : Option Usize} {wronly rdwr : Bool} (regular : Inside env io (.openat pid found wronly rdwr)) :
    Avoids .asserted (InBounds env) (openInodeOf env pid found wronly rdwr io) := by
  unfold openInodeOf
  simp only
  refine (lift_avoids fun _ ran => ran).bind fun p _ => ?_
  refine (lift_avoids fun _ ran => ran).bind ?_
  rintro ⟨ip,fs₁⟩ got
  have opened : Opened env.sblock ip io.kernel.fs fs₁ := by
    cases found with
    | none => exact newInode_opened layout bounds.consistent bounds.sized got
    | some no =>
      obtain ⟨alive,type⟩ := (Bool.and_eq_true ..).mp regular
      exact getLocked_opened bounds.consistent bounds.sized alive (eq_of_beq type) got
  obtain ⟨bounds₁,spare⟩ := bounds.opened opened io.kernel.op
  split
  · refine (lift_avoids fun _ ran => ran).bind fun fs₂ given => ?_
    exact unlockPut_bounds layout bounds₁ spare given (io.kernel.op+1)
  · rename_i f k alloc
    have alloc₁ : fileAlloc (io.setFs fs₁ io.kernel.op).kernel = some (f,{ k with fs := fs₁ }) := by
      obtain ⟨_,rfl⟩ := fileAlloc_free alloc
      obtain ⟨g,free,same⟩ := Option.map_eq_some_iff.mp alloc
      cases same
      exact Option.map_eq_some_iff.mpr ⟨f,free,rfl⟩
    obtain ⟨bounds₂,small,here,closed,same⟩ := fileAlloc_bounds bounds₁ alloc₁
    have spare₂ : (({ k with fs := fs₁ } : Kernel n).filesOn ip : Int)+1 ≤ rcOf fs₁ ip := by
      rw [same ip]
      exact spare
    split
    · refine (lift_avoids fun _ ran => ran).bind fun k₂ closing => ?_
      -- The file has no type yet, so file_close leaves it alone.
      obtain ⟨entry,rfl⟩ : ∃ entry, k₂ = ({ k with fs := fs₁ } : Kernel n).record entry := by
        have closed : (k.files f).type = .none := closed
        rw [fileClose,if_neg (by omega)] at closing
        simp only [if_pos closed] at closing
        cases closing
        exact ⟨_,rfl⟩
      refine (lift_avoids fun _ ran => ran).bind fun fs₂ given => ?_
      exact unlockPut_bounds layout (bounds₂.record entry) spare₂ given _
    · rename_i fd free
      refine (lift_avoids fun _ ran => ran).bind fun fs₂ unlocked => ?_
      have steady := inodeUnlock_steady opened.consistent opened.sized unlocked
      have bounds₃ := bounds₂.fs steady (io.kernel.op+1)
      have own := (opened.steady steady).own
      have spare₃ : (({ k with fs := fs₁ } : Kernel n).filesOn ip : Int)+1 ≤ rcOf fs₂ ip := spare₂.trans_eq (steady.rc ip).symm
      have positive : 0 < (k.files f).ref := by
        have here : k.files f = { io.kernel.files f with ref := 1 } := here
        rw [here]
        exact Int.one_pos
      have installed := bounds₃.install { k.files f with
        type := .inode
        ip := ip
        readable := !wronly
        writable := wronly || rdwr } small closed spare₃ own rfl rfl positive
      exact ⟨installed.consistent,installed.sized,installed.typed,installed.counted,installed.inside⟩

theorem signExtend_small {x : BitVec 32} (low : x.toNat < 2^31+2^30) :
    inodeMaxBytes+(x.signExtend 64).toNat < 2^64 := by
  have bound : inodeMaxBytes = 71680 := rfl
  rw [BitVec.toNat_signExtend,BitVec.toNat_setWidth]
  split <;> omega

theorem alignInt_small {length : BitVec 32} (positive : ¬ length.toInt ≤ 0) : (alignInt length).toNat < 2^31+2^30 := by
  have page : pageSize = 4096 := rfl
  have below : (alignInt length).toNat ≤ (length+BitVec.ofNat 32 pageSize-1#32).toNat := by
    rw [alignInt,BitVec.toNat_and]
    exact Nat.and_le_left
  rw [BitVec.toInt_eq_toNat_cond] at positive
  rw [BitVec.toNat_sub,BitVec.toNat_add,page] at below
  simp only [BitVec.toNat_ofNat] at below
  split at positive <;> omega

theorem ioMmap_bounds (layout : Layout env.sblock) (bounds : InBounds env io) {pid : Fin n} {fd : Int}
    {length prot flags offset : BitVec 32} (inside : Inside env io (.mmap pid fd length prot flags offset)) :
    Avoids .asserted (InBounds env) (ioMmap env pid fd length prot flags offset io) := by
  unfold ioMmap
  simp only
  refine (lift_avoids fun _ ran => ran).bind fun p there => ?_
  split
  · exact bounds
  · rename_i accepted
    obtain ⟨some_prot,no_exec,positive⟩ : ¬ _ ∧ ¬ _ ∧ ¬ _ := by simpa only [not_or] using accepted
    split
    · exact bounds
    · rename_i f slot
      split
      · exact bounds
      · split
        · exact bounds
        · refine (lift_avoids fun _ ran => ran).bind fun k duplicated => ?_
          obtain ⟨bounds₁,fs,files⟩ := fileDup_bounds bounds duplicated
          refine ioRead_bounds layout ((bounds₁.procs pid _).seek _ fun open_ => ?_) f (signExtend_small (alignInt_small positive))
          have type : (k.files f).type = .inode := open_
          have size : sizeOf io f = sizeOf ({ io with kernel := k } : Io n) f := by
            simp only [sizeOf,fs,(files f).1]
          have below := inside (by omega) some_prot (not_not.mp no_exec) p (Kernel.proc_ok there) f slot ((files f).2.symm.trans type)
          rw [size] at below
          exact below

theorem writesOf_short (st : Section) (last : U64) (touched : U64 → Bool) (contents : U64 → Page) :
    ∀ write ∈ writesOf st last touched contents, write.2.length < 2^64 := by
  intro write member
  obtain ⟨va,_,rfl⟩ := List.mem_map.mp member
  have page : pageSize = 4096 := rfl
  rw [getBytes_length]
  omega

theorem ioMunmap_bounds (layout : Layout env.sblock) (bounds : InBounds env io) {pid : Fin n} {va length : U64}
    {touched : U64 → Bool} {contents : U64 → Page} (inside : Inside env io (.munmap pid va length touched contents)) :
    Avoids .asserted (InBounds env) (ioMunmap env pid va length touched contents io) := by
  unfold ioMunmap
  refine (lift_avoids fun _ ran => ran).bind fun p there => ?_
  split
  · exact bounds
  · rename_i before st after split_
    split
    · simp [Avoids]
    · split
      · simp [Avoids]
      · rename_i f fp
        have covered := inside p (Kernel.proc_ok there) (before,st,after) split_ f fp
        split
        · rename_i whole
          rw [if_pos whole] at covered
          refine (ioWriteBack_bounds layout _ bounds f (writesOf_short st _ _ _) covered).bind ?_
          rintro io₁ ⟨bounds₁,_,_⟩
          refine (lift_avoids fun _ ran => ran).bind fun k closed => ?_
          have bounds₂ := bounds₁.procs pid (some (p.setSections (before++after)))
          have done := fileClose_bounds layout bounds₂ closed
          exact done
        · rename_i part
          rw [if_neg part] at covered
          refine (ioWriteBack_bounds layout _ bounds f (writesOf_short st _ _ _) covered).bind ?_
          rintro io₁ ⟨bounds₁,_,_⟩
          exact bounds₁.procs pid _

theorem withFile_bounds {pid : Fin n} {fd : Int} {body : Nat → Except Stop (Io n)} (bounds : InBounds env io)
    (rest : ∀ f, Avoids .asserted (InBounds env) (body f)) : Avoids .asserted (InBounds env)
    (withFile pid fd io body) := by
  unfold withFile
  refine (lift_avoids fun _ ran => ran).bind fun p there => ?_
  split
  · exact bounds
  · exact rest _

theorem ioRun_bounds (layout : Layout env.sblock) (bounds : InBounds env io) {call : IoCall n}
    (inside : Inside env io call) :
    Avoids .asserted (InBounds env) (ioRun env io call) := by
  cases call with
  | openat pid found wronly rdwr => exact openInodeOf_bounds layout bounds inside
  | read pid fd size granted =>
    refine withFile_bounds bounds fun f => ?_
    split
    · exact bounds
    · rename_i accepted
      have positive : ¬ size.toInt ≤ 0 := fun small => accepted (.inl small)
      rw [BitVec.toInt_eq_toNat_cond] at positive
      refine ioRead_bounds layout bounds f (signExtend_small ?_)
      split at positive <;> omega
  | write pid fd bytes granted =>
    refine withFile_bounds bounds fun f => ?_
    split
    · exact bounds
    · exact (ioWrite_bounds layout bounds f bytes).mono fun _ written => written.bounds
  | writev pid fd buffers => exact withFile_bounds bounds fun f => ioWritev_bounds layout buffers bounds f
  | mmap pid fd length prot flags offset => exact ioMmap_bounds layout bounds inside
  | munmap pid va length touched contents => exact ioMunmap_bounds layout bounds inside

-- No file is open yet.
structure Blank (env : Env) (io : Io n) : Prop where
  consistent : Consistent env.sblock io.kernel.fs
  sized : Sized env.sblock io.kernel.fs
  files : ∀ f, (io.kernel.files f).type = .none
  counted : ∀ p, 0 ≤ rcOf io.kernel.fs p

theorem Blank.bounds (blank : Blank env io) : InBounds env io := by
  have none : ∀ p, io.kernel.filesOn p = 0 := by
    intro p
    refine Finset.sum_eq_zero fun f _ => ?_
    exact pointsTo_other (by rw [blank.files f]; decide) p
  refine ⟨blank.consistent,blank.sized,fun f typed => absurd (blank.files f) typed,fun p => ?_,fun f open_ => ?_⟩
  · rw [none p]
    exact blank.counted p
  · cases (blank.files f).symm.trans open_

theorem offsets_inside {start : Io n} (layout : Layout env.sblock) (blank : Blank env start)
    (path : Runs.Guarded (ioNext env) (Inside env) start io) :
    (∀ f, (io.kernel.files f).type = .inode → (io.off f).toNat ≤ sizeOf io f) ∧ ∀ call, Inside env io call →
    ioRun env io call ≠ .error .asserted := by
  have bounds : InBounds env io := by
    refine path.invariant (InBounds env) blank.bounds fun io call io' bounds inside ran => ?_
    have avoids := ioRun_bounds layout bounds inside
    unfold ioNext at ran
    cases result : ioRun env io call with
    | error stop =>
      rw [result] at ran
      cases ran
    | ok after =>
      rw [result] at ran avoids
      cases ran
      exact avoids
  refine ⟨fun f open_ => ?_,fun call inside failed => ?_⟩
  · obtain ⟨_,inode,found,_,below⟩ := bounds.inside f open_
    rw [sizeOf_found _ found]
    exact below
  · have avoids := ioRun_bounds layout bounds inside
    rw [failed] at avoids
    exact avoids rfl

end files

-- A process on an empty disk.
def firstIo : Io 1 := ⟨⟨blankDisk,fun _ => ⟨.none,0,false,false,0,0#64⟩,fun _ => some firstProcess,0,[],[]⟩,fun _ => 0#64⟩

theorem firstIo_blank : Blank blankEnv firstIo := by
  refine ⟨blank_image.consistent,fun no inTable => ?_,fun f => rfl,fun p => Int.le_refl _⟩
  change (diskEntry blankEnv.sblock blankDisk.cache no).numBytes.toNat ≤ inodeMaxBytes
  unfold diskEntry getEntry InodeEntry.ofImage
  rw [blank_table inTable]
  simp only [BitSlice.get_zero]
  exact Nat.zero_le _

-- A new file gets three bytes; its first page is mapped and written back.
theorem offsets_inside_mapped : ∃ io : Io 1, Runs.Guarded (ioNext blankEnv) (Inside blankEnv) firstIo io ∧
    sizeOf io 0 = 4096 ∧ (io.off 0).toNat ≤ sizeOf io 0 ∧
    ioRun blankEnv io (.mmap 0 0 1#32 3#32 2#32 4096#32) ≠ .error .asserted := by
  obtain ⟨io,ran,result⟩ := Runs.some_such (x := Runs.execGuarded (ioNext blankEnv) (Inside blankEnv) firstIo
    [.openat 0 none false true,.write 0 0 [1#8,2#8,3#8] true,.mmap 0 0 1#32 3#32 2#32 0#32,
      .munmap 0 0x7ffff000#64 4096#64 (fun _ => true) (fun _ => 0#32768)])
    (p := fun io => decide (sizeOf io 0 = 4096 ∧ (io.kernel.files 0).type = .inode ∧ Inside blankEnv io
        (.mmap 0 0 1#32 3#32 2#32 4096#32))) (by decide +kernel)
  obtain ⟨size,open_,inside⟩ := of_decide_eq_true result
  have path := Runs.exec_guarded .start ran
  obtain ⟨offsets,calls⟩ := offsets_inside blank_layout firstIo_blank path
  exact ⟨io,path,size,offsets 0 open_,calls _ inside⟩

-- mmap of an empty file from its second byte on.
theorem mmap_beyond_end : ¬ ∀ (env : Env) (start io : Io 1) (call : IoCall 1), Layout env.sblock → Blank env start →
    Runs.Guarded (ioNext env) (fun io call => ∀ pid found wronly rdwr, call = .openat pid found wronly rdwr →
    Inside env io call) start io →
    ioRun env io call ≠ .error .asserted := by
  intro inBounds
  obtain ⟨io,ran,result⟩ := Runs.some_such (x := ioNext blankEnv firstIo (.openat 0 none false true))
    (p := fun io => Runs.stopsWith .asserted (ioRun blankEnv io (.mmap 0 0 1#32 1#32 2#32 1#32))) (by decide +kernel)
  refine inBounds blankEnv firstIo io (.mmap 0 0 1#32 1#32 2#32 1#32) blank_layout firstIo_blank
      (.step .start (fun _ _ _ _ opened => ?_) ran)
    (Runs.stopsWith_iff.mp result)
  cases opened
  rfl

end FileTable
