import HonorKernel.AddressSpace
import HonorKernel.SysFile

-- fs/file.c and the calls of kernel/sysfile.c and kernel/proc.c that move references:
-- the file table, the open files of the processes, their working directories and the
-- files behind their sections. Pages are left out; what a call writes back to a file
-- comes with the call.
namespace FileTable
open DiskFormat CacheView InodeLayer SysFile
open PageTable (Section U64 splitAt getFreeVm pageOffset initSections stMmapShared stMmapPrivate)

def nFile : Nat := 65536
def nOpenFile : Nat := 128

inductive FileType where
  | none | pipe | inode
deriving DecidableEq

-- `pipe` and `ip` are a union in the source. `off` is left out: what a call reads or
-- writes at comes with the call.
structure File where
  type : FileType
  ref : Int
  readable : Bool
  writable : Bool
  pipe : Nat
  ip : Usize
deriving DecidableEq

structure Process where
  cwd : Usize
  oftable : Fin nOpenFile → Option Nat
  sections : List Section

inductive Released where
  | pipe (pipe : Nat) (writable : Bool)
  | inode (ip : Usize)
deriving DecidableEq

-- One call of file_close: the argument, the slots and sections that have it, the count
-- before and after, and what was given back.
structure Closing where
  file : Option Nat
  holders : Nat
  before : Int
  after : Int
  released : Option Released
deriving DecidableEq

-- `procs` has a place for every process that there will be; `op` numbers the
-- transactions, and `exited` are the working directories of the processes that are gone.
structure Kernel (n : Nat) where
  fs : Fs
  files : Nat → File
  procs : Fin n → Option Process
  op : Nat
  closed : List Closing
  exited : List Usize

variable {n : Nat}

def refersTo (f : Nat) (slot : Option Nat) : Nat := if slot = some f then 1 else 0

def Process.holds (p : Process) (f : Nat) : Nat := Runs.total (refersTo f) p.oftable+(p.sections.map fun st => refersTo f st.fp).sum

def holdsOf (f : Nat) : Option Process → Nat
  | none => 0
  | some p => p.holds f

namespace Kernel

def held (k : Kernel n) (f : Nat) : Nat := Runs.total (holdsOf f) k.procs

def proc (k : Kernel n) (pid : Fin n) : Except Fault Process :=
  match k.procs pid with
  | none => .error .dangling
  | some p => .ok p

def setProc (k : Kernel n) (pid : Fin n) (p : Option Process) : Kernel n := { k with procs := Function.update k.procs pid p }
def setFile (k : Kernel n) (f : Nat) (file : File) : Kernel n := { k with files := Function.update k.files f file }
def record (k : Kernel n) (closing : Closing) : Kernel n := { k with closed := k.closed++[closing] }

-- The state behind end_op.
def commit (k : Kernel n) (fs : Fs) : Kernel n := { k with fs := fs, op := k.op+1 }

end Kernel

def fileAllocLoop (files : Nat → File) : Nat → Nat → Option Nat
  | 0,_ => none
  | count+1,i => if (files i).ref = 0 then some i else fileAllocLoop files count (i+1)

def fileAlloc (k : Kernel n) : Option (Nat × Kernel n) :=
  (fileAllocLoop k.files nFile 0).map fun f => (f,k.setFile f { k.files f with ref := 1 })

def fileDup (f : Nat) (k : Kernel n) : Except Fault (Kernel n) :=
  if nFile ≤ f then .error .dangling else .ok (k.setFile f { k.files f with ref := (k.files f).ref+1 })

def fileClose (env : Env) (holders : Nat) (f : Nat) (k : Kernel n) : Except Fault (Kernel n) :=
  if nFile ≤ f then .error .dangling
  else
    let now := k.files f
    if now.type = .none then .ok (k.record ⟨some f,holders,now.ref,now.ref,none⟩)
    else if 0 < now.ref-1 then .ok ((k.setFile f { now with ref := now.ref-1 }).record ⟨some f,holders,now.ref,now.ref-1,none⟩)
    else
      let k := k.setFile f { now with ref := 0, type := .none }
      if now.type = .pipe then .ok (k.record ⟨some f,holders,now.ref,0,some (.pipe now.pipe now.writable)⟩)
      else do
        let fs ← inodePut env (some k.op) now.ip k.fs
        .ok ((k.commit fs).record ⟨some f,holders,now.ref,0,some (.inode now.ip)⟩)

-- fd2file, and the slot as an index.
def slotOf (fd : Int) : Option (Fin nOpenFile) :=
  if range : 0 ≤ fd ∧ fd < nOpenFile then some ⟨fd.toNat,by omega⟩ else none
def fd2file (p : Process) (fd : Int) : Option Nat := (slotOf fd).bind p.oftable

def fdalloc (p : Process) : Option (Fin nOpenFile) := (List.finRange nOpenFile).find? fun i => (p.oftable i).isNone

def Process.setSlot (p : Process) (i : Fin nOpenFile) (f : Option Nat) : Process := { p with oftable := Function.update p.oftable i f }
def Process.setSections (p : Process) (sections : List Section) : Process := { p with sections := sections }

-- `true` stands for a result that is not -1.
def sysOpenat (env : Env) (pid : Fin n) (path : List Byte) (creat wronly rdwr : Bool) (k : Kernel n) : Except Fault (Bool × Kernel n) := do
  let p ← k.proc pid
  let ctx := some k.op
  let (ip,fs) ← (if creat then create env ctx p.cwd path inodeRegular 0#16 0#16 k.fs else findLocked env ctx p.cwd path k.fs)
  match ip with
  | none => .ok (false,k.commit fs)
  | some ip =>
    match fileAlloc k with
    | none => do
      let fs ← unlockPut env ctx ip fs
      .ok (false,k.commit fs)
    | some (f,k) =>
      match fdalloc p with
      | none => do
        let k ← fileClose env 0 f { k with fs := fs }
        let fs ← unlockPut env ctx ip k.fs
        .ok (false,k.commit fs)
      | some fd => do
        let fs ← inodeUnlock ip fs
        let k := (k.setFile f { k.files f with type := .inode, ip := ip, readable := !wronly, writable := wronly || rdwr }).commit fs
        .ok (true,k.setProc pid (some (p.setSlot fd (some f))))

def sysDup (pid : Fin n) (fd : Int) (k : Kernel n) : Except Fault (Bool × Kernel n) := do
  let p ← k.proc pid
  match fd2file p fd,fdalloc p with
  | some f,some new => do
    let k ← fileDup f (k.setProc pid (some (p.setSlot new (some f))))
    .ok (true,k)
  | _,_ => .ok (false,k)

-- The slot is not tested: an empty one hands NULL to file_close.
def sysClose (env : Env) (pid : Fin n) (fd : Int) (k : Kernel n) : Except Fault (Bool × Kernel n) := do
  let p ← k.proc pid
  match slotOf fd with
  | none => .ok (false,k)
  | some i =>
    match p.oftable i with
    | none => .error .dangling
    | some f => do
      let k ← fileClose env (k.held f) f (k.setProc pid (some (p.setSlot i none)))
      .ok (true,k)

-- pipe_alloc: `pipe` is what kalloc returns for the pipe.
def pipeAlloc (env : Env) (pipe : Nat) (k : Kernel n) : Except Fault (Option (Nat × Nat) × Kernel n) :=
  match fileAlloc k with
  | none => .ok (none,k)
  | some (f0,k) =>
    match fileAlloc k with
    | none => do
      let k ← fileClose env 0 f0 k
      .ok (none,k)
    | some (f1,k) =>
      let k := k.setFile f0 { k.files f0 with type := .pipe, readable := true, writable := false, pipe := pipe }
      let k := k.setFile f1 { k.files f1 with type := .pipe, readable := false, writable := true, pipe := pipe }
      .ok (some (f0,f1),k)

def sysPipe2 (env : Env) (pid : Fin n) (pipe : Nat) (k : Kernel n) : Except Fault (Bool × Kernel n) := do
  let (ends,k) ← pipeAlloc env pipe k
  match ends with
  | none => .ok (false,k)
  | some (f0,f1) => do
    let p ← k.proc pid
    match fdalloc p with
    | none => .ok (false,k)
    | some fd0 =>
      let p := p.setSlot fd0 (some f0)
      match fdalloc p with
      | none => do
        let (_,k) ← sysClose env pid fd0.val (k.setProc pid (some p))
        .ok (false,k)
      | some fd1 => .ok (true,k.setProc pid (some (p.setSlot fd1 (some f1))))

def sysChdir (env : Env) (pid : Fin n) (path : List Byte) (k : Kernel n) : Except Fault (Bool × Kernel n) := do
  let p ← k.proc pid
  let (ip,fs) ← changeDir env (some k.op) p.cwd path k.fs
  match ip with
  | none => .ok (false,k.commit fs)
  | some ip => .ok (true,(k.commit fs).setProc pid (some { p with cwd := ip }))

def sysUnlinkat (env : Env) (pid : Fin n) (path : List Byte) (k : Kernel n) : Except Fault (Bool × Kernel n) := do
  let p ← k.proc pid
  let (done,fs) ← unlinkat env (some k.op) p.cwd path k.fs
  .ok (done,k.commit fs)

-- What file_read does to the inode; the reads of a pipe are not in these tables.
def fileRead (env : Env) (file : File) (off count : Usize) (fs : Fs) : Except Fault Fs :=
  if file.readable = false ∨ file.type = .pipe then .ok fs
  else if file.type = .inode then do
    let fs ← inodeLock file.ip fs
    let (_,_,fs) ← inodeRead env file.ip off count fs
    inodeUnlock file.ip fs
  else .error .assertion

def protWrite : U64 := 2#64
def mapShared : BitVec 32 := 1#32
def mapPrivate : BitVec 32 := 2#32

-- sys_mmap behind its checks of the arguments.
def sysMmap (env : Env) (pid : Fin n) (fd : Int) (length : U64) (flags : BitVec 32) (prot offset : U64) (k : Kernel n) :
    Except Fault (Bool × Kernel n) := do
  let p ← k.proc pid
  match fd2file p fd with
  | none => .ok (false,k)
  | some f =>
    if prot &&& protWrite ≠ 0#64 ∧ (k.files f).writable = false ∧ flags ≠ mapPrivate then .ok (false,k)
    else
      let (first,last) := getFreeVm p.sections length
      if last = first ∨ pageOffset first ≠ 0 then .ok (false,k)
      else do
        let k ← fileDup f k
        let st : Section := ⟨if flags &&& mapShared ≠ 0#32 then stMmapShared else stMmapPrivate,first,last,some f,offset,prot⟩
        let fs ← fileRead env (k.files f) offset length k.fs
        .ok (true,{ k with fs := fs }.setProc pid (some (p.setSections (st::p.sections))))

-- The writes of sys_munmap to the file of the section.
def writeBack (env : Env) (file : File) : List (Usize × List Byte) → Kernel n → Except Fault (Kernel n)
  | [],k => .ok k
  | (off,bytes)::rest,k =>
    if file.type ≠ .inode then .error .assertion
    else if file.writable = false then writeBack env file rest k
    else do
      let (_,fs) ← fileWrite env k.op file.ip bytes off k.fs
      writeBack env file rest { k with fs := fs, op := k.op+bytes.length }

def sysMunmap (env : Env) (pid : Fin n) (va length : U64) (writes : List (Usize × List Byte)) (k : Kernel n) : Except Fault (Bool × Kernel n) := do
  let p ← k.proc pid
  match splitAt va p.sections with
  | none => .ok (true,k)
  | some (before,st,after) =>
    if ¬ (st.flags = stMmapPrivate ∨ st.flags = stMmapShared) then .error .assertion
    else
      match st.fp with
      | none => .error .dangling
      | some f => do
        let k ← writeBack env (k.files f) writes k
        if st.last-st.first ≤ length then do
          let k ← fileClose env (k.held f) f (k.setProc pid (some (p.setSections (before++after))))
          .ok (true,k)
        else .ok (true,k.setProc pid (some (p.setSections (before++{ st with first := st.first+length }::after))))

def dupAll : List (Option Nat) → Kernel n → Except Fault (Kernel n)
  | [],k => .ok k
  | none::rest,k => dupAll rest k
  | some f::rest,k => do
    let k ← fileDup f k
    dupAll rest k

-- `fp` is what kalloc leaves in the section of init_sections.
def sysFork (pid child : Fin n) (fp : Option Nat) (k : Kernel n) : Except Fault (Bool × Kernel n) := do
  let p ← k.proc pid
  if (k.procs child).isSome then .error .dangling
  else do
    let fs ← inodeShare p.cwd k.fs
    let k ← dupAll ((List.finRange nOpenFile).map p.oftable) { k with fs := fs }
    let k ← dupAll (p.sections.map (·.fp)) k
    .ok (true,k.setProc child (some ⟨p.cwd,p.oftable,p.sections.reverse++initSections fp⟩))

-- The files of free_sections.
def closeSections (env : Env) (pid : Fin n) (p : Process) : List Section → Kernel n → Except Fault (Kernel n)
  | [],k => .ok k
  | st::rest,k => do
    let k ← (match st.fp with
      | none => .ok k
      | some f => fileClose env (k.held f) f k)
    closeSections env pid p rest (k.setProc pid (some (p.setSections rest)))

-- A call of execve that goes well: the file is looked up and read, and the sections of
-- the image take the place of the old ones; those that execve makes have no file.
def sysExecve (env : Env) (pid : Fin n) (path : List Byte) (fp : Option Nat) (image : List Section) (k : Kernel n) :
    Except Fault (Bool × Kernel n) := do
  let p ← k.proc pid
  let (ip,fs) ← findLocked env (some k.op) p.cwd path k.fs
  match ip with
  | none => .error .assertion
  | some ip => do
    let fs ← unlockPut env (some k.op) ip fs
    let k ← closeSections env pid p p.sections (k.commit fs)
    .ok (true,k.setProc pid (some (p.setSections (image.map (fun st => { st with fp := none })++initSections fp))))

def closeSlots (env : Env) (pid : Fin n) : List (Fin nOpenFile) → Process → Kernel n → Except Fault (Process × Kernel n)
  | [],p,k => .ok (p,k)
  | i::rest,p,k =>
    match p.oftable i with
    | none => closeSlots env pid rest p k
    | some f => do
      let k ← fileClose env (k.held f) f k
      let p := p.setSlot i none
      closeSlots env pid rest p (k.setProc pid (some p))

-- The put of the working directory is commented out.
def sysExit (env : Env) (pid : Fin n) (k : Kernel n) : Except Fault (Bool × Kernel n) := do
  let p ← k.proc pid
  let (p,k) ← closeSlots env pid (List.finRange nOpenFile) p k
  let k ← closeSections env pid p p.sections k
  .ok (true,{ k.setProc pid none with exited := k.exited++[p.cwd] })

-- wait: the child that is collected has closed what it had when it left.
def sysWait (pid : Fin n) (k : Kernel n) : Except Fault (Bool × Kernel n) := do
  let _ ← k.proc pid
  .ok (true,k)

inductive Call (n : Nat) where
  | openat (pid : Fin n) (path : List Byte) (creat wronly rdwr : Bool)
  | dup (pid : Fin n) (fd : Int)
  | close (pid : Fin n) (fd : Int)
  | pipe2 (pid : Fin n) (pipe : Nat)
  | chdir (pid : Fin n) (path : List Byte)
  | unlinkat (pid : Fin n) (path : List Byte)
  | mmap (pid : Fin n) (fd : Int) (length : U64) (flags : BitVec 32) (prot offset : U64)
  | munmap (pid : Fin n) (va length : U64) (writes : List (Usize × List Byte))
  | fork (pid child : Fin n) (fp : Option Nat)
  | execve (pid : Fin n) (path : List Byte) (fp : Option Nat) (image : List Section)
  | wait (pid : Fin n)
  | exit (pid : Fin n)

def run (env : Env) (k : Kernel n) : Call n → Except Fault (Bool × Kernel n)
  | .openat pid path creat wronly rdwr => sysOpenat env pid path creat wronly rdwr k
  | .dup pid fd => sysDup pid fd k
  | .close pid fd => sysClose env pid fd k
  | .pipe2 pid pipe => sysPipe2 env pid pipe k
  | .chdir pid path => sysChdir env pid path k
  | .unlinkat pid path => sysUnlinkat env pid path k
  | .mmap pid fd length flags prot offset => sysMmap env pid fd length flags prot offset k
  | .munmap pid va length writes => sysMunmap env pid va length writes k
  | .fork pid child fp => sysFork pid child fp k
  | .execve pid path fp image => sysExecve env pid path fp image k
  | .wait pid => sysWait pid k
  | .exit pid => sysExit env pid k

end FileTable
