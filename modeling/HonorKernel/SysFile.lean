import HonorKernel.InodeLayer

-- Path names (fs/inode.c), the sections of kernel/sysfile.c between begin_op and end_op,
-- and the tables of fs/file.c, one call at a time. `cwd` is thisproc()->cwd.
namespace SysFile
open DiskFormat CacheView InodeLayer

def slash : Byte := 47#8
def dot : List Byte := [46#8]
def dotdot : List Byte := [46#8,46#8]

-- The element and what is left of the path. `name` is the buffer up to its NUL, or all
-- 14 bytes of it if there is none.
def skipelem (path : List Byte) : Option (List Byte × List Byte) :=
  let path := path.dropWhile fun c => decide (c = slash)
  if charAt path 0 = 0#8 then none
  else
    let inside : Byte → Bool := fun c => decide (c ≠ slash ∧ c ≠ 0#8)
    some ((path.takeWhile inside).take fileNameMaxLength,(path.dropWhile inside).dropWhile fun c => decide (c = slash))

-- The names that the loop of namex sees one after the other.
def elements : Nat → List Byte → List (List Byte)
  | 0,_ => []
  | fuel+1,path =>
    match skipelem path with
    | none => []
    | some (name,rest) => name::elements fuel rest

def namexLoop (env : Env) (ctx : Ctx) (nameiparent : Bool) : List (List Byte) → Usize → Fs →
    Except Fault (Option (Usize × List Byte) × Fs)
  | [],ans,fs =>
    if nameiparent then do
      let fs ← inodePut env ctx ans fs
      .ok (none,fs)
    else .ok (some (ans,[]),fs)
  | name::rest,ans,fs => do
    let fs ← inodeLock ans fs
    let inode ← fs.inode ans
    if inode.entry.type ≠ inodeDirectory then do
      let fs ← inodeUnlock ans fs
      let fs ← inodePut env ctx ans fs
      .ok (none,fs)
    else if nameiparent && rest.isEmpty then do
      let fs ← inodeUnlock ans fs
      .ok (some (ans,name),fs)
    else do
      let (no,_,fs) ← inodeLookup env ans name fs
      let (next,fs) ← inodeGet env no fs
      let fs ← inodeUnlock ans fs
      let fs ← inodePut env ctx ans fs
      match next with
      | none => .ok (none,fs)
      | some next => namexLoop env ctx nameiparent rest next fs

def namexStart (env : Env) (cwd : Usize) (path : List Byte) (fs : Fs) : Except Fault (Usize × Fs) :=
  if charAt path 0 = slash then (fun r => (rootInodeNo,r.2)) <$> inodeGet env rootInodeNo fs
  else (fun fs => (cwd,fs)) <$> inodeShare cwd fs

def namex (env : Env) (ctx : Ctx) (cwd : Usize) (path : List Byte) (nameiparent : Bool) (fs : Fs) :
    Except Fault (Option (Usize × List Byte) × Fs) := do
  let (ans,fs) ← namexStart env cwd path fs
  namexLoop env ctx nameiparent (elements path.length path) ans fs

def namei (env : Env) (ctx : Ctx) (cwd : Usize) (path : List Byte) (fs : Fs) : Except Fault (Option Usize × Fs) := do
  let (ans,fs) ← namex env ctx cwd path false fs
  .ok (ans.map (·.1),fs)

def nameiparent (env : Env) (ctx : Ctx) (cwd : Usize) (path : List Byte) (fs : Fs) :
    Except Fault (Option (Usize × List Byte) × Fs) := namex env ctx cwd path true fs

-- inodes.get and inodes.lock on its result; NULL there is a fault.
def getLocked (env : Env) (no : Usize) (fs : Fs) : Except Fault (Usize × Fs) := do
  let (ip,fs) ← inodeGet env no fs
  match ip with
  | none => .error .dangling
  | some ip => do
    let fs ← inodeLock ip fs
    .ok (ip,fs)

-- num_links is changed by `change` and the entry synced.
def relink (env : Env) (ctx : Ctx) (p : Usize) (change : U16 → U16) (fs : Fs) : Except Fault Fs := do
  let inode ← fs.inode p
  inodeSync env ctx p true (fs.setEntry p inode (inode.entry.setNumLinks (change inode.entry.numLinks)))

-- The branch of create for a new name. inode_alloc returns a number from 1 on, so the
-- inode is never NULL.
def newInode (env : Env) (ctx : Ctx) (type major minor : U16) (fs : Fs) : Except Fault (Usize × Fs) := do
  let (no,fs) ← inodeAlloc env ctx type fs
  let (current,fs) ← getLocked env no fs
  let inode ← fs.inode current
  let fs ← inodeSync env ctx current true (fs.setEntry current inode ((inode.entry.setDevice major minor).setNumLinks 1#16))
  .ok (current,fs)

def insertDots (env : Env) (ctx : Ctx) (parentDir current : Usize) (fs : Fs) : Except Fault Fs := do
  let inode ← fs.inode current
  let (ret1,fs) ← inodeInsert env ctx current dot inode.inodeNo fs
  let parent ← fs.inode parentDir
  let (ret2,fs) ← inodeInsert env ctx current dotdot parent.inodeNo fs
  if ret1 = BitVec.allOnes 64 ∨ ret2 = BitVec.allOnes 64 then .error .assertion
  else relink env ctx parentDir (· + 1#16) fs

def createNew (env : Env) (ctx : Ctx) (parentDir : Usize) (filename : List Byte) (type major minor : U16) (fs : Fs) :
    Except Fault (Usize × Fs) := do
  let (current,fs) ← newInode env ctx type major minor fs
  let fs ← (if type = inodeDirectory then insertDots env ctx parentDir current fs else .ok fs)
  let inode ← fs.inode current
  let (ret,fs) ← inodeInsert env ctx parentDir filename inode.inodeNo fs
  if ret = BitVec.allOnes 64 then .error .assertion else .ok (current,fs)

-- The inode is returned locked.
def create (env : Env) (ctx : Ctx) (cwd : Usize) (path : List Byte) (type major minor : U16) (fs : Fs) :
    Except Fault (Option Usize × Fs) := do
  let (parent,fs) ← nameiparent env ctx cwd path fs
  match parent with
  | none => .ok (none,fs)
  | some (parentDir,filename) => do
    let fs ← inodeLock parentDir fs
    let (no,_,fs) ← inodeLookup env parentDir filename fs
    let (current,fs) ← (if no ≠ 0#64 then getLocked env no fs else createNew env ctx parentDir filename type major minor fs)
    let fs ← inodeUnlock parentDir fs
    let fs ← inodePut env ctx parentDir fs
    .ok (some current,fs)

def isdirempty (env : Env) (dp : Usize) : Nat → Nat → Fs → Except Fault (Bool × Fs)
  | 0,_,fs => .ok (true,fs)
  | fuel+1,off,fs => do
    let inode ← fs.inode dp
    if off < inode.entry.numBytes.toNat then do
      let (n,bytes,fs) ← inodeRead env dp (BitVec.ofNat 64 off) (BitVec.ofNat 64 dirEntrySize) fs
      if n ≠ BitVec.ofNat 64 dirEntrySize then .error .assertion
      else
        let de : DirEntry := setBytes env.stack 0 bytes
        if de.inodeNo ≠ 0#16 then .ok (false,fs) else isdirempty env dp fuel (off+dirEntrySize) fs
    else .ok (true,fs)

-- ip->entry.type == INODE_DIRECTORY && !isdirempty(ip)
def inUse (env : Env) (ip : Usize) (fs : Fs) : Except Fault (Bool × Fs) := do
  let inode ← fs.inode ip
  if inode.entry.type = inodeDirectory then do
    let (empty,fs) ← isdirempty env ip inode.entry.numBytes.toNat (2*dirEntrySize) fs
    .ok (!empty,fs)
  else .ok (false,fs)

def unlockPut (env : Env) (ctx : Ctx) (p : Usize) (fs : Fs) : Except Fault Fs := do
  let fs ← inodeUnlock p fs
  inodePut env ctx p fs

-- The rest of sys_unlinkat behind its checks.
def unlinkEntry (env : Env) (ctx : Ctx) (dp ip : Usize) (off : Usize) (fs : Fs) : Except Fault Fs := do
  let (n,fs) ← inodeWrite env ctx dp (DirEntry.bytes 0#128) off fs
  if n ≠ BitVec.ofNat 64 dirEntrySize then .error .assertion
  else do
    let inode ← fs.inode ip
    let fs ← (if inode.entry.type = inodeDirectory then relink env ctx dp (· - 1#16) fs else .ok fs)
    let fs ← unlockPut env ctx dp fs
    let fs ← relink env ctx ip (· - 1#16) fs
    unlockPut env ctx ip fs

-- sys_unlinkat between begin_op and end_op; `true` is the return value 0.
def unlinkat (env : Env) (ctx : Ctx) (cwd : Usize) (path : List Byte) (fs : Fs) : Except Fault (Bool × Fs) := do
  let (parent,fs) ← nameiparent env ctx cwd path fs
  match parent with
  | none => .ok (false,fs)
  | some (dp,name) => do
    let fs ← inodeLock dp fs
    if sameName name dot fileNameMaxLength 0 || sameName name dotdot fileNameMaxLength 0 then do
      let fs ← unlockPut env ctx dp fs
      .ok (false,fs)
    else do
      let (inumber,off,fs) ← inodeLookup env dp name fs
      if inumber = 0#64 then do
        let fs ← unlockPut env ctx dp fs
        .ok (false,fs)
      else do
        let (ip,fs) ← getLocked env inumber fs
        let inode ← fs.inode ip
        if inode.entry.numLinks = 0#16 then .error .assertion
        else do
          let (busy,fs) ← inUse env ip fs
          if busy then do
            let fs ← unlockPut env ctx ip fs
            let fs ← unlockPut env ctx dp fs
            .ok (false,fs)
          else do
            let fs ← unlinkEntry env ctx dp ip (off.getD 0#64) fs
            .ok (true,fs)

-- sys_mkdirat and sys_mknodat between begin_op and end_op.
def makeNode (env : Env) (ctx : Ctx) (cwd : Usize) (path : List Byte) (type major minor : U16) (fs : Fs) : Except Fault (Bool × Fs) := do
  let (ip,fs) ← create env ctx cwd path type major minor fs
  match ip with
  | none => .ok (false,fs)
  | some ip => do
    let fs ← unlockPut env ctx ip fs
    .ok (true,fs)

def findLocked (env : Env) (ctx : Ctx) (cwd : Usize) (path : List Byte) (fs : Fs) : Except Fault (Option Usize × Fs) := do
  let (ip,fs) ← namei env ctx cwd path fs
  match ip with
  | none => .ok (none,fs)
  | some ip => do
    let fs ← inodeLock ip fs
    .ok (some ip,fs)

-- sys_openat between begin_op and end_op: the inode if it was found or made and `granted`,
-- that is, file_alloc and fdalloc have found a place for it.
def openInode (env : Env) (ctx : Ctx) (cwd : Usize) (path : List Byte) (creat granted : Bool) (fs : Fs) :
    Except Fault (Option Usize × Fs) := do
  let (ip,fs) ← (if creat then create env ctx cwd path inodeRegular 0#16 0#16 fs else findLocked env ctx cwd path fs)
  match ip with
  | none => .ok (none,fs)
  | some ip =>
    if granted then do
      let fs ← inodeUnlock ip fs
      .ok (some ip,fs)
    else do
      let fs ← unlockPut env ctx ip fs
      .ok (none,fs)

-- sys_chdir between begin_op and end_op: the new working directory.
def changeDir (env : Env) (ctx : Ctx) (cwd : Usize) (path : List Byte) (fs : Fs) : Except Fault (Option Usize × Fs) := do
  let (ip,fs) ← namei env ctx cwd path fs
  match ip with
  | none => .ok (none,fs)
  | some ip => do
    let fs ← inodeLock ip fs
    let inode ← fs.inode ip
    if inode.entry.type ≠ inodeDirectory then do
      let fs ← unlockPut env ctx ip fs
      .ok (none,fs)
    else do
      let fs ← inodeUnlock ip fs
      let fs ← inodePut env ctx cwd fs
      .ok (some ip,fs)

-- stati returns what it reads. It panics at an inode of no type.
def stati (inode : Inode) : Except Fault InodeEntry :=
  if inode.entry.type = inodeRegular ∨ inode.entry.type = inodeDirectory ∨ inode.entry.type = inodeDevice then .ok inode.entry
  else .error .invalidType

-- sys_newfstatat between begin_op and end_op.
def newfstatat (env : Env) (ctx : Ctx) (cwd : Usize) (path : List Byte) (fs : Fs) : Except Fault (Option InodeEntry × Fs) := do
  let (ip,fs) ← findLocked env ctx cwd path fs
  match ip with
  | none => .ok (none,fs)
  | some ip => do
    let inode ← fs.inode ip
    let e ← stati inode
    let fs ← unlockPut env ctx ip fs
    .ok (some e,fs)

-- One round of the loop in file_write.
def writeChunk (env : Env) (ctx : Ctx) (ip : Usize) (src : List Byte) (off : Usize) (fs : Fs) : Except Fault (Usize × Fs) := do
  let fs ← inodeLock ip fs
  let (w,fs) ← inodeWrite env ctx ip src off fs
  let fs ← inodeUnlock ip fs
  .ok (w,fs)

def maxOpWriteN : Nat := (opMaxNumBlocks-1-1-2)/2*blockSize

-- The loop of file_write over what is left of the buffer; every round is a transaction
-- of its own. The file's offset is returned.
def fileWriteLoop (env : Env) (ip : Usize) : Nat → Nat → List Byte → Usize → Fs → Except Fault (Usize × Fs)
  | 0,_,_,off,fs => .ok (off,fs)
  | fuel+1,op,src,off,fs =>
    if src = [] then .ok (off,fs)
    else do
      let (w,fs) ← writeChunk env (some op) ip (src.take maxOpWriteN) off fs
      fileWriteLoop env ip fuel (op+1) (src.drop w.toNat) (off+w) fs

-- n = MIN((usize)n, INODE_MAX_BYTES - f->off)
def writeCount (off n : Usize) : Usize :=
  if n < BitVec.ofNat 64 inodeMaxBytes-off then n else BitVec.ofNat 64 inodeMaxBytes-off

-- file_write on a writable file of type FD_INODE; `src` is the buffer of n bytes.
def fileWrite (env : Env) (op : Nat) (ip : Usize) (src : List Byte) (off : Usize) (fs : Fs) : Except Fault (Usize × Fs) :=
  fileWriteLoop env ip src.length op (src.take (writeCount off (BitVec.ofNat 64 src.length)).toNat) off fs

end SysFile
