import HonorKernel.NamingTree
import HonorKernel.PathNames

-- What the calls of kernel/sysfile.c and fs/file.c are for: a tree of directories, files
-- and devices, and the references to it that working directories and open files are.
namespace FileTree
open DiskFormat CacheView InodeLayer SysFile NamingTree

inductive Leaf where
  | file (bytes : List Byte)
  | device (major minor : U16)

abbrev Node := NamingTree.Node Usize (List Byte) Leaf
abbrev Tree := NamingTree.Tree Usize (List Byte) Leaf

-- A name is the 14 bytes of an entry.
def dots : Dots (List Byte) := ⟨padded dot,padded dotdot,by decide⟩

structure State where
  tree : Tree
  held : List Usize

namespace State

def walk (s : State) (cwd : Usize) (path : List Byte) : Option Usize :=
  NamingTree.walk s.tree ((components path).map padded) (startOf cwd path)

def walkAbove (s : State) (cwd : Usize) (path : List Byte) : Option (Usize × List Byte) :=
  NamingTree.walkAbove s.tree ((components path).map padded) (startOf cwd path)

def take (s : State) (p : Option Usize) : State := ⟨s.tree,p.toList++s.held⟩

-- One reference less. A node that has no name goes with the last one.
noncomputable def drop (s : State) (p : Usize) : State :=
  ⟨release dots rootInodeNo (· ∈ s.held.erase p) s.tree p,s.held.erase p⟩

end State

def overwrite (bytes src : List Byte) (off : Nat) : List Byte := bytes.take off++src++bytes.drop (off+src.length)

def emptyFile : Usize → Usize → Node := fun _ _ => .leaf (.file [])
def newDevice (major minor : U16) : Usize → Usize → Node := fun _ _ => .leaf (.device major minor)
def newDirectory : Usize → Usize → Node := fun q d => .dir (dots.fresh q d)

-- What inode_read, stati and so on tell about a node.
def Shows (e : InodeEntry) (links : Nat) (node : Node) : Prop := e.numLinks.toNat = links ∧
  match node with
  | .leaf (.file bytes) => e.type = inodeRegular ∧ e.numBytes.toNat = bytes.length
  | .leaf (.device major minor) => e.type = inodeDevice ∧ e.major = major ∧ e.minor = minor
  | .dir _ => e.type = inodeDirectory

-- A call with the inodes that the descriptors and the working directory of its caller stand
-- for; `granted` says whether a file and a descriptor were left for openat. file_write
-- makes a transaction of every `write`. `put` is the last close of a file.
inductive Request where
  | share (p : Usize)
  | openat (cwd : Usize) (path : List Byte) (creat granted : Bool)
  | mkdirat (cwd : Usize) (path : List Byte)
  | mknodat (cwd : Usize) (path : List Byte) (major minor : U16)
  | unlinkat (cwd : Usize) (path : List Byte)
  | chdir (cwd : Usize) (path : List Byte)
  | newfstatat (cwd : Usize) (path : List Byte)
  | fstat (p : Usize)
  | read (p : Usize) (off count : Usize)
  | write (p : Usize) (src : List Byte) (off : Usize)
  | put (p : Usize)
deriving DecidableEq

inductive Reply where
  | done (ok : Bool)
  | opened (p : Option Usize)
  | stat (e : Option InodeEntry)
  | bytes (n : Usize) (bytes : List Byte)
  | written (n : Usize)
deriving DecidableEq

-- if (strncmp(path, "console", 7) == 0) ma = 1;
def console : List Byte := [99#8,111#8,110#8,115#8,111#8,108#8,101#8]
def deviceMajor (path : List Byte) (major : U16) : U16 := if sameName path console 7 0 then 1#16 else major

-- The ends of create: no directory, the name is there already, or a new node gets it.
inductive Creates (s : State) (cwd : Usize) (path : List Byte) (new : Usize → Usize → Node) : Option Usize → Tree → Prop
  | nowhere : s.walkAbove cwd path = none → Creates s cwd path new none s.tree
  | there : s.walkAbove cwd path = some (d,name) → find s.tree d name = some q → Creates s cwd path new (some q) s.tree
  | made : s.walkAbove cwd path = some (d,name) → s.tree d = some (.dir m) → m name = none → s.tree q = none →
      Creates s cwd path new (some q) (add s.tree d m name q (new q d))

-- What unlinkat takes away: `q` has the plain name `name` in `d`, and nothing is below it.
structure Removable (s : State) (cwd : Usize) (path : List Byte) (d : Usize) (m : List Byte → Option Usize) (name : List Byte) (q : Usize) : Prop where
  above : s.walkAbove cwd path = some (d,name)
  plain : dots.Plain name
  dir : s.tree d = some (.dir m)
  bound : m name = some q
  empty : ∀ c, ¬ Below dots s.tree q c

inductive Moves (s : State) : Request → Reply → State → Prop
  | share : Moves s (.share p) (.done true) (s.take (some p))
  | openat : found = (if granted then s.walk cwd path else none) → Moves s (.openat cwd path false granted) (.opened found) (s.take found)
  | create : Creates s cwd path emptyFile made tree → found = (if granted then made else none) →
      Moves s (.openat cwd path true granted) (.opened found) (State.take ⟨tree,s.held⟩ found)
  | mkdirat : Creates s cwd path newDirectory made tree → Moves s (.mkdirat cwd path) (.done made.isSome) ⟨tree,s.held⟩
  | mknodat : Creates s cwd path (newDevice (deviceMajor path major) minor) made tree →
      Moves s (.mknodat cwd path major minor) (.done made.isSome) ⟨tree,s.held⟩
  | unlinkat : Removable s cwd path d m name q →
      Moves s (.unlinkat cwd path) (.done true) ⟨release dots rootInodeNo (· ∈ s.held) (unname s.tree d m name) q,s.held⟩
  | unlinkFails : (∀ d m name q, ¬ Removable s cwd path d m name q) → Moves s (.unlinkat cwd path) (.done false) s
  | chdir : s.walk cwd path = some p → IsDir s.tree p → Moves s (.chdir cwd path) (.done true) ((s.take (some p)).drop cwd)
  | chdirFails : (∀ p, s.walk cwd path = some p → ¬ IsDir s.tree p) → Moves s (.chdir cwd path) (.done false) s
  | nothing : s.walk cwd path = none → Moves s (.newfstatat cwd path) (.stat none) s
  | newfstatat : s.walk cwd path = some p → s.tree p = some node → Shows e (links dots rootInodeNo s.tree p) node →
      Moves s (.newfstatat cwd path) (.stat (some e)) s
  | fstat : s.tree p = some node → Shows e (links dots rootInodeNo s.tree p) node → Moves s (.fstat p) (.stat (some e)) s
  | read : s.tree p = some node → (∀ bytes, node = .leaf (.file bytes) → off.toNat ≤ bytes.length ∧
      data = (bytes.drop off.toNat).take count.toNat ∧ n = BitVec.ofNat 64 data.length) → Moves s (.read p off count) (.bytes n data) s
  | write : s.tree p = some (.leaf (.file bytes)) → off.toNat ≤ bytes.length →
      Moves s (.write p src off) (.written (BitVec.ofNat 64 src.length))
        ⟨Function.update s.tree p (some (.leaf (.file (overwrite bytes src off.toNat)))),s.held⟩
  | print : s.tree p = some (.leaf (.device major minor)) → Moves s (.write p src off) (.written (BitVec.ofNat 64 src.length)) s
  | put : Moves s (.put p) (.done true) (s.drop p)

-- The kernel's side: the inode layer, the references given out, and the transactions.
structure Volume where
  fs : Fs
  held : List Usize
  op : Nat

def Volume.commit (vol : Volume) (fs : Fs) (held : List Usize) : Volume := ⟨fs,held,vol.op+1⟩

-- file_stat; newfstatat has a transaction around it.
def fileStat (p : Usize) (fs : Fs) : Except Fault (InodeEntry × Fs) := do
  let fs ← inodeLock p fs
  let inode ← fs.inode p
  let e ← stati inode
  let fs ← inodeUnlock p fs
  .ok (e,fs)

-- file_read on a readable file of type FD_INODE.
def fileRead (env : Env) (p : Usize) (off count : Usize) (fs : Fs) : Except Fault (Usize × List Byte × Fs) := do
  let fs ← inodeLock p fs
  let (n,bytes,fs) ← inodeRead env p off count fs
  let fs ← inodeUnlock p fs
  .ok (n,bytes,fs)

def serve (env : Env) (vol : Volume) : Request → Except Fault (Reply × Volume)
  | .share p => do
    let fs ← inodeShare p vol.fs
    .ok (.done true,⟨fs,p::vol.held,vol.op⟩)
  | .openat cwd path creat granted => do
    let (ip,fs) ← openInode env (some vol.op) cwd path creat granted vol.fs
    .ok (.opened ip,vol.commit fs (ip.toList++vol.held))
  | .mkdirat cwd path => do
    let (done,fs) ← makeNode env (some vol.op) cwd path inodeDirectory 0#16 0#16 vol.fs
    .ok (.done done,vol.commit fs vol.held)
  | .mknodat cwd path major minor => do
    let (done,fs) ← makeNode env (some vol.op) cwd path inodeDevice (deviceMajor path major) minor vol.fs
    .ok (.done done,vol.commit fs vol.held)
  | .unlinkat cwd path => do
    let (done,fs) ← SysFile.unlinkat env (some vol.op) cwd path vol.fs
    .ok (.done done,vol.commit fs vol.held)
  | .chdir cwd path => do
    let (ip,fs) ← changeDir env (some vol.op) cwd path vol.fs
    .ok (.done ip.isSome,vol.commit fs (match ip with
      | some ip => (ip::vol.held).erase cwd
      | none => vol.held))
  | .newfstatat cwd path => do
    let (e,fs) ← SysFile.newfstatat env (some vol.op) cwd path vol.fs
    .ok (.stat e,vol.commit fs vol.held)
  | .fstat p => do
    let (e,fs) ← fileStat p vol.fs
    .ok (.stat (some e),⟨fs,vol.held,vol.op⟩)
  | .read p off count => do
    let (n,bytes,fs) ← fileRead env p off count vol.fs
    .ok (.bytes n bytes,⟨fs,vol.held,vol.op⟩)
  | .write p src off => do
    let (n,fs) ← SysFile.writeChunk env (some vol.op) p src off vol.fs
    .ok (.written n,vol.commit fs vol.held)
  | .put p => do
    let fs ← inodePut env (some vol.op) p vol.fs
    .ok (.done true,vol.commit fs (vol.held.erase p))

def Request.reference : Request → Usize
  | .share p => p
  | .openat cwd _ _ _ => cwd
  | .mkdirat cwd _ => cwd
  | .mknodat cwd _ _ _ => cwd
  | .unlinkat cwd _ => cwd
  | .chdir cwd _ => cwd
  | .newfstatat cwd _ => cwd
  | .fstat p => p
  | .read p _ _ => p
  | .write p _ _ => p
  | .put p => p

def Request.path : Request → Option (List Byte)
  | .openat _ path _ _ => some path
  | .mkdirat _ path => some path
  | .mknodat _ path _ _ => some path
  | .unlinkat _ path => some path
  | .chdir _ path => some path
  | .newfstatat _ path => some path
  | _ => none

-- The caller has the reference. A relative path starts in a directory that still has links;
-- a write is one round of file_write on what is no directory; and the wait for the console
-- is not cut short.
structure Proper (env : Env) (vol : Volume) (r : Request) : Prop where
  held : r.reference ∈ vol.held
  linked : ∀ path, r.path = some path → charAt path 0 ≠ slash → (entryOf env.sblock vol.fs r.reference).numLinks ≠ 0#16
  writes : ∀ p src off, r = .write p src off → (entryOf env.sblock vol.fs p).type ≠ inodeDirectory ∧ src.length ≤ maxOpWriteN
  reads : ∀ p off count, r = .read p off count → (entryOf env.sblock vol.fs p).type = inodeDevice → (env.consoleRead count).isSome

def Steps (env : Env) (vol : Volume) (event : Request × Reply) (vol' : Volume) : Prop :=
  Proper env vol event.1 ∧ serve env vol event.1 = .ok (event.2,vol')

-- What Proper asks of one call.
def Allowed (env : Env) (vol : Volume) (r : Request) : Bool :=
  decide (r.reference ∈ vol.held) && (match r.path with
    | some path => decide (charAt path 0 = slash) || decide ((entryOf env.sblock vol.fs r.reference).numLinks ≠ 0#16)
    | none => true) && match r with
    | .write p src _ => decide ((entryOf env.sblock vol.fs p).type ≠ inodeDirectory) && decide (src.length ≤ maxOpWriteN)
    | .read p _ count => decide ((entryOf env.sblock vol.fs p).type ≠ inodeDevice) || (env.consoleRead count).isSome
    | _ => true

theorem Allowed.proper {env : Env} {vol : Volume} {r : Request} (allowed : Allowed env vol r = true) :
    Proper env vol r := by
  unfold Allowed at allowed
  rw [Bool.and_eq_true,Bool.and_eq_true,decide_eq_true_iff] at allowed
  obtain ⟨⟨held,linked⟩,rest⟩ := allowed
  refine ⟨held,?_,?_,?_⟩
  · intro path is relative
    rw [is] at linked
    simpa [relative] using linked
  · rintro p src off rfl
    simpa using rest
  · rintro p off count rfl device
    simpa [device] using rest

-- The run with these events, where there is one.
def replay (env : Env) : Volume → List (Request × Reply) → Option Volume
  | vol,[] => some vol
  | vol,event::rest => if Allowed env vol event.1 then (serve env vol event.1).toOption.bind fun r =>
      if r.1 = event.2 then replay env r.2 rest else none
    else none

end FileTree
