import HonorKernel.MappedFiles

-- kernel/exec.c: the program headers of the file, the new address space, and the stack
-- that the new program starts with.
namespace Execve
open DiskFormat BitSlice InodeLayer SysFile
open PageTable (U64 Frame Trap Mem Space Section Segment PgDir pageSize pageBase pageOffset pteUserData pteRo vmmap mapZero mapStack stackPages copyouts
  initPgdir freePgdir slab)
open FileTable (Kernel Process trap fileSections)

-- Elf64_Ehdr and Elf64_Phdr as they lie in the file, with the fields that are read.
abbrev Ehdr := BitVec 512
abbrev Phdr := BitVec 448

def ehdrSize : Nat := 64
def phdrSize : Nat := 56

def Ehdr.magic (h : Ehdr) : List Byte := getBytes h 0 4
def Ehdr.entry (h : Ehdr) : U64 := get 64 (8*24) h
def Ehdr.phoff (h : Ehdr) : U64 := get 64 (8*32) h
def Ehdr.phnum (h : Ehdr) : U16 := get 16 (8*56) h

def Phdr.type (h : Phdr) : U32 := get 32 0 h
def Phdr.flags (h : Phdr) : U32 := get 32 (8*4) h
def Phdr.offset (h : Phdr) : U64 := get 64 (8*8) h
def Phdr.vaddr (h : Phdr) : U64 := get 64 (8*16) h
def Phdr.filesz (h : Phdr) : U64 := get 64 (8*32) h
def Phdr.memsz (h : Phdr) : U64 := get 64 (8*40) h

def elfmag : List Byte := [0x7f#8,0x45#8,0x4c#8,0x46#8]
def ptLoad : U32 := 1#32
def pfText : U32 := 5#32
def pfData : U32 := 6#32

-- What a PT_LOAD header asks for; `bytes` are those of the file.
def Phdr.segment (h : Phdr) (bytes : List Byte) : Segment := ⟨h.vaddr,h.filesz,h.memsz,decide (h.flags = pfText),bytes⟩

-- inodes.read: the offset, the count, what was returned and what was stored.
abbrev Reader (σ : Type) := U64 → U64 → σ → Except Trap (U64 × List Byte × σ)

section Loading
variable {σ : Type} (zero : Frame) (read : Reader σ)

-- while(file_sz > 0): a page, and the bytes of the file that belong to it. `false` is the
-- return for a file that has too few; `fuel` is the number of bytes.
def loadFile (flags : U64) : Nat → U64 → U64 → U64 → Option Frame → Mem → σ → Except Trap (Bool × Option Frame × Mem × σ)
  | 0,_,_,_,pt,mem,fs => .ok (true,pt,mem,fs)
  | fuel+1,fileSz,off,va,pt,mem,fs =>
    if fileSz = 0#64 then .ok (true,pt,mem,fs)
    else do
      let sz := BitVec.ofNat 64 (min (pageSize-pageOffset va) fileSz.toNat)
      let (dest,mem) ← mem.kzallocPage
      let (pt,mem) ← vmmap (pageBase va) dest flags pt mem
      let (count,bytes,fs) ← read off sz fs
      let mem := mem.setPage dest (setBytes (mem.pages dest) (pageOffset va) bytes)
      if count ≠ sz then .ok (false,pt,mem,fs) else loadFile flags fuel (fileSz-sz) (off+sz) (va+sz) pt mem fs

-- The loop over the program headers, with max_end. A section is on the list before its
-- pages are there.
def loadHeaders : Nat → U64 → U64 → PgDir → Mem → σ → Except Trap (Bool × U64 × PgDir × Mem × σ)
  | 0,_,maxEnd,dir,mem,fs => .ok (true,maxEnd,dir,mem,fs)
  | left+1,phOff,maxEnd,dir,mem,fs => do
    let (count,bytes,fs) ← read phOff (BitVec.ofNat 64 phdrSize) fs
    if count < BitVec.ofNat 64 phdrSize then .ok (false,maxEnd,dir,mem,fs)
    else
      let h : Phdr := setBytes 0#448 0 bytes
      let phOff := phOff+BitVec.ofNat 64 phdrSize
      if h.type ≠ ptLoad then loadHeaders left phOff maxEnd dir mem fs
      else if h.flags ≠ pfText ∧ h.flags ≠ pfData then .ok (false,maxEnd,dir,mem,fs)
      else do
        let seg := h.segment []
        let sections := seg.made::dir.sections
        let maxEnd := if maxEnd < seg.last then seg.last else maxEnd
        let (whole,pt,mem,fs) ← loadFile read (if seg.text then pteUserData ||| pteRo else pteUserData) h.filesz.toNat h.filesz h.offset h.vaddr dir.pt mem fs
        if whole = false then .ok (false,maxEnd,⟨pt,sections⟩,mem,fs)
        else do
          let (pt,mem) ← mapZero zero seg.bss pt mem
          loadHeaders left phOff maxEnd ⟨pt,sections⟩ mem fs

end Loading

-- An argument or an environment string.
abbrev CString := { s : List Byte // 0#8 ∉ s }

def CString.stored (s : CString) : List Byte := s.val++[0#8]

-- A u64 in memory.
def wordBytes (w : U64) : List Byte := getBytes w 0 8
def wordsBytes (ws : List U64) : List Byte := ws.flatMap wordBytes

-- sp -= strlen(s)+1; sp -= sp%8
def pushString (sp : U64) (s : CString) : U64 :=
  let sp := sp-BitVec.ofNat 64 (s.val.length+1)
  sp-sp%8#64

-- From the last string to the first: the stack pointer, the pointers and what is copied.
def pushStrings (sp : U64) : List CString → U64 × List U64 × List (U64 × List Byte)
  | [] => (sp,[],[])
  | s::rest =>
    let (sp,pointers,copied) := pushStrings sp rest
    let sp := pushString sp s
    (sp,sp::pointers,copied++[(sp,s.stored)])

def maxPointers : Nat := 32

-- `count` entries of envp_p or argv_p: the pointers, a 0, and what was on the kernel's
-- stack.
def pointerArray (spare : Nat → U64) (pointers : List U64) (count : Nat) : List U64 :=
  (List.range count).map fun i => if i = pointers.length then 0#64 else pointers.getD i (spare i)

-- The stack pointer, x1 and the calls of copyout. Both arrays go out with the count of
-- argv. A vector that is NULL leaves what an empty one does.
def fillStack (spare : Nat → U64) (top : U64) (argv envp : List CString) : U64 × U64 × List (U64 × List Byte) :=
  let sp := top-16#64
  let first := (sp,wordBytes 0#64)
  let (sp,envpP,envStrings) := pushStrings sp envp
  let sp := sp-8#64
  let second := (sp,wordBytes 0#64)
  let (sp,argvP,argStrings) := pushStrings sp argv
  let argc := argv.length
  let sp := sp-BitVec.ofNat 64 ((argc+1)*8)
  let envArray := (sp,wordsBytes (pointerArray spare envpP (argc+1)))
  let sp := sp-BitVec.ofNat 64 ((argc+1)*8)
  let argArray := (sp,wordsBytes (pointerArray spare argvP (argc+1)))
  (sp-8#64,sp,first::envStrings++second::argStrings++[envArray,argArray,(sp-8#64,wordBytes (BitVec.ofNat 64 argc))])

-- The registers of UserContext that execve sets.
structure Context where
  x0 : U64
  x1 : U64
  sp : U64
  elr : U64

-- `blocks` counts what kalloc has handed out and kfree has not got back. The kernel has
-- the sections of its processes a second time, for the references of the files.
structure System (n : Nat) where
  space : Space (Kernel n)
  contexts : Fin n → Context
  blocks : Int

-- What a call finds besides the state: the pages that kalloc takes for its records, `fp`
-- in the section of init_sections, and what is in the arrays on the kernel's stack.
structure Setting where
  env : Env
  zero : Frame
  small : Nat
  fp : Option Nat
  spare : Nat → U64

section Call
variable {n : Nat} (c : Setting)

def inodeReader (ip : Usize) : Reader Fs := fun off count fs => trap (inodeRead c.env ip off count fs)

-- From the stack on; `dir` is the new address space. More than 31 strings go past the
-- ends of the two arrays.
def enter (pid : Fin n) (entry maxEnd : U64) (argv envp : List CString) (dir : PgDir) (mem : Mem) (k : Kernel n) (m : System n) :
    Except Trap (System n) := do
  let top := pageBase maxEnd+BitVec.ofNat 64 pageSize+BitVec.ofNat 64 (stackPages*pageSize)
  let (pt,mem) ← mapStack top ((List.range stackPages).map (·+1)) dir.pt mem
  let stack : Section := ⟨1024#64,top-BitVec.ofNat 64 (stackPages*pageSize),top,none,0#64,0#64⟩
  if maxPointers ≤ argv.length ∨ maxPointers ≤ envp.length then .error .panic
  else do
    let (sp,x1,copied) := fillStack c.spare top argv envp
    let (pt,mem) ← copyouts copied pt mem
    let old ← m.space.dir pid
    let (_,mem,k) ← freePgdir (fileSections c.env) old mem k
    let p ← trap (k.proc pid)
    let dir : PgDir := ⟨pt,stack::dir.sections⟩
    .ok ⟨⟨mem,Function.update m.space.dirs pid (some dir),k.setProc pid (some (p.setSections dir.sections))⟩,
      Function.update m.contexts pid ⟨BitVec.ofNat 64 argv.length,x1,sp,entry⟩,m.blocks+dir.sections.length-old.sections.length⟩

-- Behind the check of the magic number. `false` is the return value -1: free_pgdir gives
-- back the sections and the pages, and the struct pgdir stays.
def load (pid : Fin n) (h : Ehdr) (ip : Usize) (argv envp : List CString) (fs : Fs) (m : System n) : Except Trap (Bool × System n) := do
  let mem ← slab c.small m.space.mem
  let (dir,mem) ← initPgdir c.fp mem
  let (whole,maxEnd,dir,mem,fs) ← loadHeaders c.zero (inodeReader c ip) h.phnum.toNat h.phoff 0#64 dir mem fs
  let fs ← trap (unlockPut c.env (some m.space.fs.op) ip fs)
  let k := m.space.fs.commit fs
  if whole then do
    let m ← enter c pid h.entry maxEnd argv envp dir mem k m
    .ok (true,m)
  else do
    let (_,mem,k) ← freePgdir (fileSections c.env) dir mem k
    .ok (false,{ m with space := ⟨mem,m.space.dirs,k⟩, blocks := m.blocks+1 })

def execve (pid : Fin n) (path : List Byte) (argv envp : List CString) (m : System n) : Except Trap (Bool × System n) := do
  let k := m.space.fs
  let p ← trap (k.proc pid)
  let (ip,fs) ← trap (namei c.env (some k.op) p.cwd path k.fs)
  match ip with
  | none => .error .panic
  | some ip => do
    let fs ← trap (inodeLock ip fs)
    let (count,bytes,fs) ← inodeReader c ip 0#64 (BitVec.ofNat 64 ehdrSize) fs
    if count < BitVec.ofNat 64 ehdrSize then do
      let fs ← trap (unlockPut c.env (some k.op) ip fs)
      .ok (false,{ m with space := ⟨m.space.mem,m.space.dirs,k.commit fs⟩ })
    else
      let h : Ehdr := setBytes 0#512 0 bytes
      if h.magic ≠ elfmag then .error .assertion else load c pid h ip argv envp fs m

end Call

end Execve
