import HonorKernel.PageTable

-- kernel/paging.c, the memory part of fork and execve, and the sections that mmap and
-- munmap work on.
namespace PageTable
open DiskFormat BitSlice

def stFile : U64 := 1#64
def stRo : U64 := 4#64
def stHeap : U64 := 8#64
def stText : U64 := 5#64
def stMmapShared : U64 := 32#64
def stMmapPrivate : U64 := 64#64
def kspaceMask : U64 := 0xFFFF000000000000#64

-- `fp` is an index into the file table. No flag word of the kernel has ST_SWAP, so that
-- swap_in is left out; so are the sleeplock and `length`, which nothing reads.
structure Section where
  flags : U64
  first : U64
  last : U64
  fp : Option Nat
  offset : U64
  prot : U64
deriving DecidableEq

-- The list from section_head on: `_insert_into_list` puts a section in front.
structure PgDir where
  pt : Option Frame
  sections : List Section

-- for (va = PAGE_BASE(begin); va < end; va += PAGE_SIZE). With `end` in the last page of
-- the 64 bits `va` starts again at 0.
def pageCount (first last : U64) : Nat := (last.toNat-(pageBase first).toNat+(pageSize-1))/pageSize
def pagesOf (first last : U64) : List U64 := (List.range (pageCount first last)).map fun k => pageBase first+BitVec.ofNat 64 (pageSize*k)
def pageLoop (first last : U64) : Except Trap (List U64) :=
  if (pageBase first).toNat < last.toNat ∧ 2^64-pageSize < last.toNat then .error .endless else .ok (pagesOf first last)

def Section.pages (st : Section) : List U64 := pagesOf st.first st.last

-- What init_sections leaves in `fp` is whatever kalloc returned.
def initSections (fp : Option Nat) : List Section := [⟨stHeap,0#64,0#64,fp,0#64,0#64⟩]

def initPgdir (fp : Option Nat) (mem : Mem) : Except Trap (PgDir × Mem) := do
  let (p,mem) ← mem.kzallocPage
  .ok (⟨some p,initSections fp⟩,mem)

-- kalloc takes whole pages for its own blocks and keeps them.
def slab : Nat → Mem → Except Trap Mem
  | 0,mem => .ok mem
  | n+1,mem => do
    let (_,mem) ← mem.kallocPage
    slab n mem

-- The copy of one page in fork.
def forkPage (parent : Option Frame) (va : U64) (pt : Option Frame) (mem : Mem) : Except Trap (Option Frame × Mem) := do
  let (old,_,mem) ← getPte false va parent mem
  match old with
  | none => .ok (pt,mem)
  | some old =>
    if valid (mem.at old) then do
      let (page,mem) ← mem.kallocPage
      let (pt,mem) ← vmmap va page (flagsOf (mem.at old)) pt mem
      copyout va (getBytes (mem.pages (frameOf (mem.at old))) 0 pageSize) pt mem
    else .ok (pt,mem)

def forkPages (parent : Option Frame) : List U64 → Option Frame → Mem → Except Trap (Option Frame × Mem)
  | [],pt,mem => .ok (pt,mem)
  | va::rest,pt,mem => do
    let (pt,mem) ← forkPage parent va pt mem
    forkPages parent rest pt mem

def forkSections (parent : Option Frame) : List Section → Option Frame → Mem → Except Trap (Option Frame × Mem)
  | [],pt,mem => .ok (pt,mem)
  | st::rest,pt,mem => do
    let pages ← pageLoop st.first st.last
    let (pt,mem) ← forkPages parent pages pt mem
    forkSections parent rest pt mem

-- copy_sections: every copy goes to the front.
def copySections (source target : List Section) : List Section := source.reverse++target

-- What fork does to memory: the stack page and the tables of the new process, the pages,
-- the sections. `slab₀` and `slab₁` are what the small allocations take.
def fork (slab₀ slab₁ : Nat) (fp : Option Nat) (parent : PgDir) (mem : Mem) : Except Trap (PgDir × Mem) := do
  let mem ← slab slab₀ mem
  let (_,mem) ← mem.kzallocPage
  let (child,mem) ← initPgdir fp mem
  let (pt,mem) ← forkSections parent.pt parent.sections child.pt mem
  let mem ← slab slab₁ mem
  .ok (⟨pt,copySections parent.sections child.sections⟩,mem)

-- if (pte && (*pte & PTE_VALID)) { kfree_page(..); *pte = 0; }
def dropPage (pt : Option Frame) (va : U64) (mem : Mem) : Except Trap Mem := do
  let (slot,_,mem) ← getPte false va pt mem
  match slot with
  | none => .ok mem
  | some slot => if valid (mem.at slot) then .ok ((mem.kfreePage (frameOf (mem.at slot))).setAt slot 0#64) else .ok mem

def dropPages (pt : Option Frame) : List U64 → Mem → Except Trap Mem
  | [],mem => .ok mem
  | va::rest,mem => do
    let mem ← dropPage pt va mem
    dropPages pt rest mem

-- The section that the loop of sbrk stops at: the first with ST_HEAP, or the last one.
def heapOf : List Section → Option (List Section × Section × List Section)
  | [] => none
  | [st] => some ([],st,[])
  | st::rest =>
    if st.flags &&& stHeap ≠ 0#64 then some ([],st,rest)
    else (heapOf rest).map fun (before,found,after) => (st::before,found,after)

-- The pages that sbrk drops; `i*PAGE_SIZE` is an int.
def shrunk (last : U64) (count : Nat) : List U64 := (List.range count).map fun i => last+(BitVec.ofNat 32 (i*pageSize)).signExtend 64

def sbrk (size : Int) (dir : PgDir) (mem : Mem) : Except Trap (U64 × PgDir × Mem) :=
  match heapOf dir.sections with
  | none => .error .assertion
  | some (before,st,after) =>
    let last := st.last+BitVec.ofInt 64 (size*pageSize)
    let dir' := { dir with sections := before++{ st with last := last }::after }
    if 0 ≤ size then .ok (st.last,dir',mem)
    else if st.last-st.first < BitVec.ofInt 64 (-size)*BitVec.ofNat 64 pageSize then .error .assertion
    else do
      let mem ← dropPages dir.pt (shrunk last (-size).toNat) mem
      .ok (st.last,dir',mem)

def Section.has (st : Section) (va : U64) : Prop := st.first ≤ va ∧ va < st.last

instance (st : Section) (va : U64) : Decidable (st.has va) := inferInstanceAs (Decidable (_ ∧ _))

-- The assertions of pgfault_handler let through an address in some section. The entry
-- is read through the same pointer all the time.
def pgfaultHandler (va : U64) (dir : PgDir) (mem : Mem) : Except Trap (PgDir × Mem) :=
  if ¬ ∃ st ∈ dir.sections, st.has va then .error .assertion
  else do
    let (slot,pt,mem) ← getPte true va dir.pt mem
    let slot ← notNull slot
    let (pt,mem) ← (
      if mem.at slot = 0#64 then do
        let (page,mem) ← mem.kallocPage
        vmmap va page pteUserData pt mem
      else if readOnly (flagsOf (mem.at slot)) then do
        let (page,mem) ← mem.kallocPage
        let old := frameOf (mem.at slot)
        let mem := mem.setPage page (mem.pages old)
        vmmap va page pteUserData pt (mem.kfreePage old)
      else .ok (pt,mem))
    if valid (mem.at slot) then .ok ({ dir with pt := pt },mem) else .error .panic

-- A store of the kernel or of user code to a user address: what is not mapped or mapped
-- read-only faults first. Addresses of more than 48 bits do not reach these tables.
def userStore (va : U64) (bytes : List Byte) (dir : PgDir) (mem : Mem) : Except Trap (PgDir × Mem) := do
  if 2^48 ≤ va.toNat then .error .panic
  let (slot,_,_) ← getPte false va dir.pt mem
  let (dir,mem) ← (
    if slot.any fun slot => valid (mem.at slot) ∧ ¬ readOnly (mem.at slot) then .ok (dir,mem) else pgfaultHandler va dir mem)
  let (slot,_,mem) ← getPte false va dir.pt mem
  let slot ← notNull slot
  .ok (dir,mem.setPage (frameOf (mem.at slot)) (setBytes (mem.pages (frameOf (mem.at slot))) (pageOffset va) bytes))

-- memmove to user memory, page by page.
def userCopy : Nat → U64 → List Byte → PgDir → Mem → Except Trap (PgDir × Mem)
  | 0,_,_,dir,mem => .ok (dir,mem)
  | fuel+1,va,src,dir,mem =>
    if src = [] then .ok (dir,mem)
    else do
      let n := min src.length (pageSize-pageOffset va)
      let (dir,mem) ← userStore va (src.take n) dir mem
      userCopy fuel (va+BitVec.ofNat 64 n) (src.drop n) dir mem

-- The files behind the sections: their state is `σ`.
structure Files (σ : Type) where
  isInode : Nat → σ → Bool
  read : Nat → U64 → Nat → σ → Except Trap (List Byte × σ)
  write : Nat → U64 → List Byte → σ → Except Trap σ
  dup : Nat → σ → σ
  close : Nat → σ → Except Trap σ

section FileSections
variable {σ : Type} (files : Files σ)

-- copy_sections: every file gets another reference.
def dupSections (sections : List Section) (fs : σ) : σ :=
  sections.foldl (fun fs st =>
    match st.fp with
    | none => fs
    | some fp => files.dup fp fs) fs

-- kfree_page for every page, entries left as they are.
def freePages (pt : Option Frame) : List U64 → Mem → Except Trap Mem
  | [],mem => .ok mem
  | va::rest,mem => do
    let (slot,_,mem) ← getPte false va pt mem
    let mem := match slot with
      | none => mem
      | some slot => if valid (mem.at slot) then mem.kfreePage (frameOf (mem.at slot)) else mem
    freePages pt rest mem

def freeSections (pt : Option Frame) : List Section → Mem → σ → Except Trap (Mem × σ)
  | [],mem,fs => .ok (mem,fs)
  | st::rest,mem,fs => do
    let pages ← pageLoop st.first st.last
    let mem ← freePages pt pages mem
    let fs ← (match st.fp with
      | none => .ok fs
      | some fp => files.close fp fs)
    freeSections pt rest mem fs

-- The nested loops of free_pgdir: a table of `level` and the tables below it.
def freeTable : Nat → Frame → Mem → Mem
  | 0,p,mem => mem.kfreePage p
  | level+1,p,mem =>
    let mem := (List.finRange 512).foldl (fun mem i => if valid (mem.entry p i) then freeTable level
        (frameOf (mem.entry p i)) mem else mem) mem
    mem.kfreePage p

def freePgdir (dir : PgDir) (mem : Mem) (fs : σ) : Except Trap (PgDir × Mem × σ) :=
  match dir.pt with
  | none => .ok (dir,mem,fs)
  | some root => do
    let (mem,fs) ← freeSections files dir.pt dir.sections mem fs
    .ok (⟨none,[]⟩,freeTable 3 root mem,fs)

-- *end of get_free_vm; *begin is computed in the loop and then replaced. The head of the
-- list reads as a section that begins at `pt`, above KMASK.
def freeEnd (sections : List Section) : U64 :=
  sections.foldl (fun last st =>
    if kspaceMask ≤ st.first ∨ kspaceMask ≤ st.last then last
    else if st.first = 0#64 ∧ st.last = 0#64 then last
    else if st.first < last then pageBase st.first else last) 0x80000000#64

def getFreeVm (sections : List Section) (length : U64) : U64 × U64 := (freeEnd sections-length,freeEnd sections)

-- sys_mmap with a descriptor of file `fp`, behind its checks of the arguments; `length`
-- is rounded up as an int. None stands for -1.
def mmap (length : U64) (shared : Bool) (prot : U64) (fp : Nat) (offset : U64) (dir : PgDir) (mem : Mem) (fs : σ) :
    Except Trap (Option U64 × PgDir × Mem × σ) :=
  let (first,last) := getFreeVm dir.sections length
  if last = first ∨ pageOffset first ≠ 0 then .ok (none,dir,mem,fs)
  else do
    let st : Section := ⟨if shared then stMmapShared else stMmapPrivate,first,last,some fp,offset,prot⟩
    let dir := { dir with sections := st::dir.sections }
    let (bytes,fs) ← files.read fp offset length.toNat (files.dup fp fs)
    let (dir,mem) ← userCopy bytes.length first bytes dir mem
    .ok (some first,dir,mem,fs)

-- get_page_ref counts from EXTMEM, where the counters are indexed from 0.
def pageRef (mem : Mem) (p : Frame) : Int := mem.refs (p-0x40000#36)

-- MAX and MIN.
def larger (a b : U64) : U64 := if b < a then a else b
def smaller (a b : U64) : U64 := if a < b then a else b

-- One page of free_section_pages.
def freeSectionPage (st : Section) (pt : Option Frame) (va : U64) (mem : Mem) (fs : σ) : Except Trap (Mem × σ) := do
  let (slot,_,mem) ← getPte false va pt mem
  match slot with
  | none => .ok (mem,fs)
  | some slot =>
    if valid (mem.at slot) then do
      let fs ← (
        if (st.flags = stMmapPrivate ∨ st.flags = stMmapShared) ∧ ¬ readOnly (mem.at slot) ∧ pageRef mem
            (frameOf (mem.at slot)) = 1 then
          match st.fp with
          | none => .error .panic
          | some fp =>
            let thisFirst := larger va st.first
            let thisLast := smaller (va+BitVec.ofNat 64 pageSize) st.last
            if files.isInode fp fs then
              files.write fp (st.offset+thisFirst-st.first) (getBytes (mem.pages (frameOf (mem.at slot))) 0
                  (thisLast-thisFirst).toNat) fs
            else .error .panic
        else .ok fs)
      .ok ((mem.kfreePage (frameOf (mem.at slot))).setAt slot 0#64,fs)
    else .ok (mem,fs)

def freeSectionPages (st : Section) (pt : Option Frame) : List U64 → Mem → σ → Except Trap (Mem × σ)
  | [],mem,fs => .ok (mem,fs)
  | va::rest,mem,fs => do
    let (mem,fs) ← freeSectionPage files st pt va mem fs
    freeSectionPages st pt rest mem fs

-- One page of the other path of sys_munmap, which tests neither the pointer nor the
-- entry.
def cutPage (st : Section) (last : U64) (pt : Option Frame) (va : U64) (mem : Mem) (fs : σ) : Except Trap (Mem × σ) := do
  let (slot,_,mem) ← getPte false va pt mem
  let slot ← notNull slot
  let fs ← (match st.fp with
    | none => .error .panic
    | some fp =>
      let thisFirst := larger va st.first
      let thisLast := smaller (va+BitVec.ofNat 64 pageSize) last
      if files.isInode fp fs then
        files.write fp (st.offset+thisFirst-st.first)
          (getBytes (mem.pages (frameOf (mem.at slot))) 0 (min pageSize (thisLast-thisFirst).toNat)) fs
      else .error .panic)
  .ok ((mem.kfreePage (frameOf (mem.at slot))).setAt slot 0#64,fs)

def cutPages (st : Section) (last : U64) (pt : Option Frame) : List U64 → Mem → σ → Except Trap (Mem × σ)
  | [],mem,fs => .ok (mem,fs)
  | va::rest,mem,fs => do
    let (mem,fs) ← cutPage files st last pt va mem fs
    cutPages st last pt rest mem fs

def splitAt (va : U64) : List Section → Option (List Section × Section × List Section)
  | [] => none
  | st::rest => if va = st.first then some ([],st,rest) else (splitAt va rest).map fun (before,found,after) => (st::before,found,after)

def munmap (va length : U64) (dir : PgDir) (mem : Mem) (fs : σ) : Except Trap (PgDir × Mem × σ) :=
  match splitAt va dir.sections with
  | none => .ok (dir,mem,fs)
  | some (before,st,after) =>
    if ¬ (st.flags = stMmapPrivate ∨ st.flags = stMmapShared) then .error .assertion
    else if st.last-st.first ≤ length then do
      let (dir,mem) ← userCopy length.toNat va (List.replicate length.toNat 0#8) dir mem
      let pages ← pageLoop st.first st.last
      let (mem,fs) ← freeSectionPages files st dir.pt pages mem fs
      let fs ← (match st.fp with
        | none => .error .panic
        | some fp => files.close fp fs)
      .ok ({ dir with sections := before++after },mem,fs)
    else do
      let last := st.first+length
      let pages ← pageLoop st.first last
      let (mem,fs) ← cutPages files st last dir.pt pages mem fs
      .ok ({ dir with sections := before++{ st with first := last }::after },mem,fs)

end FileSections

-- A PT_LOAD header with the bytes of the file that belong to it.
structure Segment where
  vaddr : U64
  filesz : U64
  memsz : U64
  text : Bool
  bytes : List Byte

def Segment.last (seg : Segment) : U64 := seg.vaddr+if seg.text then seg.filesz else seg.memsz
def Segment.made (seg : Segment) : Section := ⟨if seg.text then stText else stFile,seg.vaddr,seg.last,none,0#64,0#64⟩

-- One page of the loop that loads the file: `sz` bytes of it go to `va`.
def loadPage (flags : U64) (va : U64) (bytes : List Byte) (pt : Option Frame) (mem : Mem) : Except Trap (Option Frame × Mem) := do
  let (page,mem) ← mem.kzallocPage
  let (pt,mem) ← vmmap (pageBase va) page flags pt mem
  .ok (pt,mem.setPage page (setBytes (mem.pages page) (pageOffset va) bytes))

-- Page by page; `fuel` is the number of bytes.
def loadPages (flags : U64) : Nat → U64 → List Byte → Option Frame → Mem → Except Trap (Option Frame × Mem)
  | 0,_,_,pt,mem => .ok (pt,mem)
  | fuel+1,va,bytes,pt,mem =>
    if bytes = [] then .ok (pt,mem)
    else do
      let n := min (pageSize-pageOffset va) bytes.length
      let (pt,mem) ← loadPage flags va (bytes.take n) pt mem
      loadPages flags fuel (va+BitVec.ofNat 64 n) (bytes.drop n) pt mem

def mapZero (zero : Frame) : List U64 → Option Frame → Mem → Except Trap (Option Frame × Mem)
  | [],pt,mem => .ok (pt,mem)
  | va::rest,pt,mem => do
    let (pt,mem) ← vmmap va zero (pteUserData ||| pteRo) pt mem
    mapZero zero rest pt mem

-- The pages behind the last one with bytes of the file; `va` and what is left of p_memsz
-- are counted in 64 bits.
def Segment.bssStart (seg : Segment) : U64 :=
  let va := seg.vaddr+seg.filesz
  if va ≠ pageBase va then pageBase va+BitVec.ofNat 64 pageSize else va

def Segment.bss (seg : Segment) : List U64 :=
  if seg.text = false ∧ seg.bssStart-seg.vaddr < seg.memsz then
    (List.range (((seg.memsz-(seg.bssStart-seg.vaddr)).toNat+(pageSize-1))/pageSize)).map
      fun k => seg.bssStart+BitVec.ofNat 64 (pageSize*k)
  else []

def loadSegment (zero : Frame) (seg : Segment) (dir : PgDir) (mem : Mem) : Except Trap (PgDir × Mem) := do
  let (pt,mem) ← loadPages (if seg.text then pteUserData ||| pteRo else pteUserData) seg.bytes.length seg.vaddr seg.bytes dir.pt mem
  let (pt,mem) ← mapZero zero seg.bss pt mem
  .ok (⟨pt,seg.made::dir.sections⟩,mem)

def loadSegments (zero : Frame) : List Segment → PgDir → Mem → Except Trap (PgDir × Mem)
  | [],dir,mem => .ok (dir,mem)
  | seg::rest,dir,mem => do
    let (dir,mem) ← loadSegment zero seg dir mem
    loadSegments zero rest dir mem

def stackPages : Nat := 10

-- sp-i*PAGE_SIZE for i from 1 on.
def mapStack (sp : U64) : List Nat → Option Frame → Mem → Except Trap (Option Frame × Mem)
  | [],pt,mem => .ok (pt,mem)
  | i::rest,pt,mem => do
    let (page,mem) ← mem.kzallocPage
    let (pt,mem) ← vmmap (sp-BitVec.ofNat 64 (i*pageSize)) page pteUserData pt mem
    mapStack sp rest pt mem

def copyouts : List (U64 × List Byte) → Option Frame → Mem → Except Trap (Option Frame × Mem)
  | [],pt,mem => .ok (pt,mem)
  | (va,src)::rest,pt,mem => do
    let (pt,mem) ← copyout va src pt mem
    copyouts rest pt mem

def maxEnd (segs : List Segment) : U64 := segs.foldl (fun top seg => if top < seg.last then seg.last else top) 0#64
def stackTop (segs : List Segment) : U64 := pageBase (maxEnd segs)+BitVec.ofNat 64 pageSize+BitVec.ofNat 64 (stackPages*pageSize)
def stackSection (segs : List Segment) : Section :=
  ⟨1024#64,stackTop segs-BitVec.ofNat 64 (stackPages*pageSize),stackTop segs,none,0#64,0#64⟩

-- The new address space of execve. `args` are the strings and pointers that go on the
-- stack, with their addresses.
def loadImage (zero : Frame) (fp : Option Nat) (segs : List Segment) (args : List (U64 × List Byte)) (mem : Mem) : Except Trap (PgDir × Mem) := do
  let (dir,mem) ← initPgdir fp mem
  let (dir,mem) ← loadSegments zero segs dir mem
  let (pt,mem) ← mapStack (stackTop segs) ((List.range stackPages).map (·+1)) dir.pt mem
  let (pt,mem) ← copyouts args pt mem
  .ok (⟨pt,stackSection segs::dir.sections⟩,mem)

end PageTable
