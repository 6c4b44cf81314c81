import HonorKernel.ExecveMemory
import HonorKernel.PageFaults

-- What a program reads of its own file.
namespace Execve
open DiskFormat BitSlice CacheView InodeLayer SysFile
open PageTable (U64 Frame Mem Space PgDir Page Segment Section Sound Holes Serving Offered Serves Clears PageDisjoint Image pageSize stackPages initSections pageOf
  pageOffset vpage rootsOf loadNext userLoad stackTop stackSection)

def loadable (file : List Byte) : List Phdr := (phdrs file (ehdrOf file).phnum.toNat (ehdrOf file).phoff.toNat).filter fun h => h.type = ptLoad

-- The bytes that a header stands for: those of the file, and zeros behind them where the
-- pages can be written.
def Phdr.size (h : Phdr) : Nat := if h.flags = pfText then h.filesz.toNat else h.memsz.toNat
def Phdr.byte (file : List Byte) (h : Phdr) (k : Nat) : Byte := if k < h.filesz.toNat then file.getD (h.offset.toNat+k) 0#8 else 0#8

-- What the linker sees to, with all pages below the stack.
structure WellFormed (file : List Byte) : Prop where
  order : ∀ h ∈ loadable file, h.filesz.toNat ≤ h.memsz.toNat
  ends : ∀ h ∈ loadable file, h.vaddr.toNat+h.memsz.toNat < 2^64
  disjoint : PageDisjoint (segments file)

-- Whatever the program has loaded so far.
def ReadsImage (file : List Byte) (s : PgDir × Mem) : Prop :=
  ∀ s', Runs.Reached loadNext s s' → ∀ h ∈ loadable file, ∀ k < h.size,
    ∃ s'', userLoad (h.vaddr+BitVec.ofNat 64 k) s'.1 s'.2 = .ok (h.byte file k,s'')

section Headers
variable {file : List Byte} {h : Phdr}

theorem segments_loadable (file : List Byte) : segments file = (loadable file).map (Phdr.load file) := rfl

theorem load_size (file : List Byte) (h : Phdr) : (h.load file).size = h.size := by
  unfold Segment.size Phdr.size Phdr.load Phdr.segment
  by_cases text : h.flags = pfText
  · simp [text]
  · simp [text]

theorem load_byte (file : List Byte) (h : Phdr) (k : Nat) : (h.load file).byte k = h.byte file k := by
  unfold Segment.byte Phdr.byte Phdr.load Phdr.segment
  simp only
  split
  · rename_i inside
    rw [List.getD_eq_getElem?_getD,List.getElem?_take_of_lt inside,List.getElem?_drop,← List.getD_eq_getElem?_getD]
  · rfl

theorem readsImage_iff (file : List Byte) (s : PgDir × Mem) : ReadsImage file s ↔ Serves (segments file) s := by
  rw [segments_loadable]
  constructor
  · intro reads s' path seg member k small
    obtain ⟨h,listed,rfl⟩ := List.mem_map.mp member
    rw [load_size] at small
    rw [load_byte]
    exact reads s' path h listed k small
  · intro serves s' path h listed k small
    have read := serves s' path (h.load file) (List.mem_map_of_mem listed) k (by rw [load_size]; exact small)
    rw [load_byte] at read
    exact read

theorem WellFormed.formed (formed : WellFormed file) (supported : ∀ h ∈ loadable file, h.Supported file) :
    ∀ seg ∈ segments file, seg.Formed := by
  intro seg member
  have low := formed.disjoint.low seg member
  rw [segments_loadable] at member
  obtain ⟨h,listed,rfl⟩ := List.mem_map.mp member
  have type : h.type = ptLoad := of_decide_eq_true (List.mem_filter.mp listed).2
  refine ⟨?_,formed.order h listed,formed.ends h listed,by omega⟩
  have enough := (supported h listed type).2
  simp only [Phdr.load,Phdr.segment,List.length_take,List.length_drop]
  omega

end Headers

section Serving
variable {n : Nat} {c : Setting} {holes : Holes} {m' : System n} {pid : Fin n} {file : List Byte}
  {argv envp : List CString} {root : Frame} {view' : PageTable.PageView} {segs : List Segment}

theorem below_stack (disjoint : PageDisjoint (segments file)) {seg : Segment} (member : seg ∈ segments file)
    (formed : seg.Formed) {k : Nat} (small : k < seg.size) (a : Nat)
    (above : (stackTop (segments file)).toNat-stackPages*pageSize ≤ a) : (seg.vaddr.toNat+k)/pageSize < a/pageSize := by
  have unit : pageSize = 4096 := rfl
  have count : stackPages = 10 := rfl
  have last := formed.last
  obtain ⟨low,each⟩ := PageTable.maxEnd_bound disjoint.low (by decide)
  have under := each seg member
  unfold stackTop at above
  rw [BitVec.toNat_add,BitVec.toNat_add,PageTable.pageBase_toNat,BitVec.toNat_ofNat,BitVec.toNat_ofNat] at above
  rw [unit,count] at above low
  rw [unit]
  omega

theorem Entered.serving (entered : Entered c holes 0#32768 file argv envp (((segments file).map Segment.made).reverse++initSections c.fp) (imageView file) root pid m' view')
    (disjoint : PageDisjoint (segments file)) (formed : ∀ seg ∈ segments file, seg.Formed) :
    ∃ dir, m'.space.dirs pid = some dir ∧ dir.pt = some root ∧
    Serving holes c.zero (rootsOf m'.space.dirs) root (segments file) dir (dir,m'.space.mem) := by
  have unit : pageSize = 4096 := rfl
  have count : stackPages = 10 := rfl
  have image := PageTable.segments_image (segments file) formed disjoint.apart fun _ => none
  have top := stackTop_toNat (PageTable.maxEnd_bound disjoint.low (by decide)).1
  have still : ∀ seg ∈ segments file, ∀ k < seg.size, view' (vpage (seg.at k)) = imageView file (pageOf (seg.vaddr.toNat+k)) := by
    intro seg member k small
    obtain ⟨value,low⟩ := (formed seg member).at_toNat small
    rw [← PageTable.pageOf_toNat,value]
    refine entered.same _ fun a above below same => ?_
    have apart := below_stack disjoint member (formed seg member) small a above
    have number := (PageTable.pageOf_same (by omega) (by omega)).mp same
    omega
  refine ⟨_,entered.dir,rfl,rfl,view',entered.shows,fun seg member k small => ?_,fun va inside low unmapped => ?_,
      fun seg member k small => ?_⟩
  · obtain ⟨value,_⟩ := (formed seg member).at_toNat small
    by_cases missing : seg.missing k
    · refine .inr ⟨missing,?_⟩
      rw [still seg member k small]
      exact image.hollow seg member k small missing
    · have shown := image.shown seg member k small missing
      obtain ⟨page,there,byte⟩ := Option.map_eq_some_iff.mp shown
      refine .inl ⟨page,(still seg member k small).trans there,?_⟩
      rw [pageOffset,value]
      exact byte
  · obtain ⟨st,member,has⟩ := inside
    have above : st.first.toNat ≤ va.toNat := has.1
    have below : va.toNat < st.last.toNat := has.2
    rcases List.mem_cons.mp member with rfl | member
    · -- The pages of the stack are there.
      have base : (stackSection (segments file)).first.toNat = (stackTop (segments file)).toNat-stackPages*pageSize :=
        toNat_below (n := stackPages*pageSize) top.2.1
      rw [base] at above
      obtain ⟨page,mapped,_⟩ := entered.held va.toNat above below
      rw [PageTable.pageOf_toNat,unmapped] at mapped
      cases mapped
    · rcases List.mem_append.mp member with made | heap
      · obtain ⟨seg,listed,rfl⟩ := List.mem_map.mp (List.mem_reverse.mp made)
        have last := (formed seg listed).last
        simp only [Segment.made] at above below
        have small : va.toNat-seg.vaddr.toNat < seg.size := by omega
        refine ⟨seg,listed,va.toNat-seg.vaddr.toNat,small,?_⟩
        apply BitVec.eq_of_toNat_eq
        rw [((formed seg listed).at_toNat small).1]
        omega
      · rw [initSections,List.mem_singleton] at heap
        subst heap
        exact absurd below (Nat.not_lt_zero _)
  · obtain ⟨value,_⟩ := (formed seg member).at_toNat small
    have last := (formed seg member).last
    refine ⟨seg.made,List.mem_cons_of_mem _ (List.mem_append_left _ (List.mem_reverse.mpr (List.mem_map_of_mem member))),?_,?_⟩
    · change seg.vaddr.toNat ≤ (seg.at k).toNat
      omega
    · change (seg.at k).toNat < seg.last.toNat
      omega

end Serving

section Running
variable {n : Nat} {c : Setting} {holes : Holes} {m m' : System n} {pid : Fin n} {p : FileTable.Process}
  {path : List Byte} {argv envp : List CString} {fs : Fs} {ip : Usize} {inode : Inode}

-- Only the first page of a data segment that has no bytes in the file is left to a fault,
-- where it begins inside the page.
theorem image_read (here : m.space.fs.procs pid = some p) (free : Unlocked m.space.fs.fs)
    (counted : ∀ q, 0 ≤ rcOf m.space.fs.fs q)
    (looked : namei c.env (some m.space.fs.op) p.cwd path m.space.fs.fs = .ok (some ip,fs))
    (plain : Plain fs ip inode) (sound : Sound holes c.zero m.space) (clear : m.space.mem.pages c.zero = 0#32768)
    (formed : WellFormed (bytesOf fs inode)) (fits : frameSize argv envp ≤ stackPages*pageSize)
    (ran : execve c pid path argv envp m = .ok (true,m')) :
    ∃ dir, m'.space.dirs pid = some dir ∧
      (ReadsImage (bytesOf fs inode) (dir,m'.space.mem) ↔ Clears (segments (bytesOf fs inode)) (dir,m'.space.mem)) := by
  have low := (PageTable.maxEnd_bound formed.disjoint.low (by decide)).1
  obtain ⟨loadable,root,view',entered⟩ := execve_entered here free counted looked plain sound low fits ran
  rw [clear] at entered
  have each := formed.formed fun h listed => loadable.supported h (List.mem_of_mem_filter listed)
  obtain ⟨dir,found,table,serving⟩ := entered.serving formed.disjoint each
  have mine : rootsOf m'.space.dirs (some pid.val) = some root := by
    rw [rootsOf,found]
    exact table
  exact ⟨dir,found,(readsImage_iff _ _).trans (serving.iff mine table each formed.disjoint.apart)⟩

theorem clears_of_none {file : List Byte} (none : ∀ seg ∈ segments file, ¬ seg.Hollow) (s : PgDir × Mem) :
    Clears (segments file) s :=
  fun _ _ seg member _ _ missing _ => absurd missing.1 (none seg member)

end Running

-- Memory that has been in use, but for the zero page.
def usedPages : Frame → Page := fun q => if q = PageTable.zeroPage then 0#32768 else BitVec.allOnes 32768

-- A byte of data in the middle of a page, and bss over the end of it; and bss alone, in
-- the last page below a table of its own.
def dataFile : List Byte := elf 6#8 0x1008#64 1#64 0x1800#64 [65#8]
def bssFile : List Byte := elf 6#8 0x1ff008#64 0#64 1#64 []

theorem dataFile_found :
    ∃ fs inode, namei blankEnv (some 0) rootInodeNo slashA (diskOf dataFile) = .ok (some 2#64,fs) ∧
    Plain fs 2#64 inode ∧
    bytesOf fs inode = dataFile := slashA_found (by decide) (Runs.ok_such (by decide +kernel))

theorem bssFile_found :
    ∃ fs inode, namei blankEnv (some 0) rootInodeNo slashA (diskOf bssFile) = .ok (some 2#64,fs) ∧ Plain fs 2#64 inode ∧
    bytesOf fs inode = bssFile := slashA_found (by decide) (Runs.ok_such (by decide +kernel))

theorem wellFormed_one {file : List Byte} (one : (segments file).length = 1)
    (low : ∀ seg ∈ segments file, seg.last.toNat+(stackPages+1)*pageSize ≤ 2^48)
    (sizes : ((loadable file).all fun h => decide (h.filesz.toNat ≤ h.memsz.toNat) && decide
        (h.vaddr.toNat+h.memsz.toNat < 2^64)) = true) :
    WellFormed file := by
  have each : ∀ h ∈ loadable file, h.filesz.toNat ≤ h.memsz.toNat ∧ h.vaddr.toNat+h.memsz.toNat < 2^64 := by
    intro h listed
    have both := List.all_eq_true.mp sizes h listed
    simp only [Bool.and_eq_true,decide_eq_true_eq] at both
    exact both
  obtain ⟨seg,list⟩ := List.length_eq_one_iff.mp one
  refine ⟨fun h listed => (each h listed).1,fun h listed => (each h listed).2,low,?_⟩
  rw [list]
  exact List.pairwise_singleton _ _

theorem usedPages_clear (file : List Byte) :
    (systemOf (began usedPages) file).space.mem.pages plainSetting.zero = 0#32768 := by
  change (began usedPages).mem.pages PageTable.zeroPage = 0#32768
  decide +kernel

theorem image_read_data : ∃ m' dir, execve plainSetting 0 slashA [] []
    (systemOf (began usedPages) dataFile) = .ok (true,m') ∧
    m'.space.dirs 0 = some dir ∧ ReadsImage dataFile (dir,m'.space.mem) := by
  obtain ⟨fs,inode,looked,plain,bytes⟩ := dataFile_found
  obtain ⟨holes,sound⟩ := began_sound usedPages
  obtain ⟨⟨done,m'⟩,ran,rfl⟩ := Runs.ok_such
      (x := execve plainSetting 0 slashA [] [] (systemOf (began usedPages) dataFile)) (p := fun r => r.1)
    (by decide +kernel)
  have here : (systemOf (began usedPages) dataFile).space.fs.procs 0 = some FileTable.firstProcess := rfl
  have formed : WellFormed dataFile := wellFormed_one (by decide +kernel) (by decide +kernel) (by decide +kernel)
  obtain ⟨dir,found,reads⟩ := image_read (c := plainSetting) here (fun p inode found => (diskOf_inodes found).1)
      (diskOf_counted dataFile) looked plain
    (systemOf_sound sound dataFile) (usedPages_clear dataFile) (by rw [bytes]; exact formed) (by decide) ran
  refine ⟨m',dir,ran,found,?_⟩
  rw [bytes] at reads
  exact reads.mpr (clears_of_none (by decide +kernel) _)

-- A load of the only byte of bss.
def findsStale (r : Bool × System 1) : Bool :=
  r.1 && (r.2.space.dirs 0).all fun dir => (userLoad 0x1ff008#64 dir r.2.space.mem).toOption.all fun loaded => loaded.1 != 0#8

set_option maxRecDepth 20000 in
theorem bssFile_stale : ∃ m', execve plainSetting 0 slashA [] []
    (systemOf (began usedPages) bssFile) = .ok (true,m') ∧ findsStale (true,m') = true := by
  obtain ⟨⟨done,m'⟩,ran,wrong⟩ := Runs.ok_such
      (x := execve plainSetting 0 slashA [] [] (systemOf (began usedPages) bssFile)) (p := findsStale)
      (by decide +kernel)
  cases done with
  | true => exact ⟨m',ran,wrong⟩
  | false => cases wrong

-- The first byte of bss is what was in the page.
theorem bss_not_cleared : ¬ ∀ (c : Setting) (holes : Holes) (m m' : System 1) (pid : Fin 1) (p : FileTable.Process)
    (path : List Byte) (argv envp : List CString) (fs : Fs) (ip : Usize)
    (inode : Inode), m.space.fs.procs pid = some p → Unlocked m.space.fs.fs → (∀ q, 0 ≤ rcOf m.space.fs.fs q) →
    namei c.env (some m.space.fs.op) p.cwd path m.space.fs.fs = .ok (some ip,fs) → Plain fs ip inode →
    Sound holes c.zero m.space →
    m.space.mem.pages c.zero = 0#32768 → WellFormed (bytesOf fs inode) → frameSize argv envp ≤ stackPages*pageSize →
    execve c pid path argv envp m = .ok (true,m') → ∃ dir, m'.space.dirs pid = some dir ∧
    ReadsImage (bytesOf fs inode) (dir,m'.space.mem) := by
  intro loaded
  obtain ⟨fs,inode,looked,plain,bytes⟩ := bssFile_found
  obtain ⟨holes,sound⟩ := began_sound usedPages
  obtain ⟨m',ran,wrong⟩ := bssFile_stale
  have free : Unlocked (diskOf bssFile) := fun p inode found => (diskOf_inodes found).1
  have formed : WellFormed bssFile := wellFormed_one (by decide +kernel) (by decide +kernel) (by decide +kernel)
  obtain ⟨dir,found,reads⟩ := loaded plainSetting holes
      (systemOf (began usedPages) bssFile) m' 0 FileTable.firstProcess slashA [] [] fs 2#64 inode rfl free
    (diskOf_counted bssFile) looked plain (systemOf_sound sound bssFile) (usedPages_clear bssFile)
        (by rw [bytes]; exact formed) (by decide) ran
  rw [bytes] at reads
  -- The only header, and its first byte.
  have header : ((loadable bssFile).any fun h => decide (h.vaddr+BitVec.ofNat 64 0 = 0x1ff008#64) && decide
      (0 < h.size) && decide (h.byte bssFile 0 = 0#8)) = true := by
    decide +kernel
  obtain ⟨h,listed,first⟩ := List.any_eq_true.mp header
  simp only [Bool.and_eq_true,decide_eq_true_eq] at first
  obtain ⟨⟨place,small⟩,zero⟩ := first
  obtain ⟨s,load⟩ := reads _ .start h listed 0 small
  rw [place,zero] at load
  have found : m'.space.dirs 0 = some dir := found
  simp only [findsStale,found,Option.all_some,load,Except.toOption,Bool.true_and,bne_self_eq_false,Bool.false_eq_true] at wrong

end Execve
