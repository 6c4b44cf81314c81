import HonorKernel.Execve

-- The loop over the program headers against the segments of the file: it loads them all,
-- or it stops at the first header that does not fit the file.
namespace Execve
open DiskFormat BitSlice InodeLayer SysFile
open PageTable (U64 Frame Trap Mem Segment PgDir pageSize pageBase pageOffset pteUserData pteRo loadPage loadPages loadSegment loadSegments)

-- A file of these bytes behind inodes.read; nothing else changes.
def Reads {σ : Type} (file : List Byte) (read : Reader σ) (fs : σ) : Prop :=
  ∀ off count : U64, count.toNat ≤ pageSize → read off count fs =
    if off.toNat ≤ file.length then .ok (BitVec.ofNat 64 (min count.toNat (file.length-off.toNat)),
        (file.drop off.toNat).take count.toNat,fs)
    else .error .panic

def ehdrOf (file : List Byte) : Ehdr := setBytes 0#512 0 (file.take ehdrSize)

def phdrs (file : List Byte) : Nat → Nat → List Phdr
  | 0,_ => []
  | left+1,off => setBytes 0#448 0 ((file.drop off).take phdrSize)::phdrs file left (off+phdrSize)

-- The flags are supported, and what is to be loaded is in the file.
def Phdr.Supported (file : List Byte) (h : Phdr) : Prop :=
  h.type = ptLoad → (h.flags = pfText ∨ h.flags = pfData) ∧ (h.filesz.toNat = 0 ∨ h.offset.toNat+h.filesz.toNat ≤ file.length)

instance (file : List Byte) (h : Phdr) : Decidable (h.Supported file) := inferInstanceAs (Decidable (_ → _))

def Phdr.load (file : List Byte) (h : Phdr) : Segment := h.segment ((file.drop h.offset.toNat).take h.filesz.toNat)

def loads (file : List Byte) (hs : List Phdr) : List Segment := (hs.filter fun h => h.type = ptLoad).map (Phdr.load file)

section Segments
variable {σ : Type} {file : List Byte} {read : Reader σ} {fs : σ} {flags fileSz off va : U64} {pt : Option Frame}
  {mem : Mem}

theorem Reads.partly (reads : Reads file read fs) {count : U64} (small : count.toNat ≤ pageSize)
    (ran : read off count fs = .ok (got,bytes,fs')) :
    off.toNat ≤ file.length ∧ got = BitVec.ofNat 64 (min count.toNat (file.length-off.toNat)) ∧
    bytes = (file.drop off.toNat).take count.toNat ∧ fs' = fs := by
  rw [reads off count small] at ran
  split at ran
  · rename_i inside
    simp only [Except.ok.injEq,Prod.mk.injEq] at ran
    obtain ⟨rfl,rfl,rfl⟩ := ran
    exact ⟨inside,rfl,rfl,rfl⟩
  · cases ran

theorem Reads.whole (reads : Reads file read fs) (off count : U64) (small : count.toNat ≤ pageSize)
    (inside : off.toNat+count.toNat ≤ file.length) :
    read off count fs = .ok (count,(file.drop off.toNat).take count.toNat,fs) := by
  rw [reads off count small,if_pos (by omega),Nat.min_eq_left (by omega),BitVec.ofNat_toNat,BitVec.setWidth_eq]

-- The bytes of one round of the loop.
def chunk (va fileSz : U64) : Nat := min (pageSize-pageOffset va) fileSz.toNat

theorem chunk_bounds (va : U64) (more : fileSz.toNat ≠ 0) : 0 < chunk va fileSz ∧ chunk va fileSz ≤ fileSz.toNat ∧
    chunk va fileSz ≤ pageSize ∧
    (BitVec.ofNat 64 (chunk va fileSz)).toNat = chunk va fileSz ∧
    (fileSz-BitVec.ofNat 64 (chunk va fileSz)).toNat = fileSz.toNat-chunk va fileSz := by
  have page : pageSize = 4096 := rfl
  have offset : pageOffset va < pageSize := Nat.mod_lt _ (by decide)
  have bound := fileSz.isLt
  have small : chunk va fileSz ≤ fileSz.toNat := Nat.min_le_right _ _
  have value : (BitVec.ofNat 64 (chunk va fileSz)).toNat = chunk va fileSz := by
    rw [BitVec.toNat_ofNat]
    exact Nat.mod_eq_of_lt (by omega)
  refine ⟨?_,small,?_,value,?_⟩
  · unfold chunk
    omega
  · unfold chunk
    omega
  · rw [BitVec.toNat_sub,value]
    omega

theorem loadFile_whole (reads : Reads file read fs) (size : file.length < 2^32) (fuel : Nat)
    (enough : fileSz.toNat ≤ fuel) (inside : fileSz.toNat = 0 ∨ off.toNat+fileSz.toNat ≤ file.length) :
    loadFile read flags fuel fileSz off va pt mem fs =
      (loadPages flags fuel va ((file.drop off.toNat).take fileSz.toNat) pt mem).map fun r => (true,r.1,r.2,fs) := by
  induction fuel generalizing fileSz off va pt mem with
  | zero => rfl
  | succ fuel ih =>
    unfold loadFile loadPages
    by_cases nothing : fileSz.toNat = 0
    · have zero : fileSz = 0#64 := BitVec.eq_of_toNat_eq nothing
      rw [if_pos zero,nothing,List.take_zero,if_pos rfl]
      rfl
    · have some_bytes : fileSz ≠ 0#64 := fun zero => nothing (by rw [zero]; rfl)
      have inside := inside.resolve_left nothing
      obtain ⟨positive,small,page,value,left⟩ := chunk_bounds va nothing
      have length : ((file.drop off.toNat).take fileSz.toNat).length = fileSz.toNat := by
        rw [List.length_take,List.length_drop]
        omega
      have filled : (file.drop off.toNat).take fileSz.toNat ≠ [] := by
        intro empty
        rw [empty] at length
        exact nothing length.symm
      have count : min (pageSize-pageOffset va)
          ((file.drop off.toNat).take fileSz.toNat).length = chunk va fileSz := by rw [length]; rfl
      have got := reads.whole off _ (by rw [value]; exact page) (by rw [value]; omega)
      have further : (off+BitVec.ofNat 64 (chunk va fileSz)).toNat = off.toNat+chunk va fileSz := by
        rw [BitVec.toNat_add,value]
        omega
      have taken : ((file.drop off.toNat).take fileSz.toNat).take (chunk va fileSz) = (file.drop off.toNat).take
          (chunk va fileSz) := by
        rw [List.take_take,Nat.min_eq_left small]
      have dropped : ((file.drop off.toNat).take fileSz.toNat).drop (chunk va fileSz) =
          (file.drop (off+BitVec.ofNat 64 (chunk va fileSz)).toNat).take (fileSz-BitVec.ofNat 64 (chunk va fileSz)).toNat := by
        rw [further,left,List.drop_take,List.drop_drop]
      have size' : min (pageSize-pageOffset va) fileSz.toNat = chunk va fileSz := rfl
      rw [value] at got
      rw [if_neg some_bytes,if_neg filled]
      simp only [count,taken,dropped,size',loadPage,bind,Except.bind]
      cases mem.kzallocPage with
      | error fault => rfl
      | ok r =>
        simp only
        cases PageTable.vmmap (pageBase va) r.1 flags pt r.2 with
        | error fault => rfl
        | ok r' =>
          simp only [got,ne_eq,not_true_eq_false,if_false]
          exact ih (by omega) (.inr (by omega))

theorem loadFile_true (reads : Reads file read fs) (size : file.length < 2^32) (fuel : Nat)
    (enough : fileSz.toNat ≤ fuel)
    (ran : loadFile read flags fuel fileSz off va pt mem fs = .ok (true,pt',mem',fs')) :
    fileSz.toNat = 0 ∨ off.toNat+fileSz.toNat ≤ file.length := by
  induction fuel generalizing fileSz off va pt mem fs with
  | zero => exact .inl (by omega)
  | succ fuel ih =>
    by_cases nothing : fileSz.toNat = 0
    · exact .inl nothing
    · have some_bytes : fileSz ≠ 0#64 := fun zero => nothing (by rw [zero]; rfl)
      obtain ⟨positive,small,page,value,left⟩ := chunk_bounds va nothing
      have size' : min (pageSize-pageOffset va) fileSz.toNat = chunk va fileSz := rfl
      unfold loadFile at ran
      rw [if_neg some_bytes] at ran
      simp only [size'] at ran
      obtain ⟨⟨dest,mem₁⟩,_,ran⟩ := Runs.bind_ok.mp ran
      obtain ⟨⟨pt₂,mem₂⟩,_,ran⟩ := Runs.bind_ok.mp ran
      obtain ⟨⟨count,bytes,fs₁⟩,got,rest⟩ := Runs.bind_ok.mp ran
      obtain ⟨inside,counted,_,same⟩ := reads.partly (by rw [value]; exact page) got
      simp only at rest
      split at rest
      · cases rest
      · rename_i complete
        have complete := congrArg BitVec.toNat (counted.symm.trans (Decidable.not_not.mp complete))
        rw [value,BitVec.toNat_ofNat] at complete
        subst same
        have further : (off+BitVec.ofNat 64 (chunk va fileSz)).toNat = off.toNat+chunk va fileSz := by
          rw [BitVec.toNat_add,value]
          omega
        have rest := ih reads (by omega) rest
        rw [left,further] at rest
        omega

-- max_end over the segments.
def reaches (top : U64) (segs : List Segment) : U64 := segs.foldl (fun top seg => if top < seg.last then seg.last else top) top

theorem header_read (reads : Reads file read fs) (inside : off.toNat+phdrSize ≤ file.length) :
    read off (BitVec.ofNat 64 phdrSize) fs = .ok (BitVec.ofNat 64 phdrSize,(file.drop off.toNat).take phdrSize,fs) :=
  reads.whole off (BitVec.ofNat 64 phdrSize) (by decide) inside

theorem next_header (size : file.length < 2^32) (inside : off.toNat+phdrSize ≤ file.length) :
    (off+BitVec.ofNat 64 phdrSize).toNat = off.toNat+phdrSize := by
  have small : phdrSize = 56 := rfl
  rw [BitVec.toNat_add,show (BitVec.ofNat 64 phdrSize).toNat = phdrSize from rfl]
  omega

theorem loadHeaders_whole (zero : Frame) (reads : Reads file read fs) (size : file.length < 2^32) (left : Nat)
    (top : U64) (dir : PgDir) (mem : Mem) (inside : left ≠ 0 → off.toNat+phdrSize*left ≤ file.length)
    (each : ∀ h ∈ phdrs file left off.toNat, h.Supported file) :
    loadHeaders zero read left off top dir mem fs =
      (loadSegments zero (loads file (phdrs file left off.toNat)) dir mem).map
        fun r => (true,reaches top (loads file (phdrs file left off.toNat)),r.1,r.2,fs) := by
  induction left generalizing off top dir mem with
  | zero => rfl
  | succ left ih =>
    have inside := inside (Nat.succ_ne_zero left)
    have here : off.toNat+phdrSize ≤ file.length := by
      rw [Nat.mul_succ] at inside
      omega
    have further := next_header size here
    have rest : ∀ top dir mem, loadHeaders zero read left (off+BitVec.ofNat 64 phdrSize) top dir mem fs =
        (loadSegments zero (loads file (phdrs file left (off.toNat+phdrSize))) dir mem).map
          fun r => (true,reaches top (loads file (phdrs file left (off.toNat+phdrSize))),r.1,r.2,fs) := by
      intro top dir mem
      rw [← further]
      refine ih top dir mem (fun _ => ?_) fun h member => each h ?_
      · rw [further]
        rw [Nat.mul_succ] at inside
        omega
      · rw [further] at member
        exact List.mem_cons_of_mem _ member
    obtain ⟨h,is⟩ : ∃ h : Phdr, h = setBytes 0#448 0 ((file.drop off.toNat).take phdrSize) := ⟨_,rfl⟩
    have first : phdrs file (left+1) off.toNat = h::phdrs file left (off.toNat+phdrSize) := by rw [is]; rfl
    rw [first] at each ⊢
    unfold loadHeaders
    simp only [header_read reads here,bind,Except.bind,← is]
    rw [if_neg (by decide)]
    by_cases loaded : h.type = ptLoad
    · obtain ⟨flags,content⟩ := each h List.mem_cons_self loaded
      have length : (h.load file).bytes.length = h.filesz.toNat := by
        simp only [Phdr.load,Phdr.segment,List.length_take,List.length_drop]
        omega
      have parts : loads file (h::phdrs file left (off.toNat+phdrSize)) = h.load file::loads file
          (phdrs file left (off.toNat+phdrSize)) := by
        simp [loads,loaded]
      rw [if_neg (Decidable.not_not.mpr loaded),if_neg (by tauto),loadFile_whole reads size _ (Nat.le_refl _) content,parts]
      -- Only `bytes` differs between the header's segment and the loaded one.
      have bytes : (file.drop h.offset.toNat).take h.filesz.toNat = (h.load file).bytes := rfl
      have start : h.vaddr = (h.load file).vaddr := rfl
      have text : (h.segment []).text = (h.load file).text := rfl
      have bss : (h.segment []).bss = (h.load file).bss := rfl
      simp only [loadSegments,loadSegment,length,bytes,start,text,bss,bind,Except.bind]
      cases loadPages (if (h.load file).text then pteUserData ||| pteRo else pteUserData) h.filesz.toNat (h.load file).vaddr (h.load file).bytes dir.pt mem with
      | error fault => rfl
      | ok r =>
        simp only [Except.map,Bool.true_eq_false,if_false]
        cases PageTable.mapZero zero (h.load file).bss r.1 r.2 with
        | error fault => rfl
        | ok r' => exact rest _ _ _
    · have parts : loads file (h::phdrs file left (off.toNat+phdrSize)) = loads file (phdrs file left (off.toNat+phdrSize)) := by
        simp [loads,loaded]
      rw [if_pos loaded,rest,parts]

-- The loop comes to its end only when every header is in the file and is supported.
theorem loadHeaders_true (zero : Frame) (reads : Reads file read fs) (size : file.length < 2^32) (left : Nat)
    {top : U64} {dir : PgDir} (ran : loadHeaders zero read left off top dir mem fs = .ok (true,top',dir',mem',fs')) :
    (left ≠ 0 → off.toNat+phdrSize*left ≤ file.length) ∧ ∀ h ∈ phdrs file left off.toNat, h.Supported file := by
  induction left generalizing off top dir mem with
  | zero => exact ⟨fun more => absurd rfl more,fun h member => by cases member⟩
  | succ left ih =>
    have unit : phdrSize = 56 := rfl
    unfold loadHeaders at ran
    obtain ⟨⟨count,bytes,fs₁⟩,got,rest⟩ := Runs.bind_ok.mp ran
    obtain ⟨inside,counted,stored,same⟩ := reads.partly (by decide) got
    subst same
    simp only at rest
    split at rest
    · cases rest
    · rename_i complete
      have here : off.toNat+phdrSize ≤ file.length := by
        rw [counted,BitVec.lt_def,show (BitVec.ofNat 64 phdrSize).toNat = phdrSize from rfl,BitVec.toNat_ofNat] at complete
        omega
      have further := next_header size here
      have first : bytes = (file.drop off.toNat).take phdrSize := stored
      rw [first] at rest
      obtain ⟨h,is⟩ : ∃ h : Phdr, h = setBytes 0#448 0 ((file.drop off.toNat).take phdrSize) := ⟨_,rfl⟩
      have parts : phdrs file (left+1) off.toNat = h::phdrs file left (off.toNat+phdrSize) := by rw [is]; rfl
      have finish : ∀ {top dir mem}, h.Supported file → loadHeaders zero read left
          (off+BitVec.ofNat 64 phdrSize) top dir mem fs₁ = .ok (true,top',dir',mem',fs') →
          (left+1 ≠ 0 → off.toNat+phdrSize*(left+1) ≤ file.length) ∧ ∀ h ∈ phdrs file (left+1) off.toNat, h.Supported file := by
        intro top dir mem supported ran
        obtain ⟨later,others⟩ := ih ran
        rw [further] at later others
        refine ⟨fun _ => ?_,?_⟩
        · by_cases none : left = 0
          · rw [none]
            omega
          · have later := later none
            rw [Nat.mul_succ]
            omega
        · intro g member
          rw [parts] at member
          rcases List.mem_cons.mp member with rfl | member
          · exact supported
          · exact others g member
      rw [← is] at rest
      split at rest
      · rename_i other
        exact finish (fun loaded => absurd loaded other) rest
      · split at rest
        · cases rest
        · rename_i flags
          obtain ⟨⟨whole,pt₁,mem₁,fs₂⟩,loaded,rest⟩ := Runs.bind_ok.mp rest
          simp only at rest
          split at rest
          · cases rest
          · rename_i complete
            cases whole with
            | false => exact absurd rfl complete
            | true =>
              obtain ⟨⟨pt₂,mem₂⟩,_,rest⟩ := Runs.bind_ok.mp rest
              have content := loadFile_true reads size _ (Nat.le_refl _) loaded
              rw [loadFile_whole reads size _ (Nat.le_refl _) content] at loaded
              obtain ⟨r,_,final⟩ := Runs.map_ok loaded
              simp only [Prod.mk.injEq] at final
              obtain ⟨_,_,_,rfl⟩ := final
              exact finish (fun _ => ⟨by tauto,content⟩) rest

end Segments

-- What makes execve go on to the end: the magic number, and headers that fit the file.
structure Loadable (file : List Byte) : Prop where
  long : ehdrSize ≤ file.length
  magic : (ehdrOf file).magic = elfmag
  inside : (ehdrOf file).phnum.toNat ≠ 0 → (ehdrOf file).phoff.toNat+phdrSize*(ehdrOf file).phnum.toNat ≤ file.length
  supported : ∀ h ∈ phdrs file (ehdrOf file).phnum.toNat (ehdrOf file).phoff.toNat, h.Supported file

def segments (file : List Byte) : List Segment := loads file (phdrs file (ehdrOf file).phnum.toNat (ehdrOf file).phoff.toNat)

-- The bytes of an inode.
def bytesOf (fs : Fs) (inode : Inode) : List Byte := (List.range inode.entry.numBytes.toNat).map (fileByte fs.cache inode.entry)

-- A file or a directory without holes.
structure Plain (fs : Fs) (ip : Usize) (inode : Inode) : Prop where
  found : fs.inodes ip = some inode
  file : inode.entry.type ≠ inodeDevice
  whole : Whole fs.cache inode.entry

section Files
variable {fs : Fs} {ip : Usize} {inode : Inode}

theorem bytesOf_length (fs : Fs) (inode : Inode) : (bytesOf fs inode).length = inode.entry.numBytes.toNat := by
  rw [bytesOf,List.length_map,List.length_range]

theorem bytesOf_part (fs : Fs) (inode : Inode) (off count : Nat) :
    ((bytesOf fs inode).drop off).take count =
      (List.range (min count (inode.entry.numBytes.toNat-off))).map fun j => fileByte fs.cache inode.entry (off+j) := by
  refine List.ext_getElem ?_ ?_
  · rw [List.length_take,List.length_drop,bytesOf_length,List.length_map,List.length_range]
  · intro j left right
    simp [bytesOf]

theorem Plain.reads (plain : Plain fs ip inode) (c : Setting) : Reads (bytesOf fs inode) (inodeReader c ip) fs := by
  intro off count small
  have page : pageSize = 4096 := rfl
  have bound := inode.entry.numBytes.isLt
  rw [bytesOf_length,bytesOf_part]
  unfold inodeReader
  split
  · rename_i inside
    rw [inodeRead_whole plain.found plain.file plain.whole off count inside (by omega)]
    rfl
  · rename_i outside
    have wide : (inode.entry.numBytes.setWidth 64).toNat = inode.entry.numBytes.toNat := by
      rw [BitVec.toNat_setWidth,Nat.mod_eq_of_lt (by omega)]
    have refused : ¬ off ≤ inode.entry.numBytes.setWidth 64 := by
      rw [BitVec.le_def,wide]
      exact outside
    unfold inodeRead
    simp only [Fs.inode_ok.mpr plain.found,bind,Except.bind]
    rw [if_neg plain.file,if_neg fun asserted => refused asserted.1]
    rfl

theorem bytesOf_small (fs : Fs) (inode : Inode) : (bytesOf fs inode).length < 2^32 := by
  rw [bytesOf_length]
  exact inode.entry.numBytes.isLt

end Files

end Execve
