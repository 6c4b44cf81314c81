import HonorKernel.MkfsImage

-- mkfs as a whole: which files the image has for a list of files of the host.
namespace Mkfs
open DiskFormat InodeLayer CacheView Semaphores Ownership

section Bitmap

theorem byteBit_set (d : BlockData) (i j : Nat) (small : i < bitPerBlock) :
    (BitSlice.put (8*(i/8)) (byteAt d (i/8) ||| (1#8 <<< (i%8))) d).getLsbD j = if j = i then true else d.getLsbD j := by
  have bound : i < 4096 := small
  rw [BitSlice.put_bit]
  by_cases inByte : 8*(i/8) ≤ j ∧ j < 8*(i/8)+8
  · have fits : j < 4096 := by omega
    have offset : j-8*(i/8) < 8 := by omega
    have back : 8*(i/8)+(j-8*(i/8)) = j := by omega
    have shifted : (1#8 <<< (i%8)).getLsbD (j-8*(i/8)) = decide (j = i) := by
      rw [BitVec.getLsbD_shiftLeft,BitVec.getLsbD_one]
      by_cases same : j = i
      · simp [same]
        omega
      · by_cases before : j-8*(i/8) < i%8
        · simp [same,before]
        · have later : j-8*(i/8)-i%8 ≠ 0 := by omega
          simp [same,later]
    rw [if_pos inByte,decide_eq_true fits,Bool.true_and,BitVec.getLsbD_or,shifted,byteAt,BitSlice.get_bit,
        decide_eq_true offset,Bool.true_and,back]
    by_cases same : j = i
    · simp [same]
    · simp [same]
  · have other : j ≠ i := by omega
    rw [if_neg inByte,if_neg other]

theorem bitmapOf_marks (used j : Nat) (fits : used ≤ bitPerBlock) :
    bitmapGet (bitmapOf used) j = decide (j < used) := by
  rw [bitmapGet_bit]
  induction used with
  | zero => simp [bitmapOf]
  | succ used ih =>
    have step : bitmapOf (used+1) = BitSlice.put (8*(used/8))
        (byteAt (bitmapOf used) (used/8) ||| (1#8 <<< (used%8))) (bitmapOf used) := by
      unfold bitmapOf
      rw [List.range_succ,List.foldl_append]
      rfl
    rw [step,byteBit_set _ _ _ (by omega),ih (by omega)]
    by_cases same : j = used
    · simp [same]
    · rw [if_neg same,decide_eq_decide]
      omega

end Bitmap

-- The image before the first inode.
def nothing : Files := fun _ => (inodeInvalid,[])

def blankView : View := ⟨Function.update blank.sectors (bitmapBlock sb) (bitmapOf nmeta),[]⟩

section Blank

theorem getEntry_zero (no : Usize) : getEntry 0#4096 no = InodeEntry.zero := by
  unfold getEntry
  rw [BitSlice.get_zero]
  simp only [InodeEntry.ofImage,BitSlice.get_zero]
  rfl

theorem blank_sectors {b : Usize} (other : b ≠ 1#64) : blank.sectors b = 0#4096 := Function.update_of_ne other ..

theorem blank_entry {no : Usize} (inTable : InTable sb no) : diskEntry sb blankView no = InodeEntry.zero := by
  have bounds := (tableBlock_bounds inTable).1
  have start := inodeStart_toNat
  have other : toBlockNo sb no ≠ 1#64 := by
    intro same
    rw [same] at bounds
    simp at bounds
    omega
  unfold diskEntry blankView
  simp only
  rw [Function.update_of_ne (table_ne_bitmap inTable),blank_sectors other,getEntry_zero]

theorem blank_drawn : Drawn nothing blank blankView := by
  have counter : blank.freeblock.toNat = nmeta := rfl
  have marks : ∀ j, bitmapGet (blankView.blocks (bitmapBlock sb)) j = decide (j < nmeta) := by
    intro j
    unfold blankView
    simp only [Function.update_self]
    exact bitmapOf_marks nmeta j (by decide)
  have entry : ∀ no, InTable sb no → entryOf sb (idle blankView) no = InodeEntry.zero := fun no inTable => blank_entry inTable
  have none : ∀ slot, refs sb table (idle blankView) slot = none := by
    rintro ⟨no,place⟩
    unfold refs
    split
    · rename_i alive
      rw [entry no (table_iff.mp alive)]
      cases place <;> rfl
    · rfl
  have blocks : ∀ no, InTable sb no → ∀ k, fileBlock (idle blankView).cache (entryOf sb (idle blankView) no) k = Option.none := by
    intro no inTable k
    rw [fileBlock_refs inTable]
    split
    · exact none _
    · rfl
  refine ⟨fun b other => Function.update_of_ne other ..,marks,?_,Nat.le_refl _,
      by decide,⟨fun no alive => table_iff.mp alive,?_,?_,?_,?_,?_⟩,?_,
    fun no inTable k _ => blocks no inTable k,?_,?_,?_,fun _ _ => rfl⟩
  · intro b beyond
    rw [counter,nmeta_eq] at beyond
    refine blank_sectors ?_
    rintro rfl
    simp at beyond
  · intro p inode there
    cases there
  · intro b low
    have start := bitmapStart_toNat
    have size := nmeta_eq
    unfold used
    change bitmapGet (blankView.blocks (bitmapBlock sb)) b.toNat = true
    rw [marks,decide_eq_true_iff]
    omega
  · intro slot b refers
    rw [none] at refers
    cases refers
  · intro slot slot' b refers
    rw [none] at refers
    cases refers
  · intro b inData taken
    have above := (dataBlock_iff.mp inData).1
    unfold used at taken
    change bitmapGet (blankView.blocks (bitmapBlock sb)) b.toNat = true at taken
    rw [marks,decide_eq_true_iff] at taken
    omega
  · intro no inTable
    refine ⟨?_,fun k below => absurd below (Nat.not_lt_zero _)⟩
    intro y
    unfold fileByte
    rw [blocks no inTable]
    rfl
  · intro no inTable
    rw [blank_entry inTable]
    exact ⟨rfl,rfl⟩
  · intro no inTable
    rw [blank_entry inTable]
    rfl
  · intro no inTable _
    exact blank_entry inTable

end Blank

-- The root has an entry for itself, for its parent and for every file.
def inodeOf (i : Nat) : Usize := BitVec.ofNat 64 (i+2)

def fileEntries (hosts : List HostFile) : List DirEntry := hosts.zipIdx.map fun f => dirent (inodeOf f.2) f.1.name

def rootEntries (hosts : List HostFile) : List DirEntry := dirent rootInodeNo dot::dirent rootInodeNo dotdot::fileEntries hosts

def rootText (hosts : List HostFile) : List Byte := (rootEntries hosts).flatMap DirEntry.bytes

def pictured (hosts : List HostFile) : Files := fun no =>
  if no = rootInodeNo then (inodeDirectory,rootText hosts)
  else if 2 ≤ no.toNat then
    match hosts[no.toNat-2]? with
    | some f => (inodeRegular,f.bytes)
    | none => (inodeInvalid,[])
  else (inodeInvalid,[])

def blocksFor (hosts : List HostFile) : Nat :=
  nmeta+blocksOf (dirEntrySize*(hosts.length+2))+(hosts.map fun f => blocksOf f.bytes.length).sum

-- The list fits into NINODES inodes, FSSIZE blocks and INODE_MAX_BYTES a file.
structure Fits (hosts : List HostFile) : Prop where
  inodes : hosts.length+2 ≤ nInodes
  sizes : ∀ f ∈ hosts, f.bytes.length ≤ inodeMaxBytes
  blocks : blocksFor hosts ≤ fsSize

section Pictures
variable {hosts : List HostFile} {f : HostFile}

theorem rootEntries_length (hosts : List HostFile) : (rootEntries hosts).length = hosts.length+2 := by
  simp [rootEntries,fileEntries]

theorem entries_length (entries : List DirEntry) :
    (entries.flatMap DirEntry.bytes).length = dirEntrySize*entries.length := by
  rw [List.length_flatMap,List.map_congr_left fun e _ => DirEntry.bytes_length e,List.map_const',List.sum_replicate,
      smul_eq_mul,Nat.mul_comm]

theorem rootText_length (hosts : List HostFile) : (rootText hosts).length = dirEntrySize*(hosts.length+2) := by
  rw [rootText,entries_length,rootEntries_length]

theorem rootEntries_snoc (hosts : List HostFile) (f : HostFile) :
    rootEntries (hosts++[f]) = rootEntries hosts++[dirent (inodeOf hosts.length) f.name] := by
  unfold rootEntries fileEntries
  rw [List.zipIdx_append,List.map_append]
  simp

theorem rootText_snoc (hosts : List HostFile) (f : HostFile) :
    rootText (hosts++[f]) = rootText hosts++(dirent (inodeOf hosts.length) f.name).bytes := by
  unfold rootText
  rw [rootEntries_snoc,List.flatMap_append,List.flatMap_singleton]

theorem inodeOf_toNat {i : Nat} (small : i+2 < 2^64) : (inodeOf i).toNat = i+2 := by
  unfold inodeOf
  rw [BitVec.toNat_ofNat,Nat.mod_eq_of_lt small]

theorem inodeOf_ne_root {i : Nat} (small : i+2 < 2^64) : inodeOf i ≠ rootInodeNo := by
  intro same
  have number := congrArg BitVec.toNat same
  rw [inodeOf_toNat small] at number
  have one : rootInodeNo.toNat = 1 := rfl
  omega

theorem pictured_root (hosts : List HostFile) : pictured hosts rootInodeNo = (inodeDirectory,rootText hosts) := if_pos rfl

theorem pictured_file {i : Nat} (inside : i < hosts.length) (small : i+2 < 2^64) :
    pictured hosts (inodeOf i) = (inodeRegular,hosts[i].bytes) := by
  have back : (inodeOf i).toNat-2 = i := by rw [inodeOf_toNat small]; omega
  unfold pictured
  rw [if_neg (inodeOf_ne_root small),if_pos (by rw [inodeOf_toNat small]; omega),back,List.getElem?_eq_getElem inside]

theorem pictured_snoc (few : hosts.length+2 < 2^64) :
    (((pictured hosts).create (inodeOf hosts.length) inodeRegular).append rootInodeNo
    (dirent (inodeOf hosts.length) f.name).bytes).append (inodeOf hosts.length) f.bytes = pictured (hosts++[f]) := by
  have apart := inodeOf_ne_root few
  have number := inodeOf_toNat few
  funext no
  unfold Files.append Files.create
  by_cases root : no = rootInodeNo
  · subst root
    rw [Function.update_of_ne (Ne.symm apart),Function.update_self,Function.update_of_ne (Ne.symm apart),
        pictured_root,pictured_root,rootText_snoc]
  · by_cases own : no = inodeOf hosts.length
    · subst own
      rw [Function.update_self,Function.update_of_ne apart,Function.update_self,pictured_file (by simp) few]
      simp
    · rw [Function.update_of_ne own,Function.update_of_ne root,Function.update_of_ne own]
      have other : no.toNat ≠ hosts.length+2 := fun same => own (BitVec.eq_of_toNat_eq (same.trans number.symm))
      unfold pictured
      rw [if_neg root,if_neg root]
      by_cases late : 2 ≤ no.toNat
      · rw [if_pos late,if_pos late]
        by_cases known : no.toNat-2 < hosts.length
        · rw [List.getElem?_append_left known]
        · rw [List.getElem?_eq_none (by omega),List.getElem?_eq_none (by rw [List.length_append,List.length_singleton]; omega)]
      · rw [if_neg late,if_neg late]

theorem blocksFor_snoc (hosts : List HostFile) (f : HostFile) :
    blocksFor hosts+blocksOf (dirEntrySize*(hosts.length+3))+blocksOf f.bytes.length =
    blocksFor (hosts++[f])+blocksOf (dirEntrySize*(hosts.length+2)) := by
  unfold blocksFor
  rw [List.map_append,List.sum_append,List.length_append]
  simp only [List.length_singleton,List.map_cons,List.map_nil,List.sum_cons,List.sum_nil,Nat.add_zero]
  have same : hosts.length+1+2 = hosts.length+3 := rfl
  rw [same]
  omega

theorem blocksFor_mono (hosts rest : List HostFile) : blocksFor hosts ≤ blocksFor (hosts++rest) := by
  unfold blocksFor
  rw [List.map_append,List.sum_append,List.length_append]
  have mono := blocksOf_mono (show dirEntrySize*(hosts.length+2) ≤ dirEntrySize*(hosts.length+rest.length+2) from
    Nat.mul_le_mul_left _ (by omega))
  omega

end Pictures

-- The base name of a path has no slash, so the assertion on it never fails.
theorem baseName_plain (path : List Byte) : slash ∉ baseName path := by
  have behind : ∀ (path : List Byte), behindSlash path ≤ path.length ∧ slash ∉ path.drop (path.length-behindSlash path) := by
    intro path
    induction path using List.reverseRecOn with
    | nil => exact ⟨Nat.le_refl _,by simp⟩
    | append_singleton path c ih =>
      have step : behindSlash (path++[c]) = if c = slash then 0 else behindSlash path+1 := by
        unfold behindSlash
        rw [List.foldl_append]
        rfl
      rw [step,List.length_append,List.length_singleton]
      by_cases last : c = slash
      · rw [if_pos last]
        refine ⟨Nat.zero_le _,?_⟩
        rw [Nat.sub_zero,List.drop_of_length_le (by simp)]
        simp
      · rw [if_neg last]
        have position : path.length+1-(behindSlash path+1) = path.length-behindSlash path := by omega
        refine ⟨by omega,?_⟩
        rw [position,List.drop_append_of_le_length (by omega)]
        intro there
        rcases List.mem_append.mp there with early | here
        · exact ih.2 early
        · exact last (List.mem_singleton.mp here).symm
  exact (behind path).2

section Run
variable {hosts : List HostFile} {d : State} {v : View} {f : HostFile}

theorem root_inTable : InTable sb rootInodeNo := ⟨by decide,by decide⟩

theorem Drawn.addFile (drawn : Drawn (pictured hosts) d v) (counted : d.freeinode.toNat = hosts.length+2)
    (spent : d.freeblock.toNat ≤ blocksFor hosts) (few : hosts.length+3 ≤ nInodes)
    (small : f.bytes.length ≤ inodeMaxBytes) (room : blocksFor (hosts++[f]) ≤ fsSize) : ∃ d' v',
      Mkfs.addFile rootInodeNo d f = .ok d' ∧ d'.freeinode.toNat = hosts.length+3 ∧
      d'.freeblock.toNat ≤ blocksFor (hosts++[f]) ∧
      Drawn (pictured (hosts++[f])) d' v' := by
  have inodes : nInodes = 200 := rfl
  have total : inodeMaxBytes = 71680 := rfl
  have wide : hosts.length+2 < 2^64 := by omega
  have account := blocksFor_snoc hosts f
  have grows := blocksOf_mono (show dirEntrySize*(hosts.length+2) ≤ dirEntrySize*(hosts.length+3) from
    Nat.mul_le_mul_left _ (by omega))
  have number : (d.freeinode.setWidth 64 : Usize) = inodeOf hosts.length := by
    apply BitVec.eq_of_toNat_eq
    rw [wide_toNat,inodeOf_toNat wide,counted]
  obtain ⟨d₁,v₁,created,counter₁,same₁,drawn₁⟩ := drawn.ialloc (by rw [counted]; omega) inodeRegular (by decide)
  rw [number] at created drawn₁
  have rootFile : ((pictured hosts).create (inodeOf hosts.length) inodeRegular) rootInodeNo = (inodeDirectory,rootText hosts) := by
    unfold Files.create
    rw [Function.update_of_ne (Ne.symm (inodeOf_ne_root wide)),pictured_root]
  have after : dirEntrySize*(hosts.length+2)+dirEntrySize = dirEntrySize*(hosts.length+3) :=
    (Nat.mul_succ dirEntrySize (hosts.length+2)).symm
  obtain ⟨d₂,v₂,entered,counter₂,spent₂,drawn₂,_⟩ := drawn₁.iappend 0 (dirent (inodeOf hosts.length) f.name).bytes root_inTable
    (by rw [counter₁,counted]; change 1 < _; omega)
        (by rw [rootFile,DirEntry.bytes_length,rootText_length,after]; unfold dirEntrySize; omega)
    (by rw [rootFile,DirEntry.bytes_length,rootText_length,after,same₁]; omega)
  rw [rootFile,DirEntry.bytes_length,rootText_length,after,same₁] at spent₂
  have newFile : (((pictured hosts).create (inodeOf hosts.length) inodeRegular).append rootInodeNo
      (dirent (inodeOf hosts.length) f.name).bytes (inodeOf hosts.length)) = (inodeRegular,[]) := by
    unfold Files.append Files.create
    rw [Function.update_of_ne (inodeOf_ne_root wide),Function.update_self]
  have inTable : InTable sb (inodeOf hosts.length) := by
    rw [inTable_iff,inodeOf_toNat wide]
    omega
  have none : blocksOf 0 = 0 := rfl
  obtain ⟨d₃,v₃,filled,counter₃,spent₃,drawn₃⟩ := drawn₂.appendAll f.chunks inTable
    (by rw [counter₂,counter₁,counted,inodeOf_toNat wide]; omega) (by rw [newFile,List.length_nil,Nat.zero_add]; exact small)
    (by rw [newFile,List.length_nil,Nat.zero_add,none]; change _+blocksOf f.bytes.length ≤ _; omega)
  rw [newFile,List.length_nil,Nat.zero_add,none] at spent₃
  change _ ≤ _+blocksOf f.bytes.length at spent₃
  refine ⟨d₃,v₃,?_,by rw [counter₃,counter₂,counter₁,counted],by omega,?_⟩
  · unfold Mkfs.addFile
    rw [if_neg (baseName_plain f.path)]
    simp only [bind,Except.bind,created,entered,filled]
  · rw [← pictured_snoc wide]
    exact drawn₃

theorem Drawn.addFiles {rest : List HostFile} (drawn : Drawn (pictured hosts) d v)
    (counted : d.freeinode.toNat = hosts.length+2) (spent : d.freeblock.toNat ≤ blocksFor hosts)
    (fits : Fits (hosts++rest)) : ∃ d' v',
      rest.foldlM (Mkfs.addFile rootInodeNo) d = .ok d' ∧ d'.freeblock.toNat ≤ blocksFor (hosts++rest) ∧
      d'.freeinode.toNat = hosts.length+rest.length+2 ∧ Drawn (pictured (hosts++rest)) d' v' := by
  induction rest generalizing hosts d v with
  | nil =>
    rw [List.append_nil]
    exact ⟨d,v,rfl,spent,counted,drawn⟩
  | cons f rest ih =>
    have inodes := fits.inodes
    rw [List.length_append,List.length_cons] at inodes
    have whole : hosts++f::rest = hosts++[f]++rest := by simp
    have mono := blocksFor_mono (hosts++[f]) rest
    rw [← whole] at mono
    have room := Nat.le_trans mono fits.blocks
    obtain ⟨d',v',ran,counter,spent',after⟩ := drawn.addFile (f := f) counted spent (by omega) (fits.sizes f (by simp)) room
    have length : (hosts++[f]).length = hosts.length+1 := by simp
    obtain ⟨d'',v'',ran',spent'',counter',last⟩ := ih after (by rw [counter,length]) spent' (by rw [← whole]; exact fits)
    refine ⟨d'',v'',?_,by rw [whole]; exact spent'',?_,by rw [whole]; exact last⟩
    · rw [List.foldlM_cons,ran]
      exact ran'
    · rw [counter',length,List.length_cons]
      omega

end Run

-- The sectors as the kernel gets to see them.
def State.view (d : State) : View := ⟨d.sectors,[]⟩

-- The finished image: what Drawn says, with the bitmap on the disk and the size of the
-- root rounded.
structure Finished (files : Files) (d : State) : Prop where
  marks : ∀ j, bitmapGet (d.sectors (bitmapBlock sb)) j = decide (j < d.freeblock.toNat)
  above : nmeta ≤ d.freeblock.toNat
  below : d.freeblock.toNat ≤ fsSize
  owned : Owned sb table (idle d.view)
  contents : ∀ no, InTable sb no → Bytes (idle d.view) no (files no).2
  tight : ∀ no, InTable sb no → Tight (idle d.view) no (files no).2.length
  heads : ∀ no, InTable sb no → Headed (diskEntry sb d.view no) (files no).1
  root : (diskEntry sb d.view rootInodeNo).numBytes.toNat = roundedSize (files rootInodeNo).2.length
  sizes : ∀ no, InTable sb no → no ≠ rootInodeNo → (diskEntry sb d.view no).numBytes.toNat = (files no).2.length
  unused : ∀ no, InTable sb no → d.freeinode.toNat ≤ no.toNat → diskEntry sb d.view no = InodeEntry.zero
  reserved : ∀ b, b.toNat < sb.inodeStart.toNat → d.sectors b = blank.sectors b

section Finish
variable {files : Files} {d : State} {v v' : View} {hosts : List HostFile}

theorem diskEntry_same (same : ∀ b, b ≠ bitmapBlock sb → v'.blocks b = v.blocks b) {no : Usize}
    (inTable : InTable sb no) :
    diskEntry sb v' no = diskEntry sb v no := by
  unfold diskEntry
  rw [same _ (table_ne_bitmap inTable)]

theorem marked_recast (same : ∀ b, b ≠ bitmapBlock sb → v'.blocks b = v.blocks b)
    (marks : ∀ b, used sb v' b ↔ used sb v b) :
    Recast (idle v) (idle v') := by
  refine ⟨?_,?_,?_,marks,?_⟩
  · intro no inTable
    exact congrArg InodeEntry.addrs (diskEntry_same same inTable)
  · intro no inTable
    exact congrArg InodeEntry.indirect (diskEntry_same same inTable)
  · intro b inData
    exact same b (layout.apart root_inTable inData).2.1
  · intro p inode there
    cases there

theorem Drawn.finish (drawn : Drawn files d v) (small : (files rootInodeNo).2.length ≤ inodeMaxBytes)
    (known : rootInodeNo.toNat < d.freeinode.toNat) : ∃ d', (do
      let din ← rinode rootInodeNo d
      let d ← winode rootInodeNo (din.setNumBytes (BitVec.ofNat 32 (roundedSize din.numBytes.toNat))) d
      balloc d.freeblock.toNat d) = .ok d' ∧ d'.freeinode = d.freeinode ∧ Finished files d' := by
  have below := drawn.below
  have disk : d.freeblock.toNat < blockSize*8 := Nat.lt_of_le_of_lt below (by decide)
  have length := drawn.sizes rootInodeNo root_inTable
  have bounds := tableBlock_bounds root_inTable
  have start := bitmapStart_toNat
  generalize rounded : (BitVec.ofNat 32 (roundedSize (diskEntry sb v rootInodeNo).numBytes.toNat) : U32) = size
  have number : size.toNat = roundedSize (files rootInodeNo).2.length := by
    rw [← rounded,length,BitVec.toNat_ofNat]
    unfold roundedSize blockSize
    have total : inodeMaxBytes = 71680 := rfl
    exact Nat.mod_eq_of_lt (by omega)
  have recast := rewrite_recast (v := v) none root_inTable (e := (diskEntry sb v rootInodeNo).setNumBytes size) rfl rfl
  generalize image : State.wsect (State.wsect d (toBlockNo sb rootInodeNo) (putEntry (d.sectors (toBlockNo sb rootInodeNo)) rootInodeNo
    ((diskEntry sb v rootInodeNo).setNumBytes size))) (bitmapBlock sb) (bitmapOf d.freeblock.toNat) = d'
  have ran : (do
      let din ← rinode rootInodeNo d
      let d ← winode rootInodeNo (din.setNumBytes (BitVec.ofNat 32 (roundedSize din.numBytes.toNat))) d
      balloc d.freeblock.toNat d) = .ok d' := by
    rw [rinode_ok drawn root_inTable]
    simp only [bind,Except.bind,rounded]
    rw [winode_ok d root_inTable]
    unfold balloc
    simp only
    refine (if_pos disk).trans ?_
    rw [← image]
    rfl
  have counter : d'.freeblock = d.freeblock := by rw [← image]; rfl
  have number' : d'.freeinode = d.freeinode := by rw [← image]; rfl
  have marks : ∀ j, bitmapGet (d'.sectors (bitmapBlock sb)) j = decide (j < d.freeblock.toNat) := by
    intro j
    rw [← image]
    simp only [State.wsect,Function.update_self]
    exact bitmapOf_marks _ j (Nat.le_of_lt disk)
  have same : ∀ b, b ≠ bitmapBlock sb →
      d'.view.blocks b = (writeEntry sb none v rootInodeNo ((diskEntry sb v rootInodeNo).setNumBytes size)).blocks b := by
    intro b other
    rw [← image]
    rw [drawn.writes root_inTable _ other]
    simp only [State.view,State.wsect,Function.update_of_ne other]
  have marked := marked_recast same (by
    intro b
    rw [writeEntry_used none v _ root_inTable]
    unfold used
    change bitmapGet (d'.sectors (bitmapBlock sb)) b.toNat = true ↔ _
    rw [marks,drawn.marks])
  have recast := recast.trans marked
  have entry : ∀ no, InTable sb no → no ≠ rootInodeNo → diskEntry sb d'.view no = diskEntry sb v no := by
    intro no inTable other
    rw [diskEntry_same same inTable,writeEntry_other layout v root_inTable inTable other]
  have root : diskEntry sb d'.view rootInodeNo = (diskEntry sb v rootInodeNo).setNumBytes size := by
    rw [diskEntry_same same root_inTable,writeEntry_own]
  refine ⟨d',ran,number',⟨by rw [counter]; exact marks,by rw [counter]; exact drawn.above,by rw [counter]; exact below,recast.owned drawn.owned,
    fun no inTable => recast.bytes drawn.owned inTable (drawn.contents no inTable),
    fun no inTable => recast.tight drawn.owned inTable (drawn.tight no inTable),?_,?_,?_,?_,?_⟩⟩
  · intro no inTable
    have head := drawn.heads no inTable
    by_cases own : no = rootInodeNo
    · subst own
      rw [root]
      exact head
    · rw [entry no inTable own]
      exact head
  · rw [root]
    exact number
  · intro no inTable other
    rw [entry no inTable other]
    exact drawn.sizes no inTable
  · intro no inTable beyond
    rw [number'] at beyond
    have own : no ≠ rootInodeNo := by
      rintro rfl
      omega
    rw [entry no inTable own]
    exact drawn.unused no inTable beyond
  · intro b low
    have notTable : b ≠ toBlockNo sb rootInodeNo := by
      rintro rfl
      omega
    have notBitmap : b ≠ bitmapBlock sb := by
      rintro rfl
      have place := bitmapBlock_toNat sb
      have first := inodeStart_toNat
      omega
    rw [← image]
    simp only [State.wsect]
    rw [Function.update_of_ne notBitmap,Function.update_of_ne notTable]
    exact drawn.reserved b low

-- On a list of files that fits mkfs ends with the image of just these files.
theorem mkfs_finishes (fits : Fits hosts) : ∃ d, mkfs hosts = .ok d ∧ d.freeinode.toNat = hosts.length+2 ∧
    Finished (pictured hosts) d := by
  have inodes := fits.inodes
  have total : inodeMaxBytes = 71680 := rfl
  have count : nInodes = 200 := rfl
  have blocks : blocksFor ([]++hosts) ≤ fsSize := fits.blocks
  obtain ⟨d₁,v₁,created,counter₁,same₁,drawn₁⟩ := blank_drawn.ialloc (by decide) inodeDirectory (by decide)
  have number : (blank.freeinode.setWidth 64 : Usize) = rootInodeNo := rfl
  rw [number] at created drawn₁
  have rootFile : nothing.create rootInodeNo inodeDirectory rootInodeNo = (inodeDirectory,[]) := Function.update_self ..
  have counter : d₁.freeinode.toNat = 2 := counter₁
  have taken : d₁.freeblock.toNat = nmeta := congrArg BitVec.toNat same₁
  have none : blocksOf 0 = 0 := rfl
  have one : blocksOf 16 = 1 := rfl
  have two : blocksOf 32 = 1 := rfl
  have size : dirEntrySize = 16 := rfl
  have disk : nmeta+1 ≤ fsSize := by decide
  obtain ⟨d₂,v₂,first,counter₂,spent₂,drawn₂,_⟩ := drawn₁.iappend 0 (dirent rootInodeNo dot).bytes root_inTable
      (by rw [counter]; decide)
    (by rw [rootFile,DirEntry.bytes_length]; decide)
    (by rw [rootFile,DirEntry.bytes_length,taken]; decide)
  rw [rootFile,DirEntry.bytes_length,taken] at spent₂
  have rootDot : (nothing.create rootInodeNo inodeDirectory).append rootInodeNo (dirent rootInodeNo dot).bytes rootInodeNo =
      (inodeDirectory,(dirent rootInodeNo dot).bytes) := by
    unfold Files.append
    rw [Function.update_self,rootFile,List.nil_append]
  obtain ⟨d₃,v₃,second,counter₃,spent₃,drawn₃,_⟩ := drawn₂.iappend 0 (dirent rootInodeNo dotdot).bytes root_inTable
    (by rw [counter₂,counter]; decide) (by rw [rootDot,DirEntry.bytes_length,DirEntry.bytes_length]; decide)
    (by
      rw [rootDot,DirEntry.bytes_length,DirEntry.bytes_length,size,one,two]
      change _ ≤ nmeta+1 at spent₂
      omega)
  rw [rootDot,DirEntry.bytes_length,DirEntry.bytes_length] at spent₃
  have start : ((nothing.create rootInodeNo inodeDirectory).append rootInodeNo (dirent rootInodeNo dot).bytes).append rootInodeNo
      (dirent rootInodeNo dotdot).bytes = pictured [] := by
    funext no
    rw [append_append]
    unfold Files.append
    by_cases root : no = rootInodeNo
    · subst root
      rw [Function.update_self,rootFile,pictured_root]
      simp [rootText,rootEntries,fileEntries]
    · rw [Function.update_of_ne root]
      unfold Files.create pictured
      rw [Function.update_of_ne root,if_neg root]
      split <;> rfl
  rw [start] at drawn₃
  obtain ⟨d₄,v₄,added,spent₄,counter₄,drawn₄⟩ := drawn₃.addFiles (by rw [counter₃,counter₂,counter]; rfl) (by
    have base : blocksFor [] = nmeta+1 := rfl
    change d₃.freeblock.toNat+1 ≤ d₂.freeblock.toNat+1 at spent₃
    change _ ≤ nmeta+1 at spent₂
    rw [base]
    omega) fits
  rw [List.nil_append] at drawn₄
  obtain ⟨d₅,finished,counter₅,image⟩ := drawn₄.finish (by
    rw [pictured_root]
    change (rootText hosts).length ≤ _
    rw [rootText_length]
    unfold dirEntrySize
    omega) (by
    have one : rootInodeNo.toNat = 1 := rfl
    omega)
  refine ⟨d₅,?_,by rw [counter₅,counter₄,List.length_nil,Nat.zero_add],image⟩
  unfold mkfs
  simp only [bind,Except.bind] at finished ⊢
  rw [created]
  simp only [ne_eq,not_true_eq_false,if_false,first,second,added]
  exact finished

end Finish

end Mkfs
