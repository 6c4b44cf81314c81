import HonorKernel.MkfsDisk
import HonorKernel.TreeLookups

-- The tree that a fresh image is, and what the calls may make of it.
namespace Mkfs
open DiskFormat InodeLayer CacheView Semaphores Ownership NamingTree FileTree

def rootNames (hosts : List HostFile) (name : List Byte) : Option Usize := if padded name = name then numberOf hosts name else none

def imageTree (hosts : List HostFile) : FileTree.Tree := fun no =>
  if no = rootInodeNo then some (.dir (rootNames hosts))
  else if 2 ≤ no.toNat then hosts[no.toNat-2]?.map fun f => .leaf (.file f.bytes) else none

section Trees
variable {hosts : List HostFile} {no d q : Usize} {name : List Byte} {i : Nat}

theorem imageTree_root (hosts : List HostFile) : imageTree hosts rootInodeNo = some (.dir (rootNames hosts)) := if_pos rfl

theorem imageTree_cases (hosts : List HostFile) (no : Usize) : no = rootInodeNo ∨
    (∃ (i : Nat) (inside : i < hosts.length), no = inodeOf i ∧ no ≠ rootInodeNo ∧
    imageTree hosts no = some (.leaf (.file hosts[i].bytes)) ∧
      pictured hosts no = (inodeRegular,hosts[i].bytes)) ∨
    no ≠ rootInodeNo ∧ imageTree hosts no = none ∧ pictured hosts no = (inodeInvalid,[]) := by
  by_cases root : no = rootInodeNo
  · exact .inl root
  · refine .inr ?_
    unfold imageTree pictured
    rw [if_neg root,if_neg root]
    by_cases above : 2 ≤ no.toNat
    · rw [if_pos above,if_pos above]
      by_cases inside : no.toNat-2 < hosts.length
      · refine .inl ⟨no.toNat-2,inside,?_,root,?_,?_⟩
        · unfold inodeOf
          rw [Nat.sub_add_cancel above,BitVec.ofNat_toNat,BitVec.setWidth_eq]
        · rw [List.getElem?_eq_getElem inside]
          rfl
        · rw [List.getElem?_eq_getElem inside]
      · have none : hosts[no.toNat-2]? = none := List.getElem?_eq_none (by omega)
        rw [none]
        exact .inr ⟨root,rfl,rfl⟩
    · rw [if_neg above,if_neg above]
      exact .inr ⟨root,rfl,rfl⟩

theorem imageTree_isDir : IsDir (imageTree hosts) d ↔ d = rootInodeNo := by
  constructor
  · rintro ⟨m,here⟩
    rcases imageTree_cases hosts d with root | ⟨i,_,_,_,leaf,_⟩ | ⟨_,none,_⟩
    · exact root
    · cases leaf.symm.trans here
    · cases none.symm.trans here
  · rintro rfl
    exact ⟨_,imageTree_root hosts⟩

theorem imageTree_entry : Entry (imageTree hosts) d name q ↔ d = rootInodeNo ∧ padded name = name ∧
    numberOf hosts name = some q := by
  constructor
  · rintro ⟨m,here,bound⟩
    obtain rfl := imageTree_isDir.mp ⟨m,here⟩
    cases (imageTree_root hosts).symm.trans here
    unfold rootNames at bound
    split at bound
    · rename_i key
      exact ⟨rfl,key,bound⟩
    · cases bound
  · rintro ⟨rfl,key,bound⟩
    exact ⟨_,imageTree_root hosts,(if_pos key).trans bound⟩

theorem numberOf_dots (key : padded name = name) (own : ¬ dots.Plain name) :
    numberOf hosts name = some rootInodeNo := by
  refine if_pos ?_
  rw [key]
  by_contra other
  exact own ⟨fun self => other (.inl self.symm),fun up => other (.inr up.symm)⟩

theorem numberOf_plain (key : padded name = name) (plain : dots.Plain name) (found : numberOf hosts name = some q) :
    ∃ (i : Nat) (inside : i < hosts.length), q = inodeOf i ∧ padded hosts[i].name = name := by
  unfold numberOf at found
  split at found
  · rename_i own
    rw [key] at own
    rcases own with self | up
    · exact absurd self.symm plain.1
    · exact absurd up.symm plain.2
  · obtain ⟨i,at_i,rfl⟩ := Option.map_eq_some_iff.mp found
    obtain ⟨inside,same,_⟩ := List.findIdx?_eq_some_iff_getElem.mp at_i
    exact ⟨i,inside,rfl,(of_decide_eq_true same).trans key⟩

theorem imageTree_below (below : Below dots (imageTree hosts) d q) :
    d = rootInodeNo ∧ ∃ i < hosts.length, q = inodeOf i := by
  obtain ⟨name,plain,entry⟩ := below
  obtain ⟨rfl,key,found⟩ := imageTree_entry.mp entry
  obtain ⟨i,inside,rfl,_⟩ := numberOf_plain key plain found
  exact ⟨rfl,i,inside,rfl⟩

theorem inodeOf_small (fits : Fits hosts) (inside : i < hosts.length) :
    (inodeOf i).toNat = i+2 ∧ inodeOf i ≠ rootInodeNo := by
  have inodes := fits.inodes
  have count : nInodes = 200 := rfl
  exact ⟨inodeOf_toNat (by omega),inodeOf_ne_root (by omega)⟩

theorem imageTree_file (fits : Fits hosts) (inside : i < hosts.length) :
    imageTree hosts (inodeOf i) = some (.leaf (.file hosts[i].bytes)) := by
  obtain ⟨number,other⟩ := inodeOf_small fits inside
  unfold imageTree
  rw [if_neg other,if_pos (by omega),number,Nat.add_sub_cancel,List.getElem?_eq_getElem inside]
  rfl

theorem imageTree_named (distinct : Distinct hosts) (inside : i < hosts.length) :
    Below dots (imageTree hosts) rootInodeNo (inodeOf i) := by
  obtain ⟨one,two⟩ := distinct.plain hosts[i] (List.getElem_mem inside)
  have same : numberOf hosts (padded hosts[i].name) = numberOf hosts hosts[i].name := by
    unfold numberOf
    rw [padded_padded]
  exact ⟨padded hosts[i].name,⟨one,two⟩,imageTree_entry.mpr ⟨rfl,padded_padded _,same.trans (numberOf_file distinct inside)⟩⟩

theorem imageTree_rooted (fits : Fits hosts) (distinct : Distinct hosts) (held : Usize → Prop) :
    Rooted dots rootInodeNo (imageTree hosts) held := by
  have root : ∀ d, IsDir (imageTree hosts) d → d = rootInodeNo := fun d => imageTree_isDir.mp
  have dot : Entry (imageTree hosts) rootInodeNo dots.self rootInodeNo :=
    imageTree_entry.mpr ⟨rfl,padded_padded _,numberOf_dots (padded_padded _) fun plain => plain.1 rfl⟩
  have dotdot : Entry (imageTree hosts) rootInodeNo dots.up rootInodeNo :=
    imageTree_entry.mpr ⟨rfl,padded_padded _,numberOf_dots (padded_padded _) fun plain => plain.2 rfl⟩
  refine ⟨?_,imageTree_isDir.mpr rfl,?_,?_,⟨fun q => if q = rootInodeNo then 0 else 1,?_⟩,?_,?_,?_⟩
  · refine (((Set.finite_lt_nat hosts.length).image inodeOf).insert rootInodeNo).subset ?_
    intro q there
    rcases imageTree_cases hosts q with rfl | ⟨i,inside,rfl,_⟩ | ⟨_,none,_⟩
    · exact .inl rfl
    · exact .inr ⟨i,inside,rfl⟩
    · rw [Set.mem_ofPred_eq,none] at there
      cases there
  · intro d q below
    obtain ⟨rfl,i,inside,rfl⟩ := imageTree_below below
    exact ⟨by rw [imageTree_file fits inside]; rfl,(inodeOf_small fits inside).2,.inl rfl⟩
  · intro d d' name name' q plain plain' entry entry'
    obtain ⟨rfl,key,found⟩ := imageTree_entry.mp entry
    obtain ⟨rfl,key',found'⟩ := imageTree_entry.mp entry'
    obtain ⟨i,inside,rfl,is⟩ := numberOf_plain key plain found
    obtain ⟨j,inside',same,is'⟩ := numberOf_plain key' plain' found'
    have number := congrArg BitVec.toNat same
    rw [(inodeOf_small fits inside).1,(inodeOf_small fits inside').1] at number
    obtain rfl : i = j := by omega
    exact ⟨rfl,is.symm.trans is'⟩
  · intro d q below
    obtain ⟨rfl,i,inside,rfl⟩ := imageTree_below below
    simp only [if_pos,if_neg (inodeOf_small fits inside).2]
    exact Nat.one_pos
  · intro d isDir
    rw [root d isDir]
    exact dot
  · intro d isDir
    obtain rfl := root d isDir
    refine ⟨rootInodeNo,dotdot,fun _ => rfl,fun d' below => ?_⟩
    exact (imageTree_below below).1.symm
  · intro q there unnamed
    rcases imageTree_cases hosts q with rfl | ⟨i,inside,rfl,_⟩ | ⟨_,none,_⟩
    · exact absurd (.inl rfl) unnamed
    · exact absurd (.inr ⟨_,imageTree_named distinct inside⟩) unnamed
    · rw [none] at there
      cases there

theorem imageTree_links (fits : Fits hosts) (distinct : Distinct hosts) (there : (imageTree hosts q).isSome) :
    links dots rootInodeNo (imageTree hosts) q = 1 := by
  have none : children dots (imageTree hosts) q = ∅ := by
    refine Set.eq_empty_of_forall_notMem ?_
    rintro c ⟨isDir,below⟩
    obtain ⟨_,i,inside,rfl⟩ := imageTree_below below
    exact (inodeOf_small fits inside).2 (imageTree_isDir.mp isDir)
  have named : Named dots rootInodeNo (imageTree hosts) q := by
    rcases imageTree_cases hosts q with rfl | ⟨i,inside,rfl,_⟩ | ⟨_,missing,_⟩
    · exact .inl rfl
    · exact .inr ⟨_,imageTree_named distinct inside⟩
    · rw [missing] at there
      cases there
  unfold links
  rw [none,if_pos named,Set.ncard_empty]

end Trees

section Mounted
variable {hosts : List HostFile} {d : State} {no : Usize}

theorem binding_dirent (name : List Byte) {no : Usize} (small : 0 < no.toNat ∧ no.toNat < nInodes) :
    binding (dirent no name) = some (padded name,no) := by
  unfold binding
  rw [dirent_inodeNo,dirent_name,padded_padded,number_wide small.2,if_neg]
  intro zero
  have value := congrArg BitVec.toNat zero
  rw [number_narrow small.2] at value
  simp at value
  omega

theorem rootEntries_file {i : Nat} (inside : i < hosts.length) :
    (rootEntries hosts).getD (i+2) 0#128 = dirent (inodeOf i) hosts[i].name := by
  unfold rootEntries fileEntries
  simp [List.getD_eq_getElem?_getD,List.getElem?_eq_getElem inside]

theorem rootEntries_beyond {i : Nat} (beyond : hosts.length ≤ i) : (rootEntries hosts).getD (i+2) 0#128 = 0#128 := by
  rw [List.getD_eq_getElem?_getD,List.getElem?_eq_none]
  · rfl
  · rw [rootEntries_length]
    omega

theorem Finished.rootSlots (finished : Finished (pictured hosts) d) :
    hosts.length+2 ≤ (diskEntry sb d.view rootInodeNo).numBytes.toNat/dirEntrySize ∧
    (diskEntry sb d.view rootInodeNo).numBytes.toNat%dirEntrySize = 0 := by
  rw [finished.rootSize]
  unfold roundedSize dirEntrySize blockSize
  omega

theorem Finished.bindings (finished : Finished (pictured hosts) d) (fits : Fits hosts) {i : Nat}
    (inside : i < (diskEntry sb d.view rootInodeNo).numBytes.toNat/dirEntrySize) {name : List Byte} {q : Usize} :
    binding (InodeLayer.slot d.view (diskEntry sb d.view rootInodeNo) i) = some (name,q) ↔
      i = 0 ∧ name = dots.self ∧ q = rootInodeNo ∨ i = 1 ∧ name = dots.up ∧ q = rootInodeNo ∨
      ∃ (j : Nat) (known : j < hosts.length), i = j+2 ∧ name = padded hosts[j].name ∧ q = inodeOf j := by
  have root : 0 < rootInodeNo.toNat ∧ rootInodeNo.toNat < nInodes := by decide
  have count : nInodes = 200 := rfl
  have inodes := fits.inodes
  rw [finished.slot inside]
  rcases i with _ | _ | i
  · have first : (rootEntries hosts).getD 0 0#128 = dirent rootInodeNo dot := rfl
    rw [first,binding_dirent _ root,Option.some.injEq,Prod.mk.injEq]
    constructor
    · rintro ⟨rfl,rfl⟩
      exact .inl ⟨rfl,rfl,rfl⟩
    · rintro (⟨_,rfl,rfl⟩ | ⟨impossible,_⟩ | ⟨j,_,impossible,_⟩)
      · exact ⟨rfl,rfl⟩
      · cases impossible
      · omega
  · have second : (rootEntries hosts).getD 1 0#128 = dirent rootInodeNo dotdot := rfl
    rw [second,binding_dirent _ root,Option.some.injEq,Prod.mk.injEq]
    constructor
    · rintro ⟨rfl,rfl⟩
      exact .inr (.inl ⟨rfl,rfl,rfl⟩)
    · rintro (⟨impossible,_⟩ | ⟨_,rfl,rfl⟩ | ⟨j,_,impossible,_⟩)
      · cases impossible
      · exact ⟨rfl,rfl⟩
      · omega
  · by_cases known : i < hosts.length
    · have number := (inodeOf_small fits known).1
      rw [rootEntries_file known,binding_dirent _ (by omega),Option.some.injEq,Prod.mk.injEq]
      constructor
      · rintro ⟨rfl,rfl⟩
        exact .inr (.inr ⟨i,known,rfl,rfl,rfl⟩)
      · rintro (⟨impossible,_⟩ | ⟨impossible,_⟩ | ⟨j,_,same,rfl,rfl⟩)
        · cases impossible
        · omega
        · obtain rfl : i = j := by omega
          exact ⟨rfl,rfl⟩
    · rw [rootEntries_beyond (Nat.le_of_not_lt known)]
      constructor
      · intro impossible
        cases impossible
      · rintro (⟨impossible,_⟩ | ⟨impossible,_⟩ | ⟨j,below,same,_⟩)
        · cases impossible
        · omega
        · omega

theorem Finished.listing (finished : Finished (pictured hosts) d) (fits : Fits hosts) (distinct : Distinct hosts)
    (room : hosts.length%32 ≠ 30) :
    Listing d.view (diskEntry sb d.view rootInodeNo) (rootNames hosts) := by
  obtain ⟨long,aligned⟩ := finished.rootSlots
  refine ⟨(finished.whole fits root_inTable).mpr (.inr room),aligned,⟨?_,?_⟩,?_⟩
  · intro i j k p q left right there there'
    rcases (finished.bindings fits left).mp there with ⟨rfl,rfl,_⟩ | ⟨rfl,rfl,_⟩ | ⟨l,known,rfl,rfl,_⟩
    · rcases (finished.bindings fits right).mp there' with ⟨rfl,_⟩ | ⟨_,same,_⟩ | ⟨l',known',_,same,_⟩
      · rfl
      · exact absurd same dots.apart
      · exact absurd same.symm (distinct.plain _ (List.getElem_mem known')).1
    · rcases (finished.bindings fits right).mp there' with ⟨_,same,_⟩ | ⟨rfl,_⟩ | ⟨l',known',_,same,_⟩
      · exact absurd same.symm dots.apart
      · rfl
      · exact absurd same.symm (distinct.plain _ (List.getElem_mem known')).2
    · rcases (finished.bindings fits right).mp there' with ⟨_,same,_⟩ | ⟨_,same,_⟩ | ⟨l',known',rfl,same,_⟩
      · exact absurd same (distinct.plain _ (List.getElem_mem known)).1
      · exact absurd same (distinct.plain _ (List.getElem_mem known)).2
      · rw [distinct.names l l' known known' same]
  · intro k q
    unfold rootNames
    constructor
    · intro bound
      split at bound
      · rename_i key
        by_cases plain : dots.Plain k
        · obtain ⟨j,known,rfl,is⟩ := numberOf_plain key plain bound
          have inside : j+2 < (diskEntry sb d.view rootInodeNo).numBytes.toNat/dirEntrySize := by omega
          exact ⟨j+2,inside,(finished.bindings fits inside).mpr (.inr (.inr ⟨j,known,rfl,is.symm,rfl⟩))⟩
        · cases (numberOf_dots key plain).symm.trans bound
          by_cases self : k = dots.self
          · have inside : 0 < (diskEntry sb d.view rootInodeNo).numBytes.toNat/dirEntrySize := by omega
            exact ⟨0,inside,(finished.bindings fits inside).mpr (.inl ⟨rfl,self,rfl⟩)⟩
          · have up : k = dots.up := by_contra fun other => plain ⟨self,other⟩
            have inside : 1 < (diskEntry sb d.view rootInodeNo).numBytes.toNat/dirEntrySize := by omega
            exact ⟨1,inside,(finished.bindings fits inside).mpr (.inr (.inl ⟨rfl,up,rfl⟩))⟩
      · cases bound
    · rintro ⟨i,inside,there⟩
      rcases (finished.bindings fits inside).mp there with ⟨_,rfl,rfl⟩ | ⟨_,rfl,rfl⟩ | ⟨j,known,_,rfl,rfl⟩
      · exact (if_pos (padded_padded _)).trans (numberOf_dots (padded_padded _) fun plain => plain.1 rfl)
      · exact (if_pos (padded_padded _)).trans (numberOf_dots (padded_padded _) fun plain => plain.2 rfl)
      · have same : numberOf hosts (padded hosts[j].name) = numberOf hosts hosts[j].name := by
          unfold numberOf
          rw [padded_padded]
        exact (if_pos (padded_padded _)).trans (same.trans (numberOf_file distinct known))
  · intro i k q inside there
    rcases (finished.bindings fits inside).mp there with ⟨rfl,rfl,_⟩ | ⟨rfl,rfl,_⟩ | ⟨j,known,rfl,rfl,_⟩
    · exact ⟨⟨fun _ => rfl,fun _ => rfl⟩,⟨fun impossible => absurd impossible Nat.zero_ne_one,fun same => absurd same dots.apart⟩⟩
    · exact ⟨⟨fun impossible => absurd impossible Nat.one_ne_zero,fun same => absurd same.symm dots.apart⟩,⟨fun _ => rfl,fun _ => rfl⟩⟩
    · obtain ⟨one,two⟩ := distinct.plain _ (List.getElem_mem known)
      exact ⟨⟨fun impossible => absurd impossible (by omega),fun same => absurd same one⟩,
          ⟨fun impossible => absurd impossible (by omega),fun same => absurd same two⟩⟩

theorem Finished.drawn (finished : Finished (pictured hosts) d) (fits : Fits hosts) (distinct : Distinct hosts)
    (room : hosts.length%32 ≠ 30) (inTable : InTable sb no) : FileTree.Drawn d.view (diskEntry sb d.view no)
    (imageTree hosts no) := by
  have type := (finished.heads no inTable).1
  rcases imageTree_cases hosts no with rfl | ⟨i,inside,_,other,file,picture⟩ | ⟨_,none,picture⟩
  · rw [imageTree_root]
    rw [pictured_root] at type
    exact ⟨type,finished.listing fits distinct room⟩
  · have size := finished.sizes no inTable other
    have contents := finished.contents no inTable
    rw [picture] at type size contents
    rw [file]
    refine ⟨type,(finished.whole fits inTable).mpr (.inl other),?_⟩
    funext x
    unfold content
    rw [size]
    have byte := contents.bytes x
    by_cases below : x < hosts[i].bytes.length
    · rw [if_pos below,List.getElem?_eq_getElem below,Option.some.injEq]
      refine Eq.trans byte ?_
      rw [List.getD_eq_getElem?_getD,List.getElem?_eq_getElem below]
      rfl
    · rw [if_neg below,List.getElem?_eq_none (Nat.le_of_not_lt below)]
  · rw [none]
    rw [picture] at type
    exact type

theorem Finished.stands (finished : Finished (pictured hosts) d) (counter : d.freeinode.toNat = hosts.length+2)
    (fits : Fits hosts) (distinct : Distinct hosts) (room : hosts.length%32 ≠ 30)
    (consoleRead : Usize → Option (List Byte)) (stack : DirEntry) (op : Nat) :
    Stands ⟨sb,consoleRead,stack⟩ ⟨imageTree hosts,[rootInodeNo]⟩ ⟨(idle d.view).load sb rootInodeNo,[rootInodeNo],op⟩ := by
  have entry := (mounted_untouched d).entry
  refine ⟨imageTree_rooted fits distinct _,rfl,finished.start counter,⟨?_,fun p listed => absurd listed List.not_mem_nil⟩,?_,?_,?_,?_⟩
  · intro p inode found
    rw [if_neg List.not_mem_nil]
    exact ((mounted_untouched d).inodes p inode found).2.1
  · intro q
    unfold SysFile.rcOf
    by_cases root : q = rootInodeNo
    · subst root
      rw [show ((idle d.view).load sb rootInodeNo).inodes rootInodeNo = some _ from inodes_set ..]
      rfl
    · have vacant : ((idle d.view).load sb rootInodeNo).inodes q = none := Function.update_of_ne root ..
      have absent : [rootInodeNo].count q = 0 := List.count_eq_zero.mpr fun there => root (List.mem_singleton.mp there)
      rw [vacant]
      show (0 : Int) = (([rootInodeNo].count q : Nat) : Int)
      rw [absent]
      rfl
  · intro no inTable
    show FileTree.Drawn d.view (entryOf sb ((idle d.view).load sb rootInodeNo) no) _
    rw [entry]
    exact finished.drawn fits distinct room inTable
  · intro no outside
    rcases imageTree_cases hosts no with rfl | ⟨i,inside,rfl,_⟩ | ⟨_,none,_⟩
    · exact absurd root_inTable outside
    · have number := (inodeOf_small fits inside).1
      have inodes := fits.inodes
      have count : nInodes = 200 := rfl
      exact absurd (inTable_iff.mpr ⟨by omega,by omega⟩) outside
    · exact none
  · intro no node here
    have here : imageTree hosts no = some node := here
    show (entryOf sb ((idle d.view).load sb rootInodeNo) no).numLinks.toNat = _
    rw [entry,imageTree_links fits distinct (by rw [here]; rfl)]
    have inTable : InTable sb no := by
      rcases imageTree_cases hosts no with rfl | ⟨i,inside,rfl,_⟩ | ⟨_,none,_⟩
      · exact root_inTable
      · have number := (inodeOf_small fits inside).1
        have inodes := fits.inodes
        have count : nInodes = 200 := rfl
        exact inTable_iff.mpr ⟨by omega,by omega⟩
      · cases none.symm.trans here
    have valid : (pictured hosts no).1 ≠ inodeInvalid := by
      rcases imageTree_cases hosts no with rfl | ⟨i,inside,_,_,_,picture⟩ | ⟨_,none,_⟩
      · rw [pictured_root]
        exact (by decide : inodeDirectory ≠ inodeInvalid)
      · rw [picture]
        exact (by decide : inodeRegular ≠ inodeInvalid)
      · cases none.symm.trans here
    rw [(finished.heads no inTable).2,if_neg valid]
    rfl

end Mounted

-- The calls on the mounted image, from its root as the working directory of the first process.
def mounted (start : Fs) : Volume := ⟨start,[rootInodeNo],0⟩

def replayed (hosts : List HostFile) (events : List (Request × Reply)) : Option (Env × Volume) :=
  (mkfs hosts).toOption.bind fun d => (initFilesystem (fun _ => none) 0#128 d.sectors).toOption.bind fun booted =>
    (replay booted.1 (mounted booted.2) events).map fun vol => (booted.1,vol)

theorem replayed_runs {hosts : List HostFile} {d : State} {env : Env} {start : Fs} (ran : mkfs hosts = .ok d)
    (booted : initFilesystem (fun _ => none) 0#128 d.sectors = .ok (env,start)) (events : List (Request × Reply))
    {p : Env × Volume → Bool} (passes : (replayed hosts events).any p = true) :
    ∃ vol, Runs.Trace (Steps env) (mounted start) events vol ∧ p (env,vol) = true := by
  obtain ⟨⟨env',vol⟩,replays,holds⟩ := Runs.some_such passes
  unfold replayed at replays
  obtain ⟨d',made,rest⟩ := Option.bind_eq_some_iff.mp replays
  cases ran.symm.trans (Runs.toOption_some made)
  obtain ⟨⟨env'',start'⟩,began,rest⟩ := Option.bind_eq_some_iff.mp rest
  cases booted.symm.trans (Runs.toOption_some began)
  obtain ⟨vol',ran',rest⟩ := Option.map_eq_some_iff.mp rest
  cases rest
  exact ⟨vol,replay_runs .start ran',holds⟩

theorem small_distinct : Distinct [smallFile] := by
  refine ⟨?_,?_⟩
  · intro i j one two _
    simp only [List.length_singleton] at one two
    omega
  · intro f member
    obtain rfl := List.mem_singleton.mp member
    exact ⟨by decide,by decide⟩

-- mkdir /b, creat /b/c, a write of two bytes, unlink /b/c, and a read of what is still open.
def smallRun : List (Request × Reply) :=
  [(.mkdirat 1#64 [47#8,98#8],.done true),(.openat 1#64 [47#8,98#8,47#8,99#8] true true,.opened (some 4#64)),
    (.write 4#64 [7#8,8#8] 0#64,.written 2#64),(.unlinkat 1#64 [47#8,98#8,47#8,99#8],.done true),
    (.read 4#64 0#64 8#64,.bytes 2#64 [7#8,8#8])]

theorem smallRun_ends : (replayed [smallFile] smallRun).any (fun r =>
    decide (allocated r.1.sblock r.2.fs 3#64 = true ∧ (entryOf r.1.sblock r.2.fs 3#64).type = inodeDirectory ∧
      (entryOf r.1.sblock r.2.fs 3#64).numLinks = 1#16 ∧ allocated r.1.sblock r.2.fs 4#64 = true ∧
      (entryOf r.1.sblock r.2.fs 4#64).numLinks = 0#16 ∧ r.2.held = [4#64,1#64] ∧
      (entryOf r.1.sblock r.2.fs 4#64).type = inodeRegular ∧
      (entryOf r.1.sblock r.2.fs 1#64).type = inodeDirectory ∧
      (entryOf r.1.sblock r.2.fs 1#64).numLinks ≠ 0#16)) = true := by
  decide +kernel

theorem numInodes_wide : sb.numInodes.toNat ≤ 65536 := by decide

theorem Finished.follows {hosts : List HostFile} {d : State} (finished : Finished (pictured hosts) d)
    (counter : d.freeinode.toNat = hosts.length+2) (fits : Fits hosts) (distinct : Distinct hosts)
    (room : hosts.length%32 ≠ 30) {consoleRead : Usize → Option (List Byte)} {stack : DirEntry}
    {events : List (Request × Reply)} {vol : Volume}
    (path : Runs.Trace (Steps ⟨sb,consoleRead,stack⟩) (mounted ((idle d.view).load sb rootInodeNo)) events vol) :
    ∃ s, Runs.Trace (fun s event s' => Moves s event.1 event.2 s') ⟨imageTree hosts,[rootInodeNo]⟩ events s ∧
    Stands ⟨sb,consoleRead,stack⟩ s vol := by
  exact (finished.stands counter fits distinct room consoleRead stack 0).run layout numInodes_wide path

-- Every directory stays well formed, also one that has been removed and is still open.
theorem mounted_directories {hosts : List HostFile} (fits : Fits hosts) (distinct : Distinct hosts)
    (room : hosts.length%32 ≠ 30) (consoleRead : Usize → Option (List Byte)) (stack : DirEntry) : ∃ d env start,
      mkfs hosts = .ok d ∧ initFilesystem consoleRead stack d.sectors = .ok (env,start) ∧
      ∀ events vol, Runs.Trace (Steps env) (mounted start) events vol → ∀ no, isDirectory env vol.fs no →
      Formed env vol.fs no := by
  obtain ⟨d,ran,counter,finished⟩ := mkfs_finishes fits
  refine ⟨d,⟨sb,consoleRead,stack⟩,_,ran,finished.mounts consoleRead stack,fun events vol path no directory => ?_⟩
  obtain ⟨s,_,stands⟩ := finished.follows counter fits distinct room path
  exact stands.formed directory

theorem mounted_directories_small : ∃ (d : State) (env : Env) (start : Fs) (vol : Volume), mkfs [smallFile] = .ok d ∧
    Runs.Trace (Steps env) (mounted start) smallRun vol ∧ Formed env vol.fs 3#64 := by
  obtain ⟨d,env,start,ran,booted,formed⟩ := mounted_directories small_fits small_distinct (by decide) (fun _ => none) 0#128
  obtain ⟨vol,path,facts⟩ := replayed_runs ran booted smallRun smallRun_ends
  obtain ⟨inUse,type,_⟩ := of_decide_eq_true facts
  exact ⟨d,env,start,vol,ran,path,formed smallRun vol path 3#64 ⟨inUse,type⟩⟩

-- The link count of an inode is the number of its names, a '..' below it being one for a
-- directory and its own for the root.
theorem mounted_links {hosts : List HostFile} (fits : Fits hosts) (distinct : Distinct hosts)
    (room : hosts.length%32 ≠ 30) (consoleRead : Usize → Option (List Byte)) (stack : DirEntry) : ∃ d env start,
      mkfs hosts = .ok d ∧ initFilesystem consoleRead stack d.sectors = .ok (env,start) ∧
      ∀ events vol, Runs.Trace (Steps env) (mounted start) events vol → ∀ no, allocated env.sblock vol.fs no = true →
        (entryOf env.sblock vol.fs no).numLinks.toNat = (FileTree.entriesOf env vol.fs no).ncard ∧
        ((entryOf env.sblock vol.fs no).numLinks = 0#16 ↔ ¬ Linked env vol.fs no) := by
  obtain ⟨d,ran,counter,finished⟩ := mkfs_finishes fits
  refine ⟨d,⟨sb,consoleRead,stack⟩,_,ran,finished.mounts consoleRead stack,fun events vol path no inUse => ?_⟩
  obtain ⟨s,_,stands⟩ := finished.follows counter fits distinct room path
  exact ⟨stands.counted inUse,stands.numLinks_zero inUse⟩

theorem mounted_links_small : ∃ (d : State) (env : Env) (start : Fs) (vol : Volume), mkfs [smallFile] = .ok d ∧
    Runs.Trace (Steps env) (mounted start) smallRun vol ∧ (FileTree.entriesOf env vol.fs 3#64).ncard = 1 ∧
    ¬ Linked env vol.fs 4#64 := by
  obtain ⟨d,env,start,ran,booted,links⟩ := mounted_links small_fits small_distinct (by decide) (fun _ => none) 0#128
  obtain ⟨vol,path,facts⟩ := replayed_runs ran booted smallRun smallRun_ends
  obtain ⟨inUse,_,one,inUse',none,_⟩ := of_decide_eq_true facts
  obtain ⟨counted,_⟩ := links smallRun vol path 3#64 inUse
  obtain ⟨_,unlinked⟩ := links smallRun vol path 4#64 inUse'
  refine ⟨d,env,start,vol,ran,path,?_,unlinked.mp none⟩
  rw [← counted]
  exact congrArg BitVec.toNat one

-- What a path was created with it leads to until a name is taken away, and what unlinkat
-- took away is not found.
theorem mounted_names {hosts : List HostFile} (fits : Fits hosts) (distinct : Distinct hosts)
    (room : hosts.length%32 ≠ 30) (consoleRead : Usize → Option (List Byte)) (stack : DirEntry) : ∃ d env start,
      mkfs hosts = .ok d ∧ initFilesystem consoleRead stack d.sectors = .ok (env,start) ∧
      ∀ before vol, Runs.Trace (Steps env) (mounted start) before vol →
        (∀ vol₁ vol₂ vol₃ cwd cwd' path q between found, charAt path 0 = SysFile.slash →
          Steps env vol (.openat cwd path true true,.opened (some q)) vol₁ →
          Runs.Trace (KeepsNames env) vol₁ between vol₂ →
          Steps env vol₂ (.openat cwd' path false true,.opened found) vol₃ → found = some q) ∧
        ∀ vol₁ vol₂ cwd path granted found, Steps env vol (.unlinkat cwd path,.done true) vol₁ →
          Steps env vol₁ (.openat cwd path false granted,.opened found) vol₂ → found = none := by
  obtain ⟨d,ran,counter,finished⟩ := mkfs_finishes fits
  refine ⟨d,⟨sb,consoleRead,stack⟩,_,ran,finished.mounts consoleRead stack,fun before vol path => ?_⟩
  obtain ⟨s,_,stands⟩ := finished.follows counter fits distinct room path
  refine ⟨?_,?_⟩
  · intro vol₁ vol₂ vol₃ cwd cwd' path q between found rooted made run opens
    exact stands.opens_again layout numInodes_wide rooted made run opens
  · intro vol₁ vol₂ cwd path granted found removed opens
    exact stands.gone layout numInodes_wide removed opens

-- creat /b; mkdir /c; open /b.
theorem mounted_names_small : ∃ (d : State) (env : Env) (start : Fs) (vol₁ vol₂ vol₃ : Volume)
    (found : Option Usize), mkfs [smallFile] = .ok d ∧
    Steps env (mounted start) (.openat 1#64 [47#8,98#8] true true,.opened (some 3#64)) vol₁ ∧
    Steps env vol₁ (.mkdirat 1#64 [47#8,99#8],.done true) vol₂ ∧
    Steps env vol₂ (.openat 1#64 [47#8,98#8] false true,.opened found) vol₃ ∧ found = some 3#64 := by
  obtain ⟨d,env,start,ran,booted,names⟩ := mounted_names small_fits small_distinct (by decide) (fun _ => none) 0#128
  obtain ⟨vol,path,facts⟩ := replayed_runs ran booted []
      (p := fun r => (replay r.1 r.2 [(.openat 1#64 [47#8,98#8] true true,.opened (some 3#64)),
    (.mkdirat 1#64 [47#8,99#8],.done true),(.openat 1#64 [47#8,98#8] false true,.opened (some 3#64))]).isSome) (by decide +kernel)
  obtain rfl : mounted start = vol := by
    generalize none : ([] : List (Request × Reply)) = events at path
    cases path with
    | start => rfl
    | step => simp at none
  obtain ⟨vol₃,ends⟩ := Option.isSome_iff_exists.mp facts
  obtain ⟨vol₁,made,ends⟩ := replay_step ends
  obtain ⟨vol₂,other,ends⟩ := replay_step ends
  obtain ⟨_,opens,_⟩ := replay_step ends
  have run : Runs.Trace (KeepsNames env) vol₁ ([]++[(.mkdirat 1#64 [47#8,99#8],.done true)]) vol₂ := by
    refine .step .start ⟨other,?_⟩
    intro cwd path same
    cases same
  have is := (names _ _ path).1 vol₁ vol₂ _ 1#64 1#64 [47#8,98#8] 3#64 _ _ (by decide) made run opens
  exact ⟨d,env,start,vol₁,vol₂,_,_,ran,made,other,opens,is⟩

-- While no directory that somebody works in has been removed, stat and open return for
-- every path.
theorem mounted_lookups {hosts : List HostFile} (fits : Fits hosts) (distinct : Distinct hosts)
    (room : hosts.length%32 ≠ 30) (consoleRead : Usize → Option (List Byte)) (stack : DirEntry) : ∃ d env start,
      mkfs hosts = .ok d ∧ initFilesystem consoleRead stack d.sectors = .ok (env,start) ∧
      ∀ events vol, Runs.Trace (Steps env) (mounted start) events vol → NoneRemoved env vol →
        ∀ cwd ∈ vol.held, (entryOf env.sblock vol.fs cwd).type = inodeDirectory → ∀ path,
          (∃ e vol', Steps env vol (.newfstatat cwd path,.stat e) vol') ∧
          ∀ granted, ∃ found vol', Steps env vol (.openat cwd path false granted,.opened found) vol' := by
  obtain ⟨d,ran,counter,finished⟩ := mkfs_finishes fits
  refine ⟨d,⟨sb,consoleRead,stack⟩,_,ran,finished.mounts consoleRead stack,?_⟩
  intro events vol run kept cwd mine directory path
  obtain ⟨s,_,stands⟩ := finished.follows counter fits distinct room run
  exact stands.looks_up layout kept mine directory path

theorem mounted_lookups_small : ∃ (d : State) (env : Env) (start : Fs) (vol : Volume), mkfs [smallFile] = .ok d ∧
    Runs.Trace (Steps env) (mounted start) smallRun vol ∧ ∀ path, ∃ e vol',
    Steps env vol (.newfstatat 1#64 path,.stat e) vol' := by
  obtain ⟨d,env,start,ran,booted,returns⟩ := mounted_lookups small_fits small_distinct (by decide) (fun _ => none) 0#128
  obtain ⟨vol,path,facts⟩ := replayed_runs ran booted smallRun smallRun_ends
  obtain ⟨_,_,_,_,_,held,file,directory,linked⟩ := of_decide_eq_true facts
  have kept : NoneRemoved env vol := by
    intro p mine type
    rw [held] at mine
    rcases List.mem_cons.mp mine with rfl | mine
    · exact absurd (file.symm.trans type) (by decide)
    · obtain rfl := List.mem_singleton.mp mine
      exact linked
  have mine : 1#64 ∈ vol.held := by
    rw [held]
    exact .tail _ (.head _)
  exact ⟨d,env,start,vol,ran,path,fun names => (returns smallRun vol path kept 1#64 mine directory names).1⟩

end Mkfs
