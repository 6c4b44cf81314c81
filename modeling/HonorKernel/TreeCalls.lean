import HonorKernel.TreeNodes

-- The path calls of kernel/sysfile.c on the tree.
namespace FileTree
open DiskFormat CacheView SysFile NamingTree
open InodeLayer hiding walk

section Paths
variable {env : Env} {ctx : Ctx} {t : Tree} {locked : List Usize} {held : Usize → Prop} {rc : Usize → Int}
  {fs fs' : Fs} {p q d no ans cwd : Usize} {name : List Byte} {path : List Byte}

theorem Depicts.keep (layout : Layout env.sblock) (rooted : Rooted dots rootInodeNo t held)
    (named : Named dots rootInodeNo t p) (depicts : Depicts env t (links dots rootInodeNo t) locked rc fs)
    (out : p ∉ locked) (ran : inodePut env ctx p fs = .ok fs') :
    Depicts env t (links dots rootInodeNo t) locked (rc-one p) fs' := by
  rcases (depicts.put layout out ran).2 with ⟨_,kept⟩ | ⟨_,unlinked,_⟩
  · exact kept
  · exact absurd named (rooted.links_zero.mp unlinked)

theorem unlocked (p : Usize) : p ∉ ([] : List Usize) := List.not_mem_nil

theorem find_file (file : ¬ IsDir t d) (name : List Byte) : find t d name = none := by
  cases found : find t d name with
  | none => rfl
  | some q => exact absurd (find_entry.mp found).isDir file

theorem walkAbove_file (file : ¬ IsDir t d) (names : List (List Byte)) : walkAbove t names d = none := by
  cases names with
  | nil => rfl
  | cons first rest =>
    cases rest with
    | nil =>
      unfold walkAbove
      rw [if_neg fun isDir => file (isDir_iff.mp isDir)]
    | cons second rest =>
      unfold walkAbove
      rw [find_file file]
      rfl

-- What the loop of namex comes to.
def reaches (t : Tree) (parent : Bool) (names : List (List Byte)) (ans : Usize) : Option (Usize × List Byte) :=
  if parent then walkAbove t (names.map padded) ans else (walk t (names.map padded) ans).map fun q => (q,padded [])

theorem reaches_file (file : ¬ IsDir t ans) (parent : Bool) (name : List Byte) (rest : List (List Byte)) :
    reaches t parent (name::rest) ans = none := by
  unfold reaches
  split
  · exact walkAbove_file file _
  · rw [List.map_cons]
    unfold walk
    rw [find_file file]
    rfl

theorem reaches_step {parent : Bool} {rest : List (List Byte)} (more : ¬ (parent && rest.isEmpty) = true)
    (name : List Byte) (ans : Usize) :
    reaches t parent (name::rest) ans = (find t ans (padded name)).bind (reaches t parent rest) := by
  unfold reaches
  cases parent with
  | false =>
    simp only [Bool.false_eq_true,if_false,List.map_cons,walk]
    cases find t ans (padded name) with
    | none => rfl
    | some q => rfl
  | true =>
    cases rest with
    | nil => exact absurd rfl more
    | cons next rest =>
      simp only [if_true,List.map_cons,walkAbove]

theorem namexLoop_reaches (layout : Layout env.sblock) (rooted : Rooted dots rootInodeNo t held)
    (names : List (List Byte)) {parent : Bool} (named : Named dots rootInodeNo t ans)
    (depicts : Depicts env t (links dots rootInodeNo t) [] rc fs) {r : Option (Usize × List Byte)}
    (ran : namexLoop env ctx parent names ans fs = .ok (r,fs')) :
    (r.map fun found => (found.1,padded found.2)) = reaches t parent names ans ∧
      Depicts env t (links dots rootInodeNo t) [] (rc-one ans+taken (r.map Prod.fst)) fs' := by
  induction names generalizing ans rc fs with
  | nil =>
    unfold namexLoop at ran
    split at ran
    · rename_i up
      obtain ⟨fs₁,put,ran⟩ := Runs.bind_ok.mp ran
      cases ran
      refine ⟨by unfold reaches; rw [if_pos up]; rfl,?_⟩
      exact (depicts.keep layout rooted named (unlocked ans) put).congr (fun _ _ => rfl) fun q => add_zero _
    · rename_i down
      cases ran
      refine ⟨by unfold reaches; rw [if_neg down]; rfl,?_⟩
      exact depicts.congr (fun _ _ => rfl) fun q => sub_add_cancel _ _
  | cons name rest ih =>
    unfold namexLoop at ran
    obtain ⟨fs₁,lock,ran⟩ := Runs.bind_ok.mp ran
    obtain ⟨inode,found,ran⟩ := Runs.bind_ok.mp ran
    have found := Fs.inode_ok.mp found
    have depicts₁ := (depicts.lock lock).2
    obtain ⟨_,drawn,_⟩ := depicts₁.loaded found
    split at ran
    · rename_i file
      obtain ⟨fs₂,unlock,ran⟩ := Runs.bind_ok.mp ran
      obtain ⟨fs₃,put,ran⟩ := Runs.bind_ok.mp ran
      cases ran
      have kept := ((depicts₁.unlock (unlocked ans) unlock).keep layout rooted named (unlocked ans) put)
      exact ⟨(reaches_file (fun isDir => file (drawn.isDir.mpr isDir)) parent name rest).symm,kept.congr
          (fun _ _ => rfl) fun q => add_zero _⟩
    · rename_i type
      obtain ⟨m,here,_⟩ := drawn.directory (not_not.mp type)
      split at ran
      · rename_i last
        obtain ⟨fs₂,unlock,ran⟩ := Runs.bind_ok.mp ran
        cases ran
        obtain ⟨up,none⟩ := Bool.and_eq_true_iff.mp last
        refine ⟨?_,(depicts₁.unlock (unlocked ans) unlock).congr (fun _ _ => rfl) fun q => sub_add_cancel _ _⟩
        unfold reaches
        rw [if_pos up,List.isEmpty_iff.mp none]
        simp only [Option.map_some,List.map_cons,List.map_nil,walkAbove]
        rw [if_pos (isDir_iff.mpr ⟨m,here⟩)]
      · rename_i more
        obtain ⟨⟨no,off,fs₂⟩,looked,ran⟩ := Runs.bind_ok.mp ran
        obtain ⟨⟨next,fs₃⟩,got,ran⟩ := Runs.bind_ok.mp ran
        obtain ⟨fs₄,unlock,ran⟩ := Runs.bind_ok.mp ran
        obtain ⟨fs₅,put,walked⟩ := Runs.bind_ok.mp ran
        obtain ⟨rfl,_,m',_,here',answer⟩ := depicts₁.lookup looked
        cases here.symm.trans here'
        have step := reaches_step (t := t) more name ans
        rw [find_dir here] at step
        rcases answer with ⟨absent,rfl⟩ | ⟨bound,nonzero,_⟩
        · obtain ⟨nothing,same⟩ : next = none ∧ fs₃ = fs₂ := by
            unfold inodeGet at got
            cases got
            exact ⟨rfl,rfl⟩
          rw [nothing] at walked
          rw [same] at unlock
          cases walked
          rw [absent] at step
          have kept := ((depicts₁.unlock (unlocked ans) unlock).keep layout rooted named (unlocked ans) put)
          exact ⟨step.symm,kept.congr (fun _ _ => rfl) fun q => add_zero _⟩
        · have below : Named dots rootInodeNo t no := rooted.find_named named ((find_dir here _).trans bound)
          obtain ⟨rfl,depicts₂⟩ := depicts₁.get (rooted.there below) got
          have kept := ((depicts₂.unlock (unlocked ans) unlock).keep layout rooted named (unlocked ans) put)
          obtain ⟨reached,last⟩ := ih below kept walked
          rw [bound] at step
          refine ⟨reached.trans step.symm,last.congr (fun _ _ => rfl) fun q => ?_⟩
          simp only [Pi.add_apply,Pi.sub_apply]
          omega

theorem namex_reaches (layout : Layout env.sblock) (rooted : Rooted dots rootInodeNo t held)
    (named : Named dots rootInodeNo t (startOf cwd path)) {parent : Bool}
    (depicts : Depicts env t (links dots rootInodeNo t) [] rc fs) {r : Option (Usize × List Byte)}
    (ran : namex env ctx cwd path parent fs = .ok (r,fs')) :
    (r.map fun found => (found.1,padded found.2)) = reaches t parent (components path) (startOf cwd path) ∧
      Depicts env t (links dots rootInodeNo t) [] (rc+taken (r.map Prod.fst)) fs' := by
  obtain ⟨⟨ans,fs₁⟩,start,ran⟩ := Runs.bind_ok.mp ran
  obtain ⟨same,depicts₁⟩ : ans = startOf cwd path ∧ Depicts env t (links dots rootInodeNo t) [] (rc+one (startOf cwd path)) fs₁ := by
    unfold namexStart at start
    unfold startOf
    split at start
    · rename_i absolute
      obtain ⟨⟨found,fs₂⟩,got,is⟩ := Runs.map_ok start
      cases is
      rw [if_pos absolute]
      exact ⟨rfl,(depicts.get (rooted.there (.inl rfl)) got).2⟩
    · rename_i relative
      obtain ⟨fs₂,shared,is⟩ := Runs.map_ok start
      cases is
      rw [if_neg relative]
      exact ⟨rfl,(depicts.share layout shared).2⟩
  rw [same,elements_components] at ran
  obtain ⟨reached,depicts₂⟩ := namexLoop_reaches layout rooted (components path) named depicts₁ ran
  refine ⟨reached,depicts₂.congr (fun _ _ => rfl) fun q => ?_⟩
  simp only [Pi.add_apply,Pi.sub_apply]
  omega

theorem namei_walks (layout : Layout env.sblock) (rooted : Rooted dots rootInodeNo t held)
    (named : Named dots rootInodeNo t (startOf cwd path))
    (depicts : Depicts env t (links dots rootInodeNo t) [] rc fs) {r : Option Usize}
    (ran : namei env ctx cwd path fs = .ok (r,fs')) :
    r = walk t ((components path).map padded) (startOf cwd path) ∧ Depicts env t (links dots rootInodeNo t) []
    (rc+taken r) fs' := by
  obtain ⟨⟨found,fs₁⟩,walked,ran⟩ := Runs.bind_ok.mp ran
  cases ran
  obtain ⟨reached,depicts₁⟩ := namex_reaches layout rooted named depicts walked
  refine ⟨?_,depicts₁⟩
  have ends := congrArg (Option.map Prod.fst) reached
  unfold reaches at ends
  simp only [Option.map_map,Bool.false_eq_true,if_false] at ends
  have same : (Prod.fst ∘ fun q : Usize => (q,padded [])) = id := rfl
  rw [same,Option.map_id] at ends
  exact ends

theorem nameiparent_walks (layout : Layout env.sblock) (rooted : Rooted dots rootInodeNo t held)
    (named : Named dots rootInodeNo t (startOf cwd path))
    (depicts : Depicts env t (links dots rootInodeNo t) [] rc fs) {r : Option (Usize × List Byte)}
    (ran : nameiparent env ctx cwd path fs = .ok (r,fs')) :
    (r.map fun found => (found.1,padded found.2)) = walkAbove t ((components path).map padded) (startOf cwd path) ∧
      Depicts env t (links dots rootInodeNo t) [] (rc+taken (r.map Prod.fst)) fs' :=
  namex_reaches layout rooted named depicts ran

theorem findLocked_walks (layout : Layout env.sblock) (rooted : Rooted dots rootInodeNo t held)
    (named : Named dots rootInodeNo t (startOf cwd path))
    (depicts : Depicts env t (links dots rootInodeNo t) [] rc fs) {r : Option Usize}
    (ran : findLocked env ctx cwd path fs = .ok (r,fs')) :
    r = walk t ((components path).map padded) (startOf cwd path) ∧
    Depicts env t (links dots rootInodeNo t) r.toList (rc+taken r) fs' := by
  obtain ⟨⟨found,fs₁⟩,walked,ran⟩ := Runs.bind_ok.mp ran
  obtain ⟨is,depicts₁⟩ := namei_walks layout rooted named depicts walked
  cases found with
  | none =>
    cases ran
    exact ⟨is,depicts₁⟩
  | some p =>
    obtain ⟨fs₂,lock,ran⟩ := Runs.bind_ok.mp ran
    cases ran
    exact ⟨is,(depicts₁.lock lock).2⟩

theorem getLocked_gets (depicts : Depicts env t ℓ locked rc fs) (there : (t no).isSome)
    (ran : getLocked env no fs = .ok (p,fs')) :
    p = no ∧ no ∉ locked ∧ Depicts env t ℓ (no::locked) (rc+one no) fs' := by
  obtain ⟨⟨found,fs₁⟩,got,ran⟩ := Runs.bind_ok.mp ran
  obtain ⟨rfl,depicts₁⟩ := depicts.get there got
  obtain ⟨fs₂,lock,ran⟩ := Runs.bind_ok.mp ran
  cases ran
  exact ⟨rfl,depicts₁.lock lock⟩

theorem unlockPut_keeps (layout : Layout env.sblock) (rooted : Rooted dots rootInodeNo t held)
    (named : Named dots rootInodeNo t p) (depicts : Depicts env t (links dots rootInodeNo t) (p::locked) rc fs)
    (out : p ∉ locked) (ran : unlockPut env ctx p fs = .ok fs') :
    Depicts env t (links dots rootInodeNo t) locked (rc-one p) fs' := by
  obtain ⟨fs₁,unlock,put⟩ := Runs.bind_ok.mp ran
  exact (depicts.unlock out unlock).keep layout rooted named out put

end Paths

section Creating
variable {env : Env} {ctx : Ctx} {t : Tree} {ℓ : Usize → Nat} {locked : List Usize} {held : Usize → Prop}
  {rc : Usize → Int} {fs fs' : Fs} {p q d no cwd : Usize} {name path : List Byte} {type major minor : U16}
  {m : List Byte → Option Usize}

theorem getLocked_entry (there : InTable env.sblock no) (ran : getLocked env no fs = .ok (p,fs')) :
    entryOf env.sblock fs' no = entryOf env.sblock fs no := by
  obtain ⟨⟨found,fs₁⟩,got,ran⟩ := Runs.bind_ok.mp ran
  rcases inodeGet_cases got with ⟨zero,_⟩ | ⟨_,rfl,_⟩
  · have positive := there.1
    rw [zero] at positive
    exact absurd positive (by decide)
  · obtain ⟨_,_,_,⟨inode,loaded,entry⟩,_⟩ := inodeGet_found got
    obtain ⟨fs₂,lock,ran⟩ := Runs.bind_ok.mp ran
    cases ran
    obtain ⟨inode',value,loaded',rfl⟩ := inodeLock_set lock
    have same : ({inode' with lock := value} : Inode).entry = inode'.entry := rfl
    have kept : entryOf env.sblock _ p = entryOf env.sblock fs₁ p := entryOf_set loaded' same p
    rw [kept,entryOf_found loaded,entry]

theorem getLocked_others (ran : getLocked env no fs = .ok (p,fs')) : fs'.cache = fs.cache ∧ ∀ r, r ≠ no →
    fs'.inodes r = fs.inodes r := by
  obtain ⟨⟨found,fs₁⟩,got,rest⟩ := Runs.bind_ok.mp ran
  cases found with
  | none => cases rest
  | some q =>
    obtain ⟨is,_,cache,_,others⟩ := inodeGet_found got
    subst is
    obtain ⟨fs₂,lock,rest⟩ := Runs.bind_ok.mp rest
    cases rest
    obtain ⟨inode,value,_,rfl⟩ := inodeLock_set lock
    exact ⟨cache,fun r other => (Function.update_of_ne other ..).trans (others r other)⟩

theorem newInode_seeds (layout : Layout env.sblock) (depicts : Depicts env t ℓ locked rc fs) (fine : creatable type)
    (ran : newInode env ctx type major minor fs = .ok (q,fs')) : t q = none ∧ InTable env.sblock q ∧ q ∉ locked ∧
      Depicts env (Function.update t q (some (seedNode type major minor))) (Function.update ℓ q 1) (q::locked)
      (rc+one q) fs' ∧
      ∃ inode, fs'.inodes q = some inode ∧ inode.entry.numBytes = 0#32 := by
  obtain ⟨⟨no,fs₁⟩,alloc,ran⟩ := Runs.bind_ok.mp ran
  obtain ⟨⟨current,fs₂⟩,got,ran⟩ := Runs.bind_ok.mp ran
  obtain ⟨inode,found,ran⟩ := Runs.bind_ok.mp ran
  obtain ⟨fs₃,synced,ran⟩ := Runs.bind_ok.mp ran
  cases ran
  have found := Fs.inode_ok.mp found
  obtain ⟨vacant,inTable,entry,depicts₁⟩ := depicts.alloc layout fine alloc
  obtain ⟨rfl,out,depicts₂⟩ := getLocked_gets depicts₁ (by rw [Function.update_self]; rfl) got
  have zero : inode.entry = InodeEntry.zero.setType type := by
    have here : entryOf env.sblock fs₂ q = inode.entry := entryOf_found found
    rw [← here,getLocked_entry inTable got,entry]
  have kind : inode.entry.type = type := by
    rw [zero]
    rfl
  have alike : ∀ v, (∀ k b, fileBlock fs₂.cache inode.entry k = some b →
      fileBlock v ((inode.entry.setDevice major minor).setNumLinks 1#16) k = some b ∧
          v.blocks b = fs₂.cache.blocks b) → type ≠ inodeDevice →
      Alike fs₂.cache inode.entry v ((inode.entry.setDevice major minor).setNumLinks 1#16) :=
    fun v blocks file => ⟨rfl,fun device => absurd (kind.symm.trans device) file,rfl,blocks⟩
  obtain ⟨_,drawn,_⟩ := depicts₂.loaded found
  rw [Function.update_self] at drawn
  have draws : ∀ v, (∀ k b, fileBlock fs₂.cache inode.entry k = some b →
      fileBlock v ((inode.entry.setDevice major minor).setNumLinks 1#16) k = some b ∧ v.blocks b = fs₂.cache.blocks b) →
      Drawn v ((inode.entry.setDevice major minor).setNumLinks 1#16) (some (seedNode type major minor)) := by
    intro v blocks
    rcases fine with rfl | rfl | rfl
    · exact (alike v blocks (by decide)).drawn drawn
    · exact (alike v blocks (by decide)).drawn drawn
    · exact ⟨kind,rfl,rfl⟩
  have depicts₃ := depicts₂.sync layout found (e := (inode.entry.setDevice major minor).setNumLinks 1#16) rfl rfl rfl synced draws
  rw [Function.update_idem,Function.update_idem] at depicts₃
  refine ⟨vacant,inTable,out,depicts₃,?_⟩
  obtain ⟨_,_,_,written⟩ := sync_consistent layout depicts₂.consistent found
      ((inode.entry.setDevice major minor).setNumLinks 1#16) rfl rfl rfl synced
  rw [written]
  exact ⟨_,Function.update_self ..,congrArg InodeEntry.numBytes zero⟩

theorem insertDots_fills (layout : Layout env.sblock) (wide : env.sblock.numInodes.toNat ≤ 65536)
    (depicts : Depicts env t ℓ locked rc fs) (empty : t q = some (.dir fun _ => none))
    (found : fs.inodes q = some inode) (size : inode.entry.numBytes = 0#32) (few : ℓ d < 65535)
    (ran : insertDots env ctx d q fs = .ok fs') :
    Depicts env (Function.update t q (some (.dir (dots.fresh q d)))) (Function.update ℓ d (ℓ d+1)) locked rc fs' := by
  obtain ⟨inode₀,there,ran⟩ := Runs.bind_ok.mp ran
  obtain ⟨⟨ret₁,fs₁⟩,first,ran⟩ := Runs.bind_ok.mp ran
  obtain ⟨parent,above,ran⟩ := Runs.bind_ok.mp ran
  obtain ⟨⟨ret₂,fs₂⟩,second,relinked⟩ := Runs.bind_ok.mp ran
  cases found.symm.trans (Fs.inode_ok.mp there)
  have above := Fs.inode_ok.mp above
  simp only at relinked
  split at relinked
  · cases relinked
  · rename_i fine
    rw [not_or] at fine
    have none : inode.entry.numBytes.toNat/dirEntrySize = 0 := by
      rw [size]
      rfl
    obtain ⟨inTable,_⟩ := depicts.loaded found
    have number := (depicts.consistent.owned.loaded q inode found).2.1
    rw [number] at first
    obtain ⟨_,inode₁,i,found₁,start,count,bound,depicts₁⟩ := depicts.insert layout found empty inTable.1
        (by have := inTable.2; omega) (by
      intro i start _
      have zero : i = 0 := by omega
      subst zero
      exact ⟨iff_of_true rfl rfl,iff_of_false (by decide) dots.apart⟩) first fine.1
    have zero : i = 0 := by omega
    subst zero
    rw [none] at count
    obtain ⟨inTable',_⟩ := depicts₁.loaded above
    have number' := (depicts₁.consistent.owned.loaded d parent above).2.1
    rw [number'] at second
    obtain ⟨_,_,_,_,_,_,_,depicts₂⟩ := depicts₁.insert layout found₁ (Function.update_self ..) inTable'.1
        (by have := inTable'.2; omega) (by
      intro i start free
      have one : i = 1 := by
        by_contra other
        have zero : i = 0 := by omega
        subst zero
        cases bound.symm.trans (free (by omega))
      subst one
      exact ⟨iff_of_false (by decide) (Ne.symm dots.apart),iff_of_true rfl rfl⟩) second fine.2
    obtain ⟨_,links,same,last⟩ := depicts₂.relink layout relinked
    have next : (links+1#16).toNat = ℓ d+1 := by
      rw [BitVec.toNat_add,same]
      exact Nat.mod_eq_of_lt (by show ℓ d+1 < 65536; omega)
    rw [next,Function.update_idem] at last
    exact last

def newNode (type major minor : U16) : Usize → Usize → Node :=
  if type = inodeDirectory then newDirectory else if type = inodeRegular then emptyFile else newDevice major minor

theorem newNode_fresh (type major minor : U16) (q d : Usize) : Fresh dots q d (newNode type major minor q d) := by
  unfold newNode
  split
  · exact .inr rfl
  · split
    · exact .inl ⟨_,rfl⟩
    · exact .inl ⟨_,rfl⟩

theorem nodes_few {sb : SuperBlock} (inside : ∀ no, (t no).isSome → InTable sb no) :
    {no | (t no).isSome}.ncard ≤ sb.numInodes.toNat-1 := by
  have range : (Set.Ioo 0 sb.numInodes.toNat).ncard = sb.numInodes.toNat-1 := by
    rw [← Finset.coe_Ioo,Set.ncard_coe_finset,Nat.card_Ioo,Nat.sub_zero]
  rw [← range]
  exact Set.ncard_le_ncard_of_injOn BitVec.toNat (fun no there => inside no there)
      (fun _ _ _ _ same => BitVec.eq_of_toNat_eq same) (Set.finite_Ioo _ _)

theorem newNode_isDir (here : t d = some (.dir m)) (vacant : t q = none) :
    IsDir (add t d m name q (newNode type major minor q d)) q ↔ type = inodeDirectory := by
  have isNew : add t d m name q (newNode type major minor q d) q = _ := add_new here vacant
  unfold IsDir
  rw [isNew]
  unfold newNode
  split
  · rename_i is
    exact iff_of_true ⟨_,rfl⟩ is
  · rename_i not
    refine iff_of_false ?_ not
    split <;> (rintro ⟨m',no⟩; cases no)

theorem Depicts.add_inTable (depicts : Depicts env t ℓ locked rc fs) (here : t d = some (.dir m))
    (inTable : InTable env.sblock q) {node : Node} {no : Usize} (there : (add t d m name q node no).isSome) :
    InTable env.sblock no := by
  by_cases own : no = q
  · rw [own]
    exact inTable
  · by_cases parent : no = d
    · rw [parent]
      exact depicts.inTable (IsDir.there ⟨m,here⟩)
    · rw [add_other parent own] at there
      exact depicts.inTable there

-- What is done to the new inode before it has its name: the links are already those of
-- the tree with the name.
theorem seeded_fills (layout : Layout env.sblock) (wide : env.sblock.numInodes.toNat ≤ 65536)
    (rooted : Rooted dots rootInodeNo t held) (named : Named dots rootInodeNo t d) (here : t d = some (.dir m))
    (vacant : t q = none) (plain : dots.Plain name) (absent : m name = none)
    (inside : ∀ no, (add t d m name q (newNode type major minor q d) no).isSome → InTable env.sblock no)
    (depicts : Depicts env (Function.update t q (some (seedNode type major minor)))
        (Function.update (links dots rootInodeNo t) q 1) locked rc fs) (found : fs.inodes q = some inode)
        (size : inode.entry.numBytes = 0#32)
    (filled : (if type = inodeDirectory then insertDots env ctx d q fs else .ok fs) = .ok fs') :
    ∃ ℓ' : Usize → Nat, Depicts env (Function.update t q (some (newNode type major minor q d))) ℓ' locked rc fs' ∧
      ∀ no, links dots rootInodeNo (add t d m name q (newNode type major minor q d)) no = ℓ' no := by
  have other : d ≠ q := apart_of_vacant here vacant
  have fresh := newNode_fresh type major minor q d
  have bound := (rooted.add here vacant plain absent fresh named).links_le d
  have few := nodes_few inside
  obtain ⟨single,more,others⟩ := links_add here vacant plain absent fresh rooted named
  by_cases isDir : type = inodeDirectory
  · rw [if_pos isDir] at filled
    have child := more ((newNode_isDir here vacant).mpr isDir)
    have filled := insertDots_fills layout wide depicts (by rw [Function.update_self,seedNode,if_pos isDir]) found size
      (by rw [Function.update_of_ne other]; omega) filled
    rw [Function.update_idem,Function.update_of_ne other] at filled
    refine ⟨_,by rw [newNode,if_pos isDir]; exact filled,fun no => ?_⟩
    by_cases parent : no = d
    · rw [parent,Function.update_self,child]
    · rw [Function.update_of_ne parent]
      by_cases own : no = q
      · rw [own,Function.update_self,single]
      · rw [Function.update_of_ne own,others no own (.inl parent)]
  · rw [if_neg isDir] at filled
    cases filled
    refine ⟨Function.update (links dots rootInodeNo t) q 1,?_,fun no => ?_⟩
    · have same : newNode type major minor q d = seedNode type major minor := by
        rw [newNode,if_neg isDir,seedNode,if_neg isDir]
        split <;> rfl
      rw [same]
      exact depicts
    · by_cases own : no = q
      · rw [own,Function.update_self,single]
      · rw [Function.update_of_ne own,others no own (.inr fun is => isDir ((newNode_isDir here vacant).mp is))]

theorem createNew_adds (layout : Layout env.sblock) (wide : env.sblock.numInodes.toNat ≤ 65536)
    (rooted : Rooted dots rootInodeNo t held) (named : Named dots rootInodeNo t d) (here : t d = some (.dir m))
    (absent : m (padded name) = none) (fine : creatable type)
    (depicts : Depicts env t (links dots rootInodeNo t) locked rc fs)
    (ran : createNew env ctx d name type major minor fs = .ok (q,fs')) :
    t q = none ∧ q ∉ locked ∧ Rooted dots rootInodeNo (add t d m (padded name) q (newNode type major minor q d)) held ∧
      Depicts env (add t d m (padded name) q (newNode type major minor q d))
        (links dots rootInodeNo (add t d m (padded name) q (newNode type major minor q d))) (q::locked)
        (rc+one q) fs' := by
  obtain ⟨⟨current,fs₁⟩,seeded,ran⟩ := Runs.bind_ok.mp ran
  obtain ⟨fs₂,filled,ran⟩ := Runs.bind_ok.mp ran
  obtain ⟨inode,found,ran⟩ := Runs.bind_ok.mp ran
  obtain ⟨⟨ret,fs₃⟩,inserted,ran⟩ := Runs.bind_ok.mp ran
  have found := Fs.inode_ok.mp found
  simp only at ran
  split at ran
  · cases ran
  · rename_i new
    cases ran
    obtain ⟨vacant,inTable,out,depicts₁,inode₁,found₁,size⟩ := newInode_seeds layout depicts fine seeded
    obtain ⟨self,up⟩ := rooted.heads here
    have plain := rooted.plain here absent
    have apart := apart_of_vacant here vacant
    have fresh := newNode_fresh type major minor q d
    have rooted' := rooted.add here vacant plain absent fresh named
    have inside : ∀ no, (add t d m (padded name) q (newNode type major minor q d) no).isSome → InTable env.sblock no :=
      fun no there => depicts.add_inTable here inTable there
    obtain ⟨ℓ',depicts₂,counted⟩ := seeded_fills layout wide rooted named here vacant plain absent inside depicts₁ found₁ size filled
    have number := (depicts₂.consistent.owned.loaded q inode found).2.1
    rw [number] at inserted
    have here₂ : Function.update t q (some (newNode type major minor q d)) d = some (.dir m) :=
        (Function.update_of_ne apart ..).trans here
    obtain ⟨parent,found₂,_⟩ := inodeInsert_directory inserted
    obtain ⟨_,listing⟩ := depicts₂.directory found₂ here₂
    obtain ⟨_,_,_,_,_,_,_,depicts₃⟩ := depicts₂.insert layout found₂ here₂ inTable.1 (by have := inTable.2; omega)
      (fun i _ free => listing.place (by rw [self]; rfl) up plain free) inserted new
    exact ⟨vacant,out,rooted',depicts₃.congr (fun no _ => counted no) fun _ => rfl⟩

theorem unlock_under (depicts : Depicts env t ℓ [q,d] rc fs) (out : q ∉ [d]) (ran : inodeUnlock d fs = .ok fs') :
    Depicts env t ℓ [q] rc fs' := by
  have other : d ∉ [q] := fun same => out (List.mem_singleton.mpr (List.mem_singleton.mp same).symm)
  exact (depicts.relocked fun c => by simp only [List.mem_cons,List.not_mem_nil,or_false]; exact or_comm).unlock other ran

theorem create_creates {s : State} (layout : Layout env.sblock) (wide : env.sblock.numInodes.toNat ≤ 65536)
    (rooted : Rooted dots rootInodeNo s.tree held) (named : Named dots rootInodeNo s.tree (startOf cwd path))
    (fine : creatable type) (depicts : Depicts env s.tree (links dots rootInodeNo s.tree) [] rc fs) {r : Option Usize}
    (ran : create env ctx cwd path type major minor fs = .ok (r,fs')) :
    ∃ t', Creates s cwd path (newNode type major minor) r t' ∧
      Rooted dots rootInodeNo t' held ∧ Depicts env t' (links dots rootInodeNo t') r.toList (rc+taken r) fs' ∧
      ∀ p, r = some p → Named dots rootInodeNo t' p := by
  obtain ⟨⟨parent,fs₁⟩,walked,ran⟩ := Runs.bind_ok.mp ran
  obtain ⟨above,depicts₁⟩ := nameiparent_walks layout rooted named depicts walked
  cases parent with
  | none =>
    cases ran
    exact ⟨s.tree,.nowhere above.symm,rooted,depicts₁,fun p impossible => absurd impossible.symm (Option.some_ne_none p)⟩
  | some found =>
    obtain ⟨d,filename⟩ := found
    have above : s.walkAbove cwd path = some (d,padded filename) := above.symm
    obtain ⟨named_d,_⟩ := rooted.walkAbove_named named above
    obtain ⟨fs₂,lock,ran⟩ := Runs.bind_ok.mp ran
    obtain ⟨⟨no,off,fs₃⟩,looked,ran⟩ := Runs.bind_ok.mp ran
    obtain ⟨⟨current,fs₄⟩,got,ran⟩ := Runs.bind_ok.mp ran
    obtain ⟨fs₅,unlock,ran⟩ := Runs.bind_ok.mp ran
    obtain ⟨fs₆,put,last⟩ := Runs.bind_ok.mp ran
    cases last
    have depicts₂ := (depicts₁.lock lock).2
    obtain ⟨rfl,_,m,_,here,answer⟩ := depicts₂.lookup looked
    rcases answer with ⟨absent,zero⟩ | ⟨bound,nonzero,_⟩
    · rw [if_neg (not_not.mpr zero)] at got
      obtain ⟨vacant,out,rooted',depicts₃⟩ := createNew_adds layout wide rooted named_d here absent fine depicts₂ got
      have named' : ∀ {c}, Named dots rootInodeNo s.tree c ∨ c = current → Named dots rootInodeNo _ c :=
        (add_named here vacant (rooted.plain here absent) absent (newNode_fresh type major minor current d)).mpr
      refine ⟨_,.made above here absent vacant,rooted',?_,fun p same => by cases same; exact named' (.inr rfl)⟩
      have kept := (unlock_under depicts₃ out unlock).keep layout rooted' (named' (.inl named_d))
        (fun same => out (List.mem_singleton.mpr (List.mem_singleton.mp same).symm)) put
      refine kept.congr (fun _ _ => rfl) fun q => ?_
      simp only [Pi.add_apply,Pi.sub_apply,Option.map_some,taken]
      omega
    · rw [if_pos nonzero] at got
      have below : Named dots rootInodeNo s.tree no := rooted.find_named named_d ((find_dir here _).trans bound)
      obtain ⟨rfl,out,depicts₃⟩ := getLocked_gets depicts₂ (rooted.there below) got
      refine ⟨s.tree,.there above ((find_dir here _).trans bound),rooted,?_,fun p same => by cases same; exact below⟩
      have kept := (unlock_under depicts₃ out unlock).keep layout rooted named_d
          (fun same => out (List.mem_singleton.mpr (List.mem_singleton.mp same).symm)) put
      refine kept.congr (fun _ _ => rfl) fun q => ?_
      simp only [Pi.add_apply,Pi.sub_apply,Option.map_some,taken]
      omega

end Creating

section Removing
variable {env : Env} {ctx : Ctx} {t : Tree} {held : Usize → Prop} {rc : Usize → Int} {fs fs' : Fs}
  {p q d cwd : Usize} {name path : List Byte} {m : List Byte → Option Usize}

theorem Depicts.putReference (layout : Layout env.sblock) (rooted : Rooted dots rootInodeNo t fun c => held c ∨
    c = p) (references : ∀ c, held c ↔ 0 < rc c)
    (counted : ∀ c, 0 ≤ rc c) (depicts : Depicts env t (links dots rootInodeNo t) [] (rc+one p) fs)
    (ran : inodePut env ctx p fs = .ok fs') :
    Rooted dots rootInodeNo (release dots rootInodeNo held t p) held ∧
      Depicts env (release dots rootInodeNo held t p) (links dots rootInodeNo (release dots rootInodeNo held t p))
      [] rc fs' := by
  obtain ⟨rooted',same⟩ := rooted.release
  refine ⟨rooted',?_⟩
  have counts : ∀ q, rc q = (rc+one p-one p) q := by
    intro q
    simp only [Pi.add_apply,Pi.sub_apply]
    omega
  have single : (rc+one p) p = rc p+1 := by
    simp only [Pi.add_apply,one,if_true]
  have nonneg := counted p
  have unnamed := rooted.links_zero (q := p)
  unfold release at same ⊢
  rcases (depicts.put layout (unlocked p) ran).2 with ⟨stays,kept⟩ | ⟨last,unlinked,gone⟩
  · have stays : Named dots rootInodeNo t p ∨ held p := by
      rw [references p]
      rcases stays with more | linked
      · exact .inr (by omega)
      · exact .inl (by_contra fun none => linked (unnamed.mpr none))
    rw [if_pos stays]
    exact kept.congr (fun _ _ => rfl) counts
  · have goes : ¬ (Named dots rootInodeNo t p ∨ held p) := by
      rw [not_or,references p]
      exact ⟨unnamed.mp unlinked,by omega⟩
    rw [if_neg goes] at same ⊢
    exact gone.congr (fun no _ => same no) counts

theorem unlinkEntry_removes (layout : Layout env.sblock) (rooted : Rooted dots rootInodeNo t held)
    (here : t d = some (.dir m)) (plain : dots.Plain name) (bound : m name = some q)
    (empty : ∀ c, ¬ Below dots t q c) (references : ∀ c, held c ↔ 0 < rc c) (counted : ∀ c, 0 ≤ rc c)
    (depicts : Depicts env t (links dots rootInodeNo t) [q,d] (rc+one d+one q) fs) (out : q ∉ [d]) {inode : Inode}
    (found : fs.inodes d = some inode) {i : Nat} (inside : i < inode.entry.numBytes.toNat/dirEntrySize)
    (there : binding (slot fs.cache inode.entry i) = some (name,q))
    (ran : unlinkEntry env ctx d q (BitVec.ofNat 64 (dirEntrySize*i)) fs = .ok fs') :
    Rooted dots rootInodeNo (release dots rootInodeNo held (unname t d m name) q) held ∧
      Depicts env (release dots rootInodeNo held (unname t d m name) q)
        (links dots rootInodeNo (release dots rootInodeNo held (unname t d m name) q)) [] rc fs' := by
  obtain ⟨⟨n,fs₁⟩,cleared,ran⟩ := Runs.bind_ok.mp ran
  simp only at ran
  split at ran
  · cases ran
  · obtain ⟨inode',again,ran⟩ := Runs.bind_ok.mp ran
    obtain ⟨fs₂,relinked,ran⟩ := Runs.bind_ok.mp ran
    obtain ⟨fs₃,leave,ran⟩ := Runs.bind_ok.mp ran
    obtain ⟨fs₄,unlinked,ran⟩ := Runs.bind_ok.mp ran
    have different : d ≠ q := fun same => out (List.mem_singleton.mpr same.symm)
    have below : Below dots t d q := ⟨name,plain,(entry_iff here).mpr bound⟩
    have rooted₀ : Rooted dots rootInodeNo t fun c => held c ∨ c = q := rooted.mono fun _ holds => .inl holds
    have rooted₁ := rooted₀.unname here plain bound empty (.inr rfl)
    obtain ⟨single,none,more,others⟩ := rooted.links_unname here plain bound empty
    have named : Named dots rootInodeNo (unname t d m name) d :=
      (rooted.unname_named here plain bound).mpr ⟨(rooted.inside d q below).2.2,different⟩
    have depicts₁ : Depicts env (unname t d m name) (links dots rootInodeNo t) [q,d] (rc+one d+one q) fs₁ :=
      depicts.clearSlot layout found here inside there cleared
    obtain ⟨_,drawn,_⟩ := depicts₁.loaded (Fs.inode_ok.mp again)
    have kind : inode'.entry.type = inodeDirectory ↔ IsDir t q := drawn.isDir.trans (unname_isDir here)
    -- Behind the two steps the links are those of the new tree.
    have depicts₂ : Depicts env (unname t d m name)
        (Function.update (links dots rootInodeNo (unname t d m name)) q 1) [q,d] (rc+one d+one q) fs₂ := by
      split at relinked
      · rename_i type
        have dir := kind.mp type
        obtain ⟨_,count,same,last⟩ := depicts₁.relink layout relinked
        refine last.congr (fun no _ => ?_) fun _ => rfl
        have less : (count-1#16).toNat = links dots rootInodeNo (unname t d m name) d := by
          have step := more dir
          have small := count.isLt
          rw [BitVec.toNat_sub]
          show (2^16-1+count.toNat)%2^16 = _
          omega
        by_cases own : no = q
        · rw [own,Function.update_self,Function.update_of_ne different.symm,single]
        · rw [Function.update_of_ne own]
          by_cases parent : no = d
          · rw [parent,Function.update_self,less]
          · rw [Function.update_of_ne parent,others no own (.inl parent)]
      · rename_i type
        cases relinked
        refine depicts₁.congr (fun no _ => ?_) fun _ => rfl
        by_cases own : no = q
        · rw [own,Function.update_self,single]
        · rw [Function.update_of_ne own,others no own (.inr fun dir => type (kind.mpr dir))]
    obtain ⟨fs₅,unlock,put⟩ := Runs.bind_ok.mp leave
    have depicts₃ : Depicts env (unname t d m name)
        (Function.update (links dots rootInodeNo (unname t d m name)) q 1) [q] (rc+one q) fs₃ := by
      rcases ((unlock_under depicts₂ out unlock).put layout
          (fun same => out (List.mem_singleton.mpr (List.mem_singleton.mp same).symm)) put).2 with
        ⟨_,kept⟩ | ⟨_,zero,_⟩
      · refine kept.congr (fun _ _ => rfl) fun c => ?_
        simp only [Pi.add_apply,Pi.sub_apply]
        omega
      · rw [Function.update_of_ne different] at zero
        exact absurd named (rooted₁.links_zero.mp zero)
    obtain ⟨_,count,same,depicts₄⟩ := depicts₃.relink layout unlinked
    have zero : (count-1#16).toNat = 0 := by
      rw [Function.update_self] at same
      have value : count = 1#16 := BitVec.eq_of_toNat_eq same
      rw [value]
      rfl
    obtain ⟨fs₆,unlock',put'⟩ := Runs.bind_ok.mp ran
    have depicts₅ := depicts₄.unlock (unlocked q) unlock'
    rw [zero,Function.update_idem,← none,Function.update_eq_self] at depicts₅
    exact depicts₅.putReference layout rooted₁ references counted put'

theorem plain_name (name : List Byte) : dots.Plain (padded name) ↔
    (sameName name dot fileNameMaxLength 0 || sameName name dotdot fileNameMaxLength 0) = false := by
  rw [Bool.or_eq_false_iff,← Bool.not_eq_true,← Bool.not_eq_true,sameName_padded,sameName_padded]
  rfl

theorem unlinkat_removes {s : State} (layout : Layout env.sblock) (rooted : Rooted dots rootInodeNo s.tree held)
    (named : Named dots rootInodeNo s.tree (startOf cwd path)) (references : ∀ c, held c ↔ 0 < rc c)
    (counted : ∀ c, 0 ≤ rc c) (depicts : Depicts env s.tree (links dots rootInodeNo s.tree) [] rc fs) {done : Bool}
    (ran : SysFile.unlinkat env ctx cwd path fs = .ok (done,fs')) :
    ∃ t', (done = true ∧ (∃ d m name q, Removable s cwd path d m name q ∧
    t' = release dots rootInodeNo held (unname s.tree d m name) q) ∨
        done = false ∧ (∀ d m name q, ¬ Removable s cwd path d m name q) ∧ t' = s.tree) ∧
      Rooted dots rootInodeNo t' held ∧ Depicts env t' (links dots rootInodeNo t') [] rc fs' := by
  obtain ⟨⟨parent,fs₁⟩,walked,ran⟩ := Runs.bind_ok.mp ran
  obtain ⟨above,depicts₁⟩ := nameiparent_walks layout rooted named depicts walked
  cases parent with
  | none =>
    cases ran
    have nowhere : s.walkAbove cwd path = none := above.symm
    refine ⟨s.tree,.inr ⟨rfl,fun d m name q removable => ?_,rfl⟩,rooted,depicts₁.congr (fun _ _ => rfl) fun q => (add_zero _).symm⟩
    cases nowhere.symm.trans removable.above
  | some found =>
    obtain ⟨d,name⟩ := found
    have above : s.walkAbove cwd path = some (d,padded name) := above.symm
    obtain ⟨named_d,_⟩ := rooted.walkAbove_named named above
    obtain ⟨fs₂,lock,ran⟩ := Runs.bind_ok.mp ran
    have depicts₂ := (depicts₁.lock lock).2
    -- The directory is given back and nothing has changed.
    have fails : ∀ {fs₃ last}, Depicts env s.tree (links dots rootInodeNo s.tree) [d] (rc+one d) fs₃ →
        unlockPut env ctx d fs₃ = .ok last →
        Depicts env s.tree (links dots rootInodeNo s.tree) [] rc last := fun depicts₃ leave =>
      (unlockPut_keeps layout rooted named_d depicts₃ (unlocked d) leave).congr (fun _ _ => rfl) fun q =>
          (add_sub_cancel_right _ _).symm
    split at ran
    · rename_i dotted
      obtain ⟨last,leave,ran⟩ := Runs.bind_ok.mp ran
      cases ran
      refine ⟨s.tree,.inr ⟨rfl,fun d' m name' q removable => ?_,rfl⟩,rooted,fails depicts₂ leave⟩
      cases above.symm.trans removable.above
      rw [(plain_name name).mp removable.plain] at dotted
      cases dotted
    · rename_i plain
      have plain := (plain_name name).mpr (Bool.eq_false_of_not_eq_true plain)
      obtain ⟨⟨no,off,fs₃⟩,looked,rest⟩ := Runs.bind_ok.mp ran
      obtain ⟨same,inode,m,found,here,answer⟩ := depicts₂.lookup looked
      simp only [same] at rest
      split at rest
      · rename_i zero
        obtain ⟨last,leave,rest⟩ := Runs.bind_ok.mp rest
        cases rest
        refine ⟨s.tree,.inr ⟨rfl,fun d' m' name' q removable => ?_,rfl⟩,rooted,fails depicts₂ leave⟩
        cases above.symm.trans removable.above
        cases here.symm.trans removable.dir
        rcases answer with ⟨absent,_⟩ | ⟨_,nonzero,_⟩
        · cases absent.symm.trans removable.bound
        · exact nonzero zero
      · rename_i nonzero
        obtain ⟨bound,_,i,inside,there,offset⟩ := answer.resolve_left fun none => nonzero none.2
        have below : Named dots rootInodeNo s.tree no := rooted.find_named named_d ((find_dir here _).trans bound)
        obtain ⟨⟨ip,fs₄⟩,got,rest⟩ := Runs.bind_ok.mp rest
        obtain ⟨inode',loaded,rest⟩ := Runs.bind_ok.mp rest
        obtain ⟨is,out,depicts₃⟩ := getLocked_gets depicts₂ (rooted.there below) got
        simp only [is] at rest
        split at rest
        · cases rest
        · obtain ⟨⟨busy,fs₅⟩,used,rest⟩ := Runs.bind_ok.mp rest
          obtain ⟨same',empty⟩ := depicts₃.busy used
          simp only [same'] at rest
          split at rest
          · rename_i busy
            obtain ⟨fs₆,leave,rest⟩ := Runs.bind_ok.mp rest
            obtain ⟨last,leave',rest⟩ := Runs.bind_ok.mp rest
            cases rest
            have depicts₄ := (unlockPut_keeps layout rooted below depicts₃ out leave).congr (fun _ _ => rfl) fun q =>
                (add_sub_cancel_right _ _).symm
            refine ⟨s.tree,.inr ⟨rfl,fun d' m' name' q removable => ?_,rfl⟩,rooted,fails depicts₄ leave'⟩
            cases above.symm.trans removable.above
            cases here.symm.trans removable.dir
            cases bound.symm.trans removable.bound
            rw [empty.mpr removable.empty] at busy
            cases busy
          · rename_i idle
            obtain ⟨last,removed,rest⟩ := Runs.bind_ok.mp rest
            cases rest
            have empty := empty.mp (Bool.eq_false_of_not_eq_true idle)
            obtain ⟨cache,others⟩ := getLocked_others got
            have different : d ≠ no := fun same => out (List.mem_singleton.mpr same.symm)
            rw [← cache] at there
            simp only [offset,Option.getD_some] at removed
            obtain ⟨rooted',depicts₄⟩ := unlinkEntry_removes layout rooted here plain bound empty references counted depicts₃ out
              ((others d different).trans found) inside there removed
            exact ⟨_,.inl ⟨rfl,d,m,padded name,no,⟨above,plain,here,bound,empty⟩,rfl⟩,rooted',depicts₄⟩

end Removing

end FileTree
