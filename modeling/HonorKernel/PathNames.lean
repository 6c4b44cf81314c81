import Mathlib.Data.List.TakeWhile
import HonorKernel.DirectoryMap
import HonorKernel.InodeCounts
import HonorKernel.InodeLocks

-- What namex returns, and what it leaves of the reference counts and the locks.
namespace SysFile
open DiskFormat CacheView InodeLayer
open Runs (Avoids)

-- The path up to its NUL, cut at the slashes; runs of them make no names.
def components (path : List Byte) : List (List Byte) :=
  (((path.takeWhile (· ≠ 0#8)).splitOn slash).filter (· ≠ [])).map (·.take fileNameMaxLength)

section splitting

def words (s : List Byte) : List (List Byte) := (s.splitOn slash).filter (· ≠ [])

theorem words_slash (s : List Byte) : words (slash::s) = words s := by
  have split := List.splitOnP_cons_eq_if_modifyHead (p := fun c => c == slash) slash s
  rw [if_pos (beq_self_eq_true slash)] at split
  rw [words,words,List.splitOn_eq_splitOnP,List.splitOn_eq_splitOnP,split]
  rfl

theorem words_skip (s : List Byte) : words (s.dropWhile fun c => decide (c = slash)) = words s := by
  induction s with
  | nil => rfl
  | cons c rest ih =>
    by_cases here : c = slash
    · rw [List.dropWhile_cons_of_pos (by simpa using here),ih,here,words_slash]
    · rw [List.dropWhile_cons_of_neg (by simpa using here)]

theorem words_first {w rest : List Byte} (some : w ≠ []) (inside : ∀ c ∈ w, c ≠ slash)
    (ends : rest = [] ∨ ∃ tail, rest = slash::tail) :
    words (w++rest) = w::words rest := by
  have plain : ∀ c ∈ w, (c == slash) = false := fun c member => by simpa using inside c member
  rcases ends with rfl | ⟨tail,rfl⟩
  · have none : words [] = [] := rfl
    rw [List.append_nil,none,words,List.splitOn_eq_splitOnP,List.splitOnP_eq_singleton plain]
    simp [some]
  · rw [words_slash,words,words,List.splitOn_eq_splitOnP,List.splitOn_eq_splitOnP,
      List.splitOnP_append_cons_of_forall_mem plain slash (beq_self_eq_true slash)]
    simp [some]

theorem slash_nonzero : slash ≠ 0#8 := by decide

theorem takeWhile_skip (path : List Byte) :
    (path.dropWhile fun c => decide (c = slash)).takeWhile (· ≠ 0#8) = (path.takeWhile (· ≠ 0#8)).dropWhile fun c =>
        decide (c = slash) := by
  induction path with
  | nil => rfl
  | cons c rest ih =>
    by_cases here : c = slash
    · subst here
      rw [List.dropWhile_cons_of_pos (by simp),ih,List.takeWhile_cons_of_pos (by simp [slash_nonzero]),
          List.dropWhile_cons_of_pos (by simp)]
    · rw [List.dropWhile_cons_of_neg (by simpa using here)]
      by_cases zero : c = 0#8
      · rw [List.takeWhile_cons_of_neg (by simpa using zero)]
        rfl
      · rw [List.takeWhile_cons_of_pos (by simpa using zero),List.dropWhile_cons_of_neg (by simpa using here)]

theorem takeWhile_element (path : List Byte) :
    (path.takeWhile fun c => decide (c ≠ slash ∧ c ≠ 0#8))++
      (path.dropWhile fun c => decide (c ≠ slash ∧ c ≠ 0#8)).takeWhile (· ≠ 0#8) = path.takeWhile (· ≠ 0#8) := by
  induction path with
  | nil => rfl
  | cons c rest ih =>
    by_cases inside : c ≠ slash ∧ c ≠ 0#8
    · rw [List.takeWhile_cons_of_pos (by simpa using inside),List.dropWhile_cons_of_pos (by simpa using inside),
        List.takeWhile_cons_of_pos (by simpa using inside.2),List.cons_append,ih]
    · rw [List.takeWhile_cons_of_neg (by simpa using inside),List.dropWhile_cons_of_neg (by simpa using inside),List.nil_append]

theorem element_ends (path : List Byte) :
    (path.dropWhile fun c => decide (c ≠ slash ∧ c ≠ 0#8)).takeWhile (· ≠ 0#8) = [] ∨
    ∃ tail, (path.dropWhile fun c => decide (c ≠ slash ∧ c ≠ 0#8)).takeWhile (· ≠ 0#8) = slash::tail := by
  induction path with
  | nil => exact .inl rfl
  | cons c rest ih =>
    by_cases inside : c ≠ slash ∧ c ≠ 0#8
    · rw [List.dropWhile_cons_of_pos (by simpa using inside)]
      exact ih
    · rw [List.dropWhile_cons_of_neg (by simpa using inside)]
      by_cases here : c = slash
      · subst here
        rw [List.takeWhile_cons_of_pos (by simp [slash_nonzero])]
        exact .inr ⟨_,rfl⟩
      · have zero : c = 0#8 := by
          by_contra other
          exact inside ⟨here,other⟩
        rw [List.takeWhile_cons_of_neg (by simpa using zero)]
        exact .inl rfl

theorem skipelem_words (path : List Byte) :
    (skipelem path = none ∧ words (path.takeWhile (· ≠ 0#8)) = []) ∨
    ∃ w rest, skipelem path = some (w.take fileNameMaxLength,rest) ∧ rest.length < path.length ∧
      words (path.takeWhile (· ≠ 0#8)) = w::words (rest.takeWhile (· ≠ 0#8)) := by
  generalize skipped : (path.dropWhile fun c => decide (c = slash)) = path'
  have shorter : path'.length ≤ path.length := by
    rw [← skipped]
    exact (List.dropWhile_sublist _).length_le
  have same : words (path.takeWhile (· ≠ 0#8)) = words (path'.takeWhile (· ≠ 0#8)) := by
    rw [← skipped,takeWhile_skip,words_skip]
  unfold skipelem
  simp only [skipped]
  by_cases ended : charAt path' 0 = 0#8
  · refine .inl ⟨by rw [if_pos ended],?_⟩
    rw [same]
    cases path' with
    | nil => rfl
    | cons c rest =>
      have zero : c = 0#8 := ended
      rw [List.takeWhile_cons_of_neg (by simpa using zero)]
      rfl
  · rw [if_neg ended]
    -- The element has a character, so what is left is shorter and the word not empty.
    obtain ⟨c,tail,rfl⟩ : ∃ c tail, path' = c::tail := by
      cases path' with
      | nil => exact absurd rfl ended
      | cons c tail => exact ⟨c,tail,rfl⟩
    have here : c ≠ slash ∧ c ≠ 0#8 := by
      refine ⟨fun slashed => ?_,ended⟩
      have first := List.head?_dropWhile_not (fun c => decide (c = slash)) path
      rw [skipped] at first
      simp [slashed] at first
    refine .inr ⟨_,_,rfl,?_,?_⟩
    · rw [List.dropWhile_cons_of_pos (by simpa using here)]
      have inner := (List.dropWhile_sublist (l := tail) fun c => decide (c ≠ slash ∧ c ≠ 0#8)).length_le
      have outer := (List.dropWhile_sublist (l := tail.dropWhile fun c => decide (c ≠ slash ∧ c ≠ 0#8)) fun c =>
          decide (c = slash)).length_le
      rw [List.length_cons] at shorter
      omega
    · have cut := takeWhile_element (c::tail)
      rw [same,← cut,words_first _ _ (element_ends _),takeWhile_skip,words_skip]
      · rw [List.takeWhile_cons_of_pos (by simpa using here)]
        exact List.cons_ne_nil _ _
      · intro d member
        have inside := List.mem_takeWhile_imp member
        simp only [decide_eq_true_eq] at inside
        exact inside.1

theorem elements_components (path : List Byte) : elements path.length path = components path := by
  have general : ∀ fuel (path : List Byte), path.length ≤ fuel →
      elements fuel path = (words (path.takeWhile (· ≠ 0#8))).map (·.take fileNameMaxLength) := by
    intro fuel
    induction fuel with
    | zero =>
      intro path short
      have none : path = [] := List.eq_nil_of_length_eq_zero (by omega)
      subst none
      rfl
    | succ fuel ih =>
      intro path short
      rcases skipelem_words path with ⟨none,empty⟩ | ⟨w,rest,next,shorter,first⟩
      · simp only [elements,none,empty,List.map_nil]
      · simp only [elements,next,first,List.map_cons]
        rw [ih rest (by omega)]
  exact general path.length path (Nat.le_refl _)

end splitting

section tree
variable (env : Env) (fs : Fs)

-- What inode_lookup finds in a directory, and a step from one inode to the next.
def child (no : Usize) (name : List Byte) : Option Usize :=
  let (_,found,dir) := walkAll env fs.cache (entryOf env.sblock fs no) (named name)
  if found then some (dir.inodeNo.setWidth 64) else none

def isDirectory (no : Usize) : Prop := (entryOf env.sblock fs no).type = inodeDirectory
instance : Decidable (isDirectory env fs no) := inferInstanceAs (Decidable (_ = _))

def enter (no : Usize) (name : List Byte) : Option Usize := if isDirectory env fs no then child env fs no name else none

-- The inode behind all the names; for the parent the last name is kept apart, and what
-- stands before it has to be a directory.
def resolve (start : Usize) (names : List (List Byte)) : Bool → Option (Usize × List Byte)
  | false => (names.foldlM (enter env fs) start).map fun no => (no,[])
  | true => do
    let last ← names.getLast?
    let dir ← names.dropLast.foldlM (enter env fs) start
    if isDirectory env fs dir then some (dir,last) else none

def startOf (cwd : Usize) (path : List Byte) : Usize := if charAt path 0 = slash then rootInodeNo else cwd

-- An inode that an entry may name: it has links or references, or it has been given back
-- and nothing is left of it.
structure Reachable (no : Usize) : Prop where
  inTable : InTable env.sblock no
  alive : (entryOf env.sblock fs no).numLinks ≠ 0#16 ∨ 0 < rcOf fs no ∨
    ¬isDirectory env fs no ∧ (entryOf env.sblock fs no).indirect = 0#32 ∧ ∀ i, (entryOf env.sblock fs no).addrs i = 0#32

structure Tree (cwd : Usize) : Prop where
  unlocked : Unlocked fs
  valid : ∀ p inode, fs.inodes p = some inode → inode.valid = true
  counted : ∀ p, 0 ≤ rcOf fs p
  root : Reachable env fs rootInodeNo
  cwd : InTable env.sblock cwd ∧ 0 < rcOf fs cwd
  readable : ∀ no, InTable env.sblock no → isDirectory env fs no → Readable (entryOf env.sblock fs no)
  entries : ∀ no name q, InTable env.sblock no → isDirectory env fs no → child env fs no name = some q → Reachable env fs q

end tree

section walking
variable {env : Env} {ctx : Ctx} {fs fs' start : Fs} {p ans : Usize} {inode inode' : Inode} {held held' : List Usize}
  {extra extra' : Usize → Int}

theorem entryOf_found {sb : SuperBlock} (found : fs.inodes p = some inode) : entryOf sb fs p = inode.entry := by
  rw [entryOf,found]

-- The state during the walk: that of `start` but for locks and references.
structure Sees (env : Env) (start : Fs) (extra : Usize → Int) (held : List Usize) (fs : Fs) : Prop where
  cache : fs.cache = start.cache
  entry : ∀ no, entryOf env.sblock fs no = entryOf env.sblock start no
  rc : ∀ q, rcOf fs q = rcOf start q+extra q
  locks : Locks held fs
  valid : ∀ p inode, fs.inodes p = some inode → inode.valid = true

theorem Tree.sees {cwd : Usize} (tree : Tree env fs cwd) : Sees env fs 0 [] fs :=
  ⟨rfl,fun _ => rfl,fun _ => (Int.add_zero _).symm,locks_nil.mpr tree.unlocked,tree.valid⟩

theorem found_of_rc (referred : 0 < rcOf fs p) : ∃ inode, fs.inodes p = some inode ∧ 0 < inode.rc := by
  unfold rcOf at referred
  split at referred
  · rename_i inode found
    exact ⟨inode,found,referred⟩
  · omega

theorem Sees.set (sees : Sees env start extra held fs) (entry : inode'.entry = entryOf env.sblock fs p)
    (valid : inode'.valid = true) (rc : ∀ q, rcOf (fs.setInode p inode') q = rcOf start q+extra' q)
    (locks : Locks held' (fs.setInode p inode')) :
    Sees env start extra' held' (fs.setInode p inode') := by
  refine ⟨sees.cache,fun no => ?_,rc,locks,fun q inode₁ found => ?_⟩
  · rw [← sees.entry no]
    by_cases mine : no = p
    · subst mine
      exact (entryOf_found (Function.update_self _ _ _)).trans entry
    · have other : (fs.setInode p inode').inodes no = fs.inodes no := Function.update_of_ne mine _ _
      simp only [entryOf,other]
      rfl
  · by_cases mine : q = p
    · subst mine
      have here : (fs.setInode q inode').inodes q = some inode' := Function.update_self ..
      cases here.symm.trans found
      exact valid
    · exact sees.valid q inode₁ ((Function.update_of_ne mine _ _).symm.trans found)

theorem inodeLock_sees (sees : Sees env start extra [] fs) (referred : 0 < rcOf fs p) :
    ∃ fs', inodeLock p fs = .ok fs' ∧ Sees env start extra [p] fs' := by
  obtain ⟨inode,found,positive⟩ := found_of_rc referred
  have ran : inodeLock p fs = .ok (fs.setInode p {inode with lock := ⟨0,[]⟩}) := by
    have lock := sees.locks.lock p inode found
    rw [if_neg List.not_mem_nil] at lock
    unfold inodeLock
    simp only [Fs.inode_ok.mpr found,bind,Except.bind]
    rw [if_neg (by omega),lock]
    rfl
  refine ⟨_,ran,sees.set (entryOf_found found).symm (sees.valid p inode found) (fun q => ?_) ?_⟩
  · rw [(inodeLock_counts ran).rc q,sees.rc q]
    exact Int.add_zero _
  · exact sees.locks.set (fun q other => by simp [other]) (by simp)

theorem inodeUnlock_sees (sees : Sees env start extra [p] fs) (referred : 0 < rcOf fs p) :
    ∃ fs', inodeUnlock p fs = .ok fs' ∧ Sees env start extra [] fs' := by
  obtain ⟨inode,found,positive⟩ := found_of_rc referred
  have ran : inodeUnlock p fs = .ok (fs.setInode p {inode with lock := ⟨1,[]⟩}) := by
    have lock := sees.locks.lock p inode found
    rw [if_pos List.mem_cons_self] at lock
    unfold inodeUnlock
    simp only [Fs.inode_ok.mpr found,bind,Except.bind]
    rw [if_neg (by omega),lock]
    rfl
  refine ⟨_,ran,sees.set (entryOf_found found).symm (sees.valid p inode found) (fun q => ?_) ?_⟩
  · rw [(inodeUnlock_counts ran).rc q,sees.rc q]
    exact Int.add_zero _
  · exact sees.locks.set (fun q other => by simp [other]) (by simp)

theorem inodeShare_sees (sees : Sees env start extra held fs) (referred : 0 < rcOf fs p) :
    ∃ fs', inodeShare p fs = .ok fs' ∧ Sees env start (extra+one p) held fs' := by
  obtain ⟨inode,found,_⟩ := found_of_rc referred
  have ran : inodeShare p fs = .ok (fs.setInode p {inode with rc := inode.rc+1}) := by
    unfold inodeShare
    simp only [Fs.inode_ok.mpr found,bind,Except.bind]
  refine ⟨_,ran,sees.set (entryOf_found found).symm (sees.valid p inode found) (fun q => ?_) ?_⟩
  · rw [(inodeShare_counts ran).rc q,sees.rc q,Int.add_assoc]
    rfl
  · exact sees.locks.set (fun _ _ => Iff.rfl) (sees.locks.lock p inode found)

theorem inodeGet_sees (sees : Sees env start extra held fs) (inTable : InTable env.sblock p) :
    ∃ fs', inodeGet env p fs = .ok (some p,fs') ∧ Sees env start (extra+one p) held fs' := by
  have nonzero : p ≠ 0#64 := by
    rintro rfl
    exact absurd inTable.1 (by decide)
  have small : ¬env.sblock.numInodes.toNat ≤ p.toNat := by
    have := inTable.2
    omega
  have counts : ∀ {fs'}, inodeGet env p fs = .ok (some p,fs') → ∀ q, rcOf fs' q = rcOf start q+(extra+one p) q := by
    intro fs' ran q
    rw [(inodeGet_counts ran).rc q,sees.rc q,Int.add_assoc]
    rfl
  cases found : fs.inodes p with
  | some inode =>
    have ran : inodeGet env p fs = .ok (some p,fs.setInode p {inode with rc := inode.rc+1}) := by
      unfold inodeGet
      rw [if_neg nonzero,if_neg small]
      simp only [found]
    refine ⟨_,ran,sees.set (entryOf_found found).symm (sees.valid p inode found) (counts ran) ?_⟩
    exact sees.locks.set (fun _ _ => Iff.rfl) (sees.locks.lock p inode found)
  | none =>
    have out : p ∉ held := by
      intro listed
      obtain ⟨inode,there⟩ := sees.locks.present p listed
      cases found.symm.trans there
    have ran : inodeGet env p fs = .ok (some p,fs.load env.sblock p) := by
      unfold inodeGet
      rw [if_neg nonzero,if_neg small]
      simp [found,inodeLock,Fs.inode,Fs.setInode,Semaphores.initSem,Semaphores.waitSem,inodeSync,inodeUnlock,
          Semaphores.postSem,bind,Except.bind,Fs.load]
    refine ⟨_,ran,sees.set ?_ rfl (counts ran) ?_⟩
    · simp only [entryOf,found]
    · exact sees.locks.set (fun _ _ => Iff.rfl) (by rw [if_neg out]; rfl)

theorem inodePut_sees (ctx : Ctx) (sees : Sees env start extra held fs) (referred : 0 < rcOf fs p)
    (kept : (entryOf env.sblock start p).numLinks ≠ 0#16 ∨ 1 < rcOf fs p) :
    ∃ fs', inodePut env ctx p fs = .ok fs' ∧ Sees env start (extra-one p) held fs' := by
  obtain ⟨inode,found,positive⟩ := found_of_rc referred
  rw [← sees.entry p,entryOf_found found,rcOf_found found] at kept
  have ran : inodePut env ctx p fs = .ok (fs.setInode p {inode with rc := inode.rc-1}) := by
    unfold inodePut
    simp only [Fs.inode_ok.mpr found,bind,Except.bind]
    refine if_neg ?_
    rintro ⟨last,unlinked⟩
    rcases kept with linked | more
    · exact linked unlinked
    · omega
  refine ⟨_,ran,sees.set (entryOf_found found).symm (sees.valid p inode found) (fun q => ?_) ?_⟩
  · rw [(inodePut_counts ran).rc q,sees.rc q,Int.add_assoc]
    rfl
  · exact sees.locks.set (fun _ _ => Iff.rfl) (sees.locks.lock p inode found)

theorem inodeClear_blank (env : Env) (ctx : Ctx) (found : fs.inodes p = some inode) (valid : inode.valid = true)
    (indirect : inode.entry.indirect = 0#32) (addrs : ∀ i, inode.entry.addrs i = 0#32) :
    ∃ fs', inodeClear env ctx p fs = .ok fs' := by
  have nothing : ∀ count i, i+count ≤ inodeNumDirect → Runs.upTo (clearAddr env ctx p) count i fs = .ok fs := by
    intro count
    induction count with
    | zero =>
      intro i bound
      rfl
    | succ count ih =>
      intro i bound
      have step : clearAddr env ctx p i fs = .ok fs := by
        unfold clearAddr
        simp only [Fs.inode_ok.mpr found,bind,Except.bind]
        rw [dif_pos (by omega),if_pos (addrs _)]
      unfold Runs.upTo
      rw [step]
      exact ih (i+1) (by omega)
  have first : clearIndirect env ctx p fs = .ok fs := by
    unfold clearIndirect
    simp only [Fs.inode_ok.mpr found,bind,Except.bind]
    rw [if_pos indirect]
  unfold inodeClear
  simp only [first,nothing inodeNumDirect 0 (by omega),bind,Except.bind,Fs.inode_ok.mpr found]
  unfold inodeSync
  simp [Fs.inode,Fs.setEntry,Fs.setInode,valid,bind,Except.bind]

theorem inodePut_runs (ctx : Ctx) (sees : Sees env start extra held fs) (counted : 0 ≤ rcOf start p)
    (mine : 1 ≤ extra p) (reachable : Reachable env start p) :
    ∃ fs', inodePut env ctx p fs = .ok fs' := by
  have rc := sees.rc p
  by_cases kept : (entryOf env.sblock start p).numLinks ≠ 0#16 ∨ 1 < rcOf fs p
  · obtain ⟨fs',ran,_⟩ := inodePut_sees ctx sees (by omega) kept
    exact ⟨fs',ran⟩
  · rw [not_or] at kept
    obtain ⟨inode,found,positive⟩ := found_of_rc (show 0 < rcOf fs p by omega)
    rw [rcOf_found found] at kept rc
    obtain ⟨_,indirect,addrs⟩ := (reachable.alive.resolve_left kept.1).resolve_left (by omega)
    rw [← sees.entry p,entryOf_found found] at indirect kept
    simp only [← sees.entry p,entryOf_found found] at addrs
    unfold inodePut
    simp only [Fs.inode_ok.mpr found,bind,Except.bind]
    rw [if_pos ⟨by omega,not_not.mp kept.1⟩]
    have here : ((fs.setInode p {inode with rc := inode.rc-1}).setEntry p {inode with rc := inode.rc-1}
        (inode.entry.setType inodeInvalid)).inodes p =
      some {inode with rc := inode.rc-1,entry := inode.entry.setType inodeInvalid} := Function.update_self ..
    obtain ⟨fs',cleared⟩ := inodeClear_blank env ctx here (sees.valid p inode found) indirect addrs
    rw [cleared]
    exact ⟨_,rfl⟩

theorem inodeLookup_child {cwd : Usize} (tree : Tree env start cwd) (sees : Sees env start extra held fs)
    (found : fs.inodes p = some inode) (inTable : InTable env.sblock p) (directory : isDirectory env start p)
    (name : List Byte) :
    ∃ index, inodeLookup env p name fs = .ok ((child env start p name).getD 0#64,index,fs) := by
  have entry := sees.entry p
  rw [entryOf_found found] at entry
  have readable := tree.readable p inTable directory
  rw [← entry] at readable
  rw [inodeLookup_walks found (by rw [entry]; exact directory) readable,entry,sees.cache]
  simp only [child]
  split <;> exact ⟨_,rfl⟩

theorem resolve_blocked (names : List (List Byte)) (parent : Bool) (file : ¬isDirectory env fs ans) :
    resolve env fs ans (name::names) parent = none := by
  have stuck : enter env fs ans name = none := if_neg file
  cases parent with
  | false => simp [resolve,stuck]
  | true =>
    cases names with
    | nil => simp [resolve,file]
    | cons second names => simp [resolve,stuck]

theorem resolve_step (names : List (List Byte)) {parent : Bool} (directory : isDirectory env fs ans)
    (more : (parent && names.isEmpty) = false) :
    resolve env fs ans (name::names) parent = (child env fs ans name).bind fun next => resolve env fs next names parent := by
  have step : enter env fs ans name = child env fs ans name := if_pos directory
  cases parent with
  | false =>
    simp only [resolve,List.foldlM_cons,step]
    cases child env fs ans name <;> rfl
  | true =>
    cases names with
    | nil => cases more
    | cons second names =>
      simp only [resolve,List.getLast?_cons_cons,List.dropLast_cons_cons,List.foldlM_cons,step]
      cases child env fs ans name with
      | none => simp
      | some next => rfl

theorem namexLoop_resolves {cwd : Usize} (ctx : Ctx) (tree : Tree env start cwd) (names : List (List Byte))
    (parent : Bool) (reachable : Reachable env start ans) (sees : Sees env start (one ans) [] fs) :
    ∃ fs', namexLoop env ctx parent names ans fs = .ok (resolve env start ans names parent,fs') := by
  induction names generalizing ans fs with
  | nil =>
    unfold namexLoop
    cases parent with
    | false => exact ⟨fs,rfl⟩
    | true =>
      obtain ⟨fs',put⟩ := inodePut_runs ctx sees (tree.counted ans) (by rw [one_self]) reachable
      simp only [put,if_true,bind,Except.bind]
      exact ⟨fs',rfl⟩
  | cons name rest ih =>
    have counted := tree.counted ans
    have mine : one ans ans = 1 := one_self ..
    have referred : ∀ {extra held fs}, Sees env start extra held fs → 1 ≤ extra ans → 0 < rcOf fs ans := by
      intro extra held fs sees more
      rw [sees.rc ans]
      omega
    obtain ⟨fs₁,locked,sees₁⟩ := inodeLock_sees sees (referred sees (by omega))
    obtain ⟨inode,found,_⟩ := found_of_rc (referred sees₁ (by omega))
    have entry : inode.entry = entryOf env.sblock start ans := (entryOf_found found).symm.trans (sees₁.entry ans)
    unfold namexLoop
    simp only [locked,bind,Except.bind,Fs.inode_ok.mpr found,entry]
    by_cases directory : isDirectory env start ans
    · have plain : ¬(entryOf env.sblock start ans).type ≠ inodeDirectory := not_not.mpr directory
      rw [if_neg plain]
      by_cases last : (parent && rest.isEmpty) = true
      · rw [if_pos last]
        obtain ⟨fs₂,unlocked,_⟩ := inodeUnlock_sees sees₁ (referred sees₁ (by omega))
        obtain ⟨rfl,none⟩ := Bool.and_eq_true_iff.mp last
        rw [List.isEmpty_iff] at none
        subst none
        refine ⟨fs₂,?_⟩
        rw [unlocked]
        simp [resolve,directory]
      · rw [if_neg last,resolve_step rest directory (by simpa using last)]
        have kept : ∀ {extra held fs}, Sees env start extra held fs → 1 ≤ extra ans →
            (entryOf env.sblock start ans).numLinks ≠ 0#16 ∨ 1 < rcOf fs ans := by
          intro extra held fs sees more
          rcases reachable.alive with linked | counted | gone
          · exact .inl linked
          · rw [sees.rc ans]
            exact .inr (by omega)
          · exact absurd directory gone.1
        obtain ⟨index,looked⟩ := inodeLookup_child tree sees₁ found reachable.inTable directory name
        simp only [looked]
        cases next : child env start ans name with
        | none =>
          have null : inodeGet env 0#64 fs₁ = .ok (none,fs₁) := if_pos rfl
          obtain ⟨fs₂,unlocked,sees₂⟩ := inodeUnlock_sees sees₁ (referred sees₁ (by omega))
          obtain ⟨fs₃,put,_⟩ := inodePut_sees ctx sees₂ (referred sees₂ (by omega)) (kept sees₂ (by omega))
          simp only [Option.getD_none,null,unlocked,put]
          exact ⟨fs₃,rfl⟩
        | some q =>
          have further := tree.entries ans name q reachable.inTable directory next
          have both : 1 ≤ (one ans+one q) ans := by
            have := one_nonneg q ans
            rw [Pi.add_apply]
            omega
          obtain ⟨fs₂,got,sees₂⟩ := inodeGet_sees sees₁ further.inTable
          obtain ⟨fs₃,unlocked,sees₃⟩ := inodeUnlock_sees sees₂ (referred sees₂ both)
          obtain ⟨fs₄,put,sees₄⟩ := inodePut_sees ctx sees₃ (referred sees₃ both) (kept sees₃ both)
          rw [add_sub_cancel_left] at sees₄
          simp only [Option.getD_some,got,unlocked,put]
          exact ih further sees₄
    · have other : (entryOf env.sblock start ans).type ≠ inodeDirectory := directory
      rw [if_pos other,resolve_blocked rest parent directory]
      obtain ⟨fs₂,unlocked,sees₂⟩ := inodeUnlock_sees sees₁ (referred sees₁ (by omega))
      obtain ⟨fs₃,put⟩ := inodePut_runs ctx sees₂ counted (by omega) reachable
      rw [unlocked]
      simp only [put]
      exact ⟨fs₃,rfl⟩

theorem namexStart_sees {cwd : Usize} (tree : Tree env fs cwd) (path : List Byte) :
    Reachable env fs (startOf cwd path) ∧
    ∃ fs', namexStart env cwd path fs = .ok (startOf cwd path,fs') ∧ Sees env fs (one (startOf cwd path)) [] fs' := by
  unfold namexStart startOf
  by_cases rooted : charAt path 0 = slash
  · rw [if_pos rooted,if_pos rooted]
    obtain ⟨fs',got,sees⟩ := inodeGet_sees tree.sees tree.root.inTable
    rw [zero_add] at sees
    refine ⟨tree.root,fs',?_,sees⟩
    rw [got]
    rfl
  · rw [if_neg rooted,if_neg rooted]
    obtain ⟨fs',shared,sees⟩ := inodeShare_sees tree.sees tree.cwd.2
    rw [zero_add] at sees
    refine ⟨⟨tree.cwd.1,.inr (.inl tree.cwd.2)⟩,fs',?_,sees⟩
    rw [shared]
    rfl

-- The walk over the whole path, the references it leaves and the locks.
theorem namex_resolves {cwd : Usize} (ctx : Ctx) (tree : Tree env fs cwd) (path : List Byte) (parent : Bool) :
    ∃ fs', namex env ctx cwd path parent fs = .ok (resolve env fs (startOf cwd path) (components path) parent,fs') ∧
      (∀ q, rcOf fs' q = rcOf fs q+taken
          ((resolve env fs (startOf cwd path) (components path) parent).map Prod.fst) q) ∧ Unlocked fs' := by
  obtain ⟨reachable,middle,begun,sees⟩ := namexStart_sees tree path
  obtain ⟨fs',walked⟩ := namexLoop_resolves ctx tree (components path) parent reachable sees
  have ran : namex env ctx cwd path parent fs = .ok (resolve env fs (startOf cwd path) (components path) parent,fs') := by
    unfold namex
    rw [begun,elements_components]
    exact walked
  refine ⟨fs',ran,(namex_counts ran).rc,?_⟩
  exact locks_nil.mp ((Avoids.iff.mp (namex_locks (locks_nil.mpr tree.unlocked))).2 _ ran)

end walking

-- A root directory in memory, with its entries "." and "..".
def dotsEntry : InodeEntry := ⟨inodeDirectory,0#16,0#16,1#16,32#32,fun i => if i.val = 0 then 900#32 else 0#32,0#32⟩
def dotsDisk : Fs :=
  ⟨⟨fun b => if b = 900#64 then 0x2e2e0001000000000000000000000000002e0001#4096 else 0#4096,[]⟩,
    fun p => if p = rootInodeNo then some ⟨⟨1,[]⟩,1,rootInodeNo,true,dotsEntry⟩ else none⟩

theorem dots_inodes (found : dotsDisk.inodes p = some inode) :
    p = rootInodeNo ∧ inode = ⟨⟨1,[]⟩,1,rootInodeNo,true,dotsEntry⟩ := by
  by_cases root : p = rootInodeNo
  · subst root
    cases found
    exact ⟨rfl,rfl⟩
  · cases (show dotsDisk.inodes p = none from if_neg root).symm.trans found

theorem dots_tree : Tree blankEnv dotsDisk rootInodeNo := by
  have loaded : dotsDisk.inodes rootInodeNo = some ⟨⟨1,[]⟩,1,rootInodeNo,true,dotsEntry⟩ := rfl
  have root : Reachable blankEnv dotsDisk rootInodeNo := ⟨⟨by decide,by decide⟩,.inr (.inl (by rw [rcOf_found loaded]; decide))⟩
  have directory : ∀ no, InTable blankEnv.sblock no → isDirectory blankEnv dotsDisk no → no = rootInodeNo := by
    intro no inTable directory
    by_contra other
    have missing : dotsDisk.inodes no = none := if_neg other
    have apart := blank_layout.apart (b := 900#64) inTable ⟨by decide,by decide⟩
    have blank : dotsDisk.cache.blocks (toBlockNo blankEnv.sblock no) = 0#4096 := if_neg apart.1.symm
    rw [isDirectory,entryOf,missing] at directory
    simp only [diskEntry,blank,getEntry,InodeEntry.ofImage,BitSlice.get_zero] at directory
    exact absurd directory (by decide)
  refine ⟨?_,?_,?_,root,⟨root.inTable,by rw [rcOf_found loaded]; decide⟩,?_,?_⟩
  · intro p inode found
    rw [(dots_inodes found).2]
  · intro p inode found
    rw [(dots_inodes found).2]
  · intro p
    unfold rcOf
    split
    · rename_i inode found
      rw [(dots_inodes found).2]
      decide
    · exact Int.le_refl 0
  · intro no inTable isDir
    rw [directory no inTable isDir,entryOf_found loaded]
    exact ⟨by decide,.inl (by decide)⟩
  · intro no name q inTable isDir
    rw [directory no inTable isDir]
    have slots : ∀ j, j < 2 → (slot dotsDisk.cache dotsEntry j).inodeNo = 1#16 := by decide +kernel
    have count : dotsEntry.numBytes.toNat/dirEntrySize = 2 := rfl
    unfold child walkAll
    rw [entryOf_found loaded]
    rcases walk_slots (v := dotsDisk.cache) (e := dotsEntry)
        (named name) rfl dotsEntry.numBytes.toNat 0 blankEnv.stack (by decide) (by decide)
      with ⟨j,_,inside,_,walked⟩ | ⟨_,last,walked⟩
    · rw [Nat.mul_zero] at walked
      rw [walked]
      intro found
      have number : (slot dotsDisk.cache dotsEntry j).inodeNo.setWidth 64 = q := Option.some.inj found
      rw [slots j (by omega)] at number
      rw [← number]
      exact root
    · rw [Nat.mul_zero] at walked
      rw [walked]
      intro found
      cases found

-- "/./.." is the root again.
theorem namex_resolves_dots :
    ∃ fs', namex blankEnv (some 1) rootInodeNo [47#8,46#8,47#8,46#8,46#8] false dotsDisk = .ok (some (rootInodeNo,[]),fs') ∧
    rcOf fs' rootInodeNo = 2 ∧ Unlocked fs' := by
  obtain ⟨fs',ran,counts,free⟩ := namex_resolves (some 1) dots_tree [47#8,46#8,47#8,46#8,46#8] false
  have found : resolve blankEnv dotsDisk (startOf rootInodeNo [47#8,46#8,47#8,46#8,46#8])
      (components [47#8,46#8,47#8,46#8,46#8]) false =
    some (rootInodeNo,[]) := by decide +kernel
  rw [found] at ran counts
  exact ⟨fs',ran,counts rootInodeNo,free⟩

end SysFile
