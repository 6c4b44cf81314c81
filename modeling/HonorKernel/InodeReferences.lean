import HonorKernel.FileReferences
import HonorKernel.InodeCounts

-- The reference count of an inode: its open files and the processes that work in it. A
-- process that exits takes no part of that back.
namespace FileTable
open DiskFormat CacheView InodeLayer SysFile
open PageTable (Section U64 splitAt initSections)

variable {n : Nat}

def pointsTo (p : Usize) (file : File) : Nat := if file.type = .inode ∧ 0 < file.ref ∧ file.ip = p then 1 else 0

def worksIn (p : Usize) : Option Process → Nat
  | none => 0
  | some q => if q.cwd = p then 1 else 0

namespace Kernel

def filesOn (k : Kernel n) (p : Usize) : Nat := ∑ f ∈ Finset.range nFile, pointsTo p (k.files f)
def dirsOn (k : Kernel n) (p : Usize) : Nat := Runs.total (worksIn p) k.procs

end Kernel

-- `extra` are references that a call has in hand.
structure Tallied (gone : List Usize) (k : Kernel n) (extra : Usize → Int) : Prop where
  counts : ∀ p, rcOf k.fs p = k.filesOn p+k.dirsOn p+gone.count p+extra p
  exited : k.exited = gone
  freed : ∀ p inode, k.fs.inodes p = some inode → inode.rc ≤ 0 → inode.entry.numLinks ≠ 0#16
  typed : ∀ f, (k.files f).type ≠ .none → 0 < (k.files f).ref

section Moves
variable {env : Env} {k k' : Kernel n} {pid : Fin n} {p : Process} {f : Nat} {extra extra' change : Usize → Int}
  {fs₁ : Fs} {gone : List Usize}

theorem sum_update {S : Finset Nat} (member : f ∈ S) (files : Nat → File) (file : File) (p : Usize) :
    ∑ g ∈ S, pointsTo p (Function.update files f file g)+pointsTo p (files f) = ∑ g ∈ S, pointsTo p (files g)+pointsTo p file := by
  have others : ∑ g ∈ S.erase f, pointsTo p (Function.update files f file g) = ∑ g ∈ S.erase f, pointsTo p (files g) := by
    refine Finset.sum_congr rfl fun g member => ?_
    rw [Function.update_of_ne (Finset.ne_of_mem_erase member)]
  rw [← Finset.add_sum_erase _ _ member,← Finset.add_sum_erase S (fun g => pointsTo p (files g)) member,others,Function.update_self]
  omega

theorem filesOn_setFile (inside : f < nFile) (k : Kernel n) (file : File) (p : Usize) :
    (k.setFile f file).filesOn p+pointsTo p (k.files f) = k.filesOn p+pointsTo p file :=
  sum_update (Finset.mem_range.mpr inside) k.files file p

theorem Tallied.files (tallied : Tallied gone k extra) {file : File} (inside : f < nFile)
    (typed : file.type ≠ .none → 0 < file.ref)
    (moved : ∀ p, (pointsTo p (k.files f) : Int)+extra p = pointsTo p file+extra' p) :
    Tallied gone (k.setFile f file) extra' := by
  refine ⟨?_,tallied.exited,tallied.freed,?_⟩
  · intro p
    have update := filesOn_setFile inside k file p
    have counts := tallied.counts p
    have moved := moved p
    change rcOf k.fs p = (k.setFile f file).filesOn p+k.dirsOn p+gone.count p+extra' p
    omega
  · intro g set
    change 0 < (Function.update k.files f file g).ref
    change (Function.update k.files f file g).type ≠ .none at set
    by_cases same : g = f
    · subst same
      rw [Function.update_self] at set ⊢
      exact typed set
    · rw [Function.update_of_ne same] at set ⊢
      exact tallied.typed g set

theorem Tallied.procs (tallied : Tallied gone k extra) (here : k.procs pid = p₀) {p₁ : Option Process}
    (moved : ∀ q, (worksIn q p₀ : Int)+extra q = worksIn q p₁+extra' q) : Tallied gone (k.setProc pid p₁) extra' := by
  refine ⟨?_,tallied.exited,tallied.freed,tallied.typed⟩
  intro q
  have update : (k.setProc pid p₁).dirsOn q+worksIn q (k.procs pid) = k.dirsOn q+worksIn q p₁ := Runs.total_update
      (worksIn q) k.procs pid p₁
  have counts := tallied.counts q
  have moved := moved q
  rw [here] at update
  change rcOf k.fs q = k.filesOn q+(k.setProc pid p₁).dirsOn q+gone.count q+extra' q
  omega

theorem worksIn_none (q : Usize) : worksIn q none = 0 := rfl

theorem worksIn_some (p : Process) (q : Usize) : (worksIn q (some p) : Int) = one p.cwd q := by
  simp only [worksIn,one]
  by_cases same : p.cwd = q
  · rw [if_pos same,if_pos same.symm]
    rfl
  · rw [if_neg same,if_neg (Ne.symm same)]
    rfl

theorem Tallied.same_cwd (tallied : Tallied gone k extra) (here : k.procs pid = some p) {q : Process}
    (cwd : q.cwd = p.cwd) :
    Tallied gone (k.setProc pid (some q)) extra := by
  refine tallied.procs here ?_
  intro x
  simp only [worksIn,cwd]

theorem Tallied.fs (tallied : Tallied gone k extra) (counts : Counts change k.fs fs₁) (op : Nat) :
    Tallied gone { k with fs := fs₁, op := op } (extra+change) := by
  refine ⟨?_,tallied.exited,?_,tallied.typed⟩
  swap
  · intro p inode there unused
    rcases counts.freed p inode there unused with linked | ⟨inode₀,there₀,unused₀,same⟩
    · exact linked
    · rw [← same]
      exact tallied.freed p inode₀ there₀ unused₀
  intro q
  have before := tallied.counts q
  have after := counts.rc q
  change rcOf fs₁ q = k.filesOn q+k.dirsOn q+gone.count q+(extra q+change q)
  omega

theorem Tallied.congr (tallied : Tallied gone k extra) (same : ∀ q, extra q = extra' q) : Tallied gone k extra' :=
  ⟨fun q => by rw [tallied.counts q,same q],tallied.exited,tallied.freed,tallied.typed⟩

theorem Tallied.counted (tallied : Tallied gone k 0) (q : Usize) : 0 ≤ rcOf k.fs q := by
  rw [tallied.counts q,Pi.zero_apply]
  omega

theorem Tallied.fs_same (tallied : Tallied gone k extra) (counts : Counts 0 k.fs fs₁) (op : Nat) : Tallied gone { k with fs := fs₁, op := op } extra :=
  (tallied.fs counts op).congr fun _ => Int.add_zero _

theorem Tallied.record (tallied : Tallied gone k extra) (c : Closing) : Tallied gone (k.record c) extra :=
  ⟨tallied.counts,tallied.exited,tallied.freed,tallied.typed⟩

theorem fileDup_tallied (tallied : Tallied gone k extra) (ran : fileDup f k = .ok k') :
    Tallied gone k' extra ∧ k'.procs = k.procs ∧ k'.fs = k.fs := by
  unfold fileDup at ran
  split at ran
  · cases ran
  · rename_i inside
    cases ran
    refine ⟨tallied.files (by omega) ?_ ?_,rfl,rfl⟩
    · intro set
      have positive := tallied.typed f set
      simp only
      omega
    · intro q
      unfold pointsTo
      by_cases inode : (k.files f).type = .inode
      · have positive := tallied.typed f (by rw [inode]; decide)
        have more : 0 < (k.files f).ref+1 := by omega
        simp only [positive,more]
      · simp only [inode,false_and]

theorem fileClose_tallied {holders : Nat} (tallied : Tallied gone k extra) (ran : fileClose env holders f k = .ok k') :
    Tallied gone k' extra ∧ k'.procs = k.procs := by
  unfold fileClose at ran
  split at ran
  · cases ran
  · rename_i inside
    have inside : f < nFile := by omega
    simp only at ran
    split at ran
    · cases ran
      exact ⟨tallied.record _,rfl⟩
    · rename_i typed
      have positive := tallied.typed f typed
      split at ran
      · rename_i more
        cases ran
        refine ⟨Tallied.record (tallied.files inside (fun _ => more) ?_) _,rfl⟩
        intro q
        unfold pointsTo
        simp only [positive,more]
      · split at ran
        · rename_i isPipe
          cases ran
          refine ⟨Tallied.record (tallied.files inside (fun set => absurd rfl set) ?_) _,rfl⟩
          intro q
          simp [pointsTo,isPipe]
        · rename_i notPipe
          have isInode : (k.files f).type = .inode := by
            cases is : (k.files f).type with
            | none => exact absurd is typed
            | pipe => exact absurd is notPipe
            | inode => rfl
          obtain ⟨fs,put,ran⟩ := Runs.bind_ok.mp ran
          cases ran
          have closed : Tallied gone (k.setFile f { k.files f with ref := 0, type := .none }) (extra+one (k.files f).ip) := by
            refine tallied.files inside (fun set => absurd rfl set) ?_
            intro q
            by_cases same : (k.files f).ip = q
            · subst same
              simp [pointsTo,isInode,positive,one_self]
              omega
            · simp [pointsTo,same,one_other (fun equal : q = (k.files f).ip => same equal.symm)]
          refine ⟨Tallied.record ((closed.fs (inodePut_counts put) _).congr ?_) _,rfl⟩
          intro q
          simp only [Pi.add_apply,Pi.neg_apply]
          omega

theorem fileAlloc_inside (found : fileAlloc k = some (f,k')) : f < nFile := by
  have bound : ∀ (count i : Nat) (f : Nat), fileAllocLoop k.files count i = some f → f < i+count := by
    intro count
    induction count with
    | zero => exact fun i f none => absurd none (by simp [fileAllocLoop])
    | succ count ih =>
      intro i f found
      simp only [fileAllocLoop] at found
      split at found
      · cases found
        omega
      · have later := ih (i+1) f found
        omega
  obtain ⟨g,free,same⟩ := Option.map_eq_some_iff.mp found
  cases same
  have inside := bound nFile 0 _ free
  omega

theorem fileAlloc_tallied (tallied : Tallied gone k extra) (found : fileAlloc k = some (f,k')) :
    Tallied gone k' extra ∧ (k'.files f).type = .none ∧
    k'.procs = k.procs ∧ k'.fs = k.fs := by
  obtain ⟨free,rfl⟩ := fileAlloc_free found
  have none : (k.files f).type = .none := by
    by_contra set
    have positive := tallied.typed f set
    omega
  refine ⟨tallied.files (fileAlloc_inside found) (fun set => absurd none set) ?_,?_,rfl,rfl⟩
  · intro q
    simp [pointsTo,none]
  · change (Function.update k.files f _ f).type = .none
    rw [Function.update_self]
    exact none

end Moves

section Calls
variable {env : Env} {k k' : Kernel n} {pid : Fin n} {p : Process} {done : Bool} {gone : List Usize}

theorem sysOpenat_tallied {path : List Byte} {creat wronly rdwr : Bool} (tallied : Tallied gone k 0)
    (ran : sysOpenat env pid path creat wronly rdwr k = .ok (done,k')) : Tallied gone k' 0 := by
  obtain ⟨p,here,ran⟩ := Runs.bind_ok.mp ran
  obtain ⟨⟨ip,fs⟩,found,ran⟩ := Runs.bind_ok.mp ran
  have here := Kernel.proc_ok here
  have got : Counts (taken ip) k.fs fs := by
    split at found
    · exact create_counts tallied.counted found
    · exact findLocked_counts found
  cases ip with
  | none =>
    cases ran
    exact tallied.fs_same got _
  | some ip =>
    have put : ∀ fs', unlockPut env (some k.op) ip fs = .ok fs' → Counts 0 k.fs fs' := by
      intro fs' back
      refine (got.trans (unlockPut_counts back)).congr fun q => ?_
      simp [taken]
    simp only at ran
    split at ran
    · obtain ⟨fs',back,ran⟩ := Runs.bind_ok.mp ran
      cases ran
      exact tallied.fs_same (put fs' back) _
    · rename_i f k₁ allocated
      obtain ⟨tallied₁,none,procs,same⟩ := fileAlloc_tallied tallied allocated
      have inside := fileAlloc_inside allocated
      obtain ⟨_,isK⟩ := fileAlloc_free allocated
      split at ran
      · obtain ⟨k₂,closed,ran⟩ := Runs.bind_ok.mp ran
        obtain ⟨fs',back,ran⟩ := Runs.bind_ok.mp ran
        cases ran
        rw [← same] at got
        obtain ⟨tallied₂,_⟩ := fileClose_tallied (tallied₁.fs got k₁.op) closed
        refine (tallied₂.fs (unlockPut_counts back) _).congr fun q => ?_
        simp [taken]
      · obtain ⟨fs',unlocked,ran⟩ := Runs.bind_ok.mp ran
        cases ran
        rw [← same] at got
        have one : (k₁.files f).ref = 1 := by
          rw [isK]
          change (Function.update k.files f _ f).ref = 1
          rw [Function.update_self]
        have opened : Tallied gone (k₁.setFile f { k₁.files f with type := .inode, ip := ip, readable := !wronly, writable := wronly || rdwr }) (-SysFile.one ip) := by
          refine tallied₁.files inside (fun _ => by simp only; omega) ?_
          intro q
          by_cases mine : ip = q
          · subst mine
            simp [pointsTo,none,one,one_self]
          · simp [pointsTo,none,mine,one_other (fun equal : q = ip => mine equal.symm)]
        have counted : Counts (SysFile.one ip) k₁.fs fs' := got.keep (inodeUnlock_counts unlocked)
        have both := (opened.fs counted (k₁.op+1)).congr fun q => show (-SysFile.one ip+SysFile.one ip) q = (0 : Usize → Int) q by simp
        exact both.same_cwd (p := p) (by rw [← here,← procs]; rfl) rfl

theorem sysDup_tallied {fd : Int} (tallied : Tallied gone k 0) (ran : sysDup pid fd k = .ok (done,k')) :
    Tallied gone k' 0 := by
  obtain ⟨p,here,ran⟩ := Runs.bind_ok.mp ran
  split at ran
  · rename_i f new _ _
    obtain ⟨k₁,dupped,ran⟩ := Runs.bind_ok.mp ran
    cases ran
    have moved : Tallied gone (k.setProc pid (some (p.setSlot new (some f)))) 0 := tallied.same_cwd (Kernel.proc_ok here) rfl
    exact (fileDup_tallied moved dupped).1
  · cases ran
    exact tallied

theorem sysClose_tallied {fd : Int} (tallied : Tallied gone k 0) (ran : sysClose env pid fd k = .ok (done,k')) :
    Tallied gone k' 0 := by
  obtain ⟨p,here,ran⟩ := Runs.bind_ok.mp ran
  split at ran
  · cases ran
    exact tallied
  · rename_i i _
    split at ran
    · cases ran
    · obtain ⟨k₁,closed,ran⟩ := Runs.bind_ok.mp ran
      cases ran
      have moved : Tallied gone (k.setProc pid (some (p.setSlot i none))) 0 := tallied.same_cwd (Kernel.proc_ok here) rfl
      exact (fileClose_tallied moved closed).1

theorem pipeAlloc_tallied {pipe : Nat} (tallied : Tallied gone k 0) (ran : pipeAlloc env pipe k = .ok (ends,k')) :
    Tallied gone k' 0 := by
  unfold pipeAlloc at ran
  split at ran
  · cases ran
    exact tallied
  · rename_i f0 k₁ first
    obtain ⟨tallied₁,none0,_,_⟩ := fileAlloc_tallied tallied first
    have inside0 := fileAlloc_inside first
    split at ran
    · obtain ⟨k₂,closed,ran⟩ := Runs.bind_ok.mp ran
      cases ran
      exact (fileClose_tallied tallied₁ closed).1
    · rename_i f1 k₂ second
      obtain ⟨tallied₂,none1,_,_⟩ := fileAlloc_tallied tallied₁ second
      have inside1 := fileAlloc_inside second
      obtain ⟨free0,is0⟩ := fileAlloc_free first
      obtain ⟨free1,is1⟩ := fileAlloc_free second
      cases ran
      have one0 : (k₁.files f0).ref = 1 := by
        rw [is0]
        change (Function.update k.files f0 _ f0).ref = 1
        rw [Function.update_self]
      have other : f0 ≠ f1 := by
        rintro rfl
        omega
      have one1 : (k₂.files f1).ref = 1 := by
        rw [is1]
        change (Function.update k₁.files f1 _ f1).ref = 1
        rw [Function.update_self]
      have kept : k₂.files f0 = k₁.files f0 := by
        rw [is1]
        exact Function.update_of_ne other ..
      have opened : Tallied gone (k₂.setFile f0 { k₂.files f0 with type := .pipe, readable := true, writable := false, pipe := pipe }) 0 := by
        refine tallied₂.files inside0 (fun _ => by simp only [kept]; omega) ?_
        intro q
        have none0 : (k₂.files f0).type = .none := kept ▸ none0
        simp [pointsTo,none0]
      have same : (k₂.setFile f0 { k₂.files f0 with type := .pipe, readable := true, writable := false, pipe := pipe }).files f1 = k₂.files f1 :=
        Function.update_of_ne (Ne.symm other) ..
      refine opened.files inside1 (fun _ => by simp only [same]; omega) ?_
      intro q
      simp [pointsTo,same,none1]

theorem sysPipe2_tallied {pipe : Nat} (tallied : Tallied gone k 0) (ran : sysPipe2 env pid pipe k = .ok (done,k')) :
    Tallied gone k' 0 := by
  obtain ⟨⟨ends,k₁⟩,made,ran⟩ := Runs.bind_ok.mp ran
  have tallied₁ := pipeAlloc_tallied tallied made
  cases ends with
  | none =>
    cases ran
    exact tallied₁
  | some pair =>
    obtain ⟨f0,f1⟩ := pair
    obtain ⟨p,here,ran⟩ := Runs.bind_ok.mp ran
    have here := Kernel.proc_ok here
    split at ran
    · cases ran
      exact tallied₁
    · rename_i fd0 _
      simp only at ran
      split at ran
      · obtain ⟨⟨_,k₂⟩,closed,ran⟩ := Runs.bind_ok.mp ran
        cases ran
        have moved : Tallied gone (k₁.setProc pid (some (p.setSlot fd0 (some f0)))) 0 := tallied₁.same_cwd here rfl
        exact sysClose_tallied moved closed
      · cases ran
        exact tallied₁.same_cwd here rfl

theorem sysChdir_tallied {path : List Byte} (tallied : Tallied gone k 0)
    (ran : sysChdir env pid path k = .ok (done,k')) : Tallied gone k' 0 := by
  obtain ⟨p,here,ran⟩ := Runs.bind_ok.mp ran
  obtain ⟨⟨ip,fs⟩,moved,ran⟩ := Runs.bind_ok.mp ran
  have counts := changeDir_counts moved
  cases ip with
  | none =>
    cases ran
    exact tallied.fs_same counts _
  | some ip =>
    cases ran
    have both := tallied.fs counts (k.op+1)
    refine both.procs (Kernel.proc_ok here) ?_
    intro q
    simp only [worksIn_some,Pi.add_apply,Pi.sub_apply,Pi.zero_apply]
    omega

theorem fileRead_counts {file : File} {off count : Usize} {fs fs' : Fs}
    (ran : fileRead env file off count fs = .ok fs') : Counts 0 fs fs' := by
  unfold fileRead at ran
  split at ran
  · cases ran
    exact .refl _
  · split at ran
    · obtain ⟨a,locked,ran⟩ := Runs.bind_ok.mp ran
      obtain ⟨⟨r,bytes,b⟩,read,ran⟩ := Runs.bind_ok.mp ran
      exact ((inodeLock_counts locked).keep (inodeRead_counts read)).keep (inodeUnlock_counts ran)
    · cases ran

theorem sysMmap_tallied {fd : Int} {length prot offset : U64} {flags : BitVec 32} (tallied : Tallied gone k 0)
    (ran : sysMmap env pid fd length flags prot offset k = .ok (done,k')) : Tallied gone k' 0 := by
  obtain ⟨p,here,ran⟩ := Runs.bind_ok.mp ran
  have here := Kernel.proc_ok here
  split at ran
  · cases ran
    exact tallied
  · rename_i f _
    split at ran
    · cases ran
      exact tallied
    · simp only [PageTable.getFreeVm] at ran
      by_cases refused : PageTable.freeEnd p.sections = PageTable.freeEnd p.sections-length ∨
          PageTable.pageOffset (PageTable.freeEnd p.sections-length) ≠ 0
      · simp only [refused,if_true] at ran
        cases ran
        exact tallied
      · simp only [refused,if_false] at ran
        obtain ⟨k₁,dupped,ran⟩ := Runs.bind_ok.mp ran
        obtain ⟨fs,read,ran⟩ := Runs.bind_ok.mp ran
        cases ran
        obtain ⟨tallied₁,procs,_⟩ := fileDup_tallied tallied dupped
        have after := tallied₁.fs_same (fileRead_counts read) k₁.op
        have here₁ : k₁.procs pid = some p := procs ▸ here
        exact after.same_cwd here₁ rfl

theorem writeBack_tallied {file : File} (writes : List (Usize × List Byte)) (tallied : Tallied gone k 0)
    (ran : writeBack env file writes k = .ok k') :
    Tallied gone k' 0 ∧ k'.procs = k.procs := by
  induction writes generalizing k with
  | nil =>
    cases ran
    exact ⟨tallied,rfl⟩
  | cons w rest ih =>
    obtain ⟨off,bytes⟩ := w
    simp only [writeBack] at ran
    split at ran
    · cases ran
    · split at ran
      · exact ih tallied ran
      · obtain ⟨⟨_,fs⟩,written,ran⟩ := Runs.bind_ok.mp ran
        obtain ⟨result,procs⟩ := ih (tallied.fs_same (fileWriteLoop_counts _ written) _) ran
        exact ⟨result,procs⟩

theorem sysMunmap_tallied {va length : U64} {writes : List (Usize × List Byte)} (tallied : Tallied gone k 0)
    (ran : sysMunmap env pid va length writes k = .ok (done,k')) : Tallied gone k' 0 := by
  obtain ⟨p,here,ran⟩ := Runs.bind_ok.mp ran
  have here := Kernel.proc_ok here
  split at ran
  · cases ran
    exact tallied
  · rename_i before st after _
    split at ran
    · cases ran
    · split at ran
      · cases ran
      · obtain ⟨k₁,written,ran⟩ := Runs.bind_ok.mp ran
        obtain ⟨tallied₁,procs⟩ := writeBack_tallied writes tallied written
        have here₁ : k₁.procs pid = some p := procs ▸ here
        split at ran
        · obtain ⟨k₂,closed,ran⟩ := Runs.bind_ok.mp ran
          cases ran
          have moved : Tallied gone (k₁.setProc pid (some (p.setSections (before++after)))) 0 := tallied₁.same_cwd here₁ rfl
          exact (fileClose_tallied moved closed).1
        · cases ran
          exact tallied₁.same_cwd here₁ rfl

theorem dupAll_tallied {extra : Usize → Int} (list : List (Option Nat)) (tallied : Tallied gone k extra)
    (ran : dupAll list k = .ok k') :
    Tallied gone k' extra ∧ k'.procs = k.procs := by
  induction list generalizing k with
  | nil =>
    cases ran
    exact ⟨tallied,rfl⟩
  | cons slot rest ih =>
    cases slot with
    | none => exact ih tallied ran
    | some f =>
      obtain ⟨k₁,dupped,ran⟩ := Runs.bind_ok.mp ran
      obtain ⟨tallied₁,procs₁,_⟩ := fileDup_tallied tallied dupped
      obtain ⟨result,procs⟩ := ih tallied₁ ran
      exact ⟨result,procs.trans procs₁⟩

theorem sysFork_tallied {child : Fin n} {fp : Option Nat} (tallied : Tallied gone k 0)
    (ran : sysFork pid child fp k = .ok (done,k')) : Tallied gone k' 0 := by
  obtain ⟨p,here,ran⟩ := Runs.bind_ok.mp ran
  split at ran
  · cases ran
  · rename_i unused
    obtain ⟨fs,shared,ran⟩ := Runs.bind_ok.mp ran
    obtain ⟨k₁,slots,ran⟩ := Runs.bind_ok.mp ran
    obtain ⟨k₂,sections,ran⟩ := Runs.bind_ok.mp ran
    cases ran
    obtain ⟨tallied₁,procs₁⟩ := dupAll_tallied _ (tallied.fs (inodeShare_counts shared) k.op) slots
    obtain ⟨tallied₂,procs₂⟩ := dupAll_tallied _ tallied₁ sections
    have nobody : k₂.procs child = none := by
      rw [procs₂,procs₁]
      simpa using unused
    refine tallied₂.procs nobody ?_
    intro q
    simp only [worksIn_some,worksIn_none,Pi.add_apply,Pi.zero_apply]
    omega

theorem closeSections_tallied (sections : List Section) (tallied : Tallied gone k 0)
    (here : k.procs pid = some (p.setSections sections)) (ran : closeSections env pid p sections k = .ok k') :
    Tallied gone k' 0 ∧ k'.procs pid = some (p.setSections []) := by
  induction sections generalizing k with
  | nil =>
    cases ran
    exact ⟨tallied,here⟩
  | cons st rest ih =>
    obtain ⟨k₁,closed,ran⟩ := Runs.bind_ok.mp ran
    refine ih ?_ (Function.update_self ..) ran
    split at closed
    · cases closed
      exact tallied.same_cwd (p := p.setSections (st::rest)) here rfl
    · obtain ⟨less,procs⟩ := fileClose_tallied tallied closed
      exact less.same_cwd (p := p.setSections (st::rest)) (procs ▸ here) rfl

theorem sysExecve_tallied {path : List Byte} {fp : Option Nat} {image : List Section} (tallied : Tallied gone k 0)
    (ran : sysExecve env pid path fp image k = .ok (done,k')) : Tallied gone k' 0 := by
  obtain ⟨p,here,ran⟩ := Runs.bind_ok.mp ran
  obtain ⟨⟨ip,fs⟩,found,ran⟩ := Runs.bind_ok.mp ran
  cases ip with
  | none => cases ran
  | some ip =>
    obtain ⟨fs₁,back,ran⟩ := Runs.bind_ok.mp ran
    obtain ⟨k₁,closed,ran⟩ := Runs.bind_ok.mp ran
    cases ran
    have counts : Counts 0 k.fs fs₁ := by
      refine ((findLocked_counts found).trans (unlockPut_counts back)).congr fun q => ?_
      simp [taken]
    obtain ⟨tallied₁,empty⟩ := closeSections_tallied p.sections (tallied.fs_same counts (k.op+1)) (Kernel.proc_ok here) closed
    exact tallied₁.same_cwd empty rfl

theorem closeSlots_tallied (slots : List (Fin nOpenFile)) {p' : Process} (tallied : Tallied gone k 0)
    (here : k.procs pid = some p) (ran : closeSlots env pid slots p k = .ok (p',k')) :
    Tallied gone k' 0 ∧ k'.procs pid = some p' := by
  induction slots generalizing k p with
  | nil =>
    cases ran
    exact ⟨tallied,here⟩
  | cons i rest ih =>
    simp only [closeSlots] at ran
    split at ran
    · exact ih tallied here ran
    · obtain ⟨k₁,closed,ran⟩ := Runs.bind_ok.mp ran
      obtain ⟨less,procs⟩ := fileClose_tallied tallied closed
      have moved : Tallied gone (k₁.setProc pid (some (p.setSlot i none))) 0 := less.same_cwd (p := p) (procs ▸ here) rfl
      exact ih moved (Function.update_self ..) ran

theorem sysExit_tallied (tallied : Tallied gone k 0) (ran : sysExit env pid k = .ok (done,k')) :
    ∃ cwd, Tallied (gone++[cwd]) k' 0 := by
  obtain ⟨p,here,ran⟩ := Runs.bind_ok.mp ran
  obtain ⟨⟨p₁,k₁⟩,slots,ran⟩ := Runs.bind_ok.mp ran
  obtain ⟨k₂,sections,ran⟩ := Runs.bind_ok.mp ran
  cases ran
  obtain ⟨tallied₁,here₁⟩ := closeSlots_tallied _ tallied (Kernel.proc_ok here) slots
  obtain ⟨tallied₂,here₂⟩ := closeSections_tallied p₁.sections tallied₁ here₁ sections
  have left : Tallied gone (k₂.setProc pid none) (fun q => worksIn q (some (p₁.setSections []))) := by
    refine tallied₂.procs here₂ ?_
    intro q
    simp [worksIn]
  refine ⟨p₁.cwd,?_,?_,left.freed,left.typed⟩
  · intro q
    have counts := left.counts q
    change rcOf k₂.fs q = (k₂.setProc pid none).filesOn q+(k₂.setProc pid none).dirsOn q+(gone++[p₁.cwd]).count q+0
    change rcOf k₂.fs q = _+gone.count q+_ at counts
    rw [List.count_append,List.count_singleton,counts]
    simp only [worksIn,Process.setSections]
    by_cases mine : p₁.cwd = q
    · simp only [mine,if_true,Nat.cast_one,beq_self_eq_true,Nat.cast_add]
      omega
    · simp only [mine,if_false,Nat.cast_zero,beq_iff_eq,add_zero]
  · change k₂.exited++[p₁.cwd] = gone++[p₁.cwd]
    rw [tallied₂.exited]

end Calls

-- Calls that return, also with an error.
def nextReturned (env : Env) (k : Kernel n) (call : Call n) : Option (Kernel n) :=
  match run env k call with
  | .ok (_,k') => some k'
  | .error _ => none

def Call.exits : Call n → Bool
  | .exit _ => true
  | _ => false

-- What a reference stands for: an open file, or a process that works in the directory.
-- An inode without links is in memory only as long as there is one.
structure Accounted (k : Kernel n) : Prop where
  references : ∀ p inode, k.fs.inodes p = some inode → inode.rc = k.filesOn p+k.dirsOn p
  released : ∀ p inode, k.fs.inodes p = some inode → inode.entry.numLinks = 0#16 → 0 < k.filesOn p+k.dirsOn p

-- No file is open, and each inode in memory is somebody's working directory.
structure Started (k : Kernel n) : Prop where
  unopened : Unopened k
  nobody : k.exited = []
  inodes : ∀ p inode, k.fs.inodes p = some inode → 0 < inode.rc
  counts : ∀ p, rcOf k.fs p = k.dirsOn p

section Histories
variable {env : Env} {start k k' : Kernel n} {call : Call n} {gone : List Usize}

theorem Started.tallied (started : Started k) : Tallied [] k 0 := by
  refine ⟨?_,started.nobody,?_,?_⟩
  · intro p
    have closed : k.filesOn p = 0 := by
      refine Finset.sum_eq_zero fun f _ => ?_
      have unused := (started.unopened.files f).1
      exact if_neg fun open_ => by omega
    rw [started.counts p,closed]
    simp
  · intro p inode there unused
    have positive := started.inodes p inode there
    omega
  · intro f typed
    exact absurd (started.unopened.files f).2 typed

theorem nextReturned_tallied (tallied : Tallied gone k 0) (ran : nextReturned env k call = some k') :
    ∃ more, Tallied (gone++more) k' 0 ∧ (more = [] ↔ call.exits = false) := by
  unfold nextReturned at ran
  split at ran
  · rename_i done k₁ returned
    cases ran
    have stays : Tallied gone k' 0 → call.exits = false → ∃ more, Tallied (gone++more) k' 0 ∧ (more = [] ↔ call.exits = false) :=
      fun result lives => ⟨[],by rwa [List.append_nil],iff_of_true rfl lives⟩
    cases call with
    | openat pid path creat wronly rdwr => exact stays (sysOpenat_tallied tallied returned) rfl
    | dup pid fd => exact stays (sysDup_tallied tallied returned) rfl
    | close pid fd => exact stays (sysClose_tallied tallied returned) rfl
    | pipe2 pid pipe => exact stays (sysPipe2_tallied tallied returned) rfl
    | chdir pid path => exact stays (sysChdir_tallied tallied returned) rfl
    | unlinkat pid path =>
      obtain ⟨p,_,returned⟩ := Runs.bind_ok.mp returned
      obtain ⟨⟨result,fs⟩,unlinked,returned⟩ := Runs.bind_ok.mp returned
      cases returned
      exact stays (tallied.fs_same (unlinkat_counts tallied.counted unlinked) _) rfl
    | mmap pid fd length flags prot offset => exact stays (sysMmap_tallied tallied returned) rfl
    | munmap pid va length writes => exact stays (sysMunmap_tallied tallied returned) rfl
    | fork pid child fp => exact stays (sysFork_tallied tallied returned) rfl
    | execve pid path fp image => exact stays (sysExecve_tallied tallied returned) rfl
    | wait pid =>
      obtain ⟨p,_,returned⟩ := Runs.bind_ok.mp returned
      cases returned
      exact stays tallied rfl
    | exit pid =>
      obtain ⟨cwd,result⟩ := sysExit_tallied tallied returned
      exact ⟨[cwd],result,by simp [Call.exits]⟩
  · cases ran

theorem calls_tallied (calls : List (Call n)) (tallied : Tallied gone start 0)
    (ran : Runs.exec (nextReturned env) start calls = some k) :
    ∃ more, Tallied (gone++more) k 0 ∧ (more = [] ↔ ∀ call ∈ calls, call.exits = false) := by
  induction calls generalizing start gone with
  | nil =>
    cases ran
    exact ⟨[],by rwa [List.append_nil],by simp⟩
  | cons call rest ih =>
    obtain ⟨middle,first,ran⟩ := Option.bind_eq_some_iff.mp ran
    obtain ⟨one,tallied₁,exits₁⟩ := nextReturned_tallied tallied first
    obtain ⟨more,result,exits⟩ := ih tallied₁ ran
    refine ⟨one++more,by rwa [← List.append_assoc],?_⟩
    rw [List.append_eq_nil_iff,exits₁,exits]
    simp

theorem Tallied.accounted (tallied : Tallied gone k 0) : Accounted k ↔ gone = [] := by
  constructor
  · intro accounted
    by_contra some_gone
    obtain ⟨p,member⟩ := List.exists_mem_of_ne_nil gone some_gone
    have left : 0 < gone.count p := List.count_pos_iff.mpr member
    have counts := tallied.counts p
    rw [Pi.zero_apply] at counts
    -- Something refers to p, so p is in memory.
    cases there : k.fs.inodes p with
    | none =>
      rw [rcOf,there] at counts
      simp only at counts
      omega
    | some inode =>
      have references := accounted.references p inode there
      rw [rcOf_found there] at counts
      omega
  · rintro rfl
    have references : ∀ p inode, k.fs.inodes p = some inode → inode.rc = k.filesOn p+k.dirsOn p := by
      intro p inode there
      have counts := tallied.counts p
      rw [rcOf_found there] at counts
      simpa only [List.count_nil,Nat.cast_zero,add_zero,Pi.zero_apply] using counts
    refine ⟨references,?_⟩
    intro p inode there unlinked
    by_contra nothing
    have counts := references p inode there
    exact tallied.freed p inode there (by omega) unlinked

theorem inodes_accounted {calls : List (Call n)} (started : Started start)
    (ran : Runs.exec (nextReturned env) start calls = some k) :
    Accounted k ↔ ∀ call ∈ calls, call.exits = false := by
  obtain ⟨more,tallied,exits⟩ := calls_tallied calls started.tallied ran
  rw [← exits,← List.nil_append more]
  exact tallied.accounted

end Histories

theorem firstKernel_started : Started firstKernel := by
  have root : firstKernel.fs.inodes rootInodeNo = some ⟨Semaphores.initSem 1,1,rootInodeNo,true,
      diskEntry mkfsSuperBlock blankDisk.cache rootInodeNo⟩ := by
    simp only [firstKernel,Fs.load,Fs.setInode,Function.update_self]
  have others : ∀ p, p ≠ rootInodeNo → firstKernel.fs.inodes p = none := by
    intro p other
    simp only [firstKernel,Fs.load,Fs.setInode,Function.update_of_ne other,blankDisk]
  refine ⟨firstKernel_unopened,rfl,?_,?_⟩
  · intro p inode there
    by_cases same : p = rootInodeNo
    · subst same
      cases root.symm.trans there
      exact Int.one_pos
    · cases (others p same).symm.trans there
  · intro p
    have directory : firstKernel.dirsOn p = worksIn p (some firstProcess)+(worksIn p none+0) := by
      rw [Kernel.dirsOn,Runs.total,Fin.sum_univ_succ,Fin.sum_univ_succ,Fin.sum_univ_zero]
      rfl
    rw [directory,worksIn_none]
    change _ = (worksIn p (some firstProcess) : Int)
    rw [worksIn_some]
    by_cases same : p = rootInodeNo
    · subst same
      rw [rcOf_found root]
      exact (one_self _).symm
    · rw [rcOf,others p same]
      exact (one_other same).symm

-- A new process with a pipe: two processes in the root directory.
theorem inodes_accounted_fork : ∃ k :
    Kernel 2, Runs.exec (nextReturned blankEnv) firstKernel [.fork 0 1 none,.pipe2 1 7] = some k ∧
    rcOf k.fs rootInodeNo = 2 ∧ Accounted k := by
  obtain ⟨k,ran,result⟩ := Runs.some_such (x := Runs.exec (nextReturned blankEnv) firstKernel [.fork 0 1 none,.pipe2 1 7])
    (p := fun k => decide (rcOf k.fs rootInodeNo = 2)) (by decide +kernel)
  exact ⟨k,ran,of_decide_eq_true result,(inodes_accounted firstKernel_started ran).mpr (by simp [Call.exits])⟩

-- The new process ends, and the root directory keeps its reference.
theorem exit_keeps_cwd : ¬ ∀ (env : Env) (start k : Kernel 2) (calls : List (Call 2)), Started start →
    Runs.exec (nextReturned env) start calls = some k → Accounted k := by
  intro accounted
  obtain ⟨k,ran,_⟩ := Runs.some_such (x := Runs.exec (nextReturned blankEnv) firstKernel [.fork 0 1 none,.exit 1])
    (p := fun k => decide (rcOf k.fs rootInodeNo = 2)) (by decide +kernel)
  obtain ⟨more,tallied,exits⟩ := calls_tallied _ firstKernel_started.tallied ran
  have nobody := tallied.accounted.mp (accounted blankEnv firstKernel k _ firstKernel_started ran)
  have lives := exits.mp (List.append_eq_nil_iff.mp nobody).2 (.exit 1) (by simp)
  cases lives

end FileTable
