import HonorKernel.FileFrames
import HonorKernel.InodeReferences
import HonorKernel.SpaceRuns

-- Mappings and the files behind them: what munmap and exit write back.
namespace PageTable
open DiskFormat BitSlice

-- A property of the files that no call spoils which only reads, shares and closes them.
structure Files.Keeps {σ : Type} (files : Files σ) (I : σ → Prop) : Prop where
  dup : ∀ f fs, I fs → I (files.dup f fs)
  close : ∀ f fs fs', I fs → files.close f fs = .ok fs' → I fs'
  read : ∀ f off count fs bytes fs', I fs → files.read f off count fs = .ok (bytes,fs') → I fs'

section Keeping
variable {σ : Type} {files : Files σ} {I : σ → Prop} {zero : Frame} {mem mem' : Mem} {dir dir' : PgDir}
  {pt : Option Frame} {fs fs' : σ} {s s' : Space σ}

theorem dupSections_keeps (keeps : files.Keeps I) (sections : List Section) (ok : I fs) :
    I (dupSections files sections fs) := by
  unfold dupSections
  induction sections generalizing fs with
  | nil => exact ok
  | cons st rest ih =>
    rw [List.foldl_cons]
    cases st.fp with
    | none => exact ih ok
    | some f => exact ih (keeps.dup f fs ok)

theorem freeSections_keeps (keeps : files.Keeps I) (sections : List Section) (ok : I fs)
    (ran : freeSections files pt sections mem fs = .ok (mem',fs')) : I fs' := by
  induction sections generalizing mem fs with
  | nil =>
    cases ran
    exact ok
  | cons st rest ih =>
    obtain ⟨pages,_,ran⟩ := Runs.bind_ok.mp ran
    obtain ⟨middle,_,ran⟩ := Runs.bind_ok.mp ran
    obtain ⟨fs₁,closed,ran⟩ := Runs.bind_ok.mp ran
    refine ih ?_ ran
    cases fp : st.fp with
    | none =>
      rw [fp] at closed
      cases closed
      exact ok
    | some f =>
      rw [fp] at closed
      exact keeps.close f fs fs₁ ok closed

theorem freePgdir_keeps (keeps : files.Keeps I) (ok : I fs)
    (ran : freePgdir files dir mem fs = .ok (dir',mem',fs')) : I fs' := by
  unfold freePgdir at ran
  split at ran
  · cases ran
    exact ok
  · obtain ⟨⟨middle,fs₁⟩,freed,ran⟩ := Runs.bind_ok.mp ran
    cases ran
    exact freeSections_keeps keeps _ ok freed

theorem mmap_keeps (keeps : files.Keeps I) (ok : I fs) {length : U64} {shared : Bool} {prot : U64} {fp : Nat}
    {offset : U64} {va : Option U64}
    (ran : mmap files length shared prot fp offset dir mem fs = .ok (va,dir',mem',fs')) : I fs' := by
  unfold mmap at ran
  simp only at ran
  split at ran
  · cases ran
    exact ok
  · obtain ⟨⟨bytes,fs₁⟩,read,ran⟩ := Runs.bind_ok.mp ran
    obtain ⟨⟨dir₁,middle⟩,_,ran⟩ := Runs.bind_ok.mp ran
    cases ran
    exact keeps.read _ _ _ _ _ _ (keeps.dup fp fs ok) read

theorem run_keeps (keeps : files.Keeps I) (ok : I s.fs) {call : Call}
    (other : ∀ pid va length, call ≠ .munmap pid va length) (ran : s.run files zero call = .ok s') : I s'.fs := by
  cases call with
  | start pid fp =>
    simp only [Space.run] at ran
    split at ran
    · cases ran
    · obtain ⟨⟨dir,mem⟩,_,ran⟩ := Runs.bind_ok.mp ran
      cases ran
      exact ok
  | execve pid small fp segs args =>
    obtain ⟨old,_,ran⟩ := Runs.bind_ok.mp ran
    obtain ⟨mem₁,_,ran⟩ := Runs.bind_ok.mp ran
    obtain ⟨⟨dir,mem₂⟩,_,ran⟩ := Runs.bind_ok.mp ran
    obtain ⟨⟨gone,mem₃,fs₁⟩,freed,ran⟩ := Runs.bind_ok.mp ran
    cases ran
    exact freePgdir_keeps keeps ok freed
  | execveFails pid small fp segs broken =>
    obtain ⟨old,_,ran⟩ := Runs.bind_ok.mp ran
    obtain ⟨mem₁,_,ran⟩ := Runs.bind_ok.mp ran
    obtain ⟨⟨dir,mem₂⟩,_,ran⟩ := Runs.bind_ok.mp ran
    obtain ⟨⟨gone,mem₃,fs₁⟩,freed,ran⟩ := Runs.bind_ok.mp ran
    cases ran
    exact freePgdir_keeps keeps ok freed
  | sbrk pid size =>
    obtain ⟨dir,_,ran⟩ := Runs.bind_ok.mp ran
    obtain ⟨⟨last,dir₁,mem₁⟩,_,ran⟩ := Runs.bind_ok.mp ran
    cases ran
    exact ok
  | mmap pid small length shared prot fp offset =>
    obtain ⟨dir,_,ran⟩ := Runs.bind_ok.mp ran
    obtain ⟨mem₁,_,ran⟩ := Runs.bind_ok.mp ran
    obtain ⟨⟨va,dir₁,mem₂,fs₁⟩,mapped,ran⟩ := Runs.bind_ok.mp ran
    cases ran
    exact mmap_keeps keeps ok mapped
  | munmap pid va length => exact absurd rfl (other pid va length)
  | fault pid va =>
    obtain ⟨dir,_,ran⟩ := Runs.bind_ok.mp ran
    obtain ⟨⟨dir₁,mem₁⟩,_,ran⟩ := Runs.bind_ok.mp ran
    cases ran
    exact ok
  | store pid va bytes =>
    obtain ⟨dir,_,ran⟩ := Runs.bind_ok.mp ran
    obtain ⟨⟨dir₁,mem₁⟩,_,ran⟩ := Runs.bind_ok.mp ran
    cases ran
    exact ok
  | fork pid child slab₀ slab₁ fp =>
    simp only [Space.run] at ran
    split at ran
    · cases ran
    · obtain ⟨parent,_,ran⟩ := Runs.bind_ok.mp ran
      obtain ⟨⟨new,mem₁⟩,_,ran⟩ := Runs.bind_ok.mp ran
      cases ran
      exact dupSections_keeps keeps _ ok
  | exit pid =>
    obtain ⟨old,_,ran⟩ := Runs.bind_ok.mp ran
    obtain ⟨⟨gone,mem₁,fs₁⟩,freed,ran⟩ := Runs.bind_ok.mp ran
    cases ran
    exact freePgdir_keeps keeps ok freed

end Keeping

-- EXTMEM to PHYSTOP: the frames that init_page may put on the queue.
def inRam (p : Frame) : Prop := 0x40000 ≤ p.toNat ∧ p.toNat < 0x80000

-- The counters of all other frames keep what they hold.
def outside (refs : Frame → Int) : Holes := ⟨fun p => ¬ inRam p,refs,fun ram => absurd ram.1 (by decide)⟩

section Unwritten
variable {σ : Type} {files : Files σ} {D : Type*} {zero root : Frame} {mem mem' : Mem} {roots : D → Option Frame}
  {d : D} {refs : Frame → Int} {va : U64} {st : Section} {fs fs' : σ} {pt : Option Frame}

theorem pageRef_low (sane : Sane (outside refs) zero mem roots) {v : VPage} {e : U64} (maps : Maps mem roots d v e) :
    pageRef mem (frameOf e) = refs (frameOf e-0x40000#36) ∧ ¬ inRam (frameOf e-0x40000#36) := by
  obtain ⟨lower,upper⟩ : inRam (frameOf e) := not_not.mp (sane.hole_page d v e maps)
  have low : ¬ inRam (frameOf e-0x40000#36) := by
    rintro ⟨lower',_⟩
    rw [BitVec.toNat_sub] at lower'
    simp only [BitVec.toNat_ofNat] at lower'
    omega
  exact ⟨sane.hole_refs _ low,low⟩

theorem freeSectionPage_unwritten (sane : Sane (outside refs) zero mem roots) (here : roots d = some root)
    (counters : ∀ h, ¬ inRam h → refs h ≠ 1)
    (ran : freeSectionPage files st (some root) va mem fs = .ok (mem',fs')) : fs' = fs := by
  obtain ⟨⟨slot,_,same⟩,got,ran⟩ := Runs.bind_ok.mp ran
  obtain ⟨rfl,_,⟨rfl,_⟩ | ⟨t,rfl,reached,value⟩⟩ := getPte_reads got
  · cases ran
    rfl
  · have entry : same.at ⟨t,part 3 va⟩ = same.lookup root (vpage va) := value
    simp only [entry] at ran
    split at ran
    · rename_i set
      obtain ⟨count,low⟩ := pageRef_low sane ⟨root,here,rfl,set⟩
      have shared : ¬ pageRef same (frameOf (same.lookup root (vpage va))) = 1 := by
        rw [count]
        exact counters _ low
      obtain ⟨fs₁,written,ran⟩ := Runs.bind_ok.mp ran
      rw [if_neg fun all => shared all.2.2] at written
      cases written
      cases ran
      rfl
    · cases ran
      rfl

theorem freeSectionPages_unwritten (pages : List U64) (sane : Sane (outside refs) zero mem roots)
    (here : roots d = some root) (counters : ∀ h, ¬ inRam h → refs h ≠ 1)
    (ran : freeSectionPages files st (some root) pages mem fs = .ok (mem',fs')) : fs' = fs := by
  induction pages generalizing mem fs with
  | nil =>
    cases ran
    rfl
  | cons va rest ih =>
    obtain ⟨⟨middle,fs₁⟩,first,ran⟩ := Runs.bind_ok.mp ran
    have same := freeSectionPage_unwritten sane here counters first
    exact (ih (freeSectionPage_sane sane here first) ran).trans same

theorem cutPages_unwritten (pages : List U64) {f : Nat} {last : U64} (fp : st.fp = some f)
    (nothing : files.isInode f fs = true → ∀ va ∈ pages, ∀ off (page : Page), files.write f off
      (getBytes page 0 (min pageSize (smaller (va+BitVec.ofNat 64 pageSize) last-larger va st.first).toNat)) fs = .ok fs)
    (ran : cutPages files st last pt pages mem fs = .ok (mem',fs')) : fs' = fs := by
  induction pages generalizing mem with
  | nil =>
    cases ran
    rfl
  | cons va rest ih =>
    obtain ⟨⟨middle,fs₁⟩,first,ran⟩ := Runs.bind_ok.mp ran
    obtain ⟨⟨slot,_,same⟩,_,first⟩ := Runs.bind_ok.mp first
    obtain ⟨entry,_,first⟩ := Runs.bind_ok.mp first
    obtain ⟨fs₂,written,first⟩ := Runs.bind_ok.mp first
    rw [fp] at written
    simp only at written
    split at written
    · rename_i inode
      rw [nothing inode va List.mem_cons_self] at written
      cases written
      cases first
      exact ih (fun inode va member => nothing inode va (List.mem_cons_of_mem _ member)) ran
    · cases written

theorem empty_part {va first : U64} {pages : List U64} (loop : pageLoop first first = .ok pages) (member : va ∈ pages) :
    (smaller (va+BitVec.ofNat 64 pageSize) first-larger va first).toNat = 0 := by
  have bounded : ¬ ((pageBase first).toNat < first.toNat ∧ 2^64-pageSize < first.toNat) := by
    intro endless
    rw [pageLoop,if_pos endless] at loop
    cases loop
  rw [pageLoop_ok loop] at member
  obtain ⟨k,small,rfl⟩ := List.mem_map.mp member
  rw [List.mem_range,pageCount] at small
  have page : pageSize = 4096 := rfl
  have base := pageBase_toNat first
  simp only [page] at base small bounded
  have zero : k = 0 := by omega
  subst zero
  have below : (pageBase first+BitVec.ofNat 64 (pageSize*0)) = pageBase first := by simp
  rw [below]
  have next : (pageBase first+BitVec.ofNat 64 pageSize).toNat = (pageBase first).toNat+4096 := by
    rw [BitVec.toNat_add,page,BitVec.toNat_ofNat]
    omega
  have left : smaller (pageBase first+BitVec.ofNat 64 pageSize) first = first := by
    rw [smaller,if_neg]
    rw [BitVec.lt_def,next]
    omega
  have right : larger (pageBase first) first = first := by
    rw [larger,if_neg]
    rw [BitVec.lt_def]
    omega
  rw [left,right,BitVec.sub_self]
  rfl

theorem munmap_keeps {I : σ → Prop} {length : U64} {dir dir' : PgDir} (keeps : files.Keeps I)
    (sane : Sane (outside refs) zero mem roots) (here : roots d = some root) (table : dir.pt = some root)
    (counters : ∀ h, ¬ inRam h → refs h ≠ 1) (ok : I fs)
    (nothing : ∀ before st after f, splitAt va dir.sections = some (before,st,after) → st.fp = some f →
    ¬ st.last-st.first ≤ length →
      files.isInode f fs = true → ∀ off bytes, (length = 0#64 → bytes = []) → files.write f off bytes fs = .ok fs)
    (ran : munmap files va length dir mem fs = .ok (dir',mem',fs')) : I fs' := by
  unfold munmap at ran
  split at ran
  · cases ran
    exact ok
  · rename_i before st after split_
    split at ran
    · cases ran
    · split at ran
      · obtain ⟨⟨dir₁,mem₁⟩,zeroed,ran⟩ := Runs.bind_ok.mp ran
        obtain ⟨pages,_,ran⟩ := Runs.bind_ok.mp ran
        obtain ⟨⟨mem₂,fs₁⟩,freed,ran⟩ := Runs.bind_ok.mp ran
        obtain ⟨fs₂,closed,ran⟩ := Runs.bind_ok.mp ran
        cases ran
        obtain ⟨rfl,sane₁⟩ := userCopy_sane length.toNat sane here table zeroed
        rw [table] at freed
        have same := freeSectionPages_unwritten pages sane₁ here counters freed
        subst same
        cases fp : st.fp with
        | none =>
          rw [fp] at closed
          cases closed
        | some f =>
          rw [fp] at closed
          exact keeps.close f _ _ ok closed
      · rename_i part
        obtain ⟨pages,loop,ran⟩ := Runs.bind_ok.mp ran
        obtain ⟨⟨mem₁,fs₁⟩,cut,ran⟩ := Runs.bind_ok.mp ran
        cases ran
        cases pages with
        | nil =>
          cases cut
          exact ok
        | cons page rest =>
          cases fp : st.fp with
          | none =>
            obtain ⟨_,first,_⟩ := Runs.bind_ok.mp cut
            obtain ⟨⟨slot,_,same⟩,_,first⟩ := Runs.bind_ok.mp first
            obtain ⟨entry,_,first⟩ := Runs.bind_ok.mp first
            obtain ⟨fs₂,written,first⟩ := Runs.bind_ok.mp first
            rw [fp] at written
            cases written
          | some f =>
            have same := cutPages_unwritten (page::rest) fp (fun inode va member off data => ?_) cut
            · rw [same]
              exact ok
            · refine nothing before st after f split_ fp part inode _ _ fun zero => ?_
              subst zero
              rw [BitVec.add_zero] at loop
              rw [BitVec.add_zero,empty_part loop member]
              rfl

end Unwritten

end PageTable

namespace FileTable
open DiskFormat CacheView InodeLayer SysFile
open PageTable (U64 Frame Trap Mem Files Space inRam outside Sound splitAt stMmapShared)

variable {n : Nat}

def trap : Except Fault α → Except Trap α
  | .ok a => .ok a
  | .error _ => .error .panic

-- file_read and file_write behind an assignment to f->off.
def readAt (env : Env) (f : Nat) (off : U64) (count : Nat) (k : Kernel n) : Except Trap (List Byte × Kernel n) :=
  let file := k.files f
  if file.readable = false ∨ file.type = .pipe then .ok ([],k)
  else if file.type = .inode then do
    let fs ← trap (inodeLock file.ip k.fs)
    let (_,bytes,fs) ← trap (inodeRead env file.ip off (BitVec.ofNat 64 count) fs)
    let fs ← trap (inodeUnlock file.ip fs)
    .ok (bytes,{ k with fs := fs })
  else .error .panic

-- No two rounds of the loop have the same transaction.
def writeAt (env : Env) (f : Nat) (off : U64) (bytes : List Byte) (k : Kernel n) : Except Trap (Kernel n) :=
  let file := k.files f
  if file.writable = false ∨ file.type = .pipe then .ok k
  else if file.type = .inode then do
    let (_,fs) ← trap (fileWrite env k.op file.ip bytes off k.fs)
    .ok { k with fs := fs, op := k.op+bytes.length }
  else .error .panic

def fileSections (env : Env) : Files (Kernel n) where
  isInode f k := (k.files f).type = .inode
  read := readAt env
  write := writeAt env
  dup f k := k.setFile f { k.files f with ref := (k.files f).ref+1 }
  close f k := trap (fileClose env (k.held f) f k)

-- The file of inode `p` has kept its size and its bytes, or it had no link and is gone.
def Untouched (p : Usize) (fs fs' : Fs) : Prop :=
  Frames p fs fs' ∨ fs'.inodes p = none ∧ ∃ inode, fs.inodes p = some inode ∧ inode.entry.numLinks = 0#16

section Isolation
variable {env : Env} {k k' : Kernel n} {p q : Usize} {start fs fs' fs'' : Fs} {ctx : Ctx}

theorem trap_ok {x : Except Fault α} {a : α} (ran : trap x = .ok a) : x = .ok a := by
  cases x with
  | error fault => cases ran
  | ok b =>
    cases ran
    rfl

theorem Untouched.frames (untouched : Untouched p fs fs') (frames : Frames p fs' fs'')
    (gone : fs'.inodes p = none → fs''.inodes p = none) :
    Untouched p fs fs'' := by
  rcases untouched with same | ⟨none,unlinked⟩
  · exact .inl (same.trans frames)
  · exact .inr ⟨gone none,unlinked⟩

structure Spared (env : Env) (p : Usize) (start : Fs) (fs : Fs) : Prop where
  consistent : Consistent env.sblock fs
  untouched : Untouched p start fs

theorem inodeLock_spared (spared : Spared env p start fs) (ran : inodeLock q fs = .ok fs') :
    Spared env p start fs' := by
  refine ⟨inodeLock_consistent spared.consistent ran,spared.untouched.frames (inodeLock_frames p ran) fun none => ?_⟩
  obtain ⟨inode,lock,found,rfl⟩ := inodeLock_set ran
  have other : p ≠ q := by
    rintro rfl
    cases none.symm.trans found
  exact (Function.update_of_ne other ..).trans none

theorem inodeUnlock_spared (spared : Spared env p start fs) (ran : inodeUnlock q fs = .ok fs') :
    Spared env p start fs' := by
  refine ⟨inodeUnlock_consistent spared.consistent ran,spared.untouched.frames (inodeUnlock_frames p ran) fun none => ?_⟩
  obtain ⟨inode,lock,found,rfl⟩ := inodeUnlock_set ran
  have other : p ≠ q := by
    rintro rfl
    cases none.symm.trans found
  exact (Function.update_of_ne other ..).trans none

theorem inodeRead_spared {off count r : Usize} {bytes : List Byte} (layout : Layout env.sblock)
    (spared : Spared env p start fs) (ran : inodeRead env q off count fs = .ok (r,bytes,fs')) :
    Spared env p start fs' := by
  have works := inodeRead_works layout spared.consistent.owned ran
  obtain ⟨inode,found⟩ := found_of_bind ran
  refine ⟨works.consistent spared.consistent found,spared.untouched.frames
      (inodeRead_frames layout spared.consistent.owned p ran) fun none => ?_⟩
  have other : p ≠ q := by
    rintro rfl
    cases none.symm.trans found
  exact (works.beside.inodes p other).trans none

theorem inodePut_spared (layout : Layout env.sblock) (spared : Spared env p start fs)
    (ran : inodePut env ctx q fs = .ok fs') :
    Spared env p start fs' := by
  refine ⟨inodePut_consistent layout spared.consistent ran,?_⟩
  have owned := spared.consistent.owned
  rcases inodePut_frames layout owned p ran with frames | ⟨none,inode,there,_,unlinked⟩
  · refine spared.untouched.frames frames fun none => ?_
    obtain ⟨inode,found⟩ := found_of_bind ran
    have other : p ≠ q := by
      rintro rfl
      cases none.symm.trans found
    exact (inodePut_others layout owned ran other).trans none
  · rcases spared.untouched with same | ⟨gone,_⟩
    · cases before : start.inodes p with
      | none =>
        left
        intro inode found
        cases before.symm.trans found
      | some inode₀ =>
        obtain ⟨inode',found',_,_,links,_⟩ := same inode₀ before
        cases there.symm.trans found'
        exact .inr ⟨none,inode₀,before,links.symm.trans unlinked⟩
    · cases gone.symm.trans there

theorem fileClose_spared {holders f : Nat} (layout : Layout env.sblock) (spared : Spared env p start k.fs)
    (ran : fileClose env holders f k = .ok k') :
    Spared env p start k'.fs := by
  unfold fileClose at ran
  simp only at ran
  split at ran
  · cases ran
  · split at ran
    · cases ran
      exact spared
    · split at ran
      · cases ran
        exact spared
      · split at ran
        · cases ran
          exact spared
        · obtain ⟨fs₁,put,ran⟩ := Runs.bind_ok.mp ran
          cases ran
          exact inodePut_spared layout spared put

theorem readAt_spared {f count : Nat} {off : U64} {bytes : List Byte} (layout : Layout env.sblock)
    (spared : Spared env p start k.fs) (ran : readAt env f off count k = .ok (bytes,k')) :
    Spared env p start k'.fs := by
  unfold readAt at ran
  simp only at ran
  split at ran
  · cases ran
    exact spared
  · split at ran
    · obtain ⟨fs₁,locked,ran⟩ := Runs.bind_ok.mp ran
      obtain ⟨⟨r,bytes₁,fs₂⟩,read,ran⟩ := Runs.bind_ok.mp ran
      obtain ⟨fs₃,unlocked,ran⟩ := Runs.bind_ok.mp ran
      cases ran
      have first := inodeLock_spared spared (trap_ok locked)
      have second := inodeRead_spared layout first (trap_ok read)
      exact inodeUnlock_spared second (trap_ok unlocked)
    · cases ran

theorem fileSections_keeps (layout : Layout env.sblock) (p : Usize) (start : Fs) :
    (fileSections env : Files (Kernel n)).Keeps fun k => Spared env p start k.fs := by
  refine ⟨fun f k spared => spared,fun f k k' spared ran => ?_,fun f off count k bytes k' spared ran => ?_⟩
  · exact fileClose_spared layout spared (trap_ok ran)
  · exact readAt_spared layout spared ran

-- Nothing goes through a file that is not open for writing, and no bytes change nothing.
theorem writeAt_nothing {f : Nat} {off : U64} {bytes : List Byte} (open_ : (k.files f).type = .inode)
    (idle : (k.files f).writable = false ∨ bytes = []) : writeAt env f off bytes k = .ok k := by
  unfold writeAt
  simp only
  split
  · rfl
  · rename_i writable
    rcases idle with closed | rfl
    · exact absurd (.inl closed) writable
    · rfl

-- Each munmap takes a whole mapping, or nothing, or belongs to a file that is not open
-- for writing.
def Harmless (s : Space (Kernel n)) : PageTable.Call → Prop
  | .munmap pid va length => ∀ dir before st after f, s.dirs pid = some dir → splitAt va dir.sections = some (before,st,after) → st.fp = some f →
      st.last-st.first ≤ length ∨ length = 0#64 ∨ (s.fs.files f).writable = false
  | _ => True

theorem run_spared {zero : Frame} {refs : Frame → Int} {s s' : Space (Kernel n)} (layout : Layout env.sblock)
    (sound : Sound (outside refs) zero s) (counters : ∀ h, ¬ inRam h → refs h ≠ 1)
    (spared : Spared env p start s.fs.fs) {call : PageTable.Call} (harmless : Harmless s call)
    (ran : s.run (fileSections env) zero call = .ok s') : Spared env p start s'.fs.fs := by
  have keeps := fileSections_keeps layout p start (n := n)
  cases call with
  | munmap pid va length =>
    obtain ⟨dir,found,ran⟩ := Runs.bind_ok.mp ran
    obtain ⟨⟨dir₁,mem₁,k₁⟩,unmapped,ran⟩ := Runs.bind_ok.mp ran
    cases ran
    have found := PageTable.Space.dir_ok found
    obtain ⟨root,table,here,_⟩ := sound.here found
    refine PageTable.munmap_keeps (I := fun k => Spared env p start k.fs) keeps sound.sane here table counters spared ?_ unmapped
    intro before st after f split_ fp part inode off bytes empty
    have open_ : (s.fs.files f).type = .inode := of_decide_eq_true inode
    rcases harmless dir before st after f found split_ fp with whole | zero | closed
    · exact absurd whole part
    · exact writeAt_nothing open_ (.inr (empty zero))
    · exact writeAt_nothing open_ (.inl closed)
  | _ => exact PageTable.run_keeps keeps spared (by simp) ran

theorem mapped_invariant {zero : Frame} {refs : Frame → Int} {first s : Space (Kernel n)} (layout : Layout env.sblock)
    (sound : Sound (outside refs) zero first) (counters : ∀ h, ¬ inRam h → refs h ≠ 1)
    (consistent : Consistent env.sblock first.fs.fs)
    (path : Runs.Guarded (Space.next (fileSections env) zero) (fun s call => PageTable.Careful s call ∧
    Harmless s call) first s) (p : Usize) :
    Sound (outside refs) zero s ∧ Spared env p first.fs.fs s.fs.fs := by
  refine path.invariant (fun s => Sound (outside refs) zero s ∧ Spared env p first.fs.fs s.fs.fs)
      ⟨sound,consistent,.inl (.refl p _)⟩ ?_
  intro s call s' ⟨sound,spared⟩ ⟨careful,harmless⟩ ran
  have ran := Runs.toOption_some ran
  exact ⟨sound.next careful ran,run_spared layout sound counters spared harmless ran⟩

theorem mappings_isolated {zero : Frame} {refs : Frame → Int} {first s : Space (Kernel n)} (layout : Layout env.sblock)
    (sound : Sound (outside refs) zero first) (counters : ∀ h, ¬ inRam h → refs h ≠ 1)
    (consistent : Consistent env.sblock first.fs.fs)
    (path : Runs.Guarded (Space.next (fileSections env) zero) (fun s call => PageTable.Careful s call ∧
    Harmless s call) first s) (p : Usize) :
    Untouched p first.fs.fs s.fs.fs :=
  (mapped_invariant layout sound counters consistent path p).2.untouched

end Isolation

-- One open file, inode 1, and no process yet.
def oneFile (writable : Bool) (fs : Fs) : Space (Kernel 0) :=
  ⟨PageTable.booted.mem,fun _ => none,fs,fun f => if f = 0 then ⟨.inode,1,true,writable,0,1#64⟩ else
      ⟨.none,0,false,false,0,0#64⟩,fun i => i.elim0,0,[],[]⟩

def newFile : List InodeLayer.Call := [.alloc (some 0) inodeRegular,.get 1#64]

theorem newFile_consistent (ran : Runs.execGuarded (InodeLayer.next blankEnv) (Permitted mkfsSuperBlock) blankDisk newFile = some fs) : Consistent blankEnv.sblock fs :=
  run_consistent blank_layout blank_image.consistent (Runs.exec_guarded .start ran)

theorem oneFile_sound (writable : Bool) (fs : Fs) :
    Sound (outside PageTable.booted.mem.refs) PageTable.zeroPage (oneFile writable fs) := by
  have boots := PageTable.booted_boots
  have frames : ∀ h ∈ PageTable.booted.mem.free, inRam h := by
    intro h member
    obtain ⟨k,small,rfl⟩ := List.mem_map.mp member
    rw [List.mem_range] at small
    rw [inRam,BitVec.toNat_ofNat]
    omega
  refine Space.Booted.sound ⟨boots.nodup,boots.clean,boots.zero_used,boots.zero_real,boots.zero_count,boots.hole,
      fun _ => rfl⟩ ?_ ?_ fun _ _ => rfl
  · exact fun h hole member => hole (frames h member)
  · exact fun hole => hole ⟨by decide,by decide⟩

theorem booted_counters (h : Frame) (out : ¬ inRam h) : PageTable.booted.mem.refs h ≠ 1 := by
  have other : h ≠ PageTable.zeroPage := by
    rintro rfl
    exact out ⟨by decide,by decide⟩
  simp [PageTable.booted,other]

-- The file in a private mapping of one page, a store to it, and munmap of one byte.
def stored : List PageTable.Call := [.start 1 none,.mmap 1 0 4096#64 false 3#64 0 0#64,.store 1 0x7ffff000#64 [65#8]]
def firstByte : PageTable.Call := .munmap 1 0x7ffff000#64 1#64

def touched (s : Space (Kernel 0)) : Bool :=
  (s.dirs 1).all fun dir => dir.pt.all fun root => decide (PageTable.valid (s.mem.lookup root (PageTable.vpage 0x7ffff000#64)))

theorem firstByte_careful {s : Space (Kernel 0)} (there : touched s = true) : PageTable.Careful s firstByte := by
  intro dir found before st after _ _
  refine ⟨by decide,fun root table page member => ?_⟩
  have single : PageTable.pagesOf 0x7ffff000#64 (0x7ffff000#64+1#64) = [0x7ffff000#64] := by decide
  rw [single,List.mem_singleton] at member
  subst member
  rw [touched,found] at there
  simp only [Option.all_some,table,decide_eq_true_eq] at there
  exact there

theorem stored_path {writable : Bool} {fs : Fs} {s : Space (Kernel 0)}
    (ran : Runs.exec (Space.next (fileSections blankEnv) PageTable.zeroPage) (oneFile writable fs) stored = some s) :
    Runs.Guarded (Space.next (fileSections blankEnv) PageTable.zeroPage)
    (fun s call => PageTable.Careful s call ∧ Harmless s call) (oneFile writable fs) s := by
  refine Runs.exec_always .start (fun call member s => ?_) ran
  simp only [stored,List.mem_cons,List.not_mem_nil,or_false] at member
  rcases member with rfl | rfl | rfl <;> exact ⟨trivial,trivial⟩

-- A file that is only open for reading.
theorem mappings_isolated_unwritable : ∃ (fs : Fs) (s : Space (Kernel 0)),
    Runs.Guarded (Space.next (fileSections blankEnv) PageTable.zeroPage)
    (fun s call => PageTable.Careful s call ∧ Harmless s call) (oneFile false fs) s ∧
      ((s.dirs 1).map fun dir => dir.sections.map PageTable.Section.first) = some [0x7ffff001#64,0#64] ∧
      Untouched 1#64 fs s.fs.fs := by
  obtain ⟨fs,ready,facts⟩ := Runs.some_such (x := Runs.execGuarded (InodeLayer.next blankEnv)
      (Permitted mkfsSuperBlock) blankDisk newFile)
    (p := fun fs => (Runs.exec (Space.next (fileSections blankEnv) PageTable.zeroPage) (oneFile false fs) stored).any fun s =>
      touched s && (decide ((s.fs.files 0).writable = false) && decide
          (((s.dirs 1).map fun dir => dir.sections.map PageTable.Section.fp) = some [some 0,none])) &&
      (s.next (fileSections blankEnv) PageTable.zeroPage firstByte).any fun s : Space (Kernel 0) =>
        decide (((s.dirs 1).map fun dir => dir.sections.map PageTable.Section.first) = some [0x7ffff001#64,0#64])) (by decide +kernel)
  obtain ⟨s,ran,facts⟩ := Runs.some_such facts
  obtain ⟨facts,cut⟩ := Bool.and_eq_true_iff.mp facts
  obtain ⟨there,facts⟩ := Bool.and_eq_true_iff.mp facts
  obtain ⟨unwritable,mapped⟩ := Bool.and_eq_true_iff.mp facts
  obtain ⟨s',unmapped,left⟩ := Runs.some_such cut
  have harmless : Harmless s firstByte := by
    intro dir before st after f found split_ fp
    obtain ⟨dir',found',files⟩ := Option.map_eq_some_iff.mp (of_decide_eq_true mapped)
    cases found.symm.trans found'
    have member : st.fp ∈ [some 0,none] := by
      rw [← files,(PageTable.splitAt_parts split_).1]
      simp
    rw [fp] at member
    simp only [List.mem_cons,Option.some.injEq,reduceCtorEq,List.not_mem_nil,or_false] at member
    subst member
    exact .inr (.inr (of_decide_eq_true unwritable))
  have path := Runs.Guarded.step (stored_path ran) ⟨firstByte_careful there,harmless⟩ unmapped
  have isolated := mappings_isolated blank_layout (oneFile_sound false fs) booted_counters (newFile_consistent ready) path 1#64
  exact ⟨fs,s',path,of_decide_eq_true left,isolated⟩

def MapsPrivate : PageTable.Call → Prop
  | .mmap _ _ _ shared _ _ _ => shared = false
  | _ => True

-- A file that is open for writing too: munmap of one byte of the private mapping makes
-- the file one byte long.
theorem private_part_written : ¬ ∀ (env : Env) (zero : Frame) (refs : Frame → Int) (first s : Space (Kernel 0))
    (p : Usize), Layout env.sblock →
    Sound (outside refs) zero first → (∀ h, ¬ inRam h → refs h ≠ 1) → Consistent env.sblock first.fs.fs →
    (∀ pid dir st, first.dirs pid = some dir → st ∈ dir.sections → st.flags ≠ stMmapShared) →
    Runs.Guarded (Space.next (fileSections env) zero)
    (fun s call => PageTable.Careful s call ∧ MapsPrivate call) first s →
    Untouched p first.fs.fs s.fs.fs := by
  intro untouched
  obtain ⟨fs,ready,facts⟩ := Runs.some_such (x := Runs.execGuarded (InodeLayer.next blankEnv)
      (Permitted mkfsSuperBlock) blankDisk newFile)
    (p := fun fs => (fs.inodes 1#64).any (fun inode => decide (inode.entry.numBytes = 0#32)) &&
      (Runs.exec (Space.next (fileSections blankEnv) PageTable.zeroPage) (oneFile true fs) stored).any fun s =>
      touched s && (s.next (fileSections blankEnv) PageTable.zeroPage firstByte).any fun s =>
        (s.fs.fs.inodes 1#64).any fun inode => decide (inode.entry.numBytes = 1#32)) (by decide +kernel)
  obtain ⟨before,facts⟩ := Bool.and_eq_true_iff.mp facts
  obtain ⟨inode,found,empty⟩ := Runs.some_such before
  obtain ⟨s,ran,facts⟩ := Runs.some_such facts
  obtain ⟨there,cut⟩ := Bool.and_eq_true_iff.mp facts
  obtain ⟨s',unmapped,after⟩ := Runs.some_such cut
  obtain ⟨inode',found',longer⟩ := Runs.some_such after
  have careful : Runs.Guarded (Space.next (fileSections blankEnv) PageTable.zeroPage)
      (fun s call => PageTable.Careful s call ∧ MapsPrivate call)
      (oneFile true fs) s := by
    refine Runs.exec_always .start (fun call member s => ?_) ran
    simp only [stored,List.mem_cons,List.not_mem_nil,or_false] at member
    rcases member with rfl | rfl | rfl
    · exact ⟨trivial,trivial⟩
    · exact ⟨trivial,rfl⟩
    · exact ⟨trivial,trivial⟩
  have path := Runs.Guarded.step careful ⟨firstByte_careful there,trivial⟩ unmapped
  rcases untouched blankEnv PageTable.zeroPage _ _ s' 1#64 blank_layout (oneFile_sound true fs) booted_counters
      (newFile_consistent ready)
    (fun _ _ _ none => by cases none) path with
    same | ⟨gone,_⟩
  · obtain ⟨inode'',found'',_,number,_⟩ := same inode found
    cases found''.symm.trans found'
    rw [of_decide_eq_true empty,of_decide_eq_true longer] at number
    cases number
  · cases gone.symm.trans found'

end FileTable
