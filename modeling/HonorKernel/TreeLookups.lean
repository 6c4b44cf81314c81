import HonorKernel.TreeHistory

-- Looking things up comes to an end: no path, however long, makes the kernel fail.
namespace FileTree
open DiskFormat CacheView InodeLayer SysFile NamingTree

section Lookups
variable {env : Env} {ctx : Ctx} {s : State} {vol : Volume} {fs : Fs} {t : Tree} {ℓ : Usize → Nat} {rc : Usize → Int}
  {d p q cwd : Usize} {name : List Byte}

theorem Stands.child_entry (stands : Stands env s vol) (isDir : IsDir s.tree d)
    (found : SysFile.child env vol.fs d name = some q) :
    Entry s.tree d (padded name) q := by
  obtain ⟨m,here⟩ := isDir
  have aligned := (stands.listing here).aligned
  have enough := Nat.div_le_self (entryOf env.sblock vol.fs d).numBytes.toNat dirEntrySize
  rcases walk_slots (InodeLayer.named name) aligned (entryOf env.sblock vol.fs d).numBytes.toNat 0 env.stack enough
      (Nat.zero_le _) with
    ⟨i,_,inside,stops,walked⟩ | ⟨_,last,walked⟩
  · unfold SysFile.child walkAll at found
    rw [Nat.mul_zero] at walked
    rw [walked] at found
    cases found
    obtain ⟨no,bound⟩ := (binding_named _ _).mp stops
    have number : (slot vol.fs.cache (entryOf env.sblock vol.fs d) i).inodeNo.setWidth 64 = no := by
      unfold binding at bound
      split at bound
      · cases bound
      · exact (Prod.mk.inj (Option.some.inj bound)).2
    rw [number]
    exact (stands.entry ⟨m,here⟩).mpr ⟨i,inside,bound⟩
  · unfold SysFile.child walkAll at found
    rw [Nat.mul_zero] at walked
    rw [walked] at found
    cases found

theorem Stands.reachable (stands : Stands env s vol) (named : Named dots rootInodeNo s.tree q) :
    Reachable env vol.fs q := by
  have inUse := stands.depicts.there.mpr (stands.rooted.there named)
  refine ⟨stands.depicts.inTable (stands.rooted.there named),.inl fun zero => ?_⟩
  exact (stands.numLinks_zero inUse).mp zero (stands.linked.mpr named)

-- No directory that is held has been removed.
def NoneRemoved (env : Env) (vol : Volume) : Prop :=
  ∀ p ∈ vol.held, (entryOf env.sblock vol.fs p).type = inodeDirectory → (entryOf env.sblock vol.fs p).numLinks ≠ 0#16

theorem Stands.tree (stands : Stands env s vol) (kept : NoneRemoved env vol) (mine : cwd ∈ vol.held) :
    SysFile.Tree env vol.fs cwd := by
  have directory : ∀ no, InTable env.sblock no → SysFile.isDirectory env vol.fs no → IsDir s.tree no :=
    fun no inTable type => (stands.depicts.drawn no inTable).isDir.mp type
  refine ⟨?_,?_,?_,stands.reachable (.inl rfl),?_,?_,?_⟩
  · intro p inode found
    have lock := stands.depicts.locks.lock p inode found
    rwa [if_neg List.not_mem_nil] at lock
  · exact fun p inode found => (stands.depicts.consistent.owned.loaded p inode found).2.2
  · intro p
    rw [stands.depicts.counts]
    exact Int.natCast_nonneg _
  · obtain ⟨inode,found⟩ := stands.found mine
    refine ⟨(stands.depicts.loaded found).1,?_⟩
    rw [stands.depicts.counts]
    rw [stands.held] at mine
    exact (held_counted s.held cwd).mp mine
  · intro no inTable type
    obtain ⟨m,here⟩ := directory no inTable type
    exact (stands.listing here).whole.readable
  · intro no name q inTable type found
    have isDir := directory no inTable type
    have entry := stands.child_entry isDir found
    have named : Named dots rootInodeNo s.tree no := by
      by_contra unnamed
      have mine := stands.rooted.orphan no isDir.there unnamed
      rw [← stands.held] at mine
      refine kept no mine type ((stands.numLinks_zero (stands.depicts.there.mpr isDir.there)).mpr fun linked =>
          unnamed (stands.linked.mp linked))
    exact stands.reachable (stands.rooted.find_named named (find_entry.mpr entry))

theorem Depicts.sees (depicts : Depicts env t ℓ [] rc fs) : Sees env fs 0 [] fs :=
  ⟨rfl,fun _ => rfl,fun _ => (add_zero _).symm,depicts.locks,fun p inode found => (depicts.consistent.owned.loaded p inode found).2.2⟩

theorem Depicts.visits (depicts : Depicts env t ℓ [] rc fs) (ctx : Ctx) (referred : 0 < rc p) (linked : ℓ p ≠ 0) :
    ∃ fs₁ inode fs₂ fs₃, inodeLock p fs = .ok fs₁ ∧ fs₁.inode p = .ok inode ∧ stati inode = .ok inode.entry ∧
      inodeUnlock p fs₁ = .ok fs₂ ∧ inodePut env ctx p fs₂ = .ok fs₃ := by
  have count : ∀ {held fs'}, Sees env fs 0 held fs' → 0 < rcOf fs' p := by
    intro held fs' sees
    rw [sees.rc p,depicts.counts]
    exact (add_zero (rc p)).symm ▸ referred
  obtain ⟨inode,found⟩ := depicts.found referred
  obtain ⟨_,_,_,node,here,links⟩ := depicts.loaded found
  obtain ⟨fs₁,lock,sees₁⟩ := inodeLock_sees depicts.sees (count depicts.sees)
  obtain ⟨inode₁,found₁,_⟩ := found_of_rc (count sees₁)
  obtain ⟨_,drawn,_,node₁,here₁,_⟩ := (depicts.lock lock).2.loaded found₁
  rw [here₁] at drawn
  obtain ⟨fs₂,unlock,sees₂⟩ := inodeUnlock_sees sees₁ (count sees₁)
  have kept : (entryOf env.sblock fs p).numLinks ≠ 0#16 := by
    intro zero
    have none := depicts.linked p node here
    rw [zero] at none
    exact linked none.symm
  obtain ⟨fs₃,put,_⟩ := inodePut_sees ctx sees₂ (count sees₂) (.inl kept)
  exact ⟨fs₁,inode₁,fs₂,fs₃,lock,Fs.inode_ok.mpr found₁,drawn.stati,unlock,put⟩

theorem Stands.finds (layout : Layout env.sblock) (stands : Stands env s vol) (kept : NoneRemoved env vol)
    (mine : cwd ∈ vol.held) (named : Named dots rootInodeNo s.tree (startOf cwd path)) (ctx : Ctx) :
    ∃ found fs₁, namei env ctx cwd path vol.fs = .ok (found,fs₁) ∧ ∀ p, found = some p → ∃ fs₂ inode fs₃ fs₄,
      inodeLock p fs₁ = .ok fs₂ ∧ fs₂.inode p = .ok inode ∧ stati inode = .ok inode.entry ∧
      inodeUnlock p fs₂ = .ok fs₃ ∧
      inodePut env ctx p fs₃ = .ok fs₄ := by
  have tree := stands.tree kept mine
  obtain ⟨reachable,middle,begun,sees⟩ := namexStart_sees tree path
  obtain ⟨fs₁,ran⟩ := namexLoop_resolves ctx tree (components path) false reachable sees
  have looked : namei env ctx cwd path vol.fs = .ok
      ((resolve env vol.fs (startOf cwd path) (components path) false).map (·.1),fs₁) := by
    unfold namei namex
    rw [begun,elements_components]
    simp only [bind,Except.bind,ran]
  obtain ⟨walked,depicts⟩ := namei_walks layout stands.rooted named stands.depicts looked
  refine ⟨_,fs₁,looked,fun p is => ?_⟩
  rw [is] at depicts walked
  refine depicts.visits ctx ?_ fun zero => stands.rooted.links_zero.mp zero (stands.rooted.walk_named named walked.symm)
  have here : taken (some p) p = 1 := one_self ..
  rw [Pi.add_apply,here]
  have count := Int.natCast_nonneg (s.held.count p)
  omega

-- newfstatat and an openat that creates nothing return, whatever the path.
theorem Stands.looks_up (layout : Layout env.sblock) (stands : Stands env s vol) (kept : NoneRemoved env vol)
    (mine : cwd ∈ vol.held) (directory : (entryOf env.sblock vol.fs cwd).type = inodeDirectory) (path : List Byte) :
    (∃ e vol', Steps env vol (.newfstatat cwd path,.stat e) vol') ∧ ∀ granted, ∃ found vol',
    Steps env vol (.openat cwd path false granted,.opened found) vol' := by
  have linked := kept cwd mine directory
  have proper : Proper env vol (.newfstatat cwd path) :=
    ⟨mine,fun _ _ _ => linked,(fun _ _ _ impossible => by cases impossible),(fun _ _ _ impossible => by cases impossible)⟩
  have proper' : ∀ granted, Proper env vol (.openat cwd path false granted) := fun granted =>
    ⟨mine,fun _ _ _ => linked,(fun _ _ _ impossible => by cases impossible),(fun _ _ _ impossible => by cases impossible)⟩
  obtain ⟨found,fs₁,looked,visits⟩ := stands.finds layout kept mine (stands.named proper rfl) (some vol.op)
  cases found with
  | none =>
    have absent : findLocked env (some vol.op) cwd path vol.fs = .ok (none,fs₁) := by
      unfold findLocked
      rw [looked]
      rfl
    refine ⟨⟨none,vol.commit fs₁ vol.held,proper,?_⟩,fun granted => ⟨none,vol.commit fs₁ vol.held,proper' granted,?_⟩⟩
    · show (SysFile.newfstatat env (some vol.op) cwd path vol.fs >>= _) = _
      unfold SysFile.newfstatat
      rw [absent]
      rfl
    · show (openInode env (some vol.op) cwd path false granted vol.fs >>= _) = _
      unfold openInode
      rw [if_neg Bool.false_ne_true,absent]
      rfl
  | some p =>
    obtain ⟨fs₂,inode,fs₃,fs₄,lock,there,stat,unlock,put⟩ := visits p rfl
    have locked : findLocked env (some vol.op) cwd path vol.fs = .ok (some p,fs₂) := by
      unfold findLocked
      simp only [looked,lock,bind,Except.bind]
    have leave : unlockPut env (some vol.op) p fs₂ = .ok fs₄ := by
      unfold unlockPut
      simp only [unlock,put,bind,Except.bind]
    refine ⟨⟨some inode.entry,vol.commit fs₄ vol.held,proper,?_⟩,fun granted => ?_⟩
    · show (SysFile.newfstatat env (some vol.op) cwd path vol.fs >>= _) = _
      unfold SysFile.newfstatat
      simp only [locked,there,stat,leave,bind,Except.bind]
    · cases granted with
      | true =>
        refine ⟨some p,vol.commit fs₃ (p::vol.held),proper' true,?_⟩
        show (openInode env (some vol.op) cwd path false true vol.fs >>= _) = _
        unfold openInode
        rw [if_neg Bool.false_ne_true]
        simp only [locked,unlock,bind,Except.bind,if_true]
        rfl
      | false =>
        refine ⟨none,vol.commit fs₄ vol.held,proper' false,?_⟩
        show (openInode env (some vol.op) cwd path false false vol.fs >>= _) = _
        unfold openInode
        rw [if_neg Bool.false_ne_true]
        simp only [locked,leave,bind,Except.bind]
        rfl

end Lookups

end FileTree
