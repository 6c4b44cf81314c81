import HonorKernel.TreeCalls

-- A run with its events, where a step is a relation.
namespace Runs

inductive Trace {State Event : Type*} (step : State → Event → State → Prop) (start : State) : List Event → State → Prop
  | start : Trace step start [] start
  | step : Trace step start events s → step s e s' → Trace step start (events++[e]) s'

theorem Trace.follows {Low High Event : Type*} {low : Low → Event → Low → Prop} {high : High → Event → High → Prop}
    {c₀ c : Low} {s₀ : High} {events : List Event} (path : Trace low c₀ events c) (R : High → Low → Prop)
    (first : R s₀ c₀) (each : ∀ s c e c', R s c → low c e c' → ∃ s', high s e s' ∧ R s' c') :
    ∃ s, Trace high s₀ events s ∧ R s c := by
  induction path with
  | start => exact ⟨s₀,.start,first⟩
  | step _ moved ih =>
    obtain ⟨s,path,related⟩ := ih
    obtain ⟨s',follows,related'⟩ := each s _ _ _ related moved
    exact ⟨s',.step path follows,related'⟩

end Runs

-- Every run of the calls is a run of the tree.
namespace FileTree
open DiskFormat CacheView SysFile NamingTree
open InodeLayer hiding walk

-- The volume stands for the tree while no call runs.
structure Stands (env : Env) (s : State) (vol : Volume) : Prop where
  rooted : Rooted dots rootInodeNo s.tree (· ∈ s.held)
  held : vol.held = s.held
  depicts : Depicts env s.tree (links dots rootInodeNo s.tree) [] (fun q => (s.held.count q : Int)) vol.fs

section References
variable {held : List Usize} {p q : Usize}

theorem count_take (held : List Usize) (p q : Usize) : ((p::held).count q : Int) = held.count q+one p q := by
  rw [List.count_cons]
  unfold one
  by_cases same : q = p
  · subst same
    simp
  · have other : ¬ p = q := fun back => same back.symm
    simp [same,other]

theorem count_drop (mine : p ∈ held) (q : Usize) : (held.count q : Int) = (held.erase p).count q+one p q := by
  rw [← count_take,List.Perm.count_eq (List.perm_cons_erase mine)]

theorem held_counted (held : List Usize) (p : Usize) : p ∈ held ↔ 0 < (held.count p : Int) := by
  rw [Int.natCast_pos,List.count_pos_iff]

end References

section Serving
variable {env : Env} {s : State} {vol vol' : Volume} {fs fs' : Fs} {cwd p q : Usize} {path : List Byte} {reply : Reply}

theorem Stands.found (stands : Stands env s vol) (mine : p ∈ vol.held) : ∃ inode, vol.fs.inodes p = some inode := by
  rw [stands.held] at mine
  exact stands.depicts.found ((held_counted s.held p).mp mine)

theorem Stands.named (stands : Stands env s vol) {r : Request} (proper : Proper env vol r) (is : r.path = some path) :
    Named dots rootInodeNo s.tree (startOf r.reference path) := by
  unfold startOf
  split
  · exact .inl rfl
  · rename_i relative
    obtain ⟨inode,found⟩ := stands.found proper.held
    obtain ⟨_,_,_,node,here,links⟩ := stands.depicts.loaded found
    have linked := proper.linked path is relative
    rw [entryOf_found found] at linked
    refine by_contra fun unnamed => linked ?_
    rw [stands.rooted.links_zero.mpr unnamed] at links
    exact BitVec.eq_of_toNat_eq links

theorem Stands.share (layout : Layout env.sblock) (stands : Stands env s vol) (ran : inodeShare p vol.fs = .ok fs')
    (op : Nat) :
    Stands env (s.take (some p)) ⟨fs',p::vol.held,op⟩ := by
  refine ⟨stands.rooted.mono fun _ mine => List.mem_cons_of_mem _ mine,congrArg (List.cons p) stands.held,?_⟩
  exact (stands.depicts.share layout ran).2.congr (fun _ _ => rfl) fun q => count_take s.held p q

theorem Stands.same (stands : Stands env s vol)
    (depicts : Depicts env s.tree (links dots rootInodeNo s.tree) [] (fun q => (s.held.count q : Int)) fs')
        (op : Nat) : Stands env s ⟨fs',vol.held,op⟩ := ⟨stands.rooted,stands.held,depicts⟩

theorem Stands.openat (layout : Layout env.sblock) (wide : env.sblock.numInodes.toNat ≤ 65536)
    (stands : Stands env s vol) {creat granted : Bool} (proper : Proper env vol (.openat cwd path creat granted))
    (ran : serve env vol (.openat cwd path creat granted) = .ok (reply,vol')) :
    ∃ s', Moves s (.openat cwd path creat granted) reply s' ∧ Stands env s' vol' := by
  have named := stands.named proper rfl
  obtain ⟨⟨ip,fs₁⟩,opened,ran⟩ := Runs.bind_ok.mp ran
  cases ran
  obtain ⟨⟨found,fs₂⟩,located,opened⟩ := Runs.bind_ok.mp opened
  -- What was found or made, and the references behind the rest.
  have ends : ∀ {tree : Tree}, Rooted dots rootInodeNo tree (· ∈ s.held) → (∀ p, found = some p → Named dots rootInodeNo tree p) →
      Depicts env tree (links dots rootInodeNo tree) found.toList ((fun q => (s.held.count q : Int))+taken found) fs₂ →
      ip = (if granted then found else none) ∧ Stands env (State.take ⟨tree,s.held⟩ ip) (vol.commit fs₁ (ip.toList++vol.held)) := by
    intro tree rooted linked depicts
    cases found with
    | none =>
      cases opened
      refine ⟨by split <;> rfl,rooted,stands.held,depicts.congr (fun _ _ => rfl) fun q => (add_zero _).symm⟩
    | some p =>
      simp only at opened
      split at opened
      · rename_i granted
        obtain ⟨fs₃,unlock,opened⟩ := Runs.bind_ok.mp opened
        cases opened
        rw [if_pos granted]
        refine ⟨rfl,rooted.mono fun _ mine => List.mem_cons_of_mem _ mine,congrArg (List.cons p) stands.held,?_⟩
        exact (depicts.unlock (unlocked p) unlock).congr (fun _ _ => rfl) fun q => count_take s.held p q
      · rename_i refused
        obtain ⟨fs₃,leave,opened⟩ := Runs.bind_ok.mp opened
        cases opened
        rw [if_neg refused]
        refine ⟨rfl,rooted,stands.held,?_⟩
        exact (unlockPut_keeps layout rooted (linked p rfl) depicts (unlocked p) leave).congr
            (fun _ _ => rfl) fun q => (add_sub_cancel_right _ _).symm
  split at located
  · rename_i creat
    obtain ⟨tree,creates,rooted,depicts,linked⟩ := create_creates layout wide stands.rooted named
        (.inr (.inl rfl)) stands.depicts located
    obtain ⟨is,last⟩ := ends rooted linked depicts
    rw [creat]
    exact ⟨_,.create creates is,last⟩
  · rename_i plain
    obtain ⟨walked,depicts⟩ := findLocked_walks layout stands.rooted named stands.depicts located
    obtain ⟨is,last⟩ := ends stands.rooted (fun p found => stands.rooted.walk_named named (walked.symm.trans found)) depicts
    rw [Bool.eq_false_of_not_eq_true plain]
    exact ⟨_,.openat (is.trans (by rw [walked]; rfl)),last⟩

theorem makeNode_makes (layout : Layout env.sblock) (wide : env.sblock.numInodes.toNat ≤ 65536)
    (stands : Stands env s vol) (named : Named dots rootInodeNo s.tree (startOf cwd path)) {type major minor : U16}
    (fine : creatable type) {done : Bool}
    (ran : makeNode env ctx cwd path type major minor vol.fs = .ok (done,fs')) :
    ∃ made tree, Creates s cwd path (newNode type major minor) made tree ∧
      done = made.isSome ∧ ∀ op, Stands env ⟨tree,s.held⟩ ⟨fs',vol.held,op⟩ := by
  obtain ⟨⟨ip,fs₁⟩,created,ran⟩ := Runs.bind_ok.mp ran
  obtain ⟨tree,creates,rooted,depicts,linked⟩ := create_creates layout wide stands.rooted named fine stands.depicts created
  cases ip with
  | none =>
    cases ran
    exact ⟨_,tree,creates,rfl,fun op => ⟨rooted,stands.held,depicts.congr (fun _ _ => rfl) fun q => (add_zero _).symm⟩⟩
  | some p =>
    obtain ⟨fs₂,leave,ran⟩ := Runs.bind_ok.mp ran
    cases ran
    refine ⟨_,tree,creates,rfl,fun op => ⟨rooted,stands.held,?_⟩⟩
    exact (unlockPut_keeps layout rooted (linked p rfl) depicts (unlocked p) leave).congr (fun _ _ => rfl) fun q =>
        (add_sub_cancel_right _ _).symm

theorem putReference_drops (layout : Layout env.sblock) {tree : Tree} {held : List Usize} (mine : p ∈ held)
    (rooted : Rooted dots rootInodeNo tree (· ∈ held)) {rc : Usize → Int} (counts : ∀ q, rc q = held.count q)
    (depicts : Depicts env tree (links dots rootInodeNo tree) [] rc fs) (ran : inodePut env ctx p fs = .ok fs')
    (op : Nat) :
    Stands env (State.drop ⟨tree,held⟩ p) ⟨fs',held.erase p,op⟩ := by
  have more : Rooted dots rootInodeNo tree fun c => c ∈ held.erase p ∨ c = p := by
    refine rooted.mono fun c there => ?_
    by_cases own : c = p
    · exact .inr own
    · exact .inl ((List.mem_erase_of_ne own).mpr there)
  have counted : Depicts env tree (links dots rootInodeNo tree) [] ((fun q => ((held.erase p).count q : Int))+one p) fs :=
    depicts.congr (fun _ _ => rfl) fun q => ((counts q).trans (count_drop mine q)).symm
  obtain ⟨rooted',depicts'⟩ := counted.putReference layout more (held_counted (held.erase p)) (fun c => Int.natCast_nonneg _) ran
  exact ⟨rooted',rfl,depicts'⟩

theorem Stands.chdir (layout : Layout env.sblock) (stands : Stands env s vol)
    (proper : Proper env vol (.chdir cwd path)) (ran : serve env vol (.chdir cwd path) = .ok (reply,vol')) :
    ∃ s', Moves s (.chdir cwd path) reply s' ∧ Stands env s' vol' := by
  have named := stands.named proper rfl
  obtain ⟨⟨ip,fs₁⟩,changed,ran⟩ := Runs.bind_ok.mp ran
  cases ran
  obtain ⟨⟨found,fs₂⟩,located,changed⟩ := Runs.bind_ok.mp changed
  obtain ⟨walked,depicts⟩ := namei_walks layout stands.rooted named stands.depicts located
  have walked : found = s.walk cwd path := walked
  cases found with
  | none =>
    cases changed
    refine ⟨s,.chdirFails fun p there => ?_,stands.same (depicts.congr (fun _ _ => rfl) fun q => (add_zero _).symm) _⟩
    cases walked.trans there
  | some p =>
    obtain ⟨fs₃,lock,changed⟩ := Runs.bind_ok.mp changed
    obtain ⟨inode,there,changed⟩ := Runs.bind_ok.mp changed
    have depicts₁ := (depicts.lock lock).2
    obtain ⟨_,drawn,_⟩ := depicts₁.loaded (Fs.inode_ok.mp there)
    split at changed
    · rename_i file
      obtain ⟨fs₄,leave,changed⟩ := Runs.bind_ok.mp changed
      cases changed
      have linked := stands.rooted.walk_named named walked.symm
      refine ⟨s,.chdirFails fun q other => ?_,stands.same ?_ _⟩
      · cases walked.trans other
        exact fun dir => file (drawn.isDir.mpr dir)
      · exact (unlockPut_keeps layout stands.rooted linked depicts₁ (unlocked p) leave).congr
          (fun _ _ => rfl) fun q => (add_sub_cancel_right _ _).symm
    · rename_i directory
      obtain ⟨fs₄,unlock,changed⟩ := Runs.bind_ok.mp changed
      obtain ⟨fs₅,put,changed⟩ := Runs.bind_ok.mp changed
      cases changed
      have mine : cwd ∈ s.held := by
        rw [← stands.held]
        exact proper.held
      have last := putReference_drops layout (List.mem_cons_of_mem p mine)
          (stands.rooted.mono fun _ there => List.mem_cons_of_mem _ there)
        (fun q => (count_take s.held p q).symm) (depicts₁.unlock (unlocked p) unlock) put (vol.op+1)
      refine ⟨_,.chdir walked.symm (drawn.isDir.mp (not_not.mp directory)),?_⟩
      show Stands env _ ⟨fs₁,(p::vol.held).erase cwd,vol.op+1⟩
      rw [stands.held]
      exact last

theorem Stands.unlinkat (layout : Layout env.sblock) (stands : Stands env s vol)
    (proper : Proper env vol (.unlinkat cwd path)) (ran : serve env vol (.unlinkat cwd path) = .ok (reply,vol')) :
    ∃ s', Moves s (.unlinkat cwd path) reply s' ∧ Stands env s' vol' := by
  have named := stands.named proper rfl
  obtain ⟨⟨done,fs₁⟩,removed,ran⟩ := Runs.bind_ok.mp ran
  cases ran
  obtain ⟨tree,ways,rooted,depicts⟩ := unlinkat_removes layout stands.rooted named (held_counted s.held)
      (fun c => Int.natCast_nonneg _) stands.depicts removed
  rcases ways with ⟨rfl,d,m,name,q,removable,rfl⟩ | ⟨rfl,none,rfl⟩
  · exact ⟨_,.unlinkat removable,rooted,stands.held,depicts⟩
  · exact ⟨s,.unlinkFails none,rooted,stands.held,depicts⟩

theorem stati_ok {inode : Inode} (ran : stati inode = .ok e) : e = inode.entry := by
  unfold stati at ran
  split at ran
  · exact (Except.ok.inj ran).symm
  · cases ran

theorem Stands.newfstatat (layout : Layout env.sblock) (stands : Stands env s vol)
    (proper : Proper env vol (.newfstatat cwd path))
    (ran : serve env vol (.newfstatat cwd path) = .ok (reply,vol')) : ∃ s', Moves s (.newfstatat cwd path) reply s' ∧
    Stands env s' vol' := by
  have named := stands.named proper rfl
  obtain ⟨⟨e,fs₁⟩,looked,ran⟩ := Runs.bind_ok.mp ran
  cases ran
  obtain ⟨⟨found,fs₂⟩,located,looked⟩ := Runs.bind_ok.mp looked
  obtain ⟨walked,depicts⟩ := findLocked_walks layout stands.rooted named stands.depicts located
  have walked : found = s.walk cwd path := walked
  cases found with
  | none =>
    cases looked
    exact ⟨s,.nothing walked.symm,stands.same (depicts.congr (fun _ _ => rfl) fun q => (add_zero _).symm) _⟩
  | some p =>
    obtain ⟨inode,there,looked⟩ := Runs.bind_ok.mp looked
    obtain ⟨e,stat,looked⟩ := Runs.bind_ok.mp looked
    obtain ⟨fs₃,leave,looked⟩ := Runs.bind_ok.mp looked
    cases looked
    rw [stati_ok stat]
    have linked := stands.rooted.walk_named named walked.symm
    obtain ⟨_,drawn,_,node,here,links⟩ := depicts.loaded (Fs.inode_ok.mp there)
    rw [here] at drawn
    refine ⟨s,.newfstatat walked.symm here (drawn.shows links),stands.same ?_ _⟩
    exact (unlockPut_keeps layout stands.rooted linked depicts (unlocked p) leave).congr (fun _ _ => rfl) fun q =>
        (add_sub_cancel_right _ _).symm

theorem Stands.fstat (stands : Stands env s vol) (ran : serve env vol (.fstat p) = .ok (reply,vol')) :
    ∃ s', Moves s (.fstat p) reply s' ∧ Stands env s' vol' := by
  obtain ⟨⟨e,fs₁⟩,looked,ran⟩ := Runs.bind_ok.mp ran
  cases ran
  obtain ⟨fs₂,lock,looked⟩ := Runs.bind_ok.mp looked
  obtain ⟨inode,there,looked⟩ := Runs.bind_ok.mp looked
  obtain ⟨e,stat,looked⟩ := Runs.bind_ok.mp looked
  obtain ⟨fs₃,unlock,looked⟩ := Runs.bind_ok.mp looked
  cases looked
  rw [stati_ok stat]
  have depicts := (stands.depicts.lock lock).2
  obtain ⟨_,drawn,_,node,here,links⟩ := depicts.loaded (Fs.inode_ok.mp there)
  rw [here] at drawn
  exact ⟨s,.fstat here (drawn.shows links),stands.same (depicts.unlock (unlocked p) unlock) _⟩

theorem Depicts.device {t : Tree} {ℓ : Usize → Nat} {rc : Usize → Int} (depicts : Depicts env t ℓ [p] rc fs)
    (unlock : inodeUnlock p fs = .ok fs') (lock : inodeLock p fs' = .ok last) : Depicts env t ℓ [p] rc last :=
        ((depicts.unlock (unlocked p) unlock).lock lock).2

theorem Stands.read (stands : Stands env s vol) {off count : Usize} (proper : Proper env vol (.read p off count))
    (ran : serve env vol (.read p off count) = .ok (reply,vol')) : ∃ s', Moves s (.read p off count) reply s' ∧
    Stands env s' vol' := by
  obtain ⟨⟨n,data,fs₁⟩,served,ran⟩ := Runs.bind_ok.mp ran
  cases ran
  obtain ⟨fs₂,lock,served⟩ := Runs.bind_ok.mp served
  obtain ⟨⟨n',data',fs₃⟩,taken,served⟩ := Runs.bind_ok.mp served
  obtain ⟨fs₄,unlock,served⟩ := Runs.bind_ok.mp served
  cases served
  have depicts := (stands.depicts.lock lock).2
  obtain ⟨inode,there,rest⟩ := Runs.bind_ok.mp taken
  have found := Fs.inode_ok.mp there
  obtain ⟨inTable,drawn,_,node,here,_⟩ := depicts.loaded found
  by_cases type : inode.entry.type = inodeDevice
  · obtain ⟨major,minor,rfl⟩ : ∃ major minor, node = .leaf (.device major minor) := by
      rw [here] at drawn
      exact drawn.device type
    have kind : (entryOf env.sblock vol.fs p).type = inodeDevice := by
      have before := stands.depicts.drawn p inTable
      rw [here] at before
      exact before.1
    obtain ⟨line,input⟩ := Option.isSome_iff_exists.mp (proper.reads p off count rfl kind)
    simp only [if_pos type] at rest
    split at rest
    · obtain ⟨fs₅,unlock',rest⟩ := Runs.bind_ok.mp rest
      rw [input] at rest
      obtain ⟨fs₆,lock',rest⟩ := Runs.bind_ok.mp rest
      cases rest
      refine ⟨s,.read here (fun bytes impossible => by cases impossible),stands.same
          ((depicts.device unlock' lock').unlock (unlocked p) unlock) _⟩
    · cases rest
  · obtain ⟨rfl,bytes⟩ := depicts.readFile found type taken
    refine ⟨s,.read here fun bytes' is => ?_,stands.same (depicts.unlock (unlocked p) unlock) _⟩
    exact bytes bytes' (by rw [here,is])

theorem Stands.write (layout : Layout env.sblock) (stands : Stands env s vol) {src : List Byte} {off : Usize}
    (proper : Proper env vol (.write p src off)) (ran : serve env vol (.write p src off) = .ok (reply,vol')) :
    ∃ s', Moves s (.write p src off) reply s' ∧ Stands env s' vol' := by
  obtain ⟨⟨n,fs₁⟩,served,ran⟩ := Runs.bind_ok.mp ran
  cases ran
  obtain ⟨fs₂,lock,served⟩ := Runs.bind_ok.mp served
  obtain ⟨⟨n',fs₃⟩,stored,served⟩ := Runs.bind_ok.mp served
  obtain ⟨fs₄,unlock,served⟩ := Runs.bind_ok.mp served
  cases served
  have depicts := (stands.depicts.lock lock).2
  obtain ⟨inode,there,rest⟩ := Runs.bind_ok.mp stored
  have found := Fs.inode_ok.mp there
  obtain ⟨inTable,drawn,_,node,here,_⟩ := depicts.loaded found
  obtain ⟨other,short⟩ := proper.writes p src off rfl
  have before := stands.depicts.drawn p inTable
  rw [here] at before drawn
  rcases node with (⟨bytes⟩ | ⟨major,minor⟩) | m
  · obtain ⟨rfl,inside,written⟩ := depicts.writeFile layout here (short.trans (by decide)) stored
    obtain ⟨rooted,same⟩ := stands.rooted.setLeaf here (.file (overwrite bytes src off.toNat))
    refine ⟨_,.write here inside,rooted,stands.held,?_⟩
    exact (written.unlock (unlocked p) unlock).congr (fun no _ => same no) fun _ => rfl
  · simp only [if_pos drawn.1] at rest
    split at rest
    · obtain ⟨fs₅,unlock',rest⟩ := Runs.bind_ok.mp rest
      obtain ⟨fs₆,lock',rest⟩ := Runs.bind_ok.mp rest
      cases rest
      exact ⟨s,.print here,stands.same ((depicts.device unlock' lock').unlock (unlocked p) unlock) _⟩
    · cases rest
  · exact absurd before.1 other

-- Every call does to the tree what it says, and gives the answer that the tree gives.
theorem serve_moves (layout : Layout env.sblock) (wide : env.sblock.numInodes.toNat ≤ 65536)
    (stands : Stands env s vol) {r : Request} (proper : Proper env vol r)
    (ran : serve env vol r = .ok (reply,vol')) : ∃ s', Moves s r reply s' ∧ Stands env s' vol' := by
  cases r with
  | share p =>
    obtain ⟨fs',shared,ran⟩ := Runs.bind_ok.mp ran
    cases ran
    exact ⟨_,.share,stands.share layout shared vol.op⟩
  | openat cwd path creat granted => exact stands.openat layout wide proper ran
  | mkdirat cwd path =>
    obtain ⟨⟨done,fs'⟩,made,ran⟩ := Runs.bind_ok.mp ran
    cases ran
    obtain ⟨found,tree,creates,rfl,last⟩ := makeNode_makes layout wide stands (stands.named proper rfl) (.inl rfl) made
    exact ⟨_,.mkdirat creates,last _⟩
  | mknodat cwd path major minor =>
    obtain ⟨⟨done,fs'⟩,made,ran⟩ := Runs.bind_ok.mp ran
    cases ran
    obtain ⟨found,tree,creates,rfl,last⟩ := makeNode_makes layout wide stands (stands.named proper rfl) (.inr (.inr rfl)) made
    exact ⟨_,.mknodat creates,last _⟩
  | unlinkat cwd path => exact stands.unlinkat layout proper ran
  | chdir cwd path => exact stands.chdir layout proper ran
  | newfstatat cwd path => exact stands.newfstatat layout proper ran
  | fstat p => exact stands.fstat ran
  | read p off count => exact stands.read proper ran
  | write p src off => exact stands.write layout proper ran
  | put p =>
    obtain ⟨fs',put,ran⟩ := Runs.bind_ok.mp ran
    cases ran
    have mine : p ∈ s.held := by
      rw [← stands.held]
      exact proper.held
    have last := putReference_drops layout mine stands.rooted (fun _ => rfl) stands.depicts put (vol.op+1)
    refine ⟨_,.put,?_⟩
    show Stands env _ ⟨fs',vol.held.erase p,vol.op+1⟩
    rw [stands.held]
    exact last

theorem Stands.run (layout : Layout env.sblock) (wide : env.sblock.numInodes.toNat ≤ 65536) (stands : Stands env s vol)
    {events : List (Request × Reply)} (path : Runs.Trace (Steps env) vol events vol') :
    ∃ s', Runs.Trace (fun s event s' => Moves s event.1 event.2 s') s events s' ∧ Stands env s' vol' :=
  path.follows (Stands env) stands fun _ _ _ _ stands steps => serve_moves layout wide stands steps.1 steps.2

theorem replay_step {event : Request × Reply} {rest : List (Request × Reply)}
    (ran : replay env vol (event::rest) = some vol') :
    ∃ next, Steps env vol event next ∧ replay env next rest = some vol' := by
  unfold replay at ran
  split at ran
  · rename_i allowed
    obtain ⟨⟨reply,next⟩,served,ran⟩ := Option.bind_eq_some_iff.mp ran
    simp only at ran
    split at ran
    · rename_i same
      exact ⟨next,⟨Allowed.proper allowed,(Runs.toOption_some served).trans (by rw [← same])⟩,ran⟩
    · cases ran
  · cases ran

theorem replay_runs {start : Volume} {before events : List (Request × Reply)}
    (path : Runs.Trace (Steps env) start before vol) (ran : replay env vol events = some vol') :
    Runs.Trace (Steps env) start (before++events) vol' := by
  induction events generalizing before vol with
  | nil =>
    cases ran
    rw [List.append_nil]
    exact path
  | cons event rest ih =>
    obtain ⟨next,steps,ran⟩ := replay_step ran
    have whole := ih (path.step steps) ran
    rwa [List.append_assoc] at whole

end Serving

end FileTree
