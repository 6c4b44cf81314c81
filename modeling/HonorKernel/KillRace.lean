import HonorKernel.ProcessLife

-- kill of kernel/proc.c: find_proc runs in one section under processlock, the marking in
-- a second one. A Proc is memory from kalloc, at an address that is used again.
namespace ProcessTree
open DiskFormat Semaphores

-- `fuel` bounds the depth of the tree. A Proc is UNUSED until start_proc.
def findProc : Nat → Nat → State → Nat → Option Nat
  | 0,_,_,_ => none
  | fuel+1,pid,s,p => if p = pid ∧ s.pc p ≠ .unstarted then some p else (s.children p).findSome? fun c => findProc fuel pid s c

-- `owner` is the pid of the Proc that is allocated at an address, `killed` its flag there.
-- `pending` is a caller of kill between its sections, with the pid it was asked for.
structure Machine where
  tree : State
  addr : Nat → Nat
  owner : Nat → Option Nat
  killed : Nat → Bool
  pending : Nat → Option (Nat × Nat)
  result : Nat → Option Int

inductive Call where
  | create (place : Nat)
  | tree (a : Action)
  | find (t pid : Nat)
  | mark (t : Nat)

-- Who takes a step of the tree itself: not from inside kill.
def Action.actor : Action → Option Nat
  | .setParentToThis p _ | .waitCheck p | .waitSem p _ | .waitResume p | .waitReap p | .exitEnter p _ | .exitChild p | .exitMerge p | .exitPost p
  | .exitHandOver p | .exitSched p => some p
  | .create | .startProc _ | .alert _ => none

-- wait_sem looks at the flag. create_proc is `Call.create`.
def Machine.mayTake (m : Machine) : Action → Prop
  | .create => False
  | .waitSem p k => m.pending p = none ∧ k = m.killed (m.addr p)
  | a => a.actor.all fun t => m.pending t = none

instance (m : Machine) (a : Action) : Decidable (m.mayTake a) := by
  cases a <;> unfold Machine.mayTake <;> infer_instance

-- The memory of a reaped process is free.
def Machine.takeTree (m : Machine) (tree : State) : Machine :=
  { m with tree, owner := fun place => (m.owner place).filter fun q => decide (tree.pc q ≠ .reaped) }

-- alert_proc of the Proc at the address: an UNUSED one is made runnable as well.
def Machine.alerted (m : Machine) (place : Nat) : State :=
  match m.owner place with
  | none => m.tree
  | some q => if m.tree.pc q = .unstarted then m.tree.goto q .running else ((step m.tree (.alert q)).toOption).getD m.tree

def Machine.next (m : Machine) : Call → Option Machine
  | .create place =>
    if m.owner place = none then
      (step m.tree .create).toOption.map fun tree =>
        { m with
          tree
          addr := Function.update m.addr tree.maxPid place
          owner := Function.update m.owner place (some tree.maxPid)
          killed := Function.update m.killed place false }
    else none
  | .tree a => if m.mayTake a then (step m.tree a).toOption.map m.takeTree else none
  | .find t pid =>
    if m.tree.processlock = none ∧ m.tree.pc t = .running ∧ m.pending t = none then
      some (match findProc (m.tree.maxPid+2) pid m.tree rootProc with
        | none => { m with result := Function.update m.result t (some (-1)) }
        | some p => { m with pending := Function.update m.pending t (some (pid,m.addr p)), result := Function.update m.result t none })
    else none
  | .mark t =>
    match m.pending t with
    | none => none
    | some (_,place) =>
      if m.tree.processlock = none then
        some { m with
          tree := m.alerted place
          killed := Function.update m.killed place true
          pending := Function.update m.pending t none
          result := Function.update m.result t (some 0) }
      else none

-- init_kproc. The Proc of the root is no memory of kalloc.
def Machine.boot : Machine where
  tree := ProcessTree.boot
  addr _ := 0
  owner := Function.update (fun _ => none) 0 (some rootProc)
  killed _ := false
  pending _ := none
  result _ := none

-- In the tree, and start_proc has been there.
def State.started (s : State) (q : Nat) : Prop := (s.pc q).there = true ∧ s.pc q ≠ .unstarted

instance (s : State) (q : Nat) : Decidable (s.started q) := inferInstanceAs (Decidable (_ ∧ _))

-- What the next section of any kill does is right: 0 comes with the flag of the Proc that
-- has the pid, allocated, and no other flag; -1 comes where no started process has it.
structure KillsRight (m : Machine) : Prop where
  marks : ∀ t m', m.next (.mark t) = some m' → ∃ pid place, m.pending t = some (pid,place) ∧ m'.result t = some 0 ∧
      m.owner place = some pid ∧
    m.tree.started pid ∧ ∀ q place', m.owner place' = some q → m'.killed place' = if q = pid then true else m.killed place'
  misses : ∀ t pid m', m.next (.find t pid) = some m' → m'.killed = m.killed ∧ (m'.result t = some (-1) ↔ ¬ m.tree.started pid)

-- No wait() gives back the Proc that a kill has found and not marked yet.
def Unreaped (m : Machine) : Call → Prop
  | .tree (.waitReap p) => ∀ z, ((m.tree.children p).find? fun c => m.tree.pc c = .zombie) = some z → ∀ t place, m.pending t ≠ some (z,place)
  | _ => True

section Search
variable {s s' : State} {p q c pid : Nat} {rank : Nat → Nat}

-- From the root downwards the number grows.
structure Ranked (s : State) (rank : Nat → Nat) : Prop where
  root : rank rootProc = 0
  below : ∀ p c, c ∈ s.children p → rank p < rank c

-- `way` leads from `p` to `q`.
def Way (s : State) : Nat → List Nat → Nat → Prop
  | p,[],q => p = q
  | p,c::rest,q => c ∈ s.children p ∧ Way s c rest q

theorem Way.snoc {way : List Nat} (leads : Way s p way q) (child : c ∈ s.children q) : Way s p (way++[c]) c := by
  induction way generalizing p with
  | nil =>
    cases leads
    exact ⟨child,rfl⟩
  | cons x rest ih => exact ⟨leads.1,ih leads.2⟩

theorem Way.above {way : List Nat} (ranked : Ranked s rank) (leads : Way s p way q) :
    (∀ x ∈ way, rank p < rank x) ∧ way.Nodup := by
  induction way generalizing p with
  | nil => exact ⟨fun _ none => absurd none List.not_mem_nil,List.nodup_nil⟩
  | cons x rest ih =>
    have first := ranked.below p x leads.1
    obtain ⟨above,nodup⟩ := ih leads.2
    refine ⟨?_,List.nodup_cons.mpr ⟨fun again => absurd (above x again) (Nat.lt_irrefl _),nodup⟩⟩
    intro y member
    rcases List.mem_cons.mp member with rfl | later
    · exact first
    · exact first.trans (above y later)

theorem Way.there {way : List Nat} (tree : Tree s) (leads : Way s p way q) : ∀ x ∈ way, (s.pc x).there = true := by
  induction way generalizing p with
  | nil => exact fun _ none => absurd none List.not_mem_nil
  | cons x rest ih =>
    intro y member
    rcases List.mem_cons.mp member with rfl | later
    · exact (tree.linked p y leads.1).1
    · exact ih leads.2 y later

theorem Tree.small (tree : Tree s) (there : (s.pc q).there = true) : q ≤ s.maxPid := by
  by_contra above
  have absent := tree.fresh.2 q (by omega)
  rw [absent] at there
  cases there

theorem Way.short {way : List Nat} (tree : Tree s) (ranked : Ranked s rank) (leads : Way s p way q) :
    way.length ≤ s.maxPid+1 := by
  have inside : way ⊆ List.range (s.maxPid+1) := by
    intro x member
    rw [List.mem_range]
    have small := tree.small (leads.there tree x member)
    omega
  have size := ((leads.above ranked).2.subperm inside).length_le
  rwa [List.length_range] at size

theorem Tree.way (tree : Tree s) (ranked : Ranked s rank) (started : s.started q) : ∃ way, Way s rootProc way q := by
  induction bound : rank q using Nat.strong_induction_on generalizing q with
  | _ n ih =>
    by_cases root : q = rootProc
    · exact ⟨[],root.symm⟩
    · obtain ⟨p,child⟩ := tree.attached q (tree.parented q started.1 started.2) root started.1
      have parent : s.started p := by
        have some : ¬ (s.pc p).childless = true := fun childless => by
          rw [tree.childless p childless] at child
          cases child
        cases at_ : s.pc p <;> simp_all [Pc.childless,State.started,Pc.there]
      obtain ⟨way,leads⟩ := ih (rank p) (by rw [← bound]; exact ranked.below p q child) parent rfl
      exact ⟨_,leads.snoc child⟩

theorem findProc_only (fuel : Nat) (found : findProc fuel pid s p = some q) :
    q = pid ∧ s.pc pid ≠ .unstarted ∧ (p = pid ∨ ∃ x, pid ∈ s.children x) := by
  induction fuel generalizing p with
  | zero => cases found
  | succ fuel ih =>
    rw [findProc] at found
    split at found
    · rename_i here
      cases found
      obtain ⟨rfl,unstarted⟩ := here
      exact ⟨rfl,unstarted,.inl rfl⟩
    · obtain ⟨c,child,found⟩ := List.exists_of_findSome?_eq_some found
      obtain ⟨same,unstarted,place⟩ := ih found
      refine ⟨same,unstarted,.inr ?_⟩
      rcases place with rfl | listed
      · exact ⟨p,child⟩
      · exact listed

theorem findProc_reaches {way : List Nat} (fuel : Nat) (started : s.pc pid ≠ .unstarted) (leads : Way s p way pid)
    (short : way.length < fuel) :
    findProc fuel pid s p = some pid := by
  induction fuel generalizing p way with
  | zero => omega
  | succ fuel ih =>
    rw [findProc]
    by_cases here : p = pid ∧ s.pc p ≠ .unstarted
    · rw [if_pos here,here.1]
    · rw [if_neg here]
      cases way with
      | nil =>
        cases leads
        exact absurd ⟨rfl,started⟩ here
      | cons c rest =>
        have found := ih leads.2 (Nat.lt_of_succ_lt_succ short)
        cases all : (s.children p).findSome? fun c => findProc fuel pid s c with
        | none =>
          rw [List.findSome?_eq_none_iff] at all
          rw [all c leads.1] at found
          cases found
        | some q => rw [(findProc_only fuel (List.exists_of_findSome?_eq_some all).choose_spec.2).1]

theorem findProc_exact (tree : Tree s) (ranked : Ranked s rank) (rooted : s.started rootProc) (pid : Nat) :
    findProc (s.maxPid+2) pid s rootProc = if s.started pid then some pid else none := by
  split
  · rename_i started
    obtain ⟨way,leads⟩ := tree.way ranked started
    have short := leads.short tree ranked
    exact findProc_reaches _ started.2 leads (by omega)
  · rename_i none
    cases found : findProc (s.maxPid+2) pid s rootProc with
    | none => rfl
    | some q =>
      obtain ⟨_,unstarted,place⟩ := findProc_only _ found
      refine absurd ⟨?_,unstarted⟩ none
      rcases place with rfl | ⟨x,child⟩
      · exact rooted.1
      · exact (tree.linked x pid child).1

end Search

section Steps
variable {s s' t u : State} {p q c x : Nat} {a : Action} {pc : Pc}

-- What a step can do to the lists of children.
inductive Grown (s s' : State) : Prop where
  | less (kept : ∀ p, s'.children p ⊆ s.children p)
  | adopted (p q : Nat) (orphan : s.parent q = none) (unstarted : s.pc q = .unstarted) (busy : (s.pc p).busy = true)
      (children : s'.children = Function.update s.children p (q::s.children p))
  | merged (p : Nat) (children : s'.children = Function.update (Function.update s.children rootProc (s.children p++s.children rootProc)) p [])

-- What it can do to the stage a process is at.
inductive Stage (s : State) (a : Action) (s' : State) (q : Nat) : Prop where
  | same (same : s'.pc q = s.pc q)
  | further (before : s.started q) (after : s'.started q)
  | begun (before : s.pc q = .unstarted) (after : s'.started q)
  | gone (before : s.started q) (after : s'.pc q = .reaped) (p : Nat) (reap : a = .waitReap p)
      (found : ((s.children p).find? fun c => s.pc c = .zombie) = some q)

theorem State.started_of (s : State) (at_ : s.pc p = pc) (there : pc.there = true) (past : pc ≠ .unstarted) :
    s.started p := by
  unfold State.started
  rw [at_]
  exact ⟨there,past⟩

theorem goto_stage (before : s.started p) (pcs : s'.pc = (s.goto p pc).pc) (there : pc.there = true)
    (past : pc ≠ .unstarted) (q : Nat) :
    Stage s a s' q := by
  by_cases same : q = p
  · subst same
    have after : s'.pc q = pc := by rw [pcs,goto_pc,if_pos rfl]
    exact .further before (s'.started_of after there past)
  · exact .same (by rw [pcs,goto_pc,if_neg same])

theorem post_stage (posted : s.post x = .ok t) (q : Nat) : t.children = s.children ∧
    (t.pc q = s.pc q ∨ (s.pc q = .waitAsleep ∧ t.pc q = .waitAwake)) := by
  obtain ⟨⟨who,sem⟩,_,last⟩ := Runs.bind_ok.mp posted
  cases who with
  | none =>
    cases last
    exact ⟨rfl,.inl rfl⟩
  | some p =>
    cases last
    refine ⟨rfl,?_⟩
    simp only [State.grant,State.setSem,Function.update_apply]
    split
    · rename_i same
      rw [same]
      by_cases asleep : s.pc p = .waitAsleep
      · exact .inr ⟨asleep,if_pos asleep⟩
      · exact .inl (if_neg asleep)
    · exact .inl rfl

theorem posted_stage (posted : u.post x = .ok t) (same : u.pc = s.pc) (before : s.started p)
    (pcs : s'.pc = (t.goto p pc).pc) (there : pc.there = true) (past : pc ≠ .unstarted) (q : Nat) : Stage s a s' q := by
  by_cases own : q = p
  · subst own
    have after : s'.pc q = pc := by rw [pcs,goto_pc,if_pos rfl]
    exact .further before (s'.started_of after there past)
  · have now : s'.pc q = t.pc q := by rw [pcs,goto_pc,if_neg own]
    rcases (post_stage posted q).2 with kept | ⟨asleep,awake⟩
    · exact .same (by rw [now,kept,same])
    · rw [same] at asleep
      exact .further (s.started_of asleep rfl Pc.noConfusion) (s'.started_of (now.trans awake) rfl Pc.noConfusion)

theorem same_children (same : s'.children = s.children) : Grown s s' := .less fun p => by rw [same]; exact List.Subset.refl _

theorem goto_shape (before : s.pc p = pc') (started : pc'.there = true) (begun : pc' ≠ .unstarted)
    (pcs : s'.pc = (s.goto p pc).pc) (there : pc.there = true) (past : pc ≠ .unstarted)
    (same : s'.children = s.children) : Grown s s' ∧ ∀ q, Stage s a s' q :=
  ⟨same_children same,goto_stage (s.started_of before started begun) pcs there past⟩

theorem waitReap_shape (ran : step s (.waitReap p) = .ok s') : Grown s s' ∧ ∀ q, Stage s (.waitReap p) s' q := by
  simp only [step] at ran
  split at ran
  · rename_i guard
    split at ran
    · cases ran
      exact goto_shape guard.2 rfl Pc.noConfusion rfl rfl Pc.noConfusion rfl
    · rename_i z found
      cases ran
      have zombie : s.pc z = .zombie := by simpa using List.find?_some found
      refine ⟨.less ?_,?_⟩
      · intro x
        simp only [State.goto,State.setChildren,Function.update_apply]
        split
        · rename_i own
          rw [own]
          exact List.erase_subset
        · exact List.Subset.refl _
      · intro q
        by_cases own : q = p
        · subst own
          refine .further (s.started_of guard.2 rfl Pc.noConfusion) ?_
          refine State.started_of _ (show _ = Pc.running from ?_) rfl Pc.noConfusion
          simp only [goto_pc,if_true]
        · by_cases dead : q = z
          · subst dead
            refine .gone (s.started_of zombie rfl Pc.noConfusion) ?_ p rfl found
            simp only [goto_pc,if_neg own,if_true]
          · refine .same ?_
            simp only [goto_pc,if_neg own,if_neg dead]
            rfl
  · cases ran

theorem step_shape (inv : Inv s) (ran : step s a = .ok s') (other : a ≠ .create) :
    Grown s s' ∧ ∀ q, Stage s a s' q := by
  cases a with
  | create => exact absurd rfl other
  | setParentToThis p q =>
    simp only [step] at ran
    split at ran
    · rename_i guard
      split at ran
      · rename_i orphan
        cases ran
        exact ⟨.adopted p q orphan guard.2.2 (by rw [guard.2.1]; rfl) rfl,fun _ => .same rfl⟩
      · cases ran
    · cases ran
  | startProc q =>
    simp only [step] at ran
    have begins : ∀ {u : State}, u.pc = s.pc → s.pc q = .unstarted → ∀ x, Stage s (.startProc q) (u.goto q .running) x := by
      intro u same unstarted x
      by_cases own : x = q
      · rw [own]
        exact .begun unstarted (State.started_of _ ((goto_pc u q q _).trans (if_pos rfl)) rfl Pc.noConfusion)
      · exact .same (by rw [goto_pc,if_neg own,same])
    split at ran
    · rename_i guard
      split at ran
      · rename_i orphan
        cases ran
        exact ⟨.adopted rootProc q orphan guard.2 inv.tree.rootBusy rfl,begins rfl guard.2⟩
      · cases ran
        exact ⟨same_children rfl,begins rfl guard.2⟩
    · cases ran
  | waitCheck p =>
    simp only [step] at ran
    split at ran
    · rename_i guard
      cases ran
      split
      · exact ⟨same_children rfl,fun _ => .same rfl⟩
      · exact goto_shape guard.2 rfl Pc.noConfusion rfl rfl Pc.noConfusion rfl
    · cases ran
  | waitSem p killed =>
    simp only [step] at ran
    split at ran
    · rename_i checked
      split at ran
      · cases ran
        exact goto_shape checked rfl Pc.noConfusion rfl rfl Pc.noConfusion rfl
      · cases ran
        refine goto_shape checked rfl Pc.noConfusion rfl ?_ ?_ rfl <;> cases killed <;> simp [Pc.there]
    · cases ran
  | alert p =>
    simp only [step] at ran
    split at ran
    · rename_i asleep
      cases ran
      exact goto_shape asleep rfl Pc.noConfusion rfl rfl Pc.noConfusion rfl
    · cases ran
  | waitResume p =>
    simp only [step] at ran
    split at ran
    · rename_i awake
      split at ran
      · cases ran
        exact goto_shape awake rfl Pc.noConfusion rfl rfl Pc.noConfusion rfl
      · obtain ⟨sem,_,last⟩ := Runs.bind_ok.mp ran
        cases last
        exact goto_shape awake rfl Pc.noConfusion rfl rfl Pc.noConfusion rfl
    · cases ran
  | waitReap p => exact waitReap_shape ran
  | exitEnter p code =>
    simp only [step] at ran
    split at ran
    · rename_i guard
      split at ran
      · cases ran
      · cases ran
        exact goto_shape guard.2 rfl Pc.noConfusion rfl rfl Pc.noConfusion rfl
    · cases ran
  | exitChild p =>
    simp only [step] at ran
    split at ran
    · rename_i v c rest at_
      split at ran
      · obtain ⟨t,posted,last⟩ := Runs.bind_ok.mp ran
        cases last
        refine ⟨same_children ?_,posted_stage posted rfl (s.started_of at_ rfl Pc.noConfusion) rfl rfl Pc.noConfusion⟩
        exact (post_stage posted 0).1
      · cases ran
        exact goto_shape at_ rfl Pc.noConfusion rfl rfl Pc.noConfusion rfl
    · cases ran
  | exitMerge p =>
    simp only [step] at ran
    split at ran
    · rename_i v at_
      cases ran
      exact ⟨.merged p rfl,goto_stage (s.started_of at_ rfl Pc.noConfusion) rfl rfl Pc.noConfusion⟩
    · cases ran
  | exitPost p =>
    simp only [step] at ran
    split at ran
    · rename_i guard
      split at ran
      · cases ran
      · obtain ⟨t,posted,last⟩ := Runs.bind_ok.mp ran
        cases last
        refine ⟨same_children ?_,posted_stage posted rfl (s.started_of guard.2 rfl Pc.noConfusion) rfl rfl Pc.noConfusion⟩
        exact (post_stage posted 0).1
    · cases ran
  | exitHandOver p =>
    simp only [step] at ran
    split at ran
    · rename_i guard
      cases ran
      exact goto_shape guard.1 rfl Pc.noConfusion rfl rfl Pc.noConfusion rfl
    · cases ran
  | exitSched p =>
    simp only [step] at ran
    split at ran
    · rename_i posted
      cases ran
      exact goto_shape posted rfl Pc.noConfusion rfl rfl Pc.noConfusion rfl
    · cases ran

theorem Ranked.grown {rank : Nat → Nat} (ranked : Ranked s rank) (inv : Inv s) (grown : Grown s s') :
    ∃ rank', Ranked s' rank' := by
  cases grown with
  | less kept => exact ⟨rank,ranked.root,fun p c child => ranked.below p c (kept p child)⟩
  | merged p children =>
    refine ⟨rank,ranked.root,?_⟩
    intro x c child
    rw [children,Function.update_apply,Function.update_apply] at child
    split at child
    · cases child
    · split at child
      · rename_i root
        rw [root]
        rcases List.mem_append.mp child with handed | own
        · have above := ranked.below p c handed
          rw [ranked.root]
          omega
        · exact ranked.below rootProc c own
      · exact ranked.below x c child
  | adopted p q orphan unstarted busy children =>
    have notRoot : q ≠ rootProc := by
      intro root
      have busy' := inv.tree.rootBusy
      rw [← root,unstarted] at busy'
      cases busy'
    have other : p ≠ q := by
      intro same
      rw [same,unstarted] at busy
      cases busy
    have nobody : ∀ x, q ∉ s.children x := by
      intro x child
      rcases (inv.tree.linked x q child).2.2 with direct | ⟨_,_,_,_,direct⟩ <;> rw [orphan] at direct <;> cases direct
    have alone : s.children q = [] := inv.tree.childless q (by rw [unstarted]; rfl)
    refine ⟨Function.update rank q (rank p+1),?_,?_⟩
    · rw [Function.update_of_ne notRoot.symm]
      exact ranked.root
    · intro x c child
      have old : c ∈ s.children x → Function.update rank q (rank p+1) x < Function.update rank q (rank p+1) c := by
        intro child
        have left : x ≠ q := by
          intro same
          rw [same,alone] at child
          cases child
        have right : c ≠ q := by
          intro same
          rw [same] at child
          exact nobody x child
        rw [Function.update_of_ne left,Function.update_of_ne right]
        exact ranked.below x c child
      rw [children,Function.update_apply] at child
      split at child
      · rename_i own
        rcases List.mem_cons.mp child with rfl | before
        · rw [own,Function.update_of_ne other,Function.update_self]
          exact Nat.lt_succ_self _
        · rw [← own] at before
          exact old before
      · exact old child

end Steps

section Kill
variable {m m' : Machine} {call : Call} {tree : State} {a : Action} {t p q pid place : Nat}

-- A Proc of the tree is allocated at its address; what kill has found is in the tree.
structure Machine.Inv (m : Machine) : Prop where
  tree : ProcessTree.Inv m.tree
  ranked : ∃ rank, Ranked m.tree rank
  owned : ∀ q, (m.tree.pc q).there = true → m.owner (m.addr q) = some q
  owners : ∀ place q, m.owner place = some q → (m.tree.pc q).there = true ∧ m.addr q = place
  pending : ∀ t pid place, m.pending t = some (pid,place) → m.tree.started pid ∧ m.addr pid = place

theorem Machine.boot_inv : Machine.boot.Inv := by
  refine ⟨ProcessTree.boot_inv,⟨fun _ => 0,rfl,fun _ _ none => absurd none List.not_mem_nil⟩,?_,?_,?_⟩
  · intro q there
    simp only [Machine.boot,ProcessTree.boot,Function.update_apply] at there ⊢
    split at there
    · rename_i root
      rw [if_pos trivial,root]
    · cases there
  · intro place q owner
    simp only [Machine.boot,ProcessTree.boot,Function.update_apply] at owner ⊢
    split at owner
    · rename_i zero
      cases owner
      exact ⟨rfl,zero.symm⟩
    · cases owner
  · intro t pid place pending
    cases pending

theorem Stage.there (stage : Stage s a s' q) (there : (s'.pc q).there = true) : (s.pc q).there = true := by
  cases stage with
  | same same => rwa [same] at there
  | further before after => exact before.1
  | begun before after => rw [before]; rfl
  | gone before after => exact before.1

theorem Stage.alive (stage : Stage s a s' q) (there : (s.pc q).there = true) (kept : s'.pc q ≠ .reaped) :
    (s'.pc q).there = true := by
  cases stage with
  | same same => rwa [same]
  | further before after => exact after.1
  | begun before after => exact after.1
  | gone before after => exact absurd after kept

-- A step of the tree frees nothing but the Proc of a process that was reaped.
theorem Machine.Inv.taken (inv : m.Inv) (ran : step m.tree a = .ok tree) (other : a ≠ .create)
    (unreaped : Unreaped m (.tree a)) :
    (m.takeTree tree).Inv := by
  obtain ⟨rank,ranked⟩ := inv.ranked
  obtain ⟨grown,stages⟩ := step_shape inv.tree ran other
  refine ⟨step_inv inv.tree ran,ranked.grown inv.tree grown,?_,?_,?_⟩
  · intro q there
    change (m.owner (m.addr q)).filter _ = some q
    rw [inv.owned q ((stages q).there there),Option.filter_some,if_pos]
    refine decide_eq_true ?_
    intro reaped
    rw [show (m.takeTree tree).tree = tree from rfl,reaped] at there
    cases there
  · intro place q owner
    obtain ⟨owner,kept⟩ := Option.filter_eq_some_iff.mp owner
    obtain ⟨there,addr⟩ := inv.owners place q owner
    exact ⟨(stages q).alive there (of_decide_eq_true kept),addr⟩
  · intro t pid place pending
    obtain ⟨started,addr⟩ := inv.pending t pid place pending
    refine ⟨?_,addr⟩
    cases stages pid with
    | same same =>
      unfold State.started
      rw [show (m.takeTree tree).tree = tree from rfl,same]
      exact started
    | further before after => exact after
    | begun before after => exact after
    | gone before after p reap found =>
      subst reap
      exact absurd pending (unreaped pid found t place)

theorem Machine.Inv.created (inv : m.Inv) (free : m.owner place = none) (ran : step m.tree .create = .ok tree) :
    Machine.Inv { m with
      tree
      addr := Function.update m.addr tree.maxPid place
      owner := Function.update m.owner place (some tree.maxPid)
      killed := Function.update m.killed place false } := by
  have after := step_inv inv.tree ran
  simp only [step] at ran
  split at ran
  · cases ran
    obtain ⟨rank,ranked⟩ := inv.ranked
    have absent := inv.tree.tree.fresh.2 (m.tree.maxPid+1) (Nat.lt_succ_self _)
    have old : ∀ q, (m.tree.pc q).there = true → q ≠ m.tree.maxPid+1 := by
      intro q there same
      rw [same,absent] at there
      cases there
    refine ⟨after,⟨rank,ranked.root,ranked.below⟩,?_,?_,?_⟩
    · intro q there
      simp only [goto_pc,Function.update_apply] at there ⊢
      split
      · rename_i new
        rw [if_pos rfl,new]
      · rename_i before
        rw [if_neg before] at there
        have owner := inv.owned q there
        rw [if_neg,owner]
        intro same
        rw [same,free] at owner
        cases owner
    · intro place' q owner
      simp only [goto_pc,Function.update_apply] at owner ⊢
      split at owner
      · rename_i here
        cases owner
        rw [if_pos rfl,if_pos rfl]
        exact ⟨rfl,here.symm⟩
      · obtain ⟨there,addr⟩ := inv.owners place' q owner
        rw [if_neg (old q there),if_neg (old q there)]
        exact ⟨there,addr⟩
    · intro t pid place' pending
      obtain ⟨started,addr⟩ := inv.pending t pid place' pending
      unfold State.started
      simp only [goto_pc,Function.update_apply,if_neg (old pid started.1)]
      exact ⟨started,addr⟩
  · cases ran

theorem Machine.Inv.rooted (inv : m.Inv) : m.tree.started rootProc := by
  have busy := inv.tree.tree.rootBusy
  exact ⟨(Pc.busy_parts busy).1,(Pc.busy_parts busy).2.1⟩

theorem Machine.Inv.finds (inv : m.Inv) (pid : Nat) :
    findProc (m.tree.maxPid+2) pid m.tree rootProc = if m.tree.started pid then some pid else none := by
  obtain ⟨rank,ranked⟩ := inv.ranked
  exact findProc_exact inv.tree.tree ranked inv.rooted pid

-- kill has found a Proc that is still at its address: the marking section goes there.
theorem Machine.Inv.marked (inv : m.Inv) (pending : m.pending t = some (pid,place)) : m.owner place = some pid ∧
    (m.alerted place = m.tree ∨ step m.tree (.alert pid) = .ok (m.alerted place)) := by
  obtain ⟨started,addr⟩ := inv.pending t pid place pending
  have owner := inv.owned pid started.1
  rw [addr] at owner
  refine ⟨owner,?_⟩
  unfold Machine.alerted
  rw [owner]
  simp only [if_neg started.2]
  cases ran : step m.tree (.alert pid) with
  | error e => exact .inl rfl
  | ok tree => exact .inr rfl

theorem Machine.next_inv (inv : m.Inv) (unreaped : Unreaped m call) (ran : m.next call = some m') : m'.Inv := by
  cases call with
  | create place =>
    simp only [Machine.next] at ran
    split at ran
    · rename_i free
      obtain ⟨tree,stepped,last⟩ := Option.map_eq_some_iff.mp ran
      rw [← last]
      exact inv.created free (Runs.toOption_some stepped)
    · cases ran
  | tree a =>
    simp only [Machine.next] at ran
    split at ran
    · rename_i may
      obtain ⟨tree,stepped,last⟩ := Option.map_eq_some_iff.mp ran
      rw [← last]
      refine inv.taken (Runs.toOption_some stepped) ?_ unreaped
      intro create
      subst create
      exact may
    · cases ran
  | find t pid =>
    simp only [Machine.next] at ran
    split at ran
    · rw [inv.finds] at ran
      cases ran
      split
      · exact ⟨inv.tree,inv.ranked,inv.owned,inv.owners,inv.pending⟩
      · rename_i p found
        split at found
        · rename_i started
          cases found
          refine ⟨inv.tree,inv.ranked,inv.owned,inv.owners,?_⟩
          intro t' pid' place pending
          simp only [Function.update_apply] at pending
          split at pending
          · cases pending
            exact ⟨started,rfl⟩
          · exact inv.pending t' pid' place pending
        · cases found
    · cases ran
  | mark t =>
    simp only [Machine.next] at ran
    split at ran
    · cases ran
    · rename_i pid place pending
      split at ran
      · cases ran
        have less : ∀ t' pid' place', Function.update m.pending t none t' = some (pid',place') → m.pending t' = some
            (pid',place') := by
          intro t' pid' place' pending
          rw [Function.update_apply] at pending
          split at pending
          · cases pending
          · exact pending
        rcases (inv.marked pending).2 with same | alerted
        · simp only [same]
          exact ⟨inv.tree,inv.ranked,inv.owned,inv.owners,fun t' pid' place' pending => inv.pending t' pid' place'
              (less t' pid' place' pending)⟩
        · obtain ⟨rank,ranked⟩ := inv.ranked
          obtain ⟨grown,stages⟩ := step_shape inv.tree alerted Action.noConfusion
          refine ⟨step_inv inv.tree alerted,ranked.grown inv.tree grown,fun q there => inv.owned q ((stages q).there there),?_,?_⟩
          · intro place' q owner
            obtain ⟨there,addr⟩ := inv.owners place' q owner
            refine ⟨?_,addr⟩
            cases stages q with
            | same same => rw [same]; exact there
            | further before after => exact after.1
            | begun before after => exact after.1
            | gone before after p reap found => cases reap
          · intro t' pid' place' pending'
            obtain ⟨started,addr⟩ := inv.pending t' pid' place' (less t' pid' place' pending')
            refine ⟨?_,addr⟩
            cases stages pid' with
            | same same => unfold State.started; rw [same]; exact started
            | further before after => exact after
            | begun before after => exact after
            | gone before after p reap found => cases reap
      · cases ran

theorem Machine.Inv.killsRight (inv : m.Inv) : KillsRight m := by
  refine ⟨?_,?_⟩
  · intro t m' ran
    simp only [Machine.next] at ran
    split at ran
    · cases ran
    · rename_i pid place pending
      split at ran
      · cases ran
        obtain ⟨owner,_⟩ := inv.marked pending
        obtain ⟨started,addr⟩ := inv.pending t pid place pending
        refine ⟨pid,place,pending,Function.update_self ..,owner,started,?_⟩
        intro q place' held
        change Function.update m.killed place true place' = _
        rw [Function.update_apply]
        by_cases here : place' = place
        · rw [here,owner] at held
          cases held
          rw [if_pos here,if_pos rfl]
        · rw [if_neg here,if_neg]
          intro same
          rw [same] at held
          exact here ((inv.owners place' pid held).2.symm.trans addr)
      · cases ran
  · intro t pid m' ran
    simp only [Machine.next] at ran
    split at ran
    · rw [inv.finds] at ran
      cases ran
      by_cases started : m.tree.started pid
      · simp only [if_pos started,Function.update_self]
        exact ⟨trivial,fun none => (by cases none),fun absent => absurd started absent⟩
      · simp only [if_neg started,Function.update_self]
        exact ⟨trivial,fun _ => started,fun _ => trivial⟩
    · cases ran

theorem waitReap_reaps (ran : step s (.waitReap p) = .ok s')
    (found : ((s.children p).find? fun c => s.pc c = .zombie) = some z) :
    s'.pc z = .reaped ∧ s'.processlock = none := by
  simp only [step] at ran
  split at ran
  · rename_i guard
    rw [found] at ran
    cases ran
    have zombie : s.pc z = .zombie := by simpa using List.find?_some found
    have other : z ≠ p := by
      intro same
      rw [same,guard.2] at zombie
      cases zombie
    refine ⟨?_,guard.1.1⟩
    simp only [goto_pc,if_neg other,if_true]
  · cases ran

-- The marking section after such a wait() writes to memory that is nobody's.
theorem reaped_wrong (pending : m.pending t = some (pid,place)) (owner : m.owner place = some pid)
    (reaped : tree.pc pid = .reaped) (free : tree.processlock = none) : ¬ KillsRight (m.takeTree tree) := by
  intro right
  obtain ⟨pid',place',pending',_,owner',_⟩ := right.marks t _ (by
    simp only [Machine.next]
    rw [show (m.takeTree tree).pending t = some (pid,place) from pending]
    exact if_pos free)
  rw [show (m.takeTree tree).pending t = some (pid,place) from pending] at pending'
  cases pending'
  obtain ⟨owner',kept⟩ := Option.filter_eq_some_iff.mp owner'
  rw [owner] at owner'
  cases owner'
  exact of_decide_eq_true kept reaped

-- A run in which no wait() reaps a Proc between the two sections of a kill that found it.
theorem kill_hits (path : Runs.Guarded Machine.next Unreaped Machine.boot m) :
    KillsRight m ∧ ∀ call m', m.next call = some m' → (KillsRight m' ↔ Unreaped m call) := by
  have inv := path.invariant Machine.Inv Machine.boot_inv fun _ _ _ inv unreaped ran => Machine.next_inv inv unreaped ran
  refine ⟨inv.killsRight,?_⟩
  intro call m' ran
  refine ⟨?_,fun unreaped => (Machine.next_inv inv unreaped ran).killsRight⟩
  intro right
  cases call with
  | tree a =>
    cases a with
    | waitReap p =>
      intro z found t place pending
      simp only [Machine.next] at ran
      split at ran
      · obtain ⟨tree,stepped,last⟩ := Option.map_eq_some_iff.mp ran
        obtain ⟨reaped,free⟩ := waitReap_reaps (Runs.toOption_some stepped) found
        rw [← last] at right
        exact reaped_wrong pending (inv.marked pending).1 reaped free right
      · cases ran
    | _ => trivial
  | _ => trivial

-- 2 kills its running child 3.
theorem kill_hits_child : ∃ m, KillsRight m ∧ m.killed 2000 = true ∧ m.killed 1000 = false ∧ m.result 2 = some 0 ∧
    m.owner 2000 = some 3 := by
  obtain ⟨m,ran,facts⟩ : ∃ m, Runs.exec Machine.next Machine.boot [.create 1000,.tree (.startProc 2),.create 2000,
      .tree (.setParentToThis 2 3),
      .tree (.startProc 3),.find 2 3,.mark 2] = some m ∧
      decide (m.killed 2000 = true ∧ m.killed 1000 = false ∧ m.result 2 = some 0 ∧ m.owner 2000 = some 3) = true :=
    Runs.some_such (by decide +kernel)
  refine ⟨m,(kill_hits (Runs.exec_always .start ?_ ran)).1,of_decide_eq_true facts⟩
  intro call member m
  simp only [List.mem_cons,List.not_mem_nil,or_false] at member
  rcases member with rfl | rfl | rfl | rfl | rfl | rfl | rfl <;> trivial

-- 4 asks for 3 and has found it when 2 reaps 3 and makes 5 in its place: 5 gets the flag.
theorem kill_hits_another : ∃ m, Runs.Reached Machine.next Machine.boot m ∧ ¬ KillsRight m ∧ ∃ m',
    m.next (.mark 4) = some m' ∧
    m.pending 4 = some (3,2000) ∧ m'.result 4 = some 0 ∧ m.owner 2000 = some 5 ∧ m.killed 2000 = false ∧
    m'.killed 2000 = true := by
  obtain ⟨m,ran,facts⟩ : ∃ m, Runs.exec Machine.next Machine.boot [.create 1000,.tree (.startProc 2),.create 2000,
      .tree (.setParentToThis 2 3),
      .tree (.startProc 3),.create 3000,.tree (.startProc 4),.tree (.exitEnter 3 0),.tree (.exitMerge 3),.tree (.exitPost 3),
      .tree (.exitHandOver 3),.tree (.exitSched 3),.find 4 3,.tree (.waitCheck 2),.tree (.waitSem 2 false),.tree (.waitReap 2),
      .create 2000,.tree (.startProc 5)] = some m ∧
      (decide (m.pending 4 = some (3,2000) ∧ m.owner 2000 = some 5 ∧ m.killed 2000 = false) &&
        (m.next (.mark 4)).any fun m' => decide (m'.result 4 = some 0 ∧ m'.killed 2000 = true)) = true :=
    Runs.some_such (by decide +kernel)
  rw [Bool.and_eq_true] at facts
  obtain ⟨m',marked,after⟩ := Runs.some_such facts.2
  have before := of_decide_eq_true facts.1
  have after := of_decide_eq_true after
  refine ⟨m,Runs.exec_reached .start ran,?_,m',marked,before.1,after.1,before.2.1,before.2.2,after.2⟩
  intro right
  obtain ⟨pid,place,pending,_,owner,_⟩ := right.marks 4 m' marked
  rw [before.1] at pending
  cases pending
  rw [before.2.1] at owner
  cases owner

end Kill

end ProcessTree
