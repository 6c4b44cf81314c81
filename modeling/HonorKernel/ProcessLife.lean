import HonorKernel.ProcessTree

namespace ProcessTree
open DiskFormat Semaphores

-- Every process is on the list of its parent; while an exiting process visits its
-- children, those it has visited have root as parent and are still on its own list.
structure Tree (s : State) : Prop where
  distinct : ∀ p, (s.children p).Nodup
  once : ∀ p q c, c ∈ s.children p → c ∈ s.children q → p = q
  linked : ∀ p c, c ∈ s.children p → (s.pc c).there = true ∧ c ≠ rootProc ∧
    (s.parent c = some p ∨ ∃ visited rest, s.pc p = .exitLoop visited rest ∧ c ∈ visited ∧ s.parent c = some rootProc)
  attached : ∀ c, s.parent c ≠ none → c ≠ rootProc → (s.pc c).there = true → ∃ p, c ∈ s.children p
  parented : ∀ c, (s.pc c).there = true → s.pc c ≠ .unstarted → s.parent c ≠ none
  childless : ∀ p, (s.pc p).childless = true → s.children p = []
  loop : ∀ p visited rest, s.pc p = .exitLoop visited rest → s.children p = visited++rest
  moved : ∀ p visited rest, s.pc p = .exitLoop visited rest → ∀ c ∈ visited, s.parent c = some rootProc
  root : (s.pc rootProc).entered = false ∧ (s.pc rootProc).childless = false
  fresh : rootProc ≤ s.maxPid ∧ ∀ c, s.maxPid < c → s.pc c = .absent
  absent : ∀ c, s.pc c = .absent → s.parent c = none ∧ s.childexit c = initSem 0

structure Locks (s : State) : Prop where
  process : ∀ p, (s.pc p).locking = true ↔ s.processlock = some p
  sched : ∀ p, s.pc p = .exitPosted ↔ s.schedlock = some p
  one : s.processlock = none ∨ s.schedlock = none

-- Only `p` itself waits on its childexit.
structure Sems (s : State) : Prop where
  counted : ∀ p, Counted (s.childexit p)
  sleeps : ∀ p, (s.childexit p).sleeplist = if (s.pc p).inWait = true ∧ s.up p = false then [p] else []

-- The posts root has got for children that are not on its list yet.
def State.looped (s : State) (p : Nat) : Nat :=
  if p = rootProc then
    match s.processlock with
    | none => 0
    | some x =>
      match s.pc x with
      | .exitLoop visited _ => visited.countP fun c => s.pc c = .zombie
      | _ => 0
  else 0

def State.owed (s : State) (p : Nat) : Nat := (s.children p).countP fun c => (s.pc c).late

def Books (s : State) : Prop := ∀ p, (s.pc p).entered = false → s.posts p+s.granted p = s.owed p+s.looped p

-- A process is returned once, when it is reaped, with its exit code.
structure Log (s : State) : Prop where
  once : ∀ q, s.returned.countP (fun r => r.2.1 = q) = if s.pc q = .reaped then 1 else 0
  code : ∀ r ∈ s.returned, r.2.2 = s.exitcode r.2.1

structure Inv (s : State) : Prop where
  tree : Tree s
  locks : Locks s
  sems : Sems s
  books : Books s
  log : Log s

-- Running, or anywhere in wait().
def Pc.busy : Pc → Bool
  | .running | .waitChecked | .waitAsleep | .waitAwake | .waitGranted => true
  | _ => false

theorem Pc.busy_parts {pc : Pc} (busy : pc.busy = true) : pc.there = true ∧ pc ≠ .unstarted ∧ pc.childless = false ∧
    pc.entered = false ∧
    pc.locking = false ∧ pc.late = false ∧ pc ≠ .absent ∧ pc ≠ .exitPosted ∧ pc ≠ .reaped ∧ pc ≠ .zombie ∧ ∀ v r,
    pc ≠ .exitLoop v r := by
  cases pc <;> simp_all [Pc.busy,Pc.there,Pc.childless,Pc.entered,Pc.locking,Pc.late]

section Moves
variable {s s' : State} {p : Nat}

theorem goto_pc (s : State) (p q : Nat) (pc : Pc) : (s.goto p pc).pc q = if q = p then pc else s.pc q := by
  simp only [State.goto,Function.update_apply]

-- Nothing that the tree, the locks and the log look at has changed, but for processes
-- that went on within wait().
structure Alike (s s' : State) : Prop where
  pcs : ∀ p, s'.pc p = s.pc p ∨ ((s.pc p).busy = true ∧ (s'.pc p).busy = true)
  parent : s'.parent = s.parent
  children : s'.children = s.children
  exitcode : s'.exitcode = s.exitcode
  maxPid : s'.maxPid = s.maxPid
  processlock : s'.processlock = s.processlock
  schedlock : s'.schedlock = s.schedlock
  returned : s'.returned = s.returned
  idle : ∀ p, s.pc p = .absent → s'.childexit p = s.childexit p

theorem Alike.same (alike : Alike s s') {f : Pc → Bool} (flat : ∀ pc pc' : Pc, pc.busy = true → pc'.busy = true →
    f pc = f pc') (p : Nat) :
    f (s'.pc p) = f (s.pc p) := by
  rcases alike.pcs p with same | ⟨before,after⟩
  · rw [same]
  · exact flat _ _ after before

theorem Alike.eq_iff (alike : Alike s s') (pc : Pc) (other : pc.busy = false) (p : Nat) :
    s'.pc p = pc ↔ s.pc p = pc := by
  rcases alike.pcs p with same | ⟨before,after⟩
  · rw [same]
  · constructor
    · intro equal
      rw [equal,other] at after
      cases after
    · intro equal
      rw [equal,other] at before
      cases before

theorem Alike.there (alike : Alike s s') (p : Nat) : (s'.pc p).there = (s.pc p).there :=
  alike.same (fun _ _ left right => (Pc.busy_parts left).1.trans (Pc.busy_parts right).1.symm) p

theorem Alike.childless (alike : Alike s s') (p : Nat) : (s'.pc p).childless = (s.pc p).childless :=
  alike.same (fun _ _ left right => (Pc.busy_parts left).2.2.1.trans (Pc.busy_parts right).2.2.1.symm) p

theorem Alike.entered (alike : Alike s s') (p : Nat) : (s'.pc p).entered = (s.pc p).entered :=
  alike.same (fun _ _ left right => (Pc.busy_parts left).2.2.2.1.trans (Pc.busy_parts right).2.2.2.1.symm) p

theorem Alike.locking (alike : Alike s s') (p : Nat) : (s'.pc p).locking = (s.pc p).locking :=
  alike.same (fun _ _ left right => (Pc.busy_parts left).2.2.2.2.1.trans (Pc.busy_parts right).2.2.2.2.1.symm) p

theorem Alike.late (alike : Alike s s') (p : Nat) : (s'.pc p).late = (s.pc p).late :=
  alike.same (fun _ _ left right => (Pc.busy_parts left).2.2.2.2.2.1.trans (Pc.busy_parts right).2.2.2.2.2.1.symm) p

theorem Tree.alike (tree : Tree s) (alike : Alike s s') : Tree s' := by
  refine ⟨?_,?_,?_,?_,?_,?_,?_,?_,?_,?_,?_⟩
  · rw [alike.children]
    exact tree.distinct
  · rw [alike.children]
    exact tree.once
  · intro p c member
    rw [alike.children] at member
    obtain ⟨there,notRoot,parent⟩ := tree.linked p c member
    refine ⟨(alike.there c).trans there,notRoot,?_⟩
    rw [alike.parent]
    rcases parent with direct | ⟨visited,rest,at_,listed,parent⟩
    · exact .inl direct
    · exact .inr ⟨visited,rest,(alike.eq_iff _ rfl p).mpr at_,listed,parent⟩
  · intro c parent notRoot there
    rw [alike.parent] at parent
    rw [alike.there] at there
    rw [alike.children]
    exact tree.attached c parent notRoot there
  · intro c there started
    rw [alike.there] at there
    rw [alike.parent]
    exact tree.parented c there fun same => started ((alike.eq_iff .unstarted rfl c).mpr same)
  · intro p childless
    rw [alike.childless] at childless
    rw [alike.children]
    exact tree.childless p childless
  · intro p visited rest at_
    rw [alike.children]
    exact tree.loop p visited rest ((alike.eq_iff _ rfl p).mp at_)
  · intro p visited rest at_
    rw [alike.parent]
    exact tree.moved p visited rest ((alike.eq_iff _ rfl p).mp at_)
  · rw [alike.entered,alike.childless]
    exact tree.root
  · rw [alike.maxPid]
    exact ⟨tree.fresh.1,fun c above => (alike.eq_iff .absent rfl c).mpr (tree.fresh.2 c above)⟩
  · intro c absent
    have before := (alike.eq_iff .absent rfl c).mp absent
    rw [alike.parent,alike.idle c before]
    exact tree.absent c before

theorem Locks.alike (locks : Locks s) (alike : Alike s s') : Locks s' := by
  refine ⟨?_,?_,?_⟩
  · intro p
    rw [alike.locking,alike.processlock]
    exact locks.process p
  · intro p
    rw [alike.eq_iff .exitPosted rfl,alike.schedlock]
    exact locks.sched p
  · rw [alike.processlock,alike.schedlock]
    exact locks.one

theorem Log.alike (log : Log s) (alike : Alike s s') : Log s' := by
  refine ⟨?_,?_⟩
  · intro q
    rw [alike.returned,log.once q]
    by_cases reaped : s.pc q = .reaped
    · rw [if_pos reaped,if_pos ((alike.eq_iff .reaped rfl q).mpr reaped)]
    · rw [if_neg reaped,if_neg (fun now => reaped ((alike.eq_iff .reaped rfl q).mp now))]
  · rw [alike.returned,alike.exitcode]
    exact log.code

theorem Alike.owed (alike : Alike s s') (p : Nat) : s'.owed p = s.owed p := by
  unfold State.owed
  rw [alike.children]
  simp only [alike.late]

theorem Alike.looped (alike : Alike s s') (p : Nat) : s'.looped p = s.looped p := by
  unfold State.looped
  rw [alike.processlock]
  split
  · cases s.processlock with
    | none => rfl
    | some x =>
      have zombies : ∀ visited : List Nat, (visited.countP fun c => s'.pc c = .zombie) = visited.countP fun c => s.pc c = .zombie := by
        intro visited
        refine List.countP_congr ?_
        intro c _
        simp only [decide_eq_true_eq]
        exact alike.eq_iff .zombie rfl c
      rcases alike.pcs x with same | ⟨before,after⟩
      · simp only [same,zombies]
      · have left := (Pc.busy_parts before).2.2.2.2.2.2.2.2.2.2
        have right := (Pc.busy_parts after).2.2.2.2.2.2.2.2.2.2
        cases one : s.pc x <;> cases two : s'.pc x <;> simp_all
  · rfl

theorem goto_alike (busy : (s.pc p).busy = true) (after : pc.busy = true) : Alike s (s.goto p pc) := by
  refine ⟨?_,rfl,rfl,rfl,rfl,rfl,rfl,rfl,fun _ _ => rfl⟩
  intro q
  rw [goto_pc]
  by_cases same : q = p
  · subst same
    exact .inr ⟨busy,by rw [if_pos rfl]; exact after⟩
  · exact .inl (if_neg same)

theorem Alike.trans {s'' : State} (first : Alike s s') (second : Alike s' s'') : Alike s s'' := by
  refine ⟨?_,second.parent.trans first.parent,second.children.trans first.children,second.exitcode.trans first.exitcode,
    second.maxPid.trans first.maxPid,second.processlock.trans first.processlock,second.schedlock.trans first.schedlock,
    second.returned.trans first.returned,?_⟩
  · intro p
    rcases first.pcs p with same | ⟨before,middle⟩
    · rcases second.pcs p with same' | both
      · exact .inl (same'.trans same)
      · exact .inr (by rw [same] at both; exact both)
    · rcases second.pcs p with same' | ⟨_,after⟩
      · exact .inr ⟨before,by rw [same']; exact middle⟩
      · exact .inr ⟨before,after⟩
  · intro p absent
    rw [second.idle p ((first.eq_iff .absent rfl p).mpr absent),first.idle p absent]

-- A step of this kind keeps the books if it keeps each process's own sum.
theorem Inv.alike (inv : Inv s) (alike : Alike s s') (sems : Sems s') (sums : ∀ p, (s.pc p).entered = false →
    s'.posts p+s'.granted p = s.posts p+s.granted p) : Inv s' := by
  refine ⟨inv.tree.alike alike,inv.locks.alike alike,sems,?_,inv.log.alike alike⟩
  intro p outside
  rw [alike.entered] at outside
  rw [sums p outside,alike.owed,alike.looped]
  exact inv.books p outside

end Moves

section Waits
variable {s s' : State} {p : Nat}

-- Only `p` has moved, and only its semaphore has changed.
def Elsewhere (p : Nat) (s s' : State) : Prop := ∀ q, q ≠ p → s'.childexit q = s.childexit q ∧ s'.pc q = s.pc q ∧ s'.up q = s.up q

theorem setSem_alike (there : s.pc p ≠ .absent) (sem : Semaphore) : Alike s (s.setSem p sem) := by
  refine ⟨fun _ => .inl rfl,rfl,rfl,rfl,rfl,rfl,rfl,rfl,?_⟩
  intro q absent
  have other : q ≠ p := by
    intro same
    rw [same] at absent
    exact there absent
  exact Function.update_of_ne other _ _

theorem Sems.change (sems : Sems s) (counted : Counted (s'.childexit p))
    (own : (s'.childexit p).sleeplist = if (s'.pc p).inWait = true ∧ s'.up p = false then [p] else [])
    (others : Elsewhere p s s') : Sems s' := by
  refine ⟨?_,?_⟩
  · intro q
    by_cases same : q = p
    · rw [same]
      exact counted
    · rw [(others q same).1]
      exact sems.counted q
  · intro q
    by_cases same : q = p
    · rw [same]
      exact own
    · obtain ⟨sem,pc,up⟩ := others q same
      rw [sem,pc,up]
      exact sems.sleeps q

theorem sums_change (own : (s.pc p).entered = false → s'.posts p+s'.granted p = s.posts p+s.granted p)
    (others : Elsewhere p s s') : ∀ q, (s.pc q).entered = false → s'.posts q+s'.granted q = s.posts q+s.granted q := by
  intro q outside
  by_cases same : q = p
  · rw [same] at outside ⊢
    exact own outside
  · obtain ⟨sem,pc,up⟩ := others q same
    unfold State.posts State.granted
    rw [sem,pc,up]

-- post_sem(&p->childexit): the count goes up or the process is granted its wait.
structure Posted (p : Nat) (s s' : State) : Prop where
  alike : Alike s s'
  sems : Sems s'
  sum : s'.posts p+s'.granted p = s.posts p+s.granted p+1
  others : Elsewhere p s s'

theorem post_posted (sems : Sems s) (there : s.pc p ≠ .absent) : ∃ s', s.post p = .ok s' ∧ Posted p s s' := by
  have counted := sems.counted p
  have sleeps := sems.sleeps p
  unfold State.post
  rcases counted.post with ⟨free,empty,returned⟩ | ⟨negative,rest,q,list,returned⟩
  · have others : Elsewhere p s (s.setSem p ⟨(s.childexit p).val+1,[]⟩) := fun q other => ⟨Function.update_of_ne other _ _,rfl,rfl⟩
    rw [empty] at sleeps
    rw [returned]
    refine ⟨_,rfl,setSem_alike there _,sems.change (p := p) ?_ ?_ others,?_,others⟩
    · simp only [State.setSem,Function.update_self]
      unfold Counted
      simp only [List.length_nil]
      omega
    · simp only [State.setSem,Function.update_self]
      exact sleeps
    · unfold State.posts State.granted State.setSem
      simp only [Function.update_self]
      omega
  · have asleep : (s.pc p).inWait = true ∧ s.up p = false := by
      by_contra not
      rw [if_neg not,list] at sleeps
      simp at sleeps
    rw [if_pos asleep,list] at sleeps
    obtain ⟨rfl,rfl⟩ : rest = [] ∧ q = p := by
      cases rest with
      | nil => exact ⟨rfl,by simpa using sleeps⟩
      | cons head tail => simp at sleeps
    have one : (s.childexit q).val = -1 := by
      unfold Counted at counted
      rw [list] at counted
      simp only [List.nil_append,List.length_singleton] at counted
      omega
    have wake : (if s.pc q = .waitAsleep then Pc.waitAwake else s.pc q).inWait = true ∧
        (if s.pc q = .waitAsleep then Pc.waitAwake else s.pc q).busy = true ∧ (s.pc q).busy = true := by
      have inside := asleep.1
      revert inside
      cases s.pc q <;> simp [Pc.inWait,Pc.busy]
    have others : Elsewhere q s ((s.setSem q ⟨(s.childexit q).val+1,[]⟩).grant q) :=
      fun r other => ⟨Function.update_of_ne other _ _,Function.update_of_ne other _ _,Function.update_of_ne other _ _⟩
    rw [returned]
    refine ⟨_,rfl,⟨?_,rfl,rfl,rfl,rfl,rfl,rfl,rfl,?_⟩,sems.change (p := q) ?_ ?_ others,?_,others⟩
    · intro r
      by_cases same : r = q
      · subst same
        refine .inr ⟨wake.2.2,?_⟩
        simp only [State.grant,Function.update_self]
        exact wake.2.1
      · exact .inl (others r same).2.1
    · intro r absent
      refine (others r ?_).1
      intro same
      rw [same] at absent
      exact there absent
    · simp only [State.grant,State.setSem,Function.update_self]
      unfold Counted
      simp only [List.length_nil]
      omega
    · simp only [State.grant,State.setSem,Function.update_self]
      rw [if_neg (by simp)]
    · unfold State.posts State.granted
      simp only [State.grant,State.setSem,Function.update_self]
      have before : ¬ (s.pc q = .waitGranted ∨ ((s.pc q).inWait = true ∧ s.up q = true)) := by
        intro either
        rcases either with granted | ⟨_,up⟩
        · rw [granted] at asleep
          cases asleep.1
        · rw [asleep.2] at up
          cases up
      rw [if_neg before,if_pos (.inr ⟨wake.1,trivial⟩),one]
      rfl

theorem waitCheck_inv (inv : Inv s) (running : s.pc p = .running) : Inv (s.goto p .waitChecked) := by
  have others : Elsewhere p s (s.goto p .waitChecked) := fun q other => ⟨rfl,Function.update_of_ne other _ _,rfl⟩
  have sleeps := inv.sems.sleeps p
  rw [running] at sleeps
  refine inv.alike (goto_alike (by rw [running]; rfl) rfl) (inv.sems.change (p := p) (inv.sems.counted p) ?_ others)
      (sums_change (p := p) ?_ others)
  · simp only [goto_pc,if_pos]
    exact sleeps
  · intro _
    unfold State.posts State.granted
    simp only [goto_pc,if_pos,running]
    rfl

theorem waitSem_inv (inv : Inv s) (ran : step s (.waitSem p killed) = .ok s') : Inv s' := by
  simp only [step] at ran
  split at ran
  · rename_i checked
    have busy : (s.pc p).busy = true := by rw [checked]; rfl
    have there := (Pc.busy_parts busy).2.2.2.2.2.2.1
    have counted := inv.sems.counted p
    have sleeps := inv.sems.sleeps p
    rw [if_neg (by rw [checked]; simp [Pc.inWait])] at sleeps
    have idle : s.granted p = 0 := by
      unfold State.granted
      rw [checked]
      rfl
    have counted' := counted.wait p
    unfold waitSem at ran counted'
    split at ran
    · rename_i sem entered
      split at entered
      · rename_i available
        cases entered
        cases ran
        rw [if_pos available] at counted'
        have others : Elsewhere p s ((s.setSem p ⟨(s.childexit p).val-1,(s.childexit p).sleeplist⟩).goto p .waitGranted) :=
          fun q other => ⟨Function.update_of_ne other _ _,Function.update_of_ne other _ _,rfl⟩
        refine inv.alike ((setSem_alike there _).trans (goto_alike busy rfl)) (inv.sems.change (p := p) ?_ ?_ others)
            (sums_change (p := p) ?_ others)
        · simp only [State.goto,State.setSem,Function.update_self]
          exact counted'
        · simp only [State.goto,State.setSem,Function.update_self]
          exact sleeps
        · intro _
          rw [idle]
          unfold State.posts State.granted
          simp only [State.goto,State.setSem,Function.update_self]
          rw [if_pos (.inl trivial)]
          omega
      · cases entered
    · rename_i sem entered
      split at entered
      · cases entered
      · rename_i unavailable
        cases entered
        cases ran
        rw [if_neg unavailable] at counted'
        have inside : (if killed = true then Pc.waitAwake else .waitAsleep).inWait = true ∧
            (if killed = true then Pc.waitAwake else .waitAsleep).busy = true := by cases killed <;> exact ⟨rfl,rfl⟩
        have alike := (setSem_alike there ⟨(s.childexit p).val-1,p::(s.childexit p).sleeplist⟩).trans (goto_alike busy inside.2)
        refine inv.alike ⟨alike.pcs,rfl,rfl,rfl,rfl,rfl,rfl,rfl,alike.idle⟩ (inv.sems.change (p := p) ?_ ?_ ?_)
            (sums_change (p := p) ?_ ?_)
        case refine_3 => exact fun q other => ⟨Function.update_of_ne other _ _,Function.update_of_ne other _ _,Function.update_of_ne other _ _⟩
        case refine_5 => exact fun q other => ⟨Function.update_of_ne other _ _,Function.update_of_ne other _ _,Function.update_of_ne other _ _⟩
        · simp only [State.goto,State.setSem,Function.update_self]
          exact counted'
        · simp only [State.goto,State.setSem,Function.update_self]
          rw [if_pos ⟨inside.1,trivial⟩,sleeps]
        · intro _
          rw [idle]
          unfold State.posts State.granted
          simp only [State.goto,State.setSem,Function.update_self]
          rw [if_neg (by cases killed <;> simp)]
          omega
  · cases ran

theorem alert_inv (inv : Inv s) (asleep : s.pc p = .waitAsleep) : Inv (s.goto p .waitAwake) := by
  have others : Elsewhere p s (s.goto p .waitAwake) := fun q other => ⟨rfl,Function.update_of_ne other _ _,rfl⟩
  have sleeps := inv.sems.sleeps p
  rw [asleep] at sleeps
  refine inv.alike (goto_alike (by rw [asleep]; rfl) rfl) (inv.sems.change (p := p) (inv.sems.counted p) ?_ others)
      (sums_change (p := p) ?_ others)
  · simp only [goto_pc,if_pos]
    exact sleeps
  · intro _
    unfold State.posts State.granted
    simp only [goto_pc,if_pos,asleep]
    simp [State.goto,Pc.inWait]

theorem waitResume_inv (inv : Inv s) (ran : step s (.waitResume p) = .ok s') : Inv s' := by
  simp only [step] at ran
  split at ran
  · rename_i awake
    have busy : (s.pc p).busy = true := by rw [awake]; rfl
    have counted := inv.sems.counted p
    have sleeps := inv.sems.sleeps p
    rw [awake] at sleeps
    split at ran
    · rename_i granted
      cases ran
      have others : Elsewhere p s (s.goto p .waitGranted) := fun q other => ⟨rfl,Function.update_of_ne other _ _,rfl⟩
      rw [if_neg (by simp [granted])] at sleeps
      refine inv.alike (goto_alike busy rfl) (inv.sems.change (p := p) counted ?_ others) (sums_change (p := p) ?_ others)
      · simp only [goto_pc,if_pos]
        exact sleeps
      · intro _
        unfold State.posts State.granted
        simp only [goto_pc,if_pos,awake]
        rw [if_pos (.inl trivial),if_pos (.inr ⟨rfl,granted⟩)]
        rfl
    · rename_i waiting
      have waiting : s.up p = false := by simpa using waiting
      rw [if_pos ⟨rfl,waiting⟩] at sleeps
      have listed : p ∈ (s.childexit p).sleeplist := by rw [sleeps]; exact List.mem_cons_self
      obtain ⟨left,counted'⟩ := counted.leave listed
      rw [left] at ran
      cases ran
      have others : Elsewhere p s ((s.setSem p ⟨(s.childexit p).val+1,(s.childexit p).sleeplist.erase p⟩).goto p .running) :=
        fun q other => ⟨Function.update_of_ne other _ _,Function.update_of_ne other _ _,rfl⟩
      refine inv.alike ((setSem_alike (Pc.busy_parts busy).2.2.2.2.2.2.1 _).trans (goto_alike busy rfl))
        (inv.sems.change (p := p) ?_ ?_ others) (sums_change (p := p) ?_ others)
      · simp only [State.goto,State.setSem,Function.update_self]
        exact counted'
      · simp only [State.goto,State.setSem,Function.update_self,sleeps]
        rw [if_neg (by simp [Pc.inWait])]
        simp
      · intro _
        unfold Counted at counted
        rw [sleeps] at counted
        unfold State.posts State.granted
        simp only [State.goto,State.setSem,Function.update_self]
        rw [awake,if_neg (by simp [Pc.inWait]),if_neg (by simp [waiting])]
        simp only [List.length_singleton] at counted
        omega
  · cases ran

end Waits

section Families
variable {s s' : State} {p q : Nat}

theorem countP_late (s s' : State) (list : List Nat) (same : ∀ c ∈ list, (s'.pc c).late = (s.pc c).late) :
    (list.countP fun c => (s'.pc c).late) = list.countP fun c => (s.pc c).late := by
  refine List.countP_congr ?_
  intro c member
  rw [same c member]

theorem looped_unlocked (free : s.processlock = none) : s.looped p = 0 := by
  unfold State.looped
  rw [free]
  split <;> rfl

theorem Locks.quiet (locks : Locks s) (free : s.processlock = none) (p : Nat) : (s.pc p).locking = false := by
  rw [Bool.eq_false_iff]
  intro locking
  have holds := (locks.process p).mp locking
  rw [free] at holds
  cases holds

theorem create_inv (inv : Inv s) (free : s.processlock = none) : Inv {s.goto (s.maxPid+1) .unstarted with maxPid := s.maxPid+1} := by
  have absent : s.pc (s.maxPid+1) = .absent := inv.tree.fresh.2 _ (Nat.lt_succ_self _)
  obtain ⟨orphan,unused⟩ := inv.tree.absent _ absent
  have root : rootProc ≠ s.maxPid+1 := by
    have := inv.tree.fresh.1
    omega
  have pcs : ∀ c, (s.goto (s.maxPid+1) .unstarted).pc c = if c = s.maxPid+1 then .unstarted else s.pc c :=
    fun c => goto_pc s _ c _
  generalize new : s.maxPid+1 = n at *
  have notChild : ∀ p, n ∉ s.children p := by
    intro p member
    have there := (inv.tree.linked p n member).1
    rw [absent] at there
    cases there
  refine ⟨⟨inv.tree.distinct,inv.tree.once,?_,?_,?_,?_,?_,?_,?_,?_,?_⟩,⟨?_,?_,inv.locks.one⟩,?_,?_,⟨?_,inv.log.code⟩⟩
  · intro p c member
    have other : c ≠ n := fun same => notChild p (same ▸ member)
    obtain ⟨there,notRoot,parent⟩ := inv.tree.linked p c member
    simp only [pcs,if_neg other]
    refine ⟨there,notRoot,?_⟩
    rcases parent with direct | ⟨visited,rest,at_,listed,parent⟩
    · exact .inl direct
    · have apart : p ≠ n := by
        intro same
        rw [same,absent] at at_
        cases at_
      exact .inr ⟨visited,rest,by rw [if_neg apart]; exact at_,listed,parent⟩
  · intro c parent notRoot there
    have other : c ≠ n := fun same => parent (same ▸ orphan)
    simp only [pcs,if_neg other] at there
    exact inv.tree.attached c parent notRoot there
  · intro c there started
    simp only [pcs] at there started
    by_cases same : c = n
    · rw [if_pos same] at started
      exact absurd rfl started
    · rw [if_neg same] at there started
      exact inv.tree.parented c there started
  · intro p childless
    simp only [pcs] at childless
    by_cases same : p = n
    · rw [same]
      exact inv.tree.childless n (by rw [absent]; rfl)
    · rw [if_neg same] at childless
      exact inv.tree.childless p childless
  · intro p visited rest at_
    simp only [pcs] at at_
    by_cases same : p = n
    · rw [if_pos same] at at_
      cases at_
    · rw [if_neg same] at at_
      exact inv.tree.loop p visited rest at_
  · intro p visited rest at_
    simp only [pcs] at at_
    by_cases same : p = n
    · rw [if_pos same] at at_
      cases at_
    · rw [if_neg same] at at_
      exact inv.tree.moved p visited rest at_
  · simp only [pcs,if_neg root]
    exact inv.tree.root
  · refine ⟨by have := inv.tree.fresh.1; simp only; omega,?_⟩
    intro c above
    simp only at above
    simp only [pcs,if_neg (show c ≠ n by omega)]
    exact inv.tree.fresh.2 c (by omega)
  · intro c gone
    simp only [pcs] at gone
    by_cases same : c = n
    · rw [if_pos same] at gone
      cases gone
    · rw [if_neg same] at gone
      exact inv.tree.absent c gone
  · intro p
    simp only [pcs]
    by_cases same : p = n
    · change _ ↔ s.processlock = some p
      rw [if_pos same,same,← inv.locks.process n,absent]
      rfl
    · rw [if_neg same]
      exact inv.locks.process p
  · intro p
    simp only [pcs]
    by_cases same : p = n
    · change _ ↔ s.schedlock = some p
      rw [if_pos same,same,← inv.locks.sched n,absent]
      simp
    · rw [if_neg same]
      exact inv.locks.sched p
  · refine inv.sems.change (p := n) (inv.sems.counted n) ?_ ?_
    · have sleeps := inv.sems.sleeps n
      rw [absent] at sleeps
      simp only [pcs,if_pos]
      exact sleeps
    · intro q other
      exact ⟨rfl,by simp only [pcs,if_neg other],rfl⟩
  · intro p outside
    have owed : State.owed {s.goto n .unstarted with maxPid := n} p = s.owed p := by
      refine countP_late _ _ _ ?_
      intro c member
      simp only [pcs,if_neg (fun same : c = n => notChild p (same ▸ member))]
    rw [owed,looped_unlocked (s := {s.goto n .unstarted with maxPid := n}) free]
    by_cases same : p = n
    · subst same
      have none : s.owed p = 0 := by
        unfold State.owed
        rw [inv.tree.childless p (by rw [absent]; rfl)]
        rfl
      rw [none]
      unfold State.posts State.granted
      simp only [pcs,if_pos]
      rw [show (s.goto p .unstarted).childexit p = s.childexit p from rfl,unused]
      rfl
    · have before := inv.books p (by simpa only [pcs,if_neg same] using outside)
      rw [looped_unlocked free] at before
      rw [← before]
      unfold State.posts State.granted
      simp only [pcs,if_neg same]
      rfl
  · intro q
    simp only [pcs]
    have once := inv.log.once q
    by_cases same : q = n
    · rw [same,absent] at once
      rw [if_pos same,same]
      exact once
    · rw [if_neg same]
      exact once

theorem adopt_inv (inv : Inv s) (busy : (s.pc p).busy = true) (unstarted : s.pc q = .unstarted)
    (orphan : s.parent q = none) : Inv ((s.setParent p q).setChildren p (q::s.children p)) := by
  have notRoot : q ≠ rootProc := by
    intro same
    have root := inv.tree.root.2
    rw [← same,unstarted] at root
    cases root
  have alone : ∀ r, q ∉ s.children r := by
    intro r member
    rcases (inv.tree.linked r q member).2.2 with direct | ⟨_,_,_,_,parent⟩
    · rw [orphan] at direct
      cases direct
    · rw [orphan] at parent
      cases parent
  have kids : ∀ r, ((s.setParent p q).setChildren p
      (q::s.children p)).children r = if r = p then q::s.children p else s.children r := by
    intro r
    simp only [State.setChildren,State.setParent,Function.update_apply]
  have mems : ∀ r c, c ∈ ((s.setParent p q).setChildren p (q::s.children p)).children r ↔ (r = p ∧ c = q) ∨ c ∈ s.children r := by
    intro r c
    rw [kids]
    by_cases same : r = p
    · subst same
      simp
    · simp [same]
  have parents : ∀ c, ((s.setParent p q).setChildren p (q::s.children p)).parent c = if c = q then some p else s.parent c := by
    intro c
    simp only [State.setChildren,State.setParent,Function.update_apply]
  have notLoop := (Pc.busy_parts busy).2.2.2.2.2.2.2.2.2.2
  refine ⟨⟨?_,?_,?_,?_,?_,?_,?_,?_,inv.tree.root,inv.tree.fresh,?_⟩,⟨inv.locks.process,inv.locks.sched,inv.locks.one⟩,
    ⟨inv.sems.counted,inv.sems.sleeps⟩,?_,⟨inv.log.once,inv.log.code⟩⟩
  · intro r
    rw [kids]
    split
    · exact List.nodup_cons.mpr ⟨alone p,inv.tree.distinct p⟩
    · exact inv.tree.distinct r
  · intro a b c left right
    rcases (mems a c).mp left with ⟨here,new⟩ | old
    · rcases (mems b c).mp right with ⟨there,_⟩ | old
      · rw [here,there]
      · rw [new] at old
        exact absurd old (alone b)
    · rcases (mems b c).mp right with ⟨_,new⟩ | old'
      · rw [new] at old
        exact absurd old (alone a)
      · exact inv.tree.once a b c old old'
  · intro r c member
    rw [parents]
    rcases (mems r c).mp member with ⟨rfl,rfl⟩ | member
    · refine ⟨?_,notRoot,.inl (if_pos rfl)⟩
      change (s.pc c).there = true
      rw [unstarted]
      rfl
    · rw [if_neg (fun same : c = q => alone r (same ▸ member))]
      exact inv.tree.linked r c member
  · intro c parent notRoot there
    by_cases same : c = q
    · exact ⟨p,(mems p c).mpr (.inl ⟨rfl,same⟩)⟩
    · rw [parents,if_neg same] at parent
      obtain ⟨r,member⟩ := inv.tree.attached c parent notRoot there
      exact ⟨r,(mems r c).mpr (.inr member)⟩
  · intro c there started
    rw [parents]
    split
    · simp
    · exact inv.tree.parented c there started
  · intro r childless
    have other : r ≠ p := by
      intro same
      rw [same] at childless
      exact absurd ((Pc.busy_parts busy).2.2.1.symm.trans childless) (by decide)
    rw [kids,if_neg other]
    exact inv.tree.childless r childless
  · intro r visited rest at_
    have other : r ≠ p := fun same => notLoop visited rest (same ▸ at_)
    rw [kids,if_neg other]
    exact inv.tree.loop r visited rest at_
  · intro r visited rest at_ c listed
    have other : c ≠ q := by
      intro same
      refine alone r ?_
      rw [inv.tree.loop r visited rest at_,← same]
      exact List.mem_append_left _ listed
    rw [parents,if_neg other]
    exact inv.tree.moved r visited rest at_ c listed
  · intro c absent
    have other : c ≠ q := by
      intro same
      rw [same] at absent
      exact absurd (unstarted.symm.trans absent) (by decide)
    rw [parents,if_neg other]
    exact inv.tree.absent c absent
  · intro r outside
    have before := inv.books r outside
    have owed : ((s.setParent p q).setChildren p (q::s.children p)).owed r = s.owed r := by
      unfold State.owed
      rw [kids]
      split
      · rename_i same
        have early : ¬ (s.pc q).late = true := by
          rw [unstarted]
          decide
        rw [same]
        exact List.countP_cons_of_neg early
      · rfl
    rw [owed]
    exact before

theorem start_inv (inv : Inv s) (free : s.processlock = none) (unstarted : s.pc q = .unstarted)
    (parent : s.parent q ≠ none) :
    Inv (s.goto q .running) := by
  have root : rootProc ≠ q := by
    intro same
    have root := inv.tree.root.2
    rw [same,unstarted] at root
    cases root
  have pcs : ∀ c, (s.goto q .running).pc c = if c = q then .running else s.pc c := fun c => goto_pc s q c _
  have there : ∀ c, ((s.goto q .running).pc c).there = (s.pc c).there := by
    intro c
    rw [pcs]
    split
    · rename_i same
      rw [same,unstarted]
      rfl
    · rfl
  have eqs : ∀ c pc, pc ≠ .running → pc ≠ .unstarted → ((s.goto q .running).pc c = pc ↔ s.pc c = pc) := by
    intro c pc left right
    rw [pcs]
    split
    · rename_i same
      rw [same,unstarted]
      exact ⟨fun equal => absurd equal.symm left,fun equal => absurd equal.symm right⟩
    · rfl
  refine ⟨⟨inv.tree.distinct,inv.tree.once,?_,?_,?_,?_,?_,?_,?_,⟨inv.tree.fresh.1,?_⟩,?_⟩,⟨?_,?_,inv.locks.one⟩,?_,
      ?_,⟨?_,inv.log.code⟩⟩
  · intro p c member
    obtain ⟨alive,notRoot,parent⟩ := inv.tree.linked p c member
    refine ⟨(there c).trans alive,notRoot,?_⟩
    rcases parent with direct | ⟨visited,rest,at_,listed,parent⟩
    · exact .inl direct
    · exact .inr ⟨visited,rest,(eqs p _ (by simp) (by simp)).mpr at_,listed,parent⟩
  · intro c parent notRoot alive
    exact inv.tree.attached c parent notRoot ((there c).symm.trans alive)
  · intro c alive started
    by_cases same : c = q
    · rw [same]
      exact parent
    · rw [pcs,if_neg same] at alive started
      exact inv.tree.parented c alive started
  · intro p childless
    rw [pcs] at childless
    split at childless
    · cases childless
    · exact inv.tree.childless p childless
  · intro p visited rest at_
    exact inv.tree.loop p visited rest ((eqs p _ (by simp) (by simp)).mp at_)
  · intro p visited rest at_
    exact inv.tree.moved p visited rest ((eqs p _ (by simp) (by simp)).mp at_)
  · rw [pcs,if_neg root]
    exact inv.tree.root
  · intro c above
    exact (eqs c _ (by simp) (by simp)).mpr (inv.tree.fresh.2 c above)
  · intro c absent
    exact inv.tree.absent c ((eqs c _ (by simp) (by simp)).mp absent)
  · intro p
    rw [pcs]
    split
    · rename_i same
      change _ ↔ s.processlock = some p
      rw [same,← inv.locks.process q,unstarted]
      rfl
    · exact inv.locks.process p
  · intro p
    rw [eqs p _ (by simp) (by simp)]
    exact inv.locks.sched p
  · refine inv.sems.change (p := q) (inv.sems.counted q) ?_ ?_
    · have sleeps := inv.sems.sleeps q
      rw [unstarted] at sleeps
      rw [pcs,if_pos rfl]
      exact sleeps
    · intro r other
      exact ⟨rfl,by rw [pcs,if_neg other],rfl⟩
  · intro p outside
    have owed : (s.goto q .running).owed p = s.owed p := by
      refine countP_late _ _ _ ?_
      intro c _
      rw [pcs]
      split
      · rename_i same
        rw [same,unstarted]
        rfl
      · rfl
    rw [owed,looped_unlocked (s := s.goto q .running) free]
    have outside' : (s.pc p).entered = false := by
      rw [pcs] at outside
      split at outside
      · rename_i same
        rw [same,unstarted]
        rfl
      · exact outside
    have before := inv.books p outside'
    rw [looped_unlocked free] at before
    rw [← before]
    have granted : (s.goto q .running).granted p = s.granted p := by
      unfold State.granted
      rw [pcs]
      split
      · rename_i same
        rw [same,unstarted]
        rfl
      · rfl
    rw [granted]
    rfl
  · intro r
    have once := inv.log.once r
    by_cases reaped : s.pc r = .reaped
    · rw [if_pos reaped] at once
      rw [if_pos ((eqs r _ (by simp) (by simp)).mpr reaped)]
      exact once
    · rw [if_neg reaped] at once
      rw [if_neg (fun now => reaped ((eqs r _ (by simp) (by simp)).mp now))]
      exact once

end Families

section Exits
variable {s s' : State} {p q : Nat} {pc : Pc}

theorem Tree.not_root (tree : Tree s) (entered : (s.pc p).entered = true) : p ≠ rootProc := by
  rintro rfl
  rw [tree.root.1] at entered
  cases entered

theorem Tree.goto (tree : Tree s) (notRoot : p ≠ rootProc) (alive : (s.pc p).there = true)
    (started : s.pc p ≠ .unstarted) (there : pc.there = true) (empty : pc.childless = true → s.children p = [])
    (loop : ∀ visited rest, pc = .exitLoop visited rest → s.children p = visited++rest)
    (visited : ∀ v r, s.pc p = .exitLoop v r → ∀ c ∈ v, c ∈ s.children p → ∃ v' r', pc = .exitLoop v' r' ∧ c ∈ v')
    (moved : ∀ v r, pc = .exitLoop v r → ∀ c ∈ v, s.parent c = some rootProc) : Tree (s.goto p pc) := by
  have notAbsent : s.pc p ≠ .absent := by
    intro absent
    rw [absent] at alive
    cases alive
  refine ⟨tree.distinct,tree.once,?_,?_,?_,?_,?_,?_,?_,⟨tree.fresh.1,?_⟩,?_⟩
  · intro r c member
    obtain ⟨alive',notRoot',parent⟩ := tree.linked r c member
    refine ⟨?_,notRoot',?_⟩
    · rw [goto_pc]
      split
      · exact there
      · exact alive'
    · rcases parent with direct | ⟨v,rest,at_,listed,parent⟩
      · exact .inl direct
      · rw [goto_pc]
        by_cases same : r = p
        · rw [same] at at_ member
          obtain ⟨v',r',same',listed'⟩ := visited v rest at_ c listed member
          exact .inr ⟨v',r',by rw [if_pos same]; exact same',listed',parent⟩
        · exact .inr ⟨v,rest,by rw [if_neg same]; exact at_,listed,parent⟩
  · intro c parent root alive'
    refine tree.attached c parent root ?_
    rw [goto_pc] at alive'
    split at alive'
    · rename_i same
      rw [same]
      exact alive
    · exact alive'
  · intro c alive' started'
    rw [goto_pc] at alive' started'
    by_cases same : c = p
    · rw [same]
      exact tree.parented p alive started
    · rw [if_neg same] at alive' started'
      exact tree.parented c alive' started'
  · intro r childless
    rw [goto_pc] at childless
    split at childless
    · rename_i same
      rw [same]
      exact empty childless
    · exact tree.childless r childless
  · intro r v rest at_
    rw [goto_pc] at at_
    split at at_
    · rename_i same
      rw [same]
      exact loop v rest at_
    · exact tree.loop r v rest at_
  · intro r v rest at_
    rw [goto_pc] at at_
    split at at_
    · exact moved v rest at_
    · exact tree.moved r v rest at_
  · rw [goto_pc,if_neg (Ne.symm notRoot)]
    exact tree.root
  · intro c above
    have absent := tree.fresh.2 c above
    have other : c ≠ p := by
      intro same
      rw [same] at absent
      exact notAbsent absent
    rw [goto_pc,if_neg other]
    exact absent
  · intro c absent
    rw [goto_pc] at absent
    split at absent
    · rw [absent] at there
      cases there
    · exact tree.absent c absent

-- The tree does not depend on who holds the locks, nor on the exit codes.
theorem Tree.record (tree : Tree s) (processlock schedlock : Option Nat) (exitcode : Nat → Int) :
    Tree {s.locks processlock schedlock with exitcode := exitcode} :=
  ⟨tree.distinct,tree.once,tree.linked,tree.attached,tree.parented,tree.childless,tree.loop,tree.moved,tree.root,
      tree.fresh,tree.absent⟩

theorem Tree.locks (tree : Tree s) (processlock schedlock : Option Nat) : Tree (s.locks processlock schedlock) :=
  tree.record processlock schedlock s.exitcode

theorem Log.keep (log : Log s) (reaped : ∀ q, s'.pc q = .reaped ↔ s.pc q = .reaped)
    (returned : s'.returned = s.returned) (codes : ∀ q, s.pc q = .reaped → s'.exitcode q = s.exitcode q) : Log s' := by
  refine ⟨?_,?_⟩
  · intro q
    rw [returned,log.once q]
    simp only [reaped]
  · intro r member
    rw [returned] at member
    have counted := log.once r.2.1
    have dead : s.pc r.2.1 = .reaped := by
      by_contra alive
      rw [if_neg alive] at counted
      exact List.countP_eq_zero.mp counted r member (by simp)
    rw [codes _ dead]
    exact log.code r member

theorem goto_reaped (notReaped : s.pc p ≠ .reaped) (still : pc ≠ .reaped) (q : Nat) :
    (s.goto p pc).pc q = .reaped ↔ s.pc q = .reaped := by
  rw [goto_pc]
  split
  · rename_i same
    rw [same]
    exact ⟨fun now => absurd now still,fun now => absurd now notReaped⟩
  · rfl

theorem goto_sems (p : Nat) (pc : Pc) (sems : Sems s) (before : (s.pc p).inWait = false)
    (after : pc.inWait = false) : Sems (s.goto p pc) := by
  refine sems.change (p := p) (sems.counted p) ?_ ?_
  · have sleeps := sems.sleeps p
    rw [before] at sleeps
    rw [goto_pc,if_pos rfl,after]
    exact sleeps
  · intro q other
    exact ⟨rfl,by rw [goto_pc,if_neg other],rfl⟩

theorem exitEnter_inv (inv : Inv s) (free : s.unlocked) (running : s.pc p = .running) (notRoot : p ≠ rootProc)
    (code : Int) :
    Inv {(s.goto p (.exitLoop [] (s.children p))).locks (some p) none with exitcode := Function.update s.exitcode p code} := by
  have tree : Tree (s.goto p (.exitLoop [] (s.children p))) := by
    refine inv.tree.goto notRoot (by rw [running]; rfl) (by rw [running]; simp) rfl (by simp [Pc.childless]) ?_ ?_ ?_
    · intro visited rest same
      cases same
      rfl
    · intro v r at_
      rw [running] at at_
      cases at_
    · intro v r same c listed
      cases same
      cases listed
  have quiet := inv.locks.quiet free.1
  have pcs : ∀ c, (s.goto p (.exitLoop [] (s.children p))).pc c = if c = p then .exitLoop [] (s.children p) else s.pc c :=
    fun c => goto_pc s p c _
  refine ⟨tree.record _ _ _,⟨?_,?_,.inr rfl⟩,?_,?_,?_⟩
  · intro q
    change ((s.goto p _).pc q).locking = true ↔ some p = some q
    rw [pcs]
    by_cases same : q = p
    · simp [same,Pc.locking]
    · rw [if_neg same,quiet q]
      simp [Ne.symm same]
  · intro q
    change (s.goto p _).pc q = .exitPosted ↔ none = some q
    rw [pcs]
    by_cases same : q = p
    · simp [same]
    · rw [if_neg same,inv.locks.sched q,free.2]
  · have sems := goto_sems p (.exitLoop [] (s.children p)) inv.sems (by rw [running]; rfl) rfl
    exact ⟨sems.counted,sems.sleeps⟩
  · intro q outside
    change ((s.goto p (.exitLoop [] (s.children p))).pc q).entered = false at outside
    have other : q ≠ p := by
      intro same
      rw [pcs,if_pos same] at outside
      cases outside
    rw [pcs,if_neg other] at outside
    have before := inv.books q outside
    rw [looped_unlocked free.1] at before
    have owed : (s.goto p (.exitLoop [] (s.children p))).owed q = s.owed q := by
      refine countP_late _ _ _ ?_
      intro c _
      rw [pcs]
      split
      · rename_i same
        rw [same,running]
        rfl
      · rfl
    have looped : State.looped {(s.goto p (.exitLoop [] (s.children p))).locks (some p) none with exitcode := Function.update s.exitcode p code} q = 0 := by
      unfold State.looped
      simp only [State.locks,pcs,if_pos]
      split <;> rfl
    change s.posts q+(s.goto p (.exitLoop [] (s.children p))).granted q = (s.goto p (.exitLoop [] (s.children p))).owed q+_
    rw [owed,looped,← before]
    unfold State.granted
    rw [pcs,if_neg other]
    rfl
  · refine inv.log.keep (goto_reaped (by rw [running]; simp) (by simp)) rfl ?_
    intro q dead
    have other : q ≠ p := by
      intro same
      rw [same,running] at dead
      cases dead
    exact Function.update_of_ne other _ _

theorem exitHandOver_inv (inv : Inv s) (posting : s.pc p = .exitPosting) :
    Inv ((s.goto p .exitPosted).locks none (some p)) := by
  have holds : s.processlock = some p := (inv.locks.process p).mp (by rw [posting]; rfl)
  have free : s.schedlock = none := inv.locks.one.resolve_left (by rw [holds]; simp)
  have notRoot := inv.tree.not_root (by rw [posting]; rfl)
  have tree : Tree (s.goto p .exitPosted) := by
    refine inv.tree.goto notRoot (by rw [posting]; rfl) (by rw [posting]; simp) rfl ?_ (by simp) ?_ (by simp)
    · intro _
      exact inv.tree.childless p (by rw [posting]; rfl)
    · intro v r at_
      rw [posting] at at_
      cases at_
  have pcs : ∀ c, (s.goto p .exitPosted).pc c = if c = p then .exitPosted else s.pc c := fun c => goto_pc s p c _
  refine ⟨tree.locks _ _,⟨?_,?_,.inl rfl⟩,?_,?_,?_⟩
  · intro q
    change ((s.goto p .exitPosted).pc q).locking = true ↔ none = some q
    rw [pcs]
    by_cases same : q = p
    · simp [same,Pc.locking]
    · rw [if_neg same,inv.locks.process q,holds]
      simp [Ne.symm same]
  · intro q
    change (s.goto p .exitPosted).pc q = .exitPosted ↔ some p = some q
    rw [pcs]
    by_cases same : q = p
    · simp [same]
    · rw [if_neg same,inv.locks.sched q,free]
      simp [Ne.symm same]
  · have sems := goto_sems p .exitPosted inv.sems (by rw [posting]; rfl) rfl
    exact ⟨sems.counted,sems.sleeps⟩
  · intro q outside
    change ((s.goto p .exitPosted).pc q).entered = false at outside
    have other : q ≠ p := by
      intro same
      rw [pcs,if_pos same] at outside
      cases outside
    rw [pcs,if_neg other] at outside
    have before := inv.books q outside
    have none : s.looped q = 0 := by
      unfold State.looped
      rw [holds]
      simp only [posting]
      split <;> rfl
    have owed : (s.goto p .exitPosted).owed q = s.owed q := by
      refine countP_late _ _ _ ?_
      intro c _
      rw [pcs]
      split
      · rename_i same
        rw [same,posting]
        rfl
      · rfl
    change s.posts q+(s.goto p .exitPosted).granted q = (s.goto p .exitPosted).owed q+_
    rw [owed,looped_unlocked (s := (s.goto p .exitPosted).locks Option.none (some p)) rfl,← none,← before]
    unfold State.granted
    rw [pcs,if_neg other]
    rfl
  · exact inv.log.keep (goto_reaped (by rw [posting]; simp) (by simp)) rfl fun _ _ => rfl

theorem exitSched_inv (inv : Inv s) (posted : s.pc p = .exitPosted) :
    Inv ((s.goto p .zombie).locks s.processlock none) := by
  have holds : s.schedlock = some p := (inv.locks.sched p).mp posted
  have free : s.processlock = none := inv.locks.one.resolve_right (by rw [holds]; simp)
  have notRoot := inv.tree.not_root (by rw [posted]; rfl)
  have tree : Tree (s.goto p .zombie) := by
    refine inv.tree.goto notRoot (by rw [posted]; rfl) (by rw [posted]; simp) rfl ?_ (by simp) ?_ (by simp)
    · intro _
      exact inv.tree.childless p (by rw [posted]; rfl)
    · intro v r at_
      rw [posted] at at_
      cases at_
  have pcs : ∀ c, (s.goto p .zombie).pc c = if c = p then .zombie else s.pc c := fun c => goto_pc s p c _
  refine ⟨tree.locks _ _,⟨?_,?_,.inr rfl⟩,?_,?_,?_⟩
  · intro q
    change ((s.goto p .zombie).pc q).locking = true ↔ s.processlock = some q
    rw [pcs,← inv.locks.process q]
    by_cases same : q = p
    · simp [same,posted,Pc.locking]
    · rw [if_neg same]
  · intro q
    change (s.goto p .zombie).pc q = .exitPosted ↔ none = some q
    rw [pcs]
    by_cases same : q = p
    · simp [same]
    · rw [if_neg same,inv.locks.sched q,holds]
      simp [Ne.symm same]
  · have sems := goto_sems p .zombie inv.sems (by rw [posted]; rfl) rfl
    exact ⟨sems.counted,sems.sleeps⟩
  · intro q outside
    change ((s.goto p .zombie).pc q).entered = false at outside
    have other : q ≠ p := by
      intro same
      rw [pcs,if_pos same] at outside
      cases outside
    rw [pcs,if_neg other] at outside
    have before := inv.books q outside
    rw [looped_unlocked free] at before
    have owed : (s.goto p .zombie).owed q = s.owed q := by
      refine countP_late _ _ _ ?_
      intro c _
      rw [pcs]
      split
      · rename_i same
        rw [same,posted]
        rfl
      · rfl
    change s.posts q+(s.goto p .zombie).granted q = (s.goto p .zombie).owed q+_
    rw [owed,looped_unlocked (s := (s.goto p .zombie).locks s.processlock Option.none) free,← before]
    unfold State.granted
    rw [pcs,if_neg other]
    rfl
  · exact inv.log.keep (goto_reaped (by rw [posted]; simp) (by simp)) rfl fun _ _ => rfl

-- What was alike stays alike when the same process makes the same move on both sides.
theorem Alike.goto (alike : Alike s s') (p : Nat) (pc : Pc) (there : pc ≠ .absent) :
    Alike (s.goto p pc) (s'.goto p pc) := by
  refine ⟨?_,alike.parent,alike.children,alike.exitcode,alike.maxPid,alike.processlock,alike.schedlock,alike.returned,?_⟩
  · intro q
    simp only [goto_pc]
    split
    · exact .inl rfl
    · exact alike.pcs q
  · intro q absent
    rw [goto_pc] at absent
    split at absent
    · exact absurd absent there
    · exact alike.idle q absent

theorem countP_flip {f g : Nat → Bool} (list : List Nat) (distinct : list.Nodup) (others : ∀ c, c ≠ p → g c = f c)
    (before : f p = false) (after : g p = true) : list.countP g = list.countP f+if p ∈ list then 1 else 0 := by
  induction list with
  | nil => rfl
  | cons c rest ih =>
    obtain ⟨outside,distinct⟩ := List.nodup_cons.mp distinct
    have rest' := ih distinct
    simp only [List.countP_cons]
    by_cases same : c = p
    · subst same
      rw [if_neg outside] at rest'
      rw [rest',before,after]
      simp
    · rw [rest',others c same]
      simp only [List.mem_cons,Ne.symm same,false_or]
      omega

-- While processlock is free, every process hangs under a parent that has not entered exit.
theorem Inv.under (inv : Inv s) (free : s.processlock = none) (alive : (s.pc p).there = true)
    (started : s.pc p ≠ .unstarted) (notRoot : p ≠ rootProc) : ∃ q, s.parent p = some q ∧ p ∈ s.children q ∧
    (s.pc q).entered = false ∧ s.pc q ≠ .absent := by
  obtain ⟨q,member⟩ := inv.tree.attached p (inv.tree.parented p alive started) notRoot alive
  have filled : (s.pc q).childless = false := by
    rw [Bool.eq_false_iff]
    intro childless
    rw [inv.tree.childless q childless] at member
    cases member
  have quiet := inv.locks.quiet free q
  refine ⟨q,?_,member,?_,?_⟩
  · rcases (inv.tree.linked q p member).2.2 with direct | ⟨_,_,at_,_⟩
    · exact direct
    · rw [at_] at quiet
      cases quiet
  · revert filled quiet
    cases s.pc q <;> simp [Pc.childless,Pc.locking,Pc.entered]
  · intro absent
    rw [absent] at filled
    cases filled

theorem exitPost_inv (inv : Inv s) (free : s.unlocked) (exiting : s.pc p = .exitUnlocked) :
    ∃ q t, s.parent p = some q ∧ s.post q = .ok t ∧ Inv ((t.goto p .exitPosting).locks (some p) none) := by
  have notRoot := inv.tree.not_root (by rw [exiting]; rfl)
  obtain ⟨q,parent,member,outside,there⟩ := inv.under free.1 (by rw [exiting]; rfl) (by rw [exiting]; simp) notRoot
  obtain ⟨t,ran,posted⟩ := post_posted inv.sems there
  refine ⟨q,t,parent,ran,?_⟩
  have alike := posted.alike
  have at_ : t.pc p = .exitUnlocked := (alike.eq_iff .exitUnlocked rfl p).mpr exiting
  have tree := inv.tree.alike alike
  have locks := inv.locks.alike alike
  have log := inv.log.alike alike
  have pcs : ∀ c, (t.goto p .exitPosting).pc c = if c = p then .exitPosting else t.pc c := fun c => goto_pc t p c _
  have moved : Tree (t.goto p .exitPosting) := by
    refine tree.goto notRoot (by rw [at_]; rfl) (by rw [at_]; simp) rfl ?_ (by simp) ?_ (by simp)
    · intro _
      exact tree.childless p (by rw [at_]; rfl)
    · intro v r at'
      rw [at_] at at'
      cases at'
  refine ⟨moved.locks _ _,⟨?_,?_,.inr rfl⟩,?_,?_,?_⟩
  · intro r
    change ((t.goto p .exitPosting).pc r).locking = true ↔ some p = some r
    rw [pcs]
    by_cases same : r = p
    · simp [same,Pc.locking]
    · rw [if_neg same,locks.quiet (alike.processlock.trans free.1) r]
      simp [Ne.symm same]
  · intro r
    change (t.goto p .exitPosting).pc r = .exitPosted ↔ none = some r
    rw [pcs]
    by_cases same : r = p
    · simp [same]
    · rw [if_neg same,locks.sched r,alike.schedlock,free.2]
  · have sems := goto_sems p .exitPosting posted.sems (by rw [at_]; rfl) rfl
    exact ⟨sems.counted,sems.sleeps⟩
  · intro r out
    change ((t.goto p .exitPosting).pc r).entered = false at out
    have other : r ≠ p := by
      intro same
      rw [pcs,if_pos same] at out
      cases out
    rw [pcs,if_neg other,alike.entered] at out
    have before := inv.books r out
    rw [looped_unlocked free.1] at before
    have owed : (t.goto p .exitPosting).owed r = s.owed r+if p ∈ s.children r then 1 else 0 := by
      unfold State.owed
      change (t.children r).countP _ = _
      rw [alike.children]
      refine countP_flip _ (inv.tree.distinct r) ?_ ?_ ?_
      · intro c different
        rw [pcs,if_neg different,alike.late]
      · rw [exiting]
        rfl
      · rw [pcs,if_pos rfl]
        rfl
    have looped : ((t.goto p .exitPosting).locks (some p) none).looped r = 0 := by
      unfold State.looped
      simp only [State.locks,pcs,if_pos]
      split <;> rfl
    change t.posts r+(t.goto p .exitPosting).granted r = (t.goto p .exitPosting).owed r+_
    have granted : (t.goto p .exitPosting).granted r = t.granted r := by
      unfold State.granted
      rw [pcs,if_neg other]
      rfl
    rw [owed,looped,granted]
    by_cases parent' : r = q
    · rw [parent'] at before ⊢
      rw [posted.sum,before,if_pos member]
    · have notHere : p ∉ s.children r := fun here => parent' (inv.tree.once r q p here member)
      obtain ⟨sem,pc,up⟩ := posted.others r parent'
      rw [if_neg notHere,← before]
      unfold State.posts State.granted
      rw [sem,pc,up]
  · exact log.keep (goto_reaped (by rw [at_]; simp) (by simp)) rfl fun _ _ => rfl

theorem Tree.visit (tree : Tree s) (at_ : s.pc p = .exitLoop v (c::rest)) :
    Tree ((s.setParent rootProc c).goto p (.exitLoop (v++[c]) rest)) := by
  have list := tree.loop p v _ at_
  have notRoot := tree.not_root (by rw [at_]; rfl)
  have here : c ∈ s.children p := by
    rw [list]
    simp
  have alive := tree.linked p c here
  have pcs : ∀ r, ((s.setParent rootProc c).goto p (.exitLoop (v++[c]) rest)).pc r = if r = p then .exitLoop
      (v++[c]) rest else s.pc r :=
    fun r => goto_pc _ p r _
  have parents : ∀ r, ((s.setParent rootProc c).goto p
      (.exitLoop (v++[c]) rest)).parent r = if r = c then some rootProc else s.parent r := by
    intro r
    simp only [State.goto,State.setParent,Function.update_apply]
  have kinds : ∀ f : Pc → Bool, (∀ a b, f (.exitLoop a b) = f (.exitLoop [] [])) → ∀ r,
      f (((s.setParent rootProc c).goto p (.exitLoop (v++[c]) rest)).pc r) = f (s.pc r) := by
    intro f flat r
    rw [pcs]
    split
    · rename_i same
      rw [same,at_,flat,flat v]
    · rfl
  have there := kinds Pc.there fun _ _ => rfl
  refine ⟨tree.distinct,tree.once,?_,?_,?_,?_,?_,?_,?_,⟨tree.fresh.1,?_⟩,?_⟩
  · intro r d member
    obtain ⟨alive,apart,parent⟩ := tree.linked r d member
    refine ⟨(there d).trans alive,apart,?_⟩
    rw [parents]
    by_cases new : d = c
    · have owner : r = p := tree.once r p c (new ▸ member) here
      rw [if_pos new,owner]
      refine .inr ⟨v++[c],rest,by rw [pcs,if_pos rfl],?_,rfl⟩
      rw [new]
      simp
    · rw [if_neg new]
      rcases parent with direct | ⟨visited,left,at',listed,parent⟩
      · exact .inl direct
      · by_cases same : r = p
        · rw [same,at_] at at'
          cases at'
          exact .inr ⟨v++[c],rest,by rw [pcs,if_pos same],List.mem_append_left _ listed,parent⟩
        · exact .inr ⟨visited,left,by rw [pcs,if_neg same]; exact at',listed,parent⟩
  · intro d parent apart alive'
    rw [there] at alive'
    rw [parents] at parent
    by_cases new : d = c
    · exact ⟨p,new ▸ here⟩
    · rw [if_neg new] at parent
      exact tree.attached d parent apart alive'
  · intro d alive' started
    rw [there] at alive'
    rw [parents]
    split
    · simp
    · refine tree.parented d alive' ?_
      intro unstarted
      have other : d ≠ p := by
        intro same
        rw [same,at_] at unstarted
        cases unstarted
      rw [pcs,if_neg other] at started
      exact started unstarted
  · intro r childless
    rw [kinds Pc.childless fun _ _ => rfl] at childless
    exact tree.childless r childless
  · intro r visited left at'
    rw [pcs] at at'
    split at at'
    · rename_i same
      cases at'
      rw [same]
      change s.children p = _
      rw [list]
      simp
    · exact tree.loop r visited left at'
  · intro r visited left at' d listed
    rw [parents]
    split
    · rfl
    · rename_i old
      rw [pcs] at at'
      split at at'
      · cases at'
        rcases List.mem_append.mp listed with early | last
        · exact tree.moved p v _ at_ d early
        · exact absurd (List.mem_singleton.mp last) old
      · exact tree.moved r visited left at' d listed
  · rw [pcs,if_neg (Ne.symm notRoot)]
    exact tree.root
  · intro d above
    have absent := tree.fresh.2 d above
    have other : d ≠ p := by
      intro same
      rw [same,at_] at absent
      cases absent
    rw [pcs,if_neg other]
    exact absent
  · intro d absent
    rw [pcs] at absent
    split at absent
    · cases absent
    · have other : d ≠ c := by
        intro same
        have alive := alive.1
        rw [← same,absent] at alive
        cases alive
      rw [parents,if_neg other]
      exact tree.absent d absent

theorem looped_at (holds : s.processlock = some p) (at_ : s.pc p = .exitLoop v rest) (q : Nat) :
    s.looped q = if q = rootProc then v.countP fun c => s.pc c = .zombie else 0 := by
  unfold State.looped
  rw [holds]
  simp only [at_]

theorem exitChild_inv (inv : Inv s) (at_ : s.pc p = .exitLoop v (c::rest)) :
    ∃ t, (if s.pc c = .zombie then (s.setParent rootProc c).post rootProc else .ok (s.setParent rootProc c)) = .ok t ∧
      Inv (t.goto p (.exitLoop (v++[c]) rest)) := by
  have holds : s.processlock = some p := (inv.locks.process p).mp (by rw [at_]; rfl)
  have notRoot := inv.tree.not_root (by rw [at_]; rfl)
  have rootThere : s.pc rootProc ≠ .absent := by
    intro absent
    have root := inv.tree.root.2
    rw [absent] at root
    cases root
  have sems : Sems (s.setParent rootProc c) := ⟨inv.sems.counted,inv.sems.sleeps⟩
  -- The post to root, if any, leaves all but root's semaphore and its wait alone.
  obtain ⟨t,ran,alike,sems',sums⟩ : ∃ t, (if s.pc c = .zombie then (s.setParent rootProc c).post rootProc else .ok
      (s.setParent rootProc c)) = .ok t ∧
      Alike (s.setParent rootProc c) t ∧ Sems t ∧
      ∀ r, t.posts r+t.granted r = s.posts r+s.granted r+if r = rootProc ∧ s.pc c = .zombie then 1 else 0 := by
    by_cases dead : s.pc c = .zombie
    · rw [if_pos dead]
      obtain ⟨t,ran,posted⟩ := post_posted (p := rootProc) sems rootThere
      refine ⟨t,ran,posted.alike,posted.sems,?_⟩
      intro r
      by_cases root : r = rootProc
      · rw [if_pos ⟨root,dead⟩,root]
        exact posted.sum
      · obtain ⟨sem,pc,up⟩ := posted.others r root
        rw [if_neg (fun both => root both.1)]
        unfold State.posts State.granted
        rw [sem,pc,up]
        rfl
    · rw [if_neg dead]
      refine ⟨_,rfl,⟨fun _ => .inl rfl,rfl,rfl,rfl,rfl,rfl,rfl,rfl,fun _ _ => rfl⟩,sems,?_⟩
      intro r
      rw [if_neg (fun both => dead both.2)]
      rfl
  refine ⟨t,ran,?_⟩
  have same : t.pc p = .exitLoop v (c::rest) := (alike.eq_iff _ rfl p).mpr at_
  have alike' := alike.goto p (.exitLoop (v++[c]) rest) (by simp)
  have pcs : ∀ r, ((s.setParent rootProc c).goto p (.exitLoop (v++[c]) rest)).pc r = if r = p then .exitLoop
      (v++[c]) rest else s.pc r :=
    fun r => goto_pc _ p r _
  have locks : Locks ((s.setParent rootProc c).goto p (.exitLoop (v++[c]) rest)) := by
    refine ⟨?_,?_,inv.locks.one⟩
    · intro r
      rw [pcs]
      split
      · rename_i here
        rw [here]
        exact ⟨fun _ => holds,fun _ => rfl⟩
      · exact inv.locks.process r
    · intro r
      change _ ↔ s.schedlock = some r
      rw [pcs,← inv.locks.sched r]
      split
      · rename_i here
        rw [here,at_]
        simp
      · rfl
  have log : Log ((s.setParent rootProc c).goto p (.exitLoop (v++[c]) rest)) :=
    inv.log.keep (goto_reaped (s := s.setParent rootProc c) (by change s.pc p ≠ _; rw [at_]; simp) (by simp)) rfl fun _ _ => rfl
  refine ⟨(inv.tree.visit at_).alike alike',locks.alike alike',goto_sems p _ sems' (by rw [same]; rfl) rfl,?_,log.alike alike'⟩
  intro r out
  rw [alike'.entered,pcs] at out
  have other : r ≠ p := by
    intro here
    rw [if_pos here] at out
    cases out
  rw [if_neg other] at out
  have before := inv.books r out
  have owed : ((s.setParent rootProc c).goto p (.exitLoop (v++[c]) rest)).owed r = s.owed r := by
    refine countP_late _ _ _ ?_
    intro d _
    rw [pcs]
    split
    · rename_i here
      rw [here,at_]
      rfl
    · rfl
  have zombies : ∀ d, ((s.setParent rootProc c).goto p (.exitLoop (v++[c]) rest)).pc d = .zombie ↔ s.pc d = .zombie := by
    intro d
    rw [pcs]
    split
    · rename_i here
      rw [here,at_]
      simp
    · rfl
  have after := looped_at (s := (s.setParent rootProc c).goto p (.exitLoop (v++[c]) rest)) holds (by rw [pcs,if_pos rfl]) r
  rw [looped_at holds at_] at before
  rw [alike'.owed,owed,alike'.looped,after]
  have here : (t.goto p (.exitLoop (v++[c]) rest)).posts r+(t.goto p (.exitLoop (v++[c]) rest)).granted r = t.posts r+t.granted r := by
    unfold State.posts State.granted
    rw [goto_pc,if_neg other]
    rfl
  rw [here,sums r,before]
  simp only [zombies,List.countP_append,List.countP_singleton,decide_eq_true_eq]
  by_cases root : r = rootProc
  · simp only [root,true_and,if_true]
    omega
  · simp only [root,false_and,if_false]

-- Whoever holds processlock in the loop sees children that are alive or dead, none in between.
theorem Locks.late_iff (locks : Locks s) (apart : ∀ c, (s.pc c).locking = true → s.pc c ≠ .exitPosting)
    (quiet : s.schedlock = none) (c : Nat) : (s.pc c).late = true ↔ s.pc c = .zombie := by
  constructor
  · intro late
    have notPosted : s.pc c ≠ .exitPosted := by
      intro posted
      have holds := (locks.sched c).mp posted
      rw [quiet] at holds
      cases holds
    have notPosting : s.pc c ≠ .exitPosting := by
      intro posting
      exact apart c (by rw [posting]; rfl) posting
    revert late notPosted notPosting
    cases s.pc c <;> simp [Pc.late]
  · intro zombie
    rw [zombie]
    rfl

theorem Locks.late_zombie (locks : Locks s) (free : s.unlocked) (c : Nat) :
    (s.pc c).late = true ↔ s.pc c = .zombie := by
  refine locks.late_iff ?_ free.2 c
  intro d locking
  rw [locks.quiet free.1 d] at locking
  cases locking

-- The visited children go over to root's list: `t` is the state behind it.
structure Merges (p : Nat) (s t : State) : Prop where
  pcs : ∀ r, t.pc r = if r = p then .exitUnlocked else s.pc r
  kids : ∀ r, t.children r = if r = p then [] else if r = rootProc then s.children p++s.children rootProc else s.children r
  parent : t.parent = s.parent
  childexit : t.childexit = s.childexit
  maxPid : t.maxPid = s.maxPid

section Merging
variable {t : State} {v : List Nat}

theorem merge_merges (s : State) (p : Nat) :
    Merges p s (((s.setChildren rootProc (s.children p++s.children rootProc)).setChildren p []).goto p .exitUnlocked) := by
  refine ⟨fun r => goto_pc _ p r _,fun r => ?_,rfl,rfl,rfl⟩
  simp only [State.goto,State.setChildren,Function.update_apply]

theorem Merges.mem (merges : Merges p s t) (notRoot : p ≠ rootProc) (r c : Nat) :
    c ∈ t.children r ↔ (r = rootProc ∧ c ∈ s.children p) ∨ (r ≠ p ∧ c ∈ s.children r) := by
  rw [merges.kids]
  by_cases here : r = p
  · simp [here,notRoot]
  · by_cases root : r = rootProc
    · simp [root,Ne.symm notRoot]
    · simp [here,root]

theorem Merges.there (merges : Merges p s t) (at_ : s.pc p = .exitLoop v []) (r : Nat) :
    (t.pc r).there = (s.pc r).there := by
  rw [merges.pcs]
  split
  · rename_i same
    rw [same,at_]
    rfl
  · rfl

theorem Merges.loops (merges : Merges p s t) {r : Nat} {visited left : List Nat}
    (at' : t.pc r = .exitLoop visited left) :
    r ≠ p ∧ s.pc r = .exitLoop visited left := by
  rw [merges.pcs] at at'
  split at at'
  · cases at'
  · rename_i other
    exact ⟨other,at'⟩

theorem Merges.distinct (merges : Merges p s t) (tree : Tree s) (notRoot : p ≠ rootProc) (r : Nat) :
    (t.children r).Nodup := by
  rw [merges.kids]
  split
  · exact List.nodup_nil
  · split
    · refine List.nodup_append.mpr ⟨tree.distinct p,tree.distinct rootProc,?_⟩
      intro c left d right same
      exact notRoot (tree.once p rootProc c left (same ▸ right))
    · exact tree.distinct r

theorem Merges.once (merges : Merges p s t) (tree : Tree s) (notRoot : p ≠ rootProc) {a b c : Nat}
    (left : c ∈ t.children a) (right : c ∈ t.children b) : a = b := by
  rcases (merges.mem notRoot a c).mp left with ⟨root,mine⟩ | ⟨other,mine⟩
  · rcases (merges.mem notRoot b c).mp right with ⟨root',_⟩ | ⟨other',mine'⟩
    · rw [root,root']
    · exact absurd (tree.once b p c mine' mine) other'
  · rcases (merges.mem notRoot b c).mp right with ⟨_,mine'⟩ | ⟨_,mine'⟩
    · exact absurd (tree.once a p c mine mine') other
    · exact tree.once a b c mine mine'

theorem Merges.linked (merges : Merges p s t) (tree : Tree s) (at_ : s.pc p = .exitLoop v [])
    (notRoot : p ≠ rootProc) {r c : Nat} (member : c ∈ t.children r) :
    (t.pc c).there = true ∧ c ≠ rootProc ∧
      (t.parent c = some r ∨ ∃ visited rest, t.pc r = .exitLoop visited rest ∧ c ∈ visited ∧
      t.parent c = some rootProc) := by
  have list : s.children p = v := by
    have list := tree.loop p v _ at_
    rwa [List.append_nil] at list
  rw [merges.there at_,merges.parent]
  rcases (merges.mem notRoot r c).mp member with ⟨root,mine⟩ | ⟨other,mine⟩
  · obtain ⟨alive,apart,_⟩ := tree.linked p c mine
    refine ⟨alive,apart,.inl ?_⟩
    rw [root]
    exact tree.moved p v _ at_ c (list ▸ mine)
  · obtain ⟨alive,apart,linked⟩ := tree.linked r c mine
    refine ⟨alive,apart,?_⟩
    rcases linked with direct | ⟨visited,left,at',listed,linked⟩
    · exact .inl direct
    · exact .inr ⟨visited,left,by rw [merges.pcs,if_neg other]; exact at',listed,linked⟩

theorem Merges.attached (merges : Merges p s t) (tree : Tree s) (at_ : s.pc p = .exitLoop v [])
    (notRoot : p ≠ rootProc) {c : Nat} (parent : t.parent c ≠ none) (apart : c ≠ rootProc)
    (alive : (t.pc c).there = true) : ∃ r, c ∈ t.children r := by
  rw [merges.parent] at parent
  rw [merges.there at_] at alive
  obtain ⟨r,member⟩ := tree.attached c parent apart alive
  by_cases here : r = p
  · exact ⟨rootProc,(merges.mem notRoot _ _).mpr (.inl ⟨rfl,here ▸ member⟩)⟩
  · exact ⟨r,(merges.mem notRoot _ _).mpr (.inr ⟨here,member⟩)⟩

theorem Merges.childless (merges : Merges p s t) (tree : Tree s) {r : Nat} (childless : (t.pc r).childless = true) :
    t.children r = [] := by
  rw [merges.pcs] at childless
  rw [merges.kids]
  split
  · rfl
  · rename_i other
    rw [if_neg other] at childless
    have apart : r ≠ rootProc := by
      intro root
      rw [root,tree.root.2] at childless
      cases childless
    rw [if_neg apart]
    exact tree.childless r childless

theorem Merges.loop (merges : Merges p s t) (tree : Tree s) {r : Nat} {visited left : List Nat}
    (at' : t.pc r = .exitLoop visited left) :
    t.children r = visited++left := by
  obtain ⟨other,at'⟩ := merges.loops at'
  have apart : r ≠ rootProc := tree.not_root (by rw [at']; rfl)
  rw [merges.kids,if_neg other,if_neg apart]
  exact tree.loop r visited left at'

theorem Tree.merge (tree : Tree s) (at_ : s.pc p = .exitLoop v []) :
    Tree (((s.setChildren rootProc (s.children p++s.children rootProc)).setChildren p []).goto p .exitUnlocked) := by
  have notRoot := tree.not_root (by rw [at_]; rfl)
  have merges := merge_merges s p
  have other : ∀ {c : Nat} {pc : Pc}, s.pc c = pc → pc ≠ .exitLoop v [] → c ≠ p := by
    rintro c pc is different rfl
    exact different (is.symm.trans at_)
  refine ⟨merges.distinct tree notRoot,fun a b c => merges.once tree notRoot,fun r c => merges.linked tree at_ notRoot,
    fun c => merges.attached tree at_ notRoot,?_,fun r => merges.childless tree,fun r visited left =>
        merges.loop tree,?_,?_,⟨?_,?_⟩,?_⟩
  · intro c alive started
    rw [merges.there at_] at alive
    rw [merges.parent]
    refine tree.parented c alive fun unstarted => ?_
    rw [merges.pcs,if_neg (other unstarted Pc.noConfusion)] at started
    exact started unstarted
  · intro r visited left at'
    rw [merges.parent]
    exact tree.moved r visited left (merges.loops at').2
  · rw [merges.pcs,if_neg (Ne.symm notRoot)]
    exact tree.root
  · rw [merges.maxPid]
    exact tree.fresh.1
  · intro c above
    rw [merges.maxPid] at above
    have absent := tree.fresh.2 c above
    rw [merges.pcs,if_neg (other absent Pc.noConfusion)]
    exact absent
  · intro c absent
    rw [merges.pcs] at absent
    split at absent
    · cases absent
    · rw [merges.parent,merges.childexit]
      exact tree.absent c absent

end Merging

theorem exitMerge_inv (inv : Inv s) (at_ : s.pc p = .exitLoop v []) :
    Inv ((((s.setChildren rootProc (s.children p++s.children rootProc)).setChildren p []).goto p .exitUnlocked).locks none none) := by
  have holds : s.processlock = some p := (inv.locks.process p).mp (by rw [at_]; rfl)
  have free : s.schedlock = none := inv.locks.one.resolve_left (by rw [holds]; simp)
  have list : s.children p = v := by
    have list := inv.tree.loop p v _ at_
    rwa [List.append_nil] at list
  have zombies : ∀ c, (s.pc c).late = true ↔ s.pc c = .zombie := by
    refine inv.locks.late_iff ?_ free
    intro c locking posting
    have same := (inv.locks.process c).mp locking
    rw [holds] at same
    cases same
    rw [at_] at posting
    cases posting
  have tree := inv.tree.merge at_
  have kids : ∀ r, r ≠ p →
      (((s.setChildren rootProc
      (s.children p++s.children rootProc)).setChildren p []).goto p .exitUnlocked).children r =
      if r = rootProc then s.children p++s.children rootProc else s.children r := by
    intro r other
    simp only [State.goto,State.setChildren,Function.update_apply,if_neg other]
  have pcs : ∀ r, (((s.setChildren rootProc (s.children p++s.children rootProc)).setChildren p []).goto p .exitUnlocked).pc r =
      if r = p then .exitUnlocked else s.pc r := fun r => goto_pc _ p r _
  refine ⟨tree.locks _ _,⟨?_,?_,.inl rfl⟩,?_,?_,?_⟩
  · intro r
    change (State.pc (State.goto _ p .exitUnlocked) r).locking = true ↔ none = some r
    rw [pcs]
    by_cases same : r = p
    · simp [same,Pc.locking]
    · rw [if_neg same,inv.locks.process r,holds]
      simp [Ne.symm same]
  · intro r
    change State.pc (State.goto _ p .exitUnlocked) r = .exitPosted ↔ none = some r
    rw [pcs]
    by_cases same : r = p
    · simp [same]
    · rw [if_neg same,inv.locks.sched r,free]
  · have sems := goto_sems p .exitUnlocked inv.sems (by rw [at_]; rfl) rfl
    exact ⟨sems.counted,sems.sleeps⟩
  · intro r out
    change (State.pc (State.goto _ p .exitUnlocked) r).entered = false at out
    have other : r ≠ p := by
      intro same
      rw [pcs,if_pos same] at out
      cases out
    rw [pcs,if_neg other] at out
    have before := inv.books r out
    rw [looped_at holds at_] at before
    have owed : (((s.setChildren rootProc (s.children p++s.children rootProc)).setChildren p []).goto p .exitUnlocked).owed r =
        s.owed r+if r = rootProc then v.countP fun c => s.pc c = .zombie else 0 := by
      unfold State.owed
      rw [kids r other]
      have late : ∀ l : List Nat,
          (l.countP fun c => ((((s.setChildren rootProc (s.children p++s.children rootProc)).setChildren p []).goto p
          .exitUnlocked).pc c).late) = l.countP fun c => (s.pc c).late := by
        intro l
        refine List.countP_congr ?_
        intro c _
        rw [pcs]
        split
        · rename_i same
          rw [same,at_]
          rfl
        · rfl
      rw [late]
      split
      · rename_i root
        rw [List.countP_append,list,root,Nat.add_comm]
        congr 1
        refine List.countP_congr ?_
        intro c _
        rw [zombies c]
        simp
      · rfl
    have looped := looped_unlocked (p := r)
      (s := (((s.setChildren rootProc (s.children p++s.children rootProc)).setChildren p []).goto p .exitUnlocked).locks none none) rfl
    change s.posts r+State.granted (State.goto _ p .exitUnlocked) r = State.owed (State.goto _ p .exitUnlocked) r+_
    rw [owed,looped,Nat.add_zero,← before]
    unfold State.granted
    rw [pcs,if_neg other]
    rfl
  · refine inv.log.keep ?_ rfl fun _ _ => rfl
    intro r
    change State.pc (State.goto _ p .exitUnlocked) r = .reaped ↔ _
    rw [pcs]
    split
    · rename_i same
      rw [same,at_]
      simp
    · rfl

end Exits

section Reaping
variable {s s' : State} {p q z : Nat}

theorem owed_zombies (locks : Locks s) (free : s.unlocked) (p : Nat) : s.owed p = s.zombies p := by
  refine List.countP_congr ?_
  intro c _
  rw [locks.late_zombie free c]
  simp

theorem Inv.balance (inv : Inv s) (free : s.unlocked) (outside : (s.pc p).entered = false) :
    s.posts p+s.granted p = s.zombies p := by
  have books := inv.books p outside
  rwa [looped_unlocked free.1,Nat.add_zero,owed_zombies inv.locks free] at books

theorem Inv.finds (inv : Inv s) (free : s.unlocked) (granted : s.pc p = .waitGranted) :
    ∃ z, ((s.children p).find? fun c => s.pc c = .zombie) = some z ∧ z ∈ s.children p ∧ s.pc z = .zombie := by
  have balance := inv.balance (p := p) free (by rw [granted]; rfl)
  have one : s.granted p = 1 := by
    unfold State.granted
    rw [if_pos (.inl granted)]
  have some_ : 0 < (s.children p).countP fun c => s.pc c = .zombie := by
    unfold State.zombies at balance
    omega
  obtain ⟨c,member,zombie⟩ := List.countP_pos_iff.mp some_
  cases found : (s.children p).find? fun c => s.pc c = .zombie with
  | none => exact absurd zombie (List.find?_eq_none.mp found c member)
  | some z => exact ⟨z,rfl,List.mem_of_find?_eq_some found,by simpa using List.find?_some found⟩

theorem Tree.reap (tree : Tree s) (granted : s.pc p = .waitGranted) (member : z ∈ s.children p)
    (zombie : s.pc z = .zombie) :
    Tree ((s.setChildren p ((s.children p).erase z)).goto z .reaped) := by
  have notRoot : z ≠ rootProc := (tree.linked p z member).2.1
  generalize after : (s.setChildren p ((s.children p).erase z)).goto z .reaped = t
  have pcs : ∀ r, t.pc r = if r = z then .reaped else s.pc r := by
    intro r
    rw [← after]
    exact goto_pc _ z r _
  have kids : ∀ r, t.children r = if r = p then (s.children p).erase z else s.children r := by
    intro r
    rw [← after]
    simp only [State.goto,State.setChildren,Function.update_apply]
  have mems : ∀ r c, c ∈ t.children r ↔ c ≠ z ∧ c ∈ s.children r := by
    intro r c
    rw [kids]
    by_cases here : r = p
    · rw [if_pos here,here,(tree.distinct p).mem_erase_iff]
    · rw [if_neg here]
      refine ⟨fun mine => ⟨?_,mine⟩,fun both => both.2⟩
      intro same
      exact here (tree.once r p z (same ▸ mine) member)
  have parent : t.parent = s.parent := by
    rw [← after]
    rfl
  have sem : t.childexit = s.childexit := by
    rw [← after]
    rfl
  have pid : t.maxPid = s.maxPid := by
    rw [← after]
    rfl
  have loops : ∀ r visited left, t.pc r = .exitLoop visited left → r ≠ z ∧ s.pc r = .exitLoop visited left := by
    intro r visited left at'
    rw [pcs] at at'
    split at at'
    · cases at'
    · rename_i other
      exact ⟨other,at'⟩
  refine ⟨?_,?_,?_,?_,?_,?_,?_,?_,?_,⟨?_,?_⟩,?_⟩
  · intro r
    rw [kids]
    split
    · exact (tree.distinct p).erase z
    · exact tree.distinct r
  · intro a b c left right
    exact tree.once a b c ((mems a c).mp left).2 ((mems b c).mp right).2
  · intro r c mine
    obtain ⟨other,mine⟩ := (mems r c).mp mine
    obtain ⟨alive,apart,linked⟩ := tree.linked r c mine
    rw [pcs,if_neg other,parent]
    refine ⟨alive,apart,?_⟩
    rcases linked with direct | ⟨visited,left,at',listed,linked⟩
    · exact .inl direct
    · have notDead : r ≠ z := by
        intro same
        rw [same,zombie] at at'
        cases at'
      exact .inr ⟨visited,left,by rw [pcs,if_neg notDead]; exact at',listed,linked⟩
  · intro c parent' apart alive
    rw [parent] at parent'
    rw [pcs] at alive
    split at alive
    · cases alive
    · rename_i other
      obtain ⟨r,mine⟩ := tree.attached c parent' apart alive
      exact ⟨r,(mems r c).mpr ⟨other,mine⟩⟩
  · intro c alive started
    rw [pcs] at alive started
    rw [parent]
    split at alive
    · cases alive
    · rename_i other
      rw [if_neg other] at started
      exact tree.parented c alive started
  · intro r childless
    rw [pcs] at childless
    have empty : s.children r = [] := by
      refine tree.childless r ?_
      split at childless
      · rename_i same
        rw [same,zombie]
        rfl
      · exact childless
    have other : r ≠ p := by
      intro same
      rw [same] at empty
      rw [empty] at member
      cases member
    rw [kids,if_neg other]
    exact empty
  · intro r visited left at'
    obtain ⟨_,at'⟩ := loops r visited left at'
    have other : r ≠ p := by
      intro same
      rw [same,granted] at at'
      cases at'
    rw [kids,if_neg other]
    exact tree.loop r visited left at'
  · intro r visited left at'
    rw [parent]
    exact tree.moved r visited left (loops r visited left at').2
  · rw [pcs,if_neg (Ne.symm notRoot)]
    exact tree.root
  · rw [pid]
    exact tree.fresh.1
  · intro c above
    rw [pid] at above
    have absent := tree.fresh.2 c above
    have other : c ≠ z := by
      intro same
      rw [same,zombie] at absent
      cases absent
    rw [pcs,if_neg other]
    exact absent
  · intro c absent
    rw [pcs] at absent
    split at absent
    · cases absent
    · rw [parent,sem]
      exact tree.absent c absent

theorem waitReap_inv (inv : Inv s) (free : s.unlocked) (granted : s.pc p = .waitGranted) (member : z ∈ s.children p)
    (zombie : s.pc z = .zombie) :
    Inv {((s.setChildren p ((s.children p).erase z)).goto z .reaped).goto p .running with returned := (p,z,s.exitcode z)::s.returned} := by
  have busy : p ≠ z := by
    intro same
    rw [same,zombie] at granted
    cases granted
  have tree := inv.tree.reap granted member zombie
  have pcs : ∀ r, (((s.setChildren p ((s.children p).erase z)).goto z .reaped).goto p .running).pc r =
      if r = p then .running else if r = z then .reaped else s.pc r := by
    intro r
    rw [goto_pc,goto_pc]
    rfl
  have kids : ∀ r, (((s.setChildren p ((s.children p).erase z)).goto z .reaped).goto p .running).children r =
      if r = p then (s.children p).erase z else s.children r := by
    intro r
    simp only [State.goto,State.setChildren,Function.update_apply]
  have alike : Alike ((s.setChildren p ((s.children p).erase z)).goto z .reaped)
      (((s.setChildren p ((s.children p).erase z)).goto z .reaped).goto p .running) := by
    refine goto_alike ?_ rfl
    rw [goto_pc,if_neg busy]
    change (s.pc p).busy = true
    rw [granted]
    rfl
  have moved := tree.alike alike
  refine ⟨⟨moved.distinct,moved.once,moved.linked,moved.attached,moved.parented,moved.childless,moved.loop,moved.moved,moved.root,
    moved.fresh,moved.absent⟩,⟨?_,?_,.inl free.1⟩,?_,?_,⟨?_,?_⟩⟩
  · intro r
    change (State.pc (State.goto _ p .running) r).locking = true ↔ s.processlock = some r
    rw [pcs,← inv.locks.process r]
    split
    · rename_i same
      rw [same,granted]
      simp [Pc.locking]
    · split
      · rename_i same
        rw [same,zombie]
        simp [Pc.locking]
      · rfl
  · intro r
    change State.pc (State.goto _ p .running) r = .exitPosted ↔ s.schedlock = some r
    rw [pcs,← inv.locks.sched r]
    split
    · rename_i same
      rw [same,granted]
      simp
    · split
      · rename_i same
        rw [same,zombie]
        simp
      · rfl
  · have dead := goto_sems (s := s.setChildren p ((s.children p).erase z)) z .reaped ⟨inv.sems.counted,inv.sems.sleeps⟩
      (by change (s.pc z).inWait = false; rw [zombie]; rfl) rfl
    have sems := goto_sems p .running dead (by rw [goto_pc,if_neg busy]; change (s.pc p).inWait = false; rw [granted]; rfl) rfl
    exact ⟨sems.counted,sems.sleeps⟩
  · intro r out
    change (State.pc (State.goto _ p .running) r).entered = false at out
    rw [pcs] at out
    have counts : ∀ l : List Nat, z ∉ l →
        (l.countP fun c => ((((s.setChildren p
        ((s.children p).erase z)).goto z .reaped).goto p .running).pc c).late) =
        l.countP fun c => (s.pc c).late := by
      intro l outside
      refine List.countP_congr ?_
      intro c listed
      rw [pcs]
      split
      · rename_i same
        rw [same,granted]
        simp [Pc.late]
      · have other : c ≠ z := by
          intro same
          exact outside (same ▸ listed)
        rw [if_neg other]
    change s.posts r+State.granted (State.goto _ p .running) r = State.owed (State.goto _ p .running) r+_
    rw [looped_unlocked (p := r) (s := {((s.setChildren p ((s.children p).erase z)).goto z .reaped).goto p .running with
      returned := (p,z,s.exitcode z)::s.returned}) free.1]
    unfold State.owed
    rw [kids]
    by_cases here : r = p
    · have before := inv.books p (by rw [granted]; rfl)
      rw [looped_unlocked free.1] at before
      have one : s.granted p = 1 := by
        unfold State.granted
        rw [if_pos (.inl granted)]
      have none : State.granted (((s.setChildren p ((s.children p).erase z)).goto z .reaped).goto p .running) p = 0 := by
        unfold State.granted
        rw [pcs,if_pos rfl]
        rfl
      have split : s.owed p = 1+((s.children p).erase z).countP fun c => (s.pc c).late := by
        unfold State.owed
        rw [(List.perm_cons_erase member).countP_eq,List.countP_cons_of_pos (by rw [zombie]; rfl),Nat.add_comm]
      rw [if_pos here,here,none,counts _ (inv.tree.distinct p).not_mem_erase]
      omega
    · rw [if_neg here] at out ⊢
      have other : r ≠ z := by
        intro same
        rw [if_pos same] at out
        cases out
      rw [if_neg other] at out
      have before := inv.books r out
      rw [looped_unlocked free.1] at before
      rw [counts _ (fun mine => here (inv.tree.once r p z mine member))]
      have same : State.granted (((s.setChildren p ((s.children p).erase z)).goto z .reaped).goto p .running) r = s.granted r := by
        unfold State.granted
        rw [pcs,if_neg here,if_neg other]
        rfl
      rw [same]
      exact before
  · intro r
    change ((p,z,s.exitcode z)::s.returned).countP _ = if State.pc (State.goto _ p .running) r = .reaped then 1 else 0
    rw [pcs,List.countP_cons,inv.log.once r]
    by_cases dead : r = z
    · rw [dead,zombie,if_neg (Ne.symm busy)]
      simp
    · by_cases here : r = p
      · rw [here,granted]
        simp [Ne.symm busy]
      · simp [here,dead,Ne.symm dead]
  · intro r listed
    rcases List.mem_cons.mp listed with new | old
    · rw [new]
      rfl
    · exact inv.log.code r old

end Reaping

section Life
variable {s s' : State} {p : Nat}

theorem Tree.rootBusy (tree : Tree s) : (s.pc rootProc).busy = true := by
  have root := tree.root
  revert root
  cases s.pc rootProc <;> simp [Pc.entered,Pc.childless,Pc.busy]

theorem boot_inv : Inv boot := by
  have pcs : ∀ p, boot.pc p = if p = rootProc then .running else .absent := by
    intro p
    simp only [boot,Function.update_apply]
  have parents : ∀ p, boot.parent p = if p = rootProc then some rootProc else none := by
    intro p
    simp only [boot,Function.update_apply]
  refine ⟨⟨fun _ => List.nodup_nil,?_,?_,?_,?_,fun _ _ => rfl,?_,?_,?_,⟨Nat.le_refl _,?_⟩,?_⟩,⟨?_,?_,.inl rfl⟩,⟨?_,?_⟩,?_,⟨?_,?_⟩⟩
  · intro p q c member
    cases member
  · intro p c member
    cases member
  · intro c parent notRoot
    rw [parents,if_neg notRoot] at parent
    exact absurd rfl parent
  · intro c there
    rw [pcs] at there
    rw [parents]
    split at there <;> simp_all [Pc.there]
  · intro p v r at_
    rw [pcs] at at_
    split at at_ <;> cases at_
  · intro p v r at_
    rw [pcs] at at_
    split at at_ <;> cases at_
  · rw [pcs,if_pos rfl]
    exact ⟨rfl,rfl⟩
  · intro c above
    have other : c ≠ rootProc := Nat.ne_of_gt above
    rw [pcs,if_neg other]
  · intro c absent
    rw [pcs] at absent
    rw [parents]
    split at absent
    · cases absent
    · rename_i other
      exact ⟨if_neg other,rfl⟩
  · intro p
    rw [pcs]
    split <;> simp [Pc.locking,boot]
  · intro p
    rw [pcs]
    split <;> simp [boot]
  · intro p
    simp [boot,initSem,Counted]
  · intro p
    rw [pcs]
    split <;> simp [boot,initSem,Pc.inWait]
  · intro p _
    rw [looped_unlocked rfl]
    unfold State.posts State.granted State.owed
    rw [pcs]
    split <;> simp [boot,initSem,Pc.inWait]
  · intro q
    rw [pcs]
    split <;> simp [boot]
  · intro r listed
    cases listed

theorem step_inv (inv : Inv s) (ran : step s a = .ok s') : Inv s' := by
  cases a with
  | create =>
    simp only [step] at ran
    split at ran
    · rename_i free
      cases ran
      exact create_inv inv free
    · cases ran
  | setParentToThis p q =>
    simp only [step] at ran
    split at ran
    · rename_i guard
      split at ran
      · rename_i orphan
        cases ran
        exact adopt_inv inv (by rw [guard.2.1]; rfl) guard.2.2 orphan
      · cases ran
    · cases ran
  | startProc q =>
    simp only [step] at ran
    split at ran
    · rename_i guard
      split at ran
      · rename_i orphan
        cases ran
        have adopted := adopt_inv inv inv.tree.rootBusy guard.2 orphan
        refine start_inv adopted guard.1 guard.2 ?_
        simp [State.setChildren,State.setParent]
      · rename_i parent
        cases ran
        exact start_inv inv guard.1 guard.2 parent
    · cases ran
  | waitCheck p =>
    simp only [step] at ran
    split at ran
    · rename_i guard
      cases ran
      split
      · exact inv
      · exact waitCheck_inv inv guard.2
    · cases ran
  | waitSem p killed => exact waitSem_inv inv ran
  | alert p =>
    simp only [step] at ran
    split at ran
    · rename_i asleep
      cases ran
      exact alert_inv inv asleep
    · cases ran
  | waitResume p => exact waitResume_inv inv ran
  | waitReap p =>
    simp only [step] at ran
    split at ran
    · rename_i guard
      obtain ⟨z,found,member,zombie⟩ := inv.finds guard.1 guard.2
      rw [found] at ran
      cases ran
      exact waitReap_inv inv guard.1 guard.2 member zombie
    · cases ran
  | exitEnter p code =>
    simp only [step] at ran
    split at ran
    · rename_i guard
      split at ran
      · cases ran
      · rename_i notRoot
        cases ran
        exact exitEnter_inv inv guard.1 guard.2 notRoot code
    · cases ran
  | exitChild p =>
    simp only [step] at ran
    split at ran
    · rename_i v c rest at_
      obtain ⟨t,posted,after⟩ := exitChild_inv inv at_
      change (if s.pc c = .zombie then _ else _) = _ at ran
      split at ran
      · rename_i dead
        rw [if_pos dead] at posted
        rw [posted] at ran
        cases ran
        exact after
      · rename_i alive
        rw [if_neg alive] at posted
        cases posted
        cases ran
        exact after
    · cases ran
  | exitMerge p =>
    simp only [step] at ran
    split at ran
    · rename_i v at_
      cases ran
      exact exitMerge_inv inv at_
    · cases ran
  | exitPost p =>
    simp only [step] at ran
    split at ran
    · rename_i guard
      obtain ⟨q,t,parent,posted,after⟩ := exitPost_inv inv guard.1 guard.2
      rw [parent] at ran
      obtain ⟨t',posted',last⟩ := Runs.bind_ok.mp ran
      rw [posted] at posted'
      cases posted'
      cases last
      exact after
    · cases ran
  | exitHandOver p =>
    simp only [step] at ran
    split at ran
    · rename_i guard
      cases ran
      exact exitHandOver_inv inv guard.1
    · cases ran
  | exitSched p =>
    simp only [step] at ran
    split at ran
    · rename_i posted
      cases ran
      exact exitSched_inv inv posted
    · cases ran

theorem step_exitcode (entered : (s.pc p).entered = true) (ran : step s a = .ok s') : s'.exitcode p = s.exitcode p := by
  have post : ∀ {u t : State} {q : Nat}, u.post q = .ok t → t.exitcode = u.exitcode := by
    intro u t q posted
    obtain ⟨⟨who,sem⟩,_,last⟩ := Runs.bind_ok.mp posted
    cases who <;> cases last <;> rfl
  cases a with
  | exitEnter q code =>
    simp only [step] at ran
    split at ran
    · rename_i guard
      split at ran
      · cases ran
      · cases ran
        have other : p ≠ q := by
          intro same
          rw [same,guard.2] at entered
          cases entered
        exact Function.update_of_ne other _ _
    · cases ran
  | exitChild q =>
    simp only [step] at ran
    split at ran
    · split at ran
      · obtain ⟨t,posted,last⟩ := Runs.bind_ok.mp ran
        cases last
        exact congrFun (post posted) p
      · cases ran
        rfl
    · cases ran
  | exitPost q =>
    simp only [step] at ran
    split at ran
    · split at ran
      · cases ran
      · obtain ⟨t,posted,last⟩ := Runs.bind_ok.mp ran
        cases last
        exact congrFun (post posted) p
    · cases ran
  | waitSem q killed =>
    simp only [step] at ran
    split at ran
    · split at ran <;> cases ran <;> rfl
    · cases ran
  | waitResume q =>
    simp only [step] at ran
    split at ran
    · split at ran
      · cases ran
        rfl
      · obtain ⟨sem,_,last⟩ := Runs.bind_ok.mp ran
        cases last
        rfl
    · cases ran
  | waitReap q =>
    simp only [step] at ran
    split at ran
    · split at ran <;> cases ran <;> rfl
    · cases ran
  | waitCheck q =>
    simp only [step] at ran
    split at ran
    · cases ran
      split <;> rfl
    · cases ran
  | _ =>
    simp only [step] at ran
    repeat' split at ran
    all_goals cases ran
    all_goals rfl

-- What holds wherever neither lock is held. An exited process is one past the entry of
-- exit that no wait() has freed.
structure Sound (s : State) : Prop where
  balance : ∀ p, (s.pc p).entered = false → s.posts p+s.granted p = s.zombies p
  linked : ∀ q, (s.pc q).entered = true → s.pc q ≠ .reaped → ∃ p, s.parent q = some p ∧ (s.pc p).entered = false ∧
    ∀ r, (s.children r).count q = if r = p then 1 else 0
  finds : ∀ p, s.pc p = .waitGranted → ∃ z t, z ∈ s.children p ∧ s.pc z = .zombie ∧ step s (.waitReap p) = .ok t ∧
    t.pc z = .reaped ∧ t.returned = (p,z,s.exitcode z)::s.returned
  once : ∀ q, s.returned.countP (fun r => r.2.1 = q) = if s.pc q = .reaped then 1 else 0
  code : ∀ q a t, (s.pc q).entered = true → step s a = .ok t → t.exitcode q = s.exitcode q

theorem Pc.entered_parts {pc : Pc} (entered : pc.entered = true) (present : pc ≠ .reaped) :
    pc.there = true ∧ pc ≠ .unstarted := by
  cases pc <;> simp_all [Pc.entered,Pc.there]

theorem Inv.sound (inv : Inv s) (free : s.unlocked) : Sound s := by
  refine ⟨fun p => inv.balance free,?_,?_,inv.log.once,fun q a t => step_exitcode⟩
  · intro q entered present
    obtain ⟨alive,started⟩ := Pc.entered_parts entered present
    have notRoot : q ≠ rootProc := by
      intro same
      have root := inv.tree.root.1
      rw [← same,entered] at root
      cases root
    obtain ⟨p,parent,member,outside,_⟩ := inv.under free.1 alive started notRoot
    refine ⟨p,parent,outside,?_⟩
    intro r
    split
    · rename_i same
      rw [same]
      exact List.count_eq_one_of_mem (inv.tree.distinct p) member
    · rename_i other
      exact List.count_eq_zero.mpr fun listed => other (inv.tree.once r p q listed member)
  · intro p granted
    obtain ⟨z,found,member,zombie⟩ := inv.finds free granted
    have busy : z ≠ p := by
      intro same
      rw [same,granted] at zombie
      cases zombie
    have ran : step s (.waitReap p) = .ok {((s.setChildren p ((s.children p).erase z)).goto z .reaped).goto p .running with
        returned := (p,z,s.exitcode z)::s.returned} := by
      simp only [step]
      rw [if_pos ⟨free,granted⟩,found]
    refine ⟨z,_,member,zombie,ran,?_,rfl⟩
    · change State.pc (State.goto _ p .running) z = .reaped
      rw [goto_pc,if_neg busy,goto_pc,if_pos rfl]

theorem process_life_sound (path : Runs.Reached next boot s) (free : s.unlocked) : Sound s := by
  refine Inv.sound ?_ free
  refine path.invariant Inv boot_inv ?_
  intro s a s' inv _ ran
  exact step_inv inv (Runs.toOption_some ran)

-- 3 is a child of 2 and dies before it; 2 exits while root is asleep in wait().
def orphanRun : List Action :=
  [.create,.startProc 2,.create,.setParentToThis 2 3,.startProc 3,.waitCheck 1,.waitSem 1 false,
    .exitEnter 3 7,.exitMerge 3,.exitPost 3,.exitHandOver 3,.exitSched 3,
    .exitEnter 2 5,.exitChild 2,.exitMerge 2,.exitPost 2,.exitHandOver 2,.exitSched 2,.waitResume 1]

theorem process_life_sound_of_orphan : ∃ s, Runs.Reached next boot s ∧ s.unlocked ∧ Sound s ∧
    s.pc rootProc = .waitGranted ∧
    s.children rootProc = [3,2] ∧ s.posts rootProc = 1 ∧ s.zombies rootProc = 2 := by
  obtain ⟨s,ran,facts⟩ : ∃ s, Runs.exec next boot orphanRun = some s ∧ decide (s.unlocked ∧ s.pc rootProc = .waitGranted ∧
      s.children rootProc = [3,2] ∧ s.posts rootProc = 1 ∧ s.zombies rootProc = 2) = true :=
    Runs.some_such (by decide +kernel)
  have facts := of_decide_eq_true facts
  have path := Runs.exec_reached .start ran
  exact ⟨s,path,facts.1,process_life_sound path facts.1,facts.2⟩

end Life

end ProcessTree
