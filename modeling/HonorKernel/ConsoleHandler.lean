import HonorKernel.ConsoleLine

-- console_intr over whole runs: when it returns, and the line that goes to the readers.
namespace ConsoleInput
open DiskFormat Semaphores

-- The handler as it is written, round by round: `continue` goes round again with the
-- character as it is by then. `fuel` bounds the rounds of both loops.
def intrLoop : Nat → Console → Byte → Option (Console × Option Nat)
  | 0,_,_ => none
  | fuel+1,cons,c =>
    if c = 255#8 then some (cons,none)
    else
      let c := translate c
      if c = backspace then
        if cons.editIdx ≠ cons.writeIdx then some ({ cons with editIdx := down cons.editIdx },none) else some (cons,none)
      else if c = ctrlU then (cons.eraseLine fuel).map (·,none)
      else if c = ctrlD then
        if up cons.editIdx = cons.readIdx then intrLoop fuel cons c else (cons.store c).commit
      else if c = ctrlC then some (cons,none)
      else if up cons.editIdx = cons.readIdx then intrLoop fuel cons c
      else if c = newline ∨ up (cons.store c).editIdx = cons.readIdx then (cons.store c).commit
      else some (cons.store c,none)

def Returns (cons : Console) (c : Byte) : Prop := ∃ fuel result, intrLoop fuel cons c = some result

section Rounds
variable {cons cons' : Console} {c : Byte}

theorem consoleIntr_loop (ran : consoleIntr cons c = some result) : intrLoop (inputBuf+1) cons c = some result := by
  unfold consoleIntr handle at ran
  unfold intrLoop
  split
  · rename_i nothing
    rw [if_pos nothing] at ran
    exact ran
  · rename_i something
    rw [if_neg something] at ran
    by_cases full : up cons.editIdx = cons.readIdx
    · simp only [if_pos full] at ran ⊢
      split at ran
      · rename_i back
        rw [if_pos back]
        exact ran
      · rename_i notBack
        rw [if_neg notBack]
        split at ran
        · rename_i erase
          rw [if_pos erase]
          exact ran
        · rename_i notErase
          rw [if_neg notErase]
          split at ran
          · cases ran
          · rename_i notEnd
            rw [if_neg notEnd]
            split at ran
            · rename_i signal
              rw [if_pos signal]
              exact ran
            · cases ran
    · simp only [if_neg full] at ran ⊢
      exact ran

theorem intrLoop_spins (fuel : Nat) (stored : stores c) (full : up cons.editIdx = cons.readIdx) :
    intrLoop fuel cons c = none := by
  induction fuel generalizing c with
  | zero => rfl
  | succ fuel ih =>
    have again : stores (translate c) := by
      obtain ⟨something,back,erase,signal⟩ := stored
      refine ⟨?_,?_,?_,?_⟩
      · exact fun same => something (translate_eq (by decide) same)
      · exact fun same => back (translate_eq (by decide) same)
      · exact fun same => erase (translate_eq (by decide) same)
      · exact fun same => signal (translate_eq (by decide) same)
    unfold intrLoop
    simp only [if_neg stored.1,if_neg again.2.1,if_neg again.2.2.1,if_neg again.2.2.2,if_pos full,ih again,ite_self]

theorem consoleIntr_returns (ranged : Ranged cons) (counted : Counted cons.sem)
    (goes : ¬ (stores c ∧ up cons.editIdx = cons.readIdx)) :
    ∃ result, consoleIntr cons c = some result := by
  unfold consoleIntr
  split
  · exact ⟨_,rfl⟩
  · rename_i something
    by_cases back : translate c = backspace
    · unfold handle
      rw [if_pos back]
      split <;> exact ⟨_,rfl⟩
    · by_cases erase : translate c = ctrlU
      · obtain ⟨e,returned,_⟩ := eraseLine_returns inputBuf ranged line_short
        refine ⟨({ cons with editIdx := e },none),?_⟩
        unfold handle
        rw [if_neg back,if_pos erase,returned]
        rfl
      · by_cases signal : translate c = ctrlC
        · refine ⟨(cons,none),?_⟩
          unfold handle
          rw [if_neg back,if_neg erase,if_neg (by rw [signal]; decide),if_pos signal]
        · have stored : stores c := by
            refine ⟨something,?_,?_,?_⟩
            · rintro rfl
              exact back rfl
            · rintro rfl
              exact erase rfl
            · rintro rfl
              exact signal rfl
          have free : ¬ up cons.editIdx = cons.readIdx := fun full => goes ⟨stored,full⟩
          obtain ⟨woken,sem,returned⟩ := commit_returns (cons.store (translate c)) counted
          unfold handle
          simp only [if_neg back,if_neg erase,if_neg signal,if_neg free,returned]
          split
          · exact ⟨_,rfl⟩
          · split <;> exact ⟨_,rfl⟩

theorem returns_iff (ranged : Ranged cons) (counted : Counted cons.sem) :
    Returns cons c ↔ ¬ (stores c ∧ up cons.editIdx = cons.readIdx) := by
  constructor
  · rintro ⟨fuel,result,ran⟩ ⟨stored,full⟩
    rw [intrLoop_spins fuel stored full] at ran
    cases ran
  · intro goes
    obtain ⟨result,ran⟩ := consoleIntr_returns ranged counted goes
    exact ⟨_,result,consoleIntr_loop ran⟩

end Rounds

section Frames
variable {cons cons' : Console} {c : Byte} {woken : Option Nat}

-- A handler that returns has posted, or has left cons.sem alone; read_idx it never sets.
theorem consoleIntr_frame (ranged : Ranged cons) (ran : consoleIntr cons c = some (cons',woken)) :
    Ranged cons' ∧ cons'.readIdx = cons.readIdx ∧
    (cons'.sem = cons.sem ∧ woken = none ∨ postSem cons.sem = .ok (woken,cons'.sem)) := by
  have commits : ∀ c, (cons.store c).commit = some (cons',woken) →
      Ranged cons' ∧ cons'.readIdx = cons.readIdx ∧ (cons'.sem = cons.sem ∧ woken = none ∨ postSem cons.sem = .ok
          (woken,cons'.sem)) := by
    intro c ran
    obtain ⟨⟨who,sem⟩,posted,ran⟩ := Option.bind_eq_some_iff.mp ran
    cases ran
    exact ⟨⟨up_small _,up_small _⟩,rfl,.inr (Runs.toOption_some posted)⟩
  unfold consoleIntr handle at ran
  split at ran
  · cases ran
    exact ⟨ranged,rfl,.inl ⟨rfl,rfl⟩⟩
  · split at ran
    · split at ran
      · cases ran
        exact ⟨⟨ranged.write,down_small _⟩,rfl,.inl ⟨rfl,rfl⟩⟩
      · cases ran
        exact ⟨ranged,rfl,.inl ⟨rfl,rfl⟩⟩
    · split at ran
      · obtain ⟨erased,returned,ran⟩ := Option.map_eq_some_iff.mp ran
        cases ran
        obtain ⟨e,returned',small⟩ := eraseLine_returns inputBuf ranged line_short
        rw [returned] at returned'
        cases returned'
        exact ⟨⟨ranged.write,small⟩,rfl,.inl ⟨rfl,rfl⟩⟩
      · split at ran
        · split at ran
          · cases ran
          · exact commits _ ran
        · split at ran
          · cases ran
            exact ⟨ranged,rfl,.inl ⟨rfl,rfl⟩⟩
          · split at ran
            · cases ran
            · split at ran
              · exact commits _ ran
              · cases ran
                exact ⟨⟨ranged.write,up_small _⟩,rfl,.inl ⟨rfl,rfl⟩⟩

theorem readSection_frame (cons : Console) (target n : Nat) (test : Bool) (got : List Byte) :
    ∃ r, (readSection target n test got cons).2.2 = { cons with readIdx := r } := by
  induction n generalizing test got cons with
  | zero => exact ⟨_,rfl⟩
  | succ n ih =>
    simp only [readSection]
    split
    · exact ⟨_,rfl⟩
    · split
      · split <;> exact ⟨_,rfl⟩
      · split
        · exact ⟨_,rfl⟩
        · obtain ⟨r,same⟩ := @ih { cons with readIdx := up cons.readIdx } true
            (got++[Console.at { cons with readIdx := up cons.readIdx } (up cons.readIdx)])
          exact ⟨r,same⟩

end Frames

-- The calls on the sleep list of cons.sem are those that sleep.
structure Waiting (s : State) : Prop where
  ranged : Ranged s.cons
  counted : Counted s.cons.sem
  nodup : s.cons.sem.sleeplist.Nodup
  asleep : ∀ call, call ∈ s.cons.sem.sleeplist ↔ ∃ reader, s.readers call = some reader ∧ reader.phase = .asleep
  known : ∀ call reader, s.readers call = some reader → call < s.calls

section Waits
variable {s s' : State}

theorem start_waiting : Waiting start :=
  ⟨⟨by decide,by decide⟩,rfl,List.nodup_nil,fun call => ⟨fun member => absurd member List.not_mem_nil,
      fun ⟨_,found,_⟩ => by cases found⟩,
    fun _ _ found => by cases found⟩

theorem Waiting.section (waiting : Waiting s) {call : Nat} (target n : Nat) (test : Bool)
    (awake : call ∉ s.cons.sem.sleeplist) (known : call < s.calls) :
    Waiting (s.section call target n test) := by
  obtain ⟨r,same⟩ := readSection_frame s.cons target n test []
  unfold State.section
  generalize readSection target n test [] s.cons = result at same ⊢
  obtain ⟨exit,got,cons⟩ := result
  change cons = _ at same
  subst same
  simp only
  refine ⟨⟨waiting.ranged.write,waiting.ranged.edit⟩,waiting.counted,waiting.nodup,fun other => ?_,fun other reader found => ?_⟩
  · by_cases mine : other = call
    · subst mine
      refine iff_of_false awake ?_
      rintro ⟨reader,found,phase⟩
      simp only [Function.update_self] at found
      split at found
      · cases found
      · cases found
        cases phase
    · simp only [Function.update_of_ne mine]
      exact waiting.asleep other
  · by_cases mine : other = call
    · subst mine
      exact known
    · simp only [Function.update_of_ne mine] at found
      exact waiting.known other reader found

theorem Waiting.post (waiting : Waiting s) {sem : Semaphore} {woken : Option Nat}
    (posted : postSem s.cons.sem = .ok (woken,sem)) :
    Counted sem ∧ sem.sleeplist.Nodup ∧ ∀ call, call ∈ sem.sleeplist ↔ ∃ reader,
    grant s.readers woken call = some reader ∧ reader.phase = .asleep := by
  have counted := waiting.counted.posted posted
  rcases waiting.counted.post with ⟨_,empty,returned⟩ | ⟨_,rest,proc,listed,returned⟩
  · rw [returned] at posted
    cases posted
    refine ⟨counted,List.nodup_nil,fun call => ?_⟩
    rw [← empty]
    exact waiting.asleep call
  · rw [returned] at posted
    cases posted
    have nodup := waiting.nodup
    rw [listed] at nodup
    have apart : proc ∉ rest := by
      have disjoint := List.disjoint_of_nodup_append nodup
      exact fun member => disjoint member (List.mem_singleton_self proc)
    refine ⟨counted,(List.nodup_append.mp nodup).1,fun call => ?_⟩
    have before := waiting.asleep call
    rw [listed,List.mem_append,List.mem_singleton] at before
    by_cases same : call = proc
    · subst same
      refine iff_of_false apart ?_
      rintro ⟨reader,found,phase⟩
      simp only [grant,if_pos] at found
      obtain ⟨old,_,rfl⟩ := Option.map_eq_some_iff.mp found
      cases phase
    · simp only [grant,if_neg same]
      rw [← before]
      simp [same]

theorem Waiting.next {a : Action} (waiting : Waiting s) (ran : next s a = some s') : Waiting s' := by
  cases a with
  | intr c =>
    obtain ⟨⟨cons,woken⟩,handled,rfl⟩ := Option.map_eq_some_iff.mp ran
    obtain ⟨ranged,_,sem⟩ := consoleIntr_frame waiting.ranged handled
    have known : ∀ call reader, grant s.readers woken call = some reader → call < s.calls := by
      intro call reader found
      obtain ⟨old,before,_⟩ := grant_alike s.readers woken found
      exact waiting.known call old before
    rcases sem with ⟨same,rfl⟩ | posted
    · exact ⟨ranged,by simp only [same]; exact waiting.counted,by simp only [same]; exact waiting.nodup,
        by simp only [same]; exact waiting.asleep,known⟩
    · obtain ⟨counted,nodup,asleep⟩ := waiting.post posted
      exact ⟨ranged,counted,nodup,asleep,known⟩
  | read n =>
    cases ran
    have opened : Waiting { s with calls := s.calls+1 } :=
      ⟨waiting.ranged,waiting.counted,waiting.nodup,waiting.asleep,fun call reader found => Nat.lt_succ_of_lt
          (waiting.known call reader found)⟩
    refine opened.section n n true ?_ (Nat.lt_succ_self _)
    intro member
    obtain ⟨reader,found,_⟩ := (waiting.asleep s.calls).mp member
    exact Nat.lt_irrefl _ (waiting.known _ _ found)
  | wait call =>
    simp only [ConsoleInput.next] at ran
    split at ran
    · rename_i n target there
      cases ran
      have awake : call ∉ s.cons.sem.sleeplist := by
        intro member
        obtain ⟨reader,found,phase⟩ := (waiting.asleep call).mp member
        rw [there] at found
        cases found
        cases phase
      have known : ∀ other reader, Function.update s.readers call
          (some ⟨n,target,if (waitSem s.cons.sem call).1 = true then .granted else .asleep⟩) other = some reader →
              other < s.calls := by
        intro other reader found
        by_cases same : other = call
        · subst same
          exact waiting.known other _ there
        · rw [Function.update_of_ne same] at found
          exact waiting.known other reader found
      have others : ∀ other, other ≠ call → (other ∈ s.cons.sem.sleeplist ↔ ∃ reader, Function.update s.readers call
          (some ⟨n,target,if (waitSem s.cons.sem call).1 = true then .granted else .asleep⟩) other = some reader ∧
              reader.phase = .asleep) := by
        intro other apart
        rw [Function.update_of_ne apart]
        exact waiting.asleep other
      have counted := waiting.counted.wait call
      refine ⟨⟨waiting.ranged.write,waiting.ranged.edit⟩,counted,?_,?_,known⟩
      · simp only [waitSem]
        split
        · exact waiting.nodup
        · exact List.nodup_cons.mpr ⟨awake,waiting.nodup⟩
      · intro other
        simp only
        by_cases same : other = call
        · subst same
          rw [Function.update_self]
          unfold waitSem
          split
          · refine iff_of_false awake ?_
            rintro ⟨_,found,phase⟩
            cases found
            cases phase
          · exact iff_of_true List.mem_cons_self ⟨_,rfl,rfl⟩
        · rw [← others other same]
          unfold waitSem
          split
          · exact Iff.rfl
          · simp [same]
    · cases ran
  | resume call =>
    simp only [ConsoleInput.next] at ran
    split at ran
    · rename_i n target there
      cases ran
      refine waiting.section target n false ?_ (waiting.known call _ there)
      intro member
      obtain ⟨reader,found,phase⟩ := (waiting.asleep call).mp member
      rw [there] at found
      cases found
      cases phase
    · cases ran
  | interrupt call =>
    simp only [ConsoleInput.next] at ran
    split at ran
    · rename_i n target there
      obtain ⟨sem,left,rfl⟩ := Option.map_eq_some_iff.mp ran
      have listed := (waiting.asleep call).mpr ⟨_,there,rfl⟩
      obtain ⟨returned,counted⟩ := waiting.counted.leave listed
      rw [returned] at left
      cases left
      refine ⟨⟨waiting.ranged.write,waiting.ranged.edit⟩,counted,waiting.nodup.erase _,?_,?_⟩
      · intro other
        simp only [waiting.nodup.mem_erase_iff]
        by_cases same : other = call
        · subst same
          rw [Function.update_self]
          refine iff_of_false (fun both => both.1 rfl) ?_
          rintro ⟨_,found,_⟩
          cases found
        · rw [Function.update_of_ne same,← waiting.asleep other]
          exact ⟨And.right,fun member => ⟨same,member⟩⟩
      · intro other reader found
        by_cases same : other = call
        · subst same
          exact waiting.known other _ there
        · simp only [Function.update_of_ne same] at found
          exact waiting.known other reader found
    · cases ran

theorem reached_waiting (path : Runs.Reached next start s) : Waiting s :=
  path.invariant Waiting start_waiting fun _ _ _ waiting _ ran => waiting.next ran

end Waits

-- A full buffer and a character that is to be stored: the handler keeps cons.lock for good.
theorem handler_returns {s : State} (path : Runs.Reached next start s) (c : Byte) :
    Returns s.cons c ↔ ¬ (stores c ∧ up s.cons.editIdx = s.cons.readIdx) :=
  returns_iff (reached_waiting path).ranged (reached_waiting path).counted

theorem handler_returns_erase : ∃ s : State, Runs.Reached next start s ∧ s.cons.editIdx = 1#64 ∧
    Returns s.cons backspace := by
  obtain ⟨s,ran,facts⟩ := Runs.some_such (x := Runs.exec next start [.intr 97#8])
      (p := fun s => s.cons.editIdx = 1#64) (by decide +kernel)
  have path := Runs.exec_reached .start ran
  refine ⟨s,path,of_decide_eq_true facts,(handler_returns path backspace).mpr ?_⟩
  exact fun full => absurd full.1 (by decide)

-- 127 characters that nobody reads, then another one.
theorem handler_spins : ¬ ∀ (s : State) (c : Byte), Runs.Reached next start s → Returns s.cons c := by
  intro returns
  obtain ⟨s,ran,facts⟩ := Runs.some_such (x := Runs.exec next start (List.replicate 127 (.intr 97#8)))
    (p := fun s => up s.cons.editIdx = s.cons.readIdx) (by decide +kernel)
  have path := Runs.exec_reached .start ran
  exact (handler_returns path 97#8).mp (returns s 97#8 path) ⟨by decide,of_decide_eq_true facts⟩

-- A run with the line as it was typed and edited since the last commit.
def watch : State × List Byte → Action → Option (State × List Byte)
  | (s,line),a => (next s a).map fun s' =>
    (s',match a with
      | .intr c => if s'.cons.writeIdx = s.cons.writeIdx then editedLine line (translate c) else []
      | _ => line)

-- Ctrl-U comes on an empty line, or what was committed last is no newline.
def Erasable (cons : Console) (line : List Byte) (c : Byte) : Prop := c = ctrlU → line = [] ∨ cons.at cons.writeIdx ≠ newline

instance (cons : Console) (line : List Byte) (c : Byte) : Decidable (Erasable cons line c) := inferInstanceAs (Decidable (_ → _))

def Keyed (m : State × List Byte) : Action → Prop
  | .intr c => c ≠ 255#8 ∧ (stores c → m.1.cons.notFull) ∧ Erasable m.1.cons m.2 c
  | _ => True

instance (m : State × List Byte) (a : Action) : Decidable (Keyed m a) :=
  match a with
  | .intr c => inferInstanceAs (Decidable (c ≠ 255#8 ∧ (stores c → m.1.cons.notFull) ∧ Erasable m.1.cons m.2 c))
  | .read _ | .wait _ | .resume _ | .interrupt _ => inferInstanceAs (Decidable True)

section Watched
variable {s s' : State} {cons cons' : Console} {line : List Byte} {c : Byte} {a : Action}

theorem write_kept (ranged : Ranged cons) (ranged' : Ranged cons') (same : cons'.readIdx = cons.readIdx) :
    cons'.writeIdx = cons.writeIdx ↔ cons'.unread.length = cons.unread.length := by
  have before := gap_spec cons.readIdx cons.writeIdx
  have after := gap_spec cons.readIdx cons'.writeIdx
  have low := ranged.write
  have low' := ranged'.write
  rw [size] at low low'
  simp only [Console.unread,between_length,same]
  constructor
  · intro equal
    rw [equal]
  · intro equal
    exact BitVec.eq_of_toNat_eq (by omega)

theorem readers_line (ran : next s a = some s') (reads : ∀ c, a ≠ .intr c) : s'.cons.line = s.cons.line := by
  have sections : ∀ (t : State) call target n test, (t.section call target n test).cons.line = t.cons.line := by
    intro t call target n test
    obtain ⟨r,same⟩ := readSection_frame t.cons target n test []
    unfold State.section
    generalize readSection target n test [] t.cons = result at same ⊢
    obtain ⟨exit,got,cons⟩ := result
    change cons = _ at same
    subst same
    rfl
  cases a with
  | intr c => exact absurd rfl (reads c)
  | read n =>
    cases ran
    exact sections _ _ _ _ _
  | wait call =>
    simp only [next] at ran
    split at ran
    · cases ran
      rfl
    · cases ran
  | resume call =>
    simp only [next] at ran
    split at ran
    · cases ran
      exact sections _ _ _ _ _
    · cases ran
  | interrupt call =>
    simp only [next] at ran
    split at ran
    · obtain ⟨sem,_,rfl⟩ := Option.map_eq_some_iff.mp ran
      rfl
    · cases ran

structure Watches (m : State × List Byte) : Prop where
  reached : Runs.Reached next start m.1
  line : m.1.cons.line = m.2
  clean : ∀ b ∈ m.2, b ≠ newline

theorem editedLine_grows (line : List Byte) (ends : c = newline ∨ c = ctrlD ∨ stores c ∧ m) :
    editedLine line c = line++[c] := by
  unfold editedLine
  rcases ends with rfl | rfl | ⟨stored,_⟩
  · rfl
  · rfl
  · rw [if_neg stored.2.1,if_neg stored.2.2.1,if_neg stored.2.2.2]

theorem Watches.step {m m' : State × List Byte} (watches : Watches m) (keyed : Keyed m a)
    (ran : watch m a = some m') : Watches m' := by
  obtain ⟨s,line⟩ := m
  obtain ⟨s',stepped,rfl⟩ := Option.map_eq_some_iff.mp ran
  have reached := Runs.Guarded.step watches.reached trivial stepped
  have whole : s.cons.line = line := watches.line
  by_cases typed : ∃ c, a = .intr c
  · obtain ⟨c,rfl⟩ := typed
    obtain ⟨something,room,erasable⟩ := keyed
    have waiting := reached_waiting watches.reached
    obtain ⟨cons',woken,handled,ranged,clean,edits⟩ := consoleIntr_edits (c := c) waiting.ranged waiting.counted room
      (by rw [whole]; exact watches.clean) something
    have same := (consoleIntr_frame waiting.ranged handled).2.1
    obtain ⟨⟨cons'',woken'⟩,handled',rfl⟩ := Option.map_eq_some_iff.mp stepped
    rw [handled] at handled'
    cases handled'
    have kept := write_kept waiting.ranged ranged same
    have edited := edits.mpr (by rw [whole]; exact erasable)
    rw [whole] at edited
    have result : cons'.line = if cons'.writeIdx = s.cons.writeIdx then editedLine line (translate c) else [] := by
      rcases edited with ⟨unread,after,_⟩ | ⟨unread,after,ends⟩
      · rw [if_pos (kept.mpr (congrArg List.length unread)),after]
      · have longer := congrArg List.length unread
        rw [editedLine_grows line ends,List.length_append,List.length_append,List.length_singleton] at longer
        rw [if_neg (fun stays => by have equal := kept.mp stays; omega),after]
    refine ⟨reached,result,?_⟩
    change ∀ b ∈ (if cons'.writeIdx = s.cons.writeIdx then editedLine line (translate c) else []), b ≠ newline
    rw [← result]
    exact clean
  · have reads : ∀ c, a ≠ .intr c := fun c same => typed ⟨c,same⟩
    have after := readers_line stepped reads
    cases a with
    | intr c => exact absurd rfl (reads c)
    | _ => exact ⟨reached,after.trans whole,watches.clean⟩

end Watched

theorem start_watches : Watches (start,[]) := ⟨.start,rfl,fun _ member => absurd member List.not_mem_nil⟩

-- In front of a committed newline Ctrl-U leaves the first character; all else is as typed.
theorem line_edited {m : State × List Byte} (path : Runs.Guarded watch Keyed (start,[]) m) :
    m.1.cons.line = m.2 ∧ ∀ c, c ≠ 255#8 → (stores c → m.1.cons.notFull) → ∃ cons' woken,
    consoleIntr m.1.cons c = some (cons',woken) ∧
      (Edited m.1.cons.unread m.2 (translate c) cons' ↔ Erasable m.1.cons m.2 c) := by
  have watches := path.invariant Watches start_watches fun _ _ _ watches keyed ran => watches.step keyed ran
  refine ⟨watches.line,fun c something room => ?_⟩
  have waiting := reached_waiting watches.reached
  obtain ⟨cons',woken,handled,_,_,edits⟩ := consoleIntr_edits (c := c) waiting.ranged waiting.counted room
    (by rw [watches.line]; exact watches.clean) something
  rw [watches.line] at edits
  exact ⟨cons',woken,handled,edits⟩

-- A line is read, the next one is mistyped and corrected.
theorem line_edited_twice : ∃ m : State × List Byte, Runs.Guarded watch Keyed (start,[]) m ∧ m.2 = [98#8] ∧
    m.1.cons.line = [98#8] := by
  obtain ⟨m,ran,facts⟩ := Runs.some_such
    (x := Runs.execGuarded watch Keyed (start,[]) [.intr 97#8,.intr carriageReturn,.read 10,.intr 120#8,.intr backspace,.intr 98#8])
    (p := fun m => m.2 = [98#8]) (by decide +kernel)
  have path := Runs.exec_guarded .start ran
  exact ⟨m,path,of_decide_eq_true facts,(line_edited path).1.trans (of_decide_eq_true facts)⟩

theorem first_character_stays : ¬ ∀ m : State × List Byte, Runs.Reached watch (start,[]) m → ∀ c, c ≠ 255#8 →
    (stores c → m.1.cons.notFull) →
    ∃ cons' woken, consoleIntr m.1.cons c = some (cons',woken) ∧ Edited m.1.cons.unread m.2 (translate c) cons' := by
  intro edited
  obtain ⟨m,ran,facts⟩ := Runs.some_such
    (x := Runs.execGuarded watch Keyed (start,[]) [.intr 97#8,.intr carriageReturn,.intr 120#8])
    (p := fun m => ¬ Erasable m.1.cons m.2 ctrlU) (by decide +kernel)
  have marked := of_decide_eq_true facts
  have room : stores ctrlU → m.1.cons.notFull := fun stored => absurd stored (by decide)
  have path := Runs.exec_guarded .start ran
  obtain ⟨cons',woken,handled,edited⟩ := edited m path.reached ctrlU (by decide) room
  obtain ⟨cons'',woken',handled',edits⟩ := (line_edited path).2 ctrlU (by decide) room
  rw [handled] at handled'
  cases handled'
  exact marked (edits.mp edited)

end ConsoleInput
