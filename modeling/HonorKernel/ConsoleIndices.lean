import HonorKernel.ConsoleHandler

-- read_idx, write_idx and edit_idx go round the buffer in this order, until a Ctrl-D in
-- slot 0 is put back.
namespace ConsoleInput
open DiskFormat Semaphores

structure Indexed (cons : Console) : Prop where
  read : cons.readIdx.toNat < inputBuf
  write : cons.writeIdx.toNat < inputBuf
  edit : cons.editIdx.toNat < inputBuf
  order : gap cons.readIdx cons.writeIdx ≤ gap cons.readIdx cons.editIdx
  full : up cons.editIdx = cons.readIdx ↔ cons.unread.length+cons.line.length+1 = inputBuf
  empty : cons.readIdx = cons.writeIdx ↔ cons.unread = []

-- A call that has to read `n` of `target` characters comes, behind characters that it
-- returns, to a Ctrl-D in slot 0; `before` are the unread ones in the slots up to 127.
def Console.slotsBefore (cons : Console) : List Byte := cons.unread.take (127-cons.readIdx.toNat)

def WrapsBack (cons : Console) (target n : Nat) : Prop :=
  cons.buf 0 = ctrlD ∧ 127-cons.readIdx.toNat < cons.unread.length ∧ 127-cons.readIdx.toNat < n ∧ n < target+(127-cons.readIdx.toNat) ∧
    ∀ c ∈ cons.slotsBefore, c ≠ ctrlD ∧ c ≠ newline

instance (cons : Console) (target n : Nat) : Decidable (WrapsBack cons target n) := by
  unfold WrapsBack
  infer_instance

section Order
variable {cons cons' : Console} {target n : Nat}

theorem gap_add (i j k : Usize) : gap i k = (gap i j+gap j k)%128 := by
  have first := gap_spec i j
  have second := gap_spec j k
  have whole := gap_spec i k
  omega

theorem gap_up (i j : Usize) : gap i j = (gap (up i) j+1)%128 := by
  have first := gap_spec i j
  have second := gap_spec (up i) j
  have next := up_toNat i
  rw [size] at next
  omega

theorem full_gap_iff {i j : Usize} (inside : i.toNat < inputBuf) : up j = i ↔ gap i j = 127 := by
  have whole := gap_spec i j
  have next := up_toNat j
  rw [size] at inside next
  constructor
  · intro full
    rw [full] at next
    omega
  · intro full
    exact BitVec.eq_of_toNat_eq (by omega)

theorem lengths_of_order (order : gap cons.readIdx cons.writeIdx ≤ gap cons.readIdx cons.editIdx) :
    cons.unread.length+cons.line.length = gap cons.readIdx cons.editIdx := by
  have sum := gap_add cons.readIdx cons.writeIdx cons.editIdx
  have first := (gap_spec cons.readIdx cons.writeIdx).1
  have second := (gap_spec cons.writeIdx cons.editIdx).1
  simp only [Console.unread,Console.line,between_length]
  omega

theorem indexed_of_order (read : cons.readIdx.toNat < inputBuf) (ranged : Ranged cons)
    (order : gap cons.readIdx cons.writeIdx ≤ gap cons.readIdx cons.editIdx) : Indexed cons := by
  refine ⟨read,ranged.write,ranged.edit,order,?_,?_⟩
  · rw [full_gap_iff read,lengths_of_order order,size]
    omega
  · rw [Console.unread,between_nil _ read ranged.write]
    exact eq_comm

theorem Indexed.take (indexed : Indexed cons) (more : cons.readIdx ≠ cons.writeIdx) :
    Indexed { cons with readIdx := up cons.readIdx } ∧
      cons.unread = cons.at (up cons.readIdx)::Console.unread { cons with readIdx := up cons.readIdx } := by
  have some := mt (gap_zero indexed.read indexed.write).mp (Ne.symm more)
  have toWrite := gap_up cons.readIdx cons.writeIdx
  have toEdit := gap_up cons.readIdx cons.editIdx
  have small := (gap_spec (up cons.readIdx) cons.writeIdx).1
  have small' := (gap_spec (up cons.readIdx) cons.editIdx).1
  have order := indexed.order
  refine ⟨indexed_of_order (up_small _) ⟨indexed.write,indexed.edit⟩ ?_,?_⟩
  · change gap (up cons.readIdx) cons.writeIdx ≤ gap (up cons.readIdx) cons.editIdx
    omega
  · change Ring.contents cons.buf (cons.readIdx.toNat+1) (gap cons.readIdx cons.writeIdx) =
      _::Ring.contents cons.buf ((up cons.readIdx).toNat+1) (gap (up cons.readIdx) cons.writeIdx)
    have one : gap cons.readIdx cons.writeIdx = 1+gap (up cons.readIdx) cons.writeIdx := by omega
    have next := up_toNat cons.readIdx
    rw [size] at next
    have head : Ring.contents cons.buf (cons.readIdx.toNat+1) 1 = [cons.at (up cons.readIdx)] := by
      rw [show (1 : Nat) = 0+1 from rfl,Ring.contents_succ]
      simp only [Ring.contents_zero,List.nil_append,Console.at]
      congr 2
      refine Ring.slot_congr ?_
      rw [size]
      omega
    rw [one,Ring.contents_add,head,List.singleton_append]
    congr 1
    refine Ring.contents_congr ?_
    rw [size]
    omega

theorem gap_right (i j : Usize) : gap i (up j) = (gap i j+1)%128 := by
  have first := gap_spec i j
  have second := gap_spec i (up j)
  have next := up_toNat j
  rw [size] at next
  omega

theorem gap_left (i j : Usize) : gap i (down j) = (gap i j+127)%128 := by
  have first := gap_spec i j
  have second := gap_spec i (down j)
  have before := down_toNat j
  rw [size] at before
  omega

theorem Indexed.shorten (indexed : Indexed cons) (more : cons.editIdx ≠ cons.writeIdx) : Indexed { cons with editIdx := down cons.editIdx } := by
  have less := gap_left cons.readIdx cons.editIdx
  have order := indexed.order
  have whole := lengths_of_order order
  have some := List.length_pos_iff.mpr (mt (between_nil cons indexed.write indexed.edit).mp more)
  have whole' : cons.unread.length+(cons.between cons.writeIdx cons.editIdx).length = gap cons.readIdx cons.editIdx := whole
  have long : cons.unread.length = gap cons.readIdx cons.writeIdx := between_length
  have small := (gap_spec cons.readIdx cons.editIdx).1
  refine indexed_of_order indexed.read ⟨indexed.write,down_small _⟩ ?_
  change gap cons.readIdx cons.writeIdx ≤ gap cons.readIdx (down cons.editIdx)
  omega

theorem Indexed.store (indexed : Indexed cons) (free : ¬ up cons.editIdx = cons.readIdx) (c : Byte) :
    Indexed (cons.store c) := by
  have more := gap_right cons.readIdx cons.editIdx
  have room := mt (full_gap_iff indexed.read).mpr free
  have small := (gap_spec cons.readIdx cons.editIdx).1
  have order := indexed.order
  refine indexed_of_order indexed.read ⟨indexed.write,up_small _⟩ ?_
  change gap cons.readIdx cons.writeIdx ≤ gap cons.readIdx (up cons.editIdx)
  omega

theorem Indexed.setSem (indexed : Indexed cons) (sem : Semaphore) : Indexed { cons with sem := sem } :=
  indexed_of_order indexed.read ⟨indexed.write,indexed.edit⟩ indexed.order

theorem Indexed.commit {woken : Option Nat} (indexed : Indexed cons) (ran : cons.commit = some (cons',woken)) :
    Indexed cons' := by
  obtain ⟨⟨who,sem⟩,_,ran⟩ := Option.bind_eq_some_iff.mp ran
  cases ran
  exact indexed_of_order indexed.read ⟨indexed.edit,indexed.edit⟩ (Nat.le_refl _)

theorem Indexed.eraseLine (fuel : Nat) (indexed : Indexed cons) (ran : cons.eraseLine fuel = some cons') :
    Indexed cons' := by
  induction fuel generalizing cons with
  | zero => cases ran
  | succ fuel ih =>
    rw [Console.eraseLine] at ran
    split at ran
    · rename_i more
      exact ih (indexed.shorten more.1) ran
    · cases ran
      exact indexed

theorem Indexed.intr {c : Byte} {woken : Option Nat} (indexed : Indexed cons)
    (ran : consoleIntr cons c = some (cons',woken)) : Indexed cons' := by
  unfold consoleIntr handle at ran
  split at ran
  · cases ran
    exact indexed
  · split at ran
    · split at ran
      · rename_i more
        cases ran
        exact indexed.shorten more
      · cases ran
        exact indexed
    · split at ran
      · obtain ⟨erased,returned,ran⟩ := Option.map_eq_some_iff.mp ran
        cases ran
        exact indexed.eraseLine _ returned
      · split at ran
        · split at ran
          · cases ran
          · rename_i free
            exact (indexed.store free _).commit ran
        · split at ran
          · cases ran
            exact indexed
          · split at ran
            · cases ran
            · rename_i free
              split at ran
              · exact (indexed.store free _).commit ran
              · cases ran
                exact indexed.store free _

theorem wrapsBack_first {c : Byte} {rest : List Byte} (unread : cons.unread = c::rest) (wraps : WrapsBack cons target n)
    (before : cons.readIdx.toNat < 127) : c ≠ ctrlD ∧ c ≠ newline := by
  refine wraps.2.2.2.2 c ?_
  obtain ⟨k,is⟩ := Nat.exists_eq_succ_of_ne_zero (show 127-cons.readIdx.toNat ≠ 0 by omega)
  unfold Console.slotsBefore
  rw [unread,is,List.take_succ_cons]
  exact List.mem_cons_self

theorem at_last (last : cons.readIdx.toNat = 127) : cons.at (up cons.readIdx) = cons.buf 0 := by
  unfold Console.at
  congr 1
  refine Fin.ext ?_
  change (up cons.readIdx).toNat%inputBuf = 0
  rw [up_toNat,last]
  rfl

theorem wrapsBack_step (indexed : Indexed cons) (more : cons.readIdx ≠ cons.writeIdx)
    (data : cons.at (up cons.readIdx) ≠ ctrlD ∧ cons.at (up cons.readIdx) ≠ newline) :
    WrapsBack { cons with readIdx := up cons.readIdx } target n ↔ WrapsBack cons target (n+1) := by
  obtain ⟨indexed',unread⟩ := indexed.take more
  have length := congrArg List.length unread
  rw [List.length_cons] at length
  have read := indexed.read
  have next := up_toNat cons.readIdx
  have short : (Console.unread { cons with readIdx := up cons.readIdx }).length < 127 := by
    have whole := lengths_of_order indexed.order
    have small := (gap_spec cons.readIdx cons.editIdx).1
    omega
  rw [size] at read next
  by_cases last : cons.readIdx.toNat = 127
  · refine iff_of_false ?_ ?_
    · rintro ⟨_,inside,_⟩
      simp only at inside
      omega
    · rintro ⟨ends,_⟩
      rw [at_last last] at data
      exact data.1 ends
  · have place : 127-cons.readIdx.toNat = 127-(up cons.readIdx).toNat+1 := by omega
    have before : cons.slotsBefore = cons.at (up cons.readIdx)::Console.slotsBefore { cons with readIdx := up cons.readIdx } := by
      unfold Console.slotsBefore
      rw [unread,place,List.take_succ_cons]
    unfold WrapsBack
    rw [before,length,place]
    simp only [List.forall_mem_cons]
    constructor
    · rintro ⟨ends,inside,lower,upper,rest⟩
      exact ⟨ends,by omega,by omega,by omega,data,rest⟩
    · rintro ⟨ends,inside,lower,upper,_,rest⟩
      exact ⟨ends,by omega,by omega,by omega,rest⟩

theorem readSection_indexed (test : Bool) (got : List Byte) (indexed : Indexed cons)
    (ready : test = true ∨ cons.readIdx ≠ cons.writeIdx) :
    Indexed (readSection target n test got cons).2.2 ↔ ¬ WrapsBack cons target n := by
  induction n generalizing test got cons with
  | zero => exact iff_of_true indexed fun wraps => absurd wraps.2.2.1 (Nat.not_lt_zero _)
  | succ n ih =>
    simp only [readSection]
    split
    · rename_i waits
      refine iff_of_true indexed fun wraps => ?_
      have none := indexed.empty.mp waits.2
      have inside := wraps.2.1
      rw [none] at inside
      exact absurd inside (Nat.not_lt_zero _)
    · rename_i goesOn
      have more : cons.readIdx ≠ cons.writeIdx := by
        intro same
        rcases ready with test | other
        · exact goesOn ⟨test,same⟩
        · exact other same
      obtain ⟨indexed',unread⟩ := indexed.take more
      have read := indexed.read
      rw [size] at read
      have here : Console.at { cons with readIdx := up cons.readIdx } (up cons.readIdx) = cons.at (up cons.readIdx) := rfl
      simp only [here]
      split
      · rename_i ends
        by_cases last : cons.readIdx.toNat = 127
        · have zero : up cons.readIdx = 0#64 := by
            refine BitVec.eq_of_toNat_eq ?_
            rw [up_toNat,last]
            rfl
          split
          · rename_i early
            refine iff_of_false ?_ (not_not.mpr ⟨?_,?_,?_,?_,?_⟩)
            · intro after
              have low := after.read
              simp only [zero] at low
              exact absurd low (by decide)
            · rw [← at_last last]
              exact ends
            · rw [unread,last]
              exact Nat.succ_pos _
            · omega
            · omega
            · unfold Console.slotsBefore
              rw [last]
              simp
          · rename_i late
            refine iff_of_true indexed' fun wraps => ?_
            have upper := wraps.2.2.2.1
            omega
        · have clear : ¬ WrapsBack cons target (n+1) := fun wraps => (wrapsBack_first unread wraps (by omega)).1 ends
          split
          · refine iff_of_true ?_ clear
            have back : up cons.readIdx-1#64 = cons.readIdx := by
              have next := up_toNat cons.readIdx
              rw [size] at next
              refine BitVec.eq_of_toNat_eq ?_
              rw [BitVec.toNat_sub,one]
              omega
            rw [back]
            exact indexed
          · exact iff_of_true indexed' clear
      · rename_i data
        split
        · rename_i newLine
          refine iff_of_true indexed' fun wraps => ?_
          by_cases last : cons.readIdx.toNat = 127
          · rw [at_last last] at data
            exact data wraps.1
          · exact (wrapsBack_first unread wraps (by omega)).2 newLine
        · rename_i notNewline
          rw [ih true _ indexed' (.inl rfl),wrapsBack_step indexed more ⟨data,notNewline⟩]

end Order

-- A call leaves the wait only when there is something to read, and no Ctrl-D goes back
-- from slot 0.
def Ordered (s : State) : Action → Prop
  | .read n => ¬ WrapsBack s.cons n n
  | .resume call => s.cons.readIdx ≠ s.cons.writeIdx ∧ (s.readers call).all fun reader => decide ¬ WrapsBack s.cons reader.target reader.n
  | _ => True

instance (s : State) (a : Action) : Decidable (Ordered s a) :=
  match a with
  | .read n => inferInstanceAs (Decidable (¬ WrapsBack s.cons n n))
  | .resume call => inferInstanceAs (Decidable (s.cons.readIdx ≠ s.cons.writeIdx ∧
      (s.readers call).all fun reader => decide ¬ WrapsBack s.cons reader.target reader.n))
  | .intr _ | .wait _ | .interrupt _ => inferInstanceAs (Decidable True)

section Steps
variable {s s' : State} {a : Action}

theorem section_cons (s : State) (call target n : Nat) (test : Bool) :
    (s.section call target n test).cons = (readSection target n test [] s.cons).2.2 := rfl

theorem Indexed.step (indexed : Indexed s.cons) (ran : next s a = some s')
    (wakes : ∀ call, a = .resume call → s.cons.readIdx ≠ s.cons.writeIdx) :
    Indexed s'.cons ↔ Ordered s a := by
  cases a with
  | intr c =>
    obtain ⟨⟨cons,woken⟩,handled,rfl⟩ := Option.map_eq_some_iff.mp ran
    exact iff_of_true (indexed.intr handled) trivial
  | read n =>
    cases ran
    rw [section_cons]
    exact readSection_indexed true [] indexed (.inl rfl)
  | wait call =>
    simp only [next] at ran
    split at ran
    · cases ran
      exact iff_of_true (indexed.setSem _) trivial
    · cases ran
  | resume call =>
    have more := wakes call rfl
    simp only [next] at ran
    split at ran
    · rename_i n target there
      cases ran
      rw [section_cons,readSection_indexed false [] indexed (.inr more),Ordered,there]
      simp [more]
    · cases ran
  | interrupt call =>
    simp only [next] at ran
    split at ran
    · obtain ⟨sem,_,rfl⟩ := Option.map_eq_some_iff.mp ran
      exact iff_of_true (indexed.setSem _) trivial
    · cases ran

theorem Ordered.wakes (ordered : Ordered s a) (call : Nat) (same : a = .resume call) :
    s.cons.readIdx ≠ s.cons.writeIdx := by
  subst same
  exact ordered.1

end Steps

theorem start_indexed : Indexed start.cons := indexed_of_order (by decide) ⟨by decide,by decide⟩ (by decide)

theorem indices_ordered {s : State} (path : Runs.Guarded next Ordered start s) : Indexed s.cons ∧
    ∀ a s', next s a = some s' → (∀ call, a = .resume call → s.cons.readIdx ≠ s.cons.writeIdx) →
    (Indexed s'.cons ↔ Ordered s a) := by
  have indexed : Indexed s.cons := path.invariant (fun s => Indexed s.cons) start_indexed
    fun _ _ _ indexed ordered ran => (indexed.step ran ordered.wakes).mpr ordered
  exact ⟨indexed,fun _ _ ran wakes => indexed.step ran wakes⟩

-- A Ctrl-D that ends a read behind a character goes back to slot 2.
theorem indices_ordered_ctrlD : ∃ s : State, Runs.Guarded next Ordered start s ∧ s.log = [(0,97#8)] ∧
    s.cons.readIdx = 1#64 ∧ Indexed s.cons := by
  obtain ⟨s,ran,facts⟩ := Runs.some_such (x := Runs.execGuarded next Ordered start [.intr 97#8,.intr ctrlD,.read 10])
    (p := fun s => s.log = [(0,97#8)] ∧ s.cons.readIdx = 1#64) (by decide +kernel)
  obtain ⟨log,read⟩ := of_decide_eq_true facts
  have path := Runs.exec_guarded .start ran
  exact ⟨s,path,log,read,(indices_ordered path).1⟩

-- 126 characters are read, the next one comes to slot 127 and Ctrl-D to slot 0.
theorem read_index_wraps : ¬ ∀ s : State, Runs.Reached next start s → Indexed s.cons := by
  intro indexed
  obtain ⟨s,ran,facts⟩ := Runs.some_such
    (x := Runs.exec next start (List.replicate 125 (.intr 97#8)++[.intr newline,.read 200,.intr 98#8,.intr ctrlD,.read 10]))
    (p := fun s => ¬ s.cons.readIdx.toNat < inputBuf) (by decide +kernel)
  exact of_decide_eq_true facts (indexed s (Runs.exec_reached .start ran)).read

end ConsoleInput
