import HonorKernel.Console

-- The ring of the console between read_idx, write_idx and edit_idx: what the readers get
-- is what the keyboard has sent.
namespace ConsoleInput
open DiskFormat Semaphores

-- From behind read_idx on stand the committed characters that nobody has read, then the
-- line. Only a Ctrl-D that was put back can leave read_idx below 0.
structure Stored (cons : Console) (unread line : List Byte) : Prop where
  holds : Ring.Holds cons.buf (cons.readIdx.toNat+1) (unread++line)
  room : unread.length+line.length < inputBuf
  write : cons.writeIdx.toNat = (cons.readIdx.toNat+unread.length)%inputBuf
  edit : cons.editIdx.toNat = (cons.readIdx.toNat+unread.length+line.length)%inputBuf
  read : cons.readIdx.toNat < inputBuf ∨ cons.readIdx = -1#64 ∧ unread ≠ []

section Indices
variable {cons cons' : Console} {unread line : List Byte} {c : Byte}

theorem size : inputBuf = 128 := rfl

theorem modulus : (128#64 : Usize).toNat = 128 := rfl
theorem one : (1#64 : Usize).toNat = 1 := rfl

theorem up_toNat (i : Usize) : (up i).toNat = (i.toNat+1)%inputBuf := by
  unfold up
  rw [BitVec.toNat_umod,BitVec.toNat_add,size,modulus,one]
  omega

theorem down_toNat (i : Usize) : (down i).toNat = (i.toNat+127)%inputBuf := by
  unfold down
  rw [BitVec.toNat_umod,BitVec.toNat_sub,size,modulus,one]
  omega

theorem minus_one : (-1#64 : Usize).toNat = 2^64-1 := rfl

theorem Stored.empty_iff (stored : Stored cons unread line) : cons.readIdx = cons.writeIdx ↔ unread = [] := by
  have room := stored.room
  have write := stored.write
  rw [size] at room write
  constructor
  · intro same
    rcases stored.read with inside | ⟨below,_⟩
    · rw [← same] at write
      rw [size] at inside
      exact List.eq_nil_of_length_eq_zero (by omega)
    · rw [← same,below,minus_one] at write
      omega
  · rintro rfl
    rcases stored.read with inside | ⟨_,some⟩
    · rw [size] at inside
      rw [List.length_nil,Nat.add_zero] at write
      exact BitVec.eq_of_toNat_eq (by omega)
    · exact absurd rfl some

theorem Stored.line_iff (stored : Stored cons unread line) : cons.editIdx = cons.writeIdx ↔ line = [] := by
  have room := stored.room
  have write := stored.write
  have edit := stored.edit
  rw [size] at room write edit
  constructor
  · intro same
    rw [same] at edit
    exact List.eq_nil_of_length_eq_zero (by omega)
  · rintro rfl
    rw [List.length_nil,Nat.add_zero] at edit
    exact BitVec.eq_of_toNat_eq (by omega)

theorem Stored.held (stored : Stored cons unread line) : cons.held = unread.length+line.length := by
  have room := stored.room
  have edit := stored.edit
  rw [size] at room edit
  unfold Console.held
  rw [BitVec.toNat_umod,BitVec.toNat_sub,modulus]
  have small := cons.readIdx.isLt
  omega

-- The slots run out at 127 characters, but the test never fires below 0.
theorem Stored.full_iff (stored : Stored cons unread line) :
    up cons.editIdx = cons.readIdx ↔ cons.held+1 = inputBuf ∧ cons.readIdx.toNat < inputBuf := by
  have room := stored.room
  have edit := stored.edit
  have next := up_toNat cons.editIdx
  rw [stored.held]
  rw [size] at room edit next ⊢
  constructor
  · intro same
    rw [same] at next
    omega
  · rintro ⟨all,inside⟩
    exact BitVec.eq_of_toNat_eq (by omega)

theorem Stored.take (stored : Stored cons (c::unread) line) :
    cons.at (up cons.readIdx) = c ∧ Stored { cons with readIdx := up cons.readIdx } unread line := by
  have next := up_toNat cons.readIdx
  have room := stored.room
  have write := stored.write
  have edit := stored.edit
  rw [size] at room write edit next
  rw [List.length_cons] at room write edit
  have same : (cons.readIdx.toNat+1)%inputBuf = (up cons.readIdx).toNat%inputBuf := by
    rw [size]
    omega
  refine ⟨?_,?_,?_,?_,?_,?_⟩
  · have first := Ring.Holds.head stored.holds
    rw [Ring.slot_congr same] at first
    exact first
  · refine (Ring.Holds.tail stored.holds).congr ?_
    simp only [size]
    omega
  · simp only [size]
    omega
  · simp only [size]
    omega
  · simp only [size]
    omega
  · refine .inl ?_
    simp only [size]
    omega

theorem Stored.putBack (stored : Stored cons (c::unread) line) :
    Stored { cons with readIdx := up cons.readIdx-1#64 } (c::unread) line := by
  have next := up_toNat cons.readIdx
  have room := stored.room
  have write := stored.write
  have edit := stored.edit
  rw [size] at room write edit next
  have back : (up cons.readIdx-1#64).toNat = if up cons.readIdx = 0#64 then 2^64-1 else (up cons.readIdx).toNat-1 := by
    rw [BitVec.toNat_sub,one]
    split
    · rename_i zero
      rw [zero]
      rfl
    · rename_i positive
      have positive : (up cons.readIdx).toNat ≠ 0 := fun zero => positive (BitVec.eq_of_toNat_eq zero)
      omega
  have same : (up cons.readIdx-1#64).toNat%128 = cons.readIdx.toNat%128 := by
    rw [back]
    split
    · rename_i zero
      have zero : (up cons.readIdx).toNat = 0 := by rw [zero]; rfl
      omega
    · rename_i positive
      have positive : (up cons.readIdx).toNat ≠ 0 := fun zero => positive (BitVec.eq_of_toNat_eq zero)
      omega
  refine ⟨?_,stored.room,?_,?_,?_⟩
  · refine stored.holds.congr ?_
    simp only [size]
    omega
  · simp only [size]
    omega
  · simp only [size]
    omega
  · simp only [size]
    by_cases zero : up cons.readIdx = 0#64
    · exact .inr ⟨by rw [zero]; rfl,by simp⟩
    · rw [if_neg zero] at back
      exact .inl (by omega)

theorem Stored.store (stored : Stored cons unread line) (fits : cons.held+1 < inputBuf) :
    Stored (cons.store c) unread (line++[c]) := by
  have next := up_toNat cons.editIdx
  have room := stored.room
  have edit := stored.edit
  rw [stored.held] at fits
  rw [size] at room edit next fits
  have place : Ring.slot inputBuf (up cons.editIdx).toNat = Ring.slot inputBuf (cons.readIdx.toNat+1+(unread++line).length) := by
    refine Ring.slot_congr ?_
    rw [List.length_append,size]
    omega
  refine ⟨?_,?_,stored.write,?_,stored.read⟩
  · simp only [Console.store,place,← List.append_assoc]
    refine stored.holds.push ?_
    rw [List.length_append]
    exact stored.room
  · rw [List.length_append,List.length_singleton,size]
    omega
  · simp only [Console.store,List.length_append,List.length_singleton,size]
    omega

theorem Stored.commit (stored : Stored cons unread line) (ran : cons.commit = some (cons',woken)) :
    Stored cons' (unread++line) [] := by
  obtain ⟨⟨_,sem⟩,_,ran⟩ := Option.bind_eq_some_iff.mp ran
  cases ran
  have edit := stored.edit
  refine ⟨?_,?_,?_,?_,?_⟩
  · simpa using stored.holds
  · simpa using stored.room
  · simp only [List.length_append,edit,Nat.add_assoc]
  · simp only [List.length_append,List.length_nil,edit,Nat.add_assoc,Nat.add_zero]
  · exact stored.read.imp_right fun ⟨below,more⟩ => ⟨below,by simp [more]⟩

theorem Stored.shorten (stored : Stored cons unread (line++[c])) : Stored { cons with editIdx := down cons.editIdx } unread line := by
  have before := down_toNat cons.editIdx
  have room := stored.room
  have edit := stored.edit
  rw [List.length_append,List.length_singleton] at room edit
  rw [size] at room edit before
  have holds := stored.holds
  rw [← List.append_assoc] at holds
  refine ⟨holds.first,?_,stored.write,?_,stored.read⟩
  · rw [size]
    omega
  · simp only [size]
    omega

-- The character before the last of the line is one of the line, or the last one that
-- was committed.
theorem Stored.previous (stored : Stored cons unread (line++[b]++[c])) : cons.at (down cons.editIdx) = b := by
  have before := down_toNat cons.editIdx
  have room := stored.room
  have edit := stored.edit
  simp only [List.length_append,List.length_singleton] at room edit
  rw [size] at room edit before
  have holds := stored.holds
  rw [← List.append_assoc] at holds
  have shorter := holds.first
  rw [← List.append_assoc] at shorter
  have last := shorter.last
  rw [List.length_append] at last
  rw [← last]
  unfold Console.at
  congr 1
  refine Ring.slot_congr ?_
  rw [size]
  omega

theorem Stored.previous_write (stored : Stored cons unread [c]) : down cons.editIdx = cons.writeIdx := by
  have before := down_toNat cons.editIdx
  have write := stored.write
  have edit := stored.edit
  rw [List.length_singleton] at edit
  rw [size] at write edit before
  exact BitVec.eq_of_toNat_eq (by omega)

end Indices

section Handlers
variable {cons cons' : Console} {unread line : List Byte} {c : Byte}

theorem Stored.eraseLine (fuel : Nat) (stored : Stored cons unread line) (clean : ∀ b ∈ line, b ≠ newline)
    (first : line = [] ∨ cons.at cons.writeIdx ≠ newline) (enough : line.length < fuel) :
    ∃ cons', cons.eraseLine fuel = some cons' ∧ Stored cons' unread [] := by
  induction fuel generalizing cons line with
  | zero => exact absurd enough (Nat.not_lt_zero _)
  | succ fuel ih =>
    simp only [Console.eraseLine]
    rcases List.eq_nil_or_concat line with rfl | ⟨start,c,rfl⟩
    · rw [if_neg (fun both => both.1 (stored.line_iff.mpr rfl))]
      exact ⟨cons,rfl,stored⟩
    · rw [List.concat_eq_append] at *
      have marked : cons.at cons.writeIdx ≠ newline := first.resolve_left (by simp)
      have more : cons.editIdx ≠ cons.writeIdx := fun same => absurd (stored.line_iff.mp same) (by simp)
      have before : cons.at (down cons.editIdx) ≠ newline := by
        rcases List.eq_nil_or_concat start with rfl | ⟨start,b,rfl⟩
        · rw [Stored.previous_write stored]
          exact marked
        · rw [List.concat_eq_append] at *
          rw [stored.previous]
          exact clean b (by simp)
      rw [if_pos ⟨more,before⟩]
      refine ih stored.shorten (fun b member => clean b (by simp [member])) (.inr marked) ?_
      rw [List.length_append,List.length_singleton] at enough
      omega

-- The characters that go into the buffer, and those among them that end no line.
def stores (c : Byte) : Prop := c ≠ 255#8 ∧ c ≠ backspace ∧ c ≠ ctrlU ∧ c ≠ ctrlC
def plain (c : Byte) : Prop := stores c ∧ c ≠ ctrlD ∧ c ≠ newline ∧ c ≠ carriageReturn

instance (c : Byte) : Decidable (stores c) := inferInstanceAs (Decidable (_ ∧ _ ∧ _ ∧ _))
instance (c : Byte) : Decidable (plain c) := inferInstanceAs (Decidable (_ ∧ _ ∧ _ ∧ _))

theorem translate_eq (other : d ≠ newline) : translate c = d → c = d := by
  unfold translate
  split
  · intro same
    exact absurd same.symm other
  · exact id

theorem Stored.handle (stored : Stored cons unread line) (clean : ∀ b ∈ line, b ≠ newline)
    (fits : c ≠ backspace → c ≠ ctrlU → c ≠ ctrlC → cons.held+1 < inputBuf)
    (erased : c = ctrlU → line = [] ∨ cons.at cons.writeIdx ≠ newline)
    (tested : c ≠ backspace → c ≠ ctrlU → c ≠ ctrlC → c ≠ ctrlD → c ≠ newline → cons.held+2 = inputBuf →
    cons.readIdx.toNat < inputBuf)
    (ran : handle cons c = some (cons',woken)) :
    ∃ more line', (∀ committed, edited (cons.held+2 = inputBuf) committed line c = (committed++more,line')) ∧
      Stored cons' (unread++more) line' ∧ ∀ b ∈ line', b ≠ newline := by
  unfold ConsoleInput.handle at ran
  unfold edited
  split at ran
  · rename_i back
    simp only [if_pos back]
    split at ran
    · rename_i more
      cases ran
      rcases List.eq_nil_or_concat line with rfl | ⟨start,b,rfl⟩
      · exact absurd (stored.line_iff.mpr rfl) more
      · rw [List.concat_eq_append] at *
        exact ⟨[],start,by simp,by simpa using stored.shorten,fun b member => clean b (by simp [member])⟩
    · rename_i none
      cases ran
      have none : line = [] := stored.line_iff.mp (not_not.mp none)
      subst none
      exact ⟨[],[],by simp,by simpa using stored,clean⟩
  · rename_i notBack
    simp only [if_neg notBack]
    split at ran
    · rename_i erase
      simp only [if_pos erase]
      have short : line.length < inputBuf := by
        have room := stored.room
        omega
      obtain ⟨result,removed,stored'⟩ := stored.eraseLine inputBuf clean (erased erase) short
      rw [removed] at ran
      cases ran
      exact ⟨[],[],by simp,by simpa using stored',by simp⟩
    · rename_i notErase
      simp only [if_neg notErase]
      split at ran
      · rename_i ends
        have other : c ≠ ctrlC := by
          rw [ends]
          decide
        simp only [if_neg other,if_pos (Or.inl ends)]
        split at ran
        · cases ran
        · have stored' := (stored.store (fits notBack notErase other)).commit ran
          exact ⟨line++[c],[],by simp,stored',by simp⟩
      · rename_i notEnd
        split at ran
        · rename_i signal
          cases ran
          simp only [if_pos signal]
          exact ⟨[],line,by simp,by simpa using stored,clean⟩
        · rename_i notSignal
          simp only [if_neg notSignal]
          split at ran
          · cases ran
          · have added := stored.store (c := c) (fits notBack notErase notSignal)
            have held : (cons.store c).held = cons.held+1 := by
              rw [added.held,stored.held,List.length_append,List.length_singleton]
              omega
            have full := added.full_iff
            rw [held] at full
            have same : (cons.store c).readIdx = cons.readIdx := rfl
            rw [same] at full
            split at ran
            · rename_i commits
              have filling : c = ctrlD ∨ c = newline ∨ decide (cons.held+2 = inputBuf) = true := by
                rcases commits with ends | fills
                · exact .inr (.inl ends)
                · exact .inr (.inr (decide_eq_true (full.mp fills).1))
              simp only [if_pos filling]
              exact ⟨line++[c],[],by simp,added.commit ran,by simp⟩
            · rename_i stays
              cases ran
              have room : ¬ (c = ctrlD ∨ c = newline ∨ decide (cons.held+2 = inputBuf) = true) := by
                rintro (ends | ends | fills)
                · exact notEnd ends
                · exact stays (.inl ends)
                · have last := of_decide_eq_true fills
                  have notNewline : c ≠ newline := fun ends => stays (.inl ends)
                  exact stays (.inr (full.mpr ⟨last,tested notBack notErase notSignal notEnd notNewline last⟩))
              simp only [if_neg room]
              refine ⟨[],line++[c],by simp,by simpa using added,?_⟩
              intro b member
              rcases List.mem_append.mp member with old | new
              · exact clean b old
              · rw [List.mem_singleton.mp new]
                exact fun ends => stays (.inl ends)

theorem Stored.intr (stored : Stored cons unread line) (clean : ∀ b ∈ line, b ≠ newline)
    (fits : stores c → cons.held+1 < inputBuf) (erased : c = ctrlU → line = [] ∨ cons.at cons.writeIdx ≠ newline)
    (tested : plain c → cons.held+2 = inputBuf → cons.readIdx.toNat < inputBuf)
    (ran : consoleIntr cons c = some (cons',woken)) :
    ∃ more line', (∀ committed, typed (cons.held+2 = inputBuf) committed line c = (committed++more,line')) ∧
      Stored cons' (unread++more) line' ∧ ∀ b ∈ line', b ≠ newline := by
  unfold consoleIntr at ran
  unfold typed
  split at ran
  · rename_i nothing
    cases ran
    exact ⟨[],line,by simp [nothing],by simpa using stored,clean⟩
  · rename_i something
    simp only [if_neg something]
    have back : translate c ≠ backspace → c ≠ backspace := by
      rintro other rfl
      exact other (by decide)
    have erase : translate c ≠ ctrlU → c ≠ ctrlU := by
      rintro other rfl
      exact other (by decide)
    have signal : translate c ≠ ctrlC → c ≠ ctrlC := by
      rintro other rfl
      exact other (by decide)
    refine stored.handle clean ?_ ?_ ?_ ran
    · intro notBack notErase notSignal
      exact fits ⟨something,back notBack,erase notErase,signal notSignal⟩
    · intro same
      exact erased (translate_eq (by decide) same)
    · intro notBack notErase notSignal notEnd notNewline
      refine tested ⟨⟨something,back notBack,erase notErase,signal notSignal⟩,?_,?_,?_⟩
      · rintro rfl
        exact notEnd (by decide)
      · rintro rfl
        exact notNewline (by decide)
      · rintro rfl
        exact notNewline (by decide)

-- A section takes characters from the front; a Ctrl-D ends it and is no data.
theorem Stored.readSection (target n : Nat) (test : Bool) (got : List Byte) (stored : Stored cons unread line)
    (ready : test = true ∨ unread ≠ []) (ran : readSection target n test got cons = (exit,got',cons')) :
    ∃ past rest, unread = past++rest ∧ got' = got++past.filter (· ≠ ctrlD) ∧ Stored cons' rest line ∧
      ∀ m, exit = .waits m → m+got'.length = n+got.length := by
  induction n generalizing test got cons unread with
  | zero =>
    cases ran
    exact ⟨[],unread,rfl,by simp,stored,fun _ waits => by cases waits⟩
  | succ n ih =>
    simp only [ConsoleInput.readSection] at ran
    split at ran
    · cases ran
      refine ⟨[],unread,rfl,by simp,stored,?_⟩
      intro m waits
      cases waits
      rfl
    · rename_i goesOn
      have more : unread ≠ [] := by
        rintro rfl
        rcases ready with test | some
        · exact goesOn ⟨test,stored.empty_iff.mpr rfl⟩
        · exact some rfl
      cases unread with
      | nil => exact absurd rfl more
      | cons c rest =>
        obtain ⟨first,stored'⟩ := stored.take
        have first : Console.at { cons with readIdx := up cons.readIdx } (up cons.readIdx) = c := first
        simp only [first] at ran
        split at ran
        · rename_i ends
          cases ran
          split
          · exact ⟨[],c::rest,rfl,by simp,stored.putBack,fun _ waits => by cases waits⟩
          · exact ⟨[c],rest,rfl,by simp [ends],stored',fun _ waits => by cases waits⟩
        · rename_i data
          split at ran
          · cases ran
            exact ⟨[c],rest,rfl,by simp [data],stored',fun _ waits => by cases waits⟩
          · obtain ⟨past,rest,parts,result,stored',count⟩ := ih true (got++[c]) stored' (.inl rfl) ran
            refine ⟨c::past,rest,by rw [parts]; rfl,by simp [result,data],stored',?_⟩
            intro m waits
            have total := count m waits
            rw [List.length_append,List.length_singleton] at total
            omega

end Handlers

-- The characters sent are those read, those waiting and the line; a call that has read
-- nothing has nothing in the log.
structure Delivers (s : State) (past unread : List Byte) : Prop where
  stored : Stored s.cons unread s.line
  clean : ∀ b ∈ s.line, b ≠ newline
  parts : s.committed = past++unread
  out : s.log.map Prod.snd = past.filter (· ≠ ctrlD)
  numbered : ∀ x ∈ s.log, x.1 < s.calls
  calling : ∀ call reader, s.readers call = some reader →
    call < s.calls ∧ reader.n ≤ reader.target ∧ (reader.n = reader.target → ∀ x ∈ s.log, x.1 ≠ call)

-- No character comes for which there is no slot.
def Fits (s : State) : Action → Prop
  | .intr c => stores c → s.cons.held+1 < inputBuf
  | _ => True

-- Ctrl-U comes on an empty line or behind something else than a newline; the last slot is
-- not filled while read_idx is below 0; a call leaves the wait only when there is
-- something to read; a call that is interrupted has read nothing.
def Sound (s : State) : Action → Prop
  | .intr c => (c = ctrlU → s.cons.editIdx = s.cons.writeIdx ∨ s.cons.at s.cons.writeIdx ≠ newline) ∧
      (plain c → s.cons.held+2 = inputBuf → s.cons.readIdx.toNat < inputBuf)
  | .resume _ => s.cons.readIdx ≠ s.cons.writeIdx
  | .interrupt call => (s.readers call).all fun reader => reader.n = reader.target
  | _ => True

instance (s : State) (a : Action) : Decidable (Fits s a) := by
  cases a <;> unfold Fits <;> infer_instance
instance (s : State) (a : Action) : Decidable (Sound s a) := by
  cases a <;> unfold Sound <;> infer_instance

section Steps
variable {s s' : State} {past unread : List Byte}

theorem Delivers.section {call target n : Nat} (delivers : Delivers s past unread) (known : call < s.calls)
    (bound : n ≤ target) (fresh : n = target → ∀ x ∈ s.log, x.1 ≠ call) (test : Bool)
    (ready : test = true ∨ unread ≠ []) :
    ∃ past unread, Delivers (s.section call target n test) past unread := by
  unfold State.section
  obtain ⟨⟨exit,got,cons⟩,ran⟩ : ∃ result, readSection target n test [] s.cons = result := ⟨_,rfl⟩
  obtain ⟨taken,rest,parts,result,stored,count⟩ := delivers.stored.readSection target n test [] ready ran
  rw [List.nil_append] at result
  simp only [ran]
  refine ⟨past++taken,rest,stored,delivers.clean,?_,?_,?_,?_⟩
  · simp only [delivers.parts,parts,List.append_assoc]
  · simp [delivers.out,result]
  · intro x member
    rcases List.mem_append.mp member with old | new
    · exact delivers.numbered x old
    · obtain ⟨_,_,rfl⟩ := List.mem_map.mp new
      exact known
  · intro other reader found
    simp only at found
    by_cases same : other = call
    · subst same
      rw [Function.update_self] at found
      cases exit with
      | returned => cases found
      | waits m =>
        cases found
        have total := count m rfl
        simp only [List.length_nil,Nat.add_zero] at total
        refine ⟨known,by simp only; omega,?_⟩
        intro whole x member
        simp only at whole
        have nothing : got = [] := List.eq_nil_of_length_eq_zero (by omega)
        rw [nothing,List.map_nil,List.append_nil] at member
        exact fresh (by omega) x member
    · rw [Function.update_of_ne same] at found
      obtain ⟨earlier,bound',fresh'⟩ := delivers.calling other reader found
      refine ⟨earlier,bound',?_⟩
      intro whole x member
      rcases List.mem_append.mp member with old | new
      · exact fresh' whole x old
      · obtain ⟨_,_,rfl⟩ := List.mem_map.mp new
        exact Ne.symm same

theorem Delivers.setPhase (delivers : Delivers s past unread) {readers : Nat → Option Reader} {sem : Semaphore}
    (alike : ∀ call reader, readers call = some reader →
      ∃ old, s.readers call = some old ∧ reader.n = old.n ∧ reader.target = old.target) :
    Delivers { s with cons := { s.cons with sem := sem }, readers := readers } past unread := by
  refine ⟨⟨delivers.stored.holds,delivers.stored.room,delivers.stored.write,delivers.stored.edit,delivers.stored.read⟩,
    delivers.clean,delivers.parts,delivers.out,delivers.numbered,?_⟩
  intro call reader found
  obtain ⟨old,before,left,target⟩ := alike call reader found
  rw [left,target]
  exact delivers.calling call old before

theorem grant_alike (readers : Nat → Option Reader) (woken : Option Nat)
    (found : grant readers woken call = some reader) :
    ∃ old, readers call = some old ∧ reader.n = old.n ∧ reader.target = old.target := by
  unfold grant at found
  split at found
  · exact ⟨reader,found,rfl,rfl⟩
  · rename_i first
    split at found
    · rename_i same
      obtain ⟨old,there,rfl⟩ := Option.map_eq_some_iff.mp found
      exact ⟨old,by rw [same]; exact there,rfl,rfl⟩
    · exact ⟨reader,found,rfl,rfl⟩

theorem Delivers.next {a : Action} (delivers : Delivers s past unread) (fits : Fits s a) (sound : Sound s a)
    (ran : next s a = some s') : ∃ past unread, Delivers s' past unread := by
  cases a with
  | intr c =>
    obtain ⟨⟨cons,woken⟩,handled,rfl⟩ := Option.map_eq_some_iff.mp ran
    obtain ⟨more,line,edited,stored,clean⟩ := delivers.stored.intr delivers.clean fits
      (fun letter => (sound.1 letter).imp_left delivers.stored.line_iff.mp) sound.2 handled
    simp only [edited]
    refine ⟨past,unread++more,stored,clean,?_,delivers.out,delivers.numbered,?_⟩
    · simp only [delivers.parts,List.append_assoc]
    · intro call reader found
      obtain ⟨old,before,left,target⟩ := grant_alike s.readers woken found
      rw [left,target]
      exact delivers.calling call old before
  | read n =>
    cases ran
    have opened : Delivers { s with calls := s.calls+1 } past unread := by
      refine ⟨delivers.stored,delivers.clean,delivers.parts,delivers.out,?_,?_⟩
      · intro x member
        exact Nat.lt_succ_of_lt (delivers.numbered x member)
      · intro call reader found
        obtain ⟨earlier,rest⟩ := delivers.calling call reader found
        exact ⟨Nat.lt_succ_of_lt earlier,rest⟩
    refine opened.section (Nat.lt_succ_self _) (Nat.le_refl n) ?_ true (.inl rfl)
    intro _ x member
    exact Nat.ne_of_lt (delivers.numbered x member)
  | wait call =>
    simp only [ConsoleInput.next] at ran
    split at ran
    · rename_i n target there
      cases ran
      refine ⟨past,unread,delivers.setPhase ?_⟩
      intro other reader found
      by_cases same : other = call
      · subst same
        rw [Function.update_self] at found
        cases found
        exact ⟨_,there,rfl,rfl⟩
      · rw [Function.update_of_ne same] at found
        exact ⟨reader,found,rfl,rfl⟩
    · cases ran
  | resume call =>
    simp only [ConsoleInput.next] at ran
    split at ran
    · rename_i n target there
      cases ran
      obtain ⟨known,bound,fresh⟩ := delivers.calling call _ there
      have more : unread ≠ [] := fun none => sound (delivers.stored.empty_iff.mpr none)
      exact delivers.section known bound fresh false (.inr more)
    · cases ran
  | interrupt call =>
    simp only [ConsoleInput.next] at ran
    split at ran
    · rename_i n target there
      obtain ⟨sem,_,rfl⟩ := Option.map_eq_some_iff.mp ran
      have whole : n = target := by simpa [Sound,there] using sound
      have nothing := (delivers.calling call _ there).2.2 whole
      have kept : (s.log.filter fun x => x.1 ≠ call) = s.log := by
        refine List.filter_eq_self.mpr ?_
        intro x member
        simpa using nothing x member
      rw [kept]
      refine ⟨past,unread,delivers.setPhase ?_⟩
      intro other reader found
      by_cases same : other = call
      · subst same
        rw [Function.update_self] at found
        cases found
      · rw [Function.update_of_ne same] at found
        exact ⟨reader,found,rfl,rfl⟩
    · cases ran

end Steps

-- What the calls have read is the beginning of what was committed, without the Ctrl-D,
-- and the rest of it is in the buffer.
theorem input_delivered {s : State} (path : Runs.Guarded next (fun s a => Fits s a ∧ Sound s a) start s) :
    s.log.map Prod.snd <+: s.committed.filter (· ≠ ctrlD) ∧
    ∃ past unread, s.committed = past++unread ∧ s.log.map Prod.snd = past.filter (· ≠ ctrlD) ∧
      Ring.Holds s.cons.buf (s.cons.readIdx.toNat+1) (unread++s.line) := by
  obtain ⟨past,unread,delivers⟩ := path.invariant (fun s => ∃ past unread, Delivers s past unread)
    ⟨[],[],⟨.nil,by decide,rfl,rfl,.inl (by decide)⟩,by simp [start],rfl,rfl,by simp [start],by simp [start]⟩ (by
      rintro s a s' ⟨past,unread,delivers⟩ ⟨fits,sound⟩ ran
      exact delivers.next fits sound ran)
  refine ⟨?_,past,unread,delivers.parts,delivers.out,delivers.stored.holds⟩
  rw [delivers.parts,delivers.out,List.filter_append]
  exact List.prefix_append _ _

-- A call waits for a line that is edited before it is complete; the next call finds
-- Ctrl-D.
theorem edited_line_delivered : ∃ s : State, s.log.map Prod.snd = [97#8,newline] ∧ s.committed = [97#8,newline,ctrlD] ∧
    s.log.map Prod.snd <+: s.committed.filter (· ≠ ctrlD) := by
  obtain ⟨s,ran,facts⟩ := Runs.some_such
    (x := Runs.execGuarded next (fun s a => Fits s a ∧ Sound s a) start
      [.read 10,.intr 120#8,.intr backspace,.wait 0,.intr 97#8,.intr carriageReturn,.resume 0,.intr ctrlD,.read 10])
    (p := fun s => s.log.map Prod.snd = [97#8,newline] ∧ s.committed = [97#8,newline,ctrlD]) (by decide +kernel)
  obtain ⟨log,committed⟩ := of_decide_eq_true facts
  exact ⟨s,log,committed,(input_delivered (Runs.exec_guarded .start ran)).1⟩

-- The first call takes a line that is there without taking the post that came with it;
-- that post lets the second call run past write_idx.
theorem stale_byte_read : ¬ ∀ s : State, Runs.Guarded next Fits start s →
    s.log.map Prod.snd <+: s.committed.filter (· ≠ ctrlD) := by
  intro delivered
  obtain ⟨s,ran,facts⟩ := Runs.some_such
    (x := Runs.execGuarded next Fits start [.intr 97#8,.intr carriageReturn,.read 10,.read 1,.wait 1,.resume 1])
    (p := fun s => ¬ s.log.map Prod.snd <+: s.committed.filter (· ≠ ctrlD)) (by decide +kernel)
  exact of_decide_eq_true facts (delivered s (Runs.exec_guarded .start ran))

end ConsoleInput
