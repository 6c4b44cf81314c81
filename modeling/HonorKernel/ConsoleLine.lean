import HonorKernel.ConsoleDelivery

-- The line that is edited, as it stands in the buffer: what the handler makes of it, and
-- when it comes to an end.
namespace ConsoleInput
open DiskFormat Semaphores

-- How far `j` is ahead of `i`, going round, and the characters behind `i` up to `j`.
def gap (i j : Usize) : Nat := ((j-i)%128#64).toNat
def Console.between (cons : Console) (i j : Usize) : List Byte := Ring.contents cons.buf (i.toNat+1) (gap i j)

-- What was committed and nobody has read; what was typed since.
def Console.unread (cons : Console) : List Byte := cons.between cons.readIdx cons.writeIdx
def Console.line (cons : Console) : List Byte := cons.between cons.writeIdx cons.editIdx

-- One slot of the buffer stays empty.
def Console.notFull (cons : Console) : Prop := cons.unread.length+cons.line.length+1 < inputBuf

instance (cons : Console) : Decidable cons.notFull := inferInstanceAs (Decidable (_ < _))

-- The positions that the handler sets.
structure Ranged (cons : Console) : Prop where
  write : cons.writeIdx.toNat < inputBuf
  edit : cons.editIdx.toNat < inputBuf

section Between
variable {cons : Console} {i j k : Usize} {c : Byte}

theorem gap_spec (i j : Usize) : gap i j < 128 ∧ (i.toNat+gap i j)%128 = j.toNat%128 := by
  unfold gap
  rw [BitVec.toNat_umod,BitVec.toNat_sub,modulus]
  have small := i.isLt
  omega

theorem gap_self (i : Usize) : gap i i = 0 := by
  have spec := gap_spec i i
  omega

theorem gap_zero (inside : i.toNat < inputBuf) (inside' : j.toNat < inputBuf) : gap i j = 0 ↔ j = i := by
  have spec := gap_spec i j
  rw [size] at inside inside'
  constructor
  · intro none
    exact BitVec.eq_of_toNat_eq (by omega)
  · rintro rfl
    exact gap_self j

theorem between_length : (cons.between i j).length = gap i j := Ring.contents_length

theorem line_short : cons.line.length < inputBuf := by
  have length : cons.line.length = gap cons.writeIdx cons.editIdx := between_length
  have spec := gap_spec cons.writeIdx cons.editIdx
  rw [size]
  omega

theorem between_self : cons.between i i = [] := by
  rw [Console.between,gap_self]
  rfl

theorem between_nil (cons : Console) (inside : i.toNat < inputBuf) (inside' : j.toNat < inputBuf) :
    cons.between i j = [] ↔ j = i := by
  have length : (cons.between i j).length = gap i j := between_length
  rw [← gap_zero inside inside',← length,List.length_eq_zero_iff]

theorem between_down (cons : Console) (inside : i.toNat < inputBuf) (inside' : j.toNat < inputBuf) (apart : j ≠ i) :
    cons.between i j = cons.between i (down j)++[cons.at j] := by
  have spec := gap_spec i j
  have spec' := gap_spec i (down j)
  have before := down_toNat j
  have some := mt (gap_zero inside inside').mp apart
  rw [size] at inside inside' before
  have more : gap i j = gap i (down j)+1 := by omega
  rw [Console.between,more,Ring.contents_succ,Console.between]
  congr 2
  unfold Console.at
  congr 1
  refine Ring.slot_congr ?_
  rw [size]
  omega

theorem between_join (room : gap i j+gap j k < inputBuf) : cons.between i k = cons.between i j++cons.between j k := by
  have first := gap_spec i j
  have second := gap_spec j k
  have whole := gap_spec i k
  rw [size] at room
  have sum : gap i k = gap i j+gap j k := by omega
  rw [Console.between,sum,Ring.contents_add,Console.between,Console.between]
  congr 1
  refine Ring.contents_congr ?_
  rw [size]
  omega

theorem between_store (room : gap i j+gap j cons.editIdx+1 < inputBuf) :
    (cons.store c).between i j = cons.between i j := by
  have first := gap_spec i j
  have second := gap_spec j cons.editIdx
  have next := up_toNat cons.editIdx
  rw [size] at room next
  refine Ring.contents_update _ _ fun k inside => ?_
  have place : Ring.slot inputBuf (up cons.editIdx).toNat = Ring.slot inputBuf (i.toNat+1+(gap i j+gap j cons.editIdx)) := by
    refine Ring.slot_congr ?_
    rw [size]
    omega
  rw [place]
  refine Ring.slot_ne ?_ ?_
  · omega
  · rw [size]
    omega

theorem line_store (room : gap cons.writeIdx cons.editIdx+1 < inputBuf) : (cons.store c).line = cons.line++[c] := by
  have spec := gap_spec cons.writeIdx cons.editIdx
  have spec' := gap_spec cons.writeIdx (up cons.editIdx)
  have next := up_toNat cons.editIdx
  rw [size] at room next
  have more : gap cons.writeIdx (up cons.editIdx) = gap cons.writeIdx cons.editIdx+1 := by omega
  have kept : Ring.contents (cons.store c).buf (cons.writeIdx.toNat+1) (gap cons.writeIdx cons.editIdx) = cons.line := by
    have nothing := gap_self cons.editIdx
    exact between_store (i := cons.writeIdx) (j := cons.editIdx) (c := c) (by rw [nothing,size]; omega)
  have whole : (cons.store c).line = Ring.contents (cons.store c).buf (cons.writeIdx.toNat+1) (gap cons.writeIdx cons.editIdx+1) := by
    rw [← more]
    rfl
  rw [whole,Ring.contents_succ,kept]
  congr 2
  have place : Ring.slot inputBuf (cons.writeIdx.toNat+1+gap cons.writeIdx cons.editIdx) = Ring.slot inputBuf
      (up cons.editIdx).toNat := by
    refine Ring.slot_congr ?_
    rw [size]
    omega
  rw [place]
  exact Function.update_self _ _ _

end Between

section Handlers
variable {cons cons' : Console} {c : Byte}

theorem down_small (i : Usize) : (down i).toNat < inputBuf := by
  rw [down_toNat]
  exact Nat.mod_lt _ (by decide)

theorem up_small (i : Usize) : (up i).toNat < inputBuf := by
  rw [up_toNat]
  exact Nat.mod_lt _ (by decide)

-- The loop of Ctrl-U ends: every round brings edit_idx nearer to write_idx.
theorem eraseLine_returns (fuel : Nat) (ranged : Ranged cons) (enough : cons.line.length < fuel) :
    ∃ e, cons.eraseLine fuel = some { cons with editIdx := e } ∧ e.toNat < inputBuf := by
  induction fuel generalizing cons with
  | zero => exact absurd enough (Nat.not_lt_zero _)
  | succ fuel ih =>
    simp only [Console.eraseLine]
    split
    · rename_i more
      have shorter := congrArg List.length (between_down cons ranged.write ranged.edit more.1)
      rw [List.length_append,List.length_singleton] at shorter
      have length : cons.line.length = (cons.between cons.writeIdx (down cons.editIdx)).length+1 := shorter
      refine ih ⟨ranged.write,down_small _⟩ ?_
      change (cons.between cons.writeIdx (down cons.editIdx)).length < fuel
      omega
    · exact ⟨cons.editIdx,rfl,ranged.edit⟩

-- It stops in front of the first character when a newline was committed before.
def erased (cons : Console) : List Byte := if cons.at cons.writeIdx = newline then cons.line.take 1 else []

theorem eraseLine_line (fuel : Nat) (ranged : Ranged cons) (clean : ∀ b ∈ cons.line, b ≠ newline)
    (ran : cons.eraseLine fuel = some cons') : cons'.line = erased cons := by
  induction fuel generalizing cons with
  | zero => cases ran
  | succ fuel ih =>
    simp only [Console.eraseLine] at ran
    have empty : cons.line = [] ↔ cons.editIdx = cons.writeIdx := between_nil cons ranged.write ranged.edit
    split at ran
    · rename_i more
      have parts : cons.line = cons.between cons.writeIdx (down cons.editIdx)++[cons.at cons.editIdx] :=
        between_down cons ranged.write ranged.edit more.1
      have shorter := @ih { cons with editIdx := down cons.editIdx } ⟨ranged.write,down_small _⟩
        (fun b member => clean b (by rw [parts]; exact List.mem_append_left _ member)) ran
      rw [shorter]
      have less : Console.line { cons with editIdx := down cons.editIdx } = cons.between cons.writeIdx (down cons.editIdx) := rfl
      have mark : Console.at { cons with editIdx := down cons.editIdx } cons.writeIdx = cons.at cons.writeIdx := rfl
      unfold erased
      simp only [mark,less]
      split
      · rename_i marked
        -- The character in front of the erased one is no newline: it is not the mark.
        have notFirst : down cons.editIdx ≠ cons.writeIdx := by
          intro same
          rw [same] at more
          exact more.2 marked
        have some := mt (between_nil cons ranged.write (down_small _)).mp notFirst
        rw [parts,List.take_append_of_le_length (List.length_pos_iff.mpr some)]
      · rfl
    · rename_i stops
      have same := Option.some.inj ran
      subst same
      unfold erased
      by_cases none : cons.editIdx = cons.writeIdx
      · rw [empty.mpr none]
        simp
      · have before : cons.at (down cons.editIdx) = newline := by
          by_contra other
          exact stops ⟨none,other⟩
        have parts : cons.line = cons.between cons.writeIdx (down cons.editIdx)++[cons.at cons.editIdx] :=
          between_down cons ranged.write ranged.edit none
        have first : down cons.editIdx = cons.writeIdx := by
          by_contra later
          have parts' := between_down cons ranged.write (down_small _) later
          refine clean newline ?_ rfl
          rw [parts,parts',before]
          simp
        rw [← first,before,if_pos rfl,parts,first,between_self]
        rfl

theorem commit_returns (cons : Console) (counted : Counted cons.sem) : ∃ woken sem, cons.commit = some ({ cons with writeIdx := cons.editIdx, sem := sem },woken) := by
  unfold Console.commit
  rcases counted.post with ⟨_,_,returned⟩ | ⟨_,_,_,_,returned⟩
  · rw [returned]
    exact ⟨_,_,rfl⟩
  · rw [returned]
    exact ⟨_,_,rfl⟩

-- What a character that is stored leads to.
structure Stores (cons : Console) (c : Byte) (cons' : Console) : Prop where
  ranged : Ranged cons'
  parts : cons'.writeIdx = cons.writeIdx ∧ cons'.unread = cons.unread ∧ cons'.line = cons.line++[c] ∧ c ≠ newline ∧ c ≠ ctrlD ∨
    cons'.writeIdx ≠ cons.writeIdx ∧ cons'.unread = cons.unread++(cons.line++[c]) ∧ cons'.line = [] ∧
      (c = newline ∨ c = ctrlD ∨ cons.unread.length+cons.line.length+2 = inputBuf)

theorem commit_stores {sem : Semaphore} (room : cons.notFull)
    (ends : c = newline ∨ c = ctrlD ∨ cons.unread.length+cons.line.length+2 = inputBuf) :
    Stores cons c { (cons.store c) with writeIdx := (cons.store c).editIdx, sem := sem } := by
  have free : gap cons.readIdx cons.writeIdx+gap cons.writeIdx cons.editIdx+1 < inputBuf := by
    simpa only [Console.notFull,Console.unread,Console.line,between_length] using room
  have line : (cons.store c).line = cons.line++[c] := line_store (by omega)
  have unread : (cons.store c).unread = cons.unread := between_store free
  have length := congrArg List.length line
  rw [List.length_append,List.length_singleton] at length
  have long : (cons.store c).line.length = gap cons.writeIdx (up cons.editIdx) := between_length
  have short : cons.line.length = gap cons.writeIdx cons.editIdx := between_length
  refine ⟨⟨up_small _,up_small _⟩,.inr ⟨?_,?_,between_self,ends⟩⟩
  · intro same
    have same : up cons.editIdx = cons.writeIdx := same
    rw [same,gap_self] at long
    omega
  · have joined : (cons.store c).between cons.readIdx (up cons.editIdx) = (cons.store c).unread++(cons.store c).line :=
      between_join (by change gap cons.readIdx cons.writeIdx+gap cons.writeIdx (up cons.editIdx) < inputBuf; omega)
    change (cons.store c).between cons.readIdx (up cons.editIdx) = _
    rw [joined,unread,line]

theorem store_stores (ranged : Ranged cons) (room : cons.notFull) (other : c ≠ newline ∧ c ≠ ctrlD) :
    Stores cons c (cons.store c) := by
  have free : gap cons.readIdx cons.writeIdx+gap cons.writeIdx cons.editIdx+1 < inputBuf := by
    simpa only [Console.notFull,Console.unread,Console.line,between_length] using room
  exact ⟨⟨ranged.write,up_small _⟩,.inl ⟨rfl,between_store free,line_store (by omega),other⟩⟩

theorem full_gap (full : up cons.editIdx = cons.readIdx) : ¬ cons.notFull := by
  intro room
  have free : gap cons.readIdx cons.writeIdx+gap cons.writeIdx cons.editIdx+1 < inputBuf := by
    simpa only [Console.notFull,Console.unread,Console.line,between_length] using room
  have first := gap_spec cons.readIdx cons.writeIdx
  have second := gap_spec cons.writeIdx cons.editIdx
  have next := up_toNat cons.editIdx
  rw [full] at next
  rw [size] at free next
  omega

theorem filled_gap (room : cons.notFull) (filled : up (up cons.editIdx) = cons.readIdx) :
    cons.unread.length+cons.line.length+2 = inputBuf := by
  have free : gap cons.readIdx cons.writeIdx+gap cons.writeIdx cons.editIdx+1 < inputBuf := by
    simpa only [Console.notFull,Console.unread,Console.line,between_length] using room
  have first := gap_spec cons.readIdx cons.writeIdx
  have second := gap_spec cons.writeIdx cons.editIdx
  have next := up_toNat cons.editIdx
  have next' := up_toNat (up cons.editIdx)
  rw [filled] at next'
  rw [size] at free next next' ⊢
  simp only [Console.unread,Console.line,between_length]
  omega

theorem handle_stores (ranged : Ranged cons) (counted : Counted cons.sem) (room : cons.notFull)
    (stored : c ≠ backspace ∧ c ≠ ctrlU ∧ c ≠ ctrlC) : ∃ cons' woken, handle cons c = some (cons',woken) ∧
    Stores cons c cons' := by
  have free : ¬ up cons.editIdx = cons.readIdx := fun full => full_gap full room
  have kept : Counted (cons.store c).sem := counted
  unfold ConsoleInput.handle
  rw [if_neg stored.1,if_neg stored.2.1]
  simp only [if_neg free]
  split
  · rename_i ends
    obtain ⟨woken,sem,returned⟩ := commit_returns _ kept
    rw [returned]
    exact ⟨_,woken,rfl,commit_stores room (.inr (.inl ends))⟩
  · rename_i data
    rw [if_neg stored.2.2]
    split
    · rename_i commits
      obtain ⟨woken,sem,returned⟩ := commit_returns _ kept
      rw [returned]
      refine ⟨_,woken,rfl,commit_stores room ?_⟩
      exact commits.imp_right fun filled => .inr (filled_gap room filled)
    · rename_i stays
      exact ⟨_,none,rfl,store_stores ranged room ⟨fun ends => stays (.inl ends),data⟩⟩

end Handlers

-- What the editor makes of the line, and when the line goes to the readers: at its end,
-- or with the last free slot.
def editedLine (line : List Byte) (c : Byte) : List Byte :=
  if c = backspace then line.dropLast else if c = ctrlU then [] else if c = ctrlC then line else line++[c]

def Edited (unread line : List Byte) (c : Byte) (cons' : Console) : Prop :=
  cons'.unread = unread ∧ cons'.line = editedLine line c ∧ (c = ctrlU → cons'.editIdx = cons'.writeIdx) ∧ c ≠ newline ∧ c ≠ ctrlD ∨
  cons'.unread = unread++editedLine line c ∧ cons'.line = [] ∧
    (c = newline ∨ c = ctrlD ∨ stores c ∧ unread.length+line.length+2 = inputBuf)

section Lines
variable {cons : Console} {c : Byte}

theorem handle_edits (ranged : Ranged cons) (counted : Counted cons.sem) (room : stores c → cons.notFull)
    (clean : ∀ b ∈ cons.line, b ≠ newline) (something : c ≠ 255#8) :
    ∃ cons' woken, handle cons c = some (cons',woken) ∧ Ranged cons' ∧ (∀ b ∈ cons'.line, b ≠ newline) ∧
      (Edited cons.unread cons.line c cons' ↔ (c = ctrlU → cons.line = [] ∨ cons.at cons.writeIdx ≠ newline)) := by
  by_cases back : c = backspace
  · subst back
    have right : (backspace = ctrlU → cons.line = [] ∨ cons.at cons.writeIdx ≠ newline) := fun same => absurd same (by decide)
    simp only [handle,if_pos]
    split
    · rename_i more
      have parts : cons.line = cons.between cons.writeIdx (down cons.editIdx)++[cons.at cons.editIdx] :=
        between_down cons ranged.write ranged.edit more
      have less : cons.line.dropLast = cons.between cons.writeIdx (down cons.editIdx) := by rw [parts,List.dropLast_concat]
      refine ⟨_,none,rfl,⟨ranged.write,down_small _⟩,?_,iff_of_true (.inl ?_) right⟩
      · intro b member
        exact clean b (by rw [parts]; exact List.mem_append_left _ member)
      · exact ⟨rfl,less.symm,fun same => absurd same (by decide),by decide,by decide⟩
    · rename_i none
      have empty : cons.line = [] := (between_nil cons ranged.write ranged.edit).mpr (not_not.mp none)
      refine ⟨cons,Option.none,rfl,ranged,clean,iff_of_true (.inl ?_) right⟩
      exact ⟨rfl,by rw [empty]; rfl,fun same => absurd same (by decide),by decide,by decide⟩
  · by_cases erase : c = ctrlU
    · subst erase
      obtain ⟨e,returned,small⟩ := eraseLine_returns inputBuf ranged line_short
      have result := eraseLine_line inputBuf ranged clean returned
      have ran : handle cons ctrlU = some ({ cons with editIdx := e },none) := by
        simp only [handle,if_neg back,if_pos,returned]
        rfl
      have ranged' : Ranged { cons with editIdx := e } := ⟨ranged.write,small⟩
      refine ⟨_,none,ran,ranged',?_,?_⟩
      · rw [result]
        unfold erased
        split
        · exact fun b member => clean b (List.mem_of_mem_take member)
        · simp
      · have empty : erased cons = [] ↔ cons.line = [] ∨ cons.at cons.writeIdx ≠ newline := by
          unfold erased
          split
          · rename_i marked
            cases cons.line <;> simp [marked]
          · rename_i unmarked
            simp [unmarked]
        constructor
        · rintro (edited | edited) _
          · exact empty.mp (result.symm.trans edited.2.1)
          · exact empty.mp (result.symm.trans edited.2.1)
        · intro right
          have nothing := result.trans (empty.mpr (right rfl))
          refine .inl ⟨rfl,nothing,fun _ => ?_,by decide,by decide⟩
          exact (between_nil _ ranged'.write ranged'.edit).mp nothing
    · by_cases signal : c = ctrlC
      · subst signal
        refine ⟨cons,none,rfl,ranged,clean,iff_of_true (.inl ?_) fun same => absurd same (by decide)⟩
        exact ⟨rfl,rfl,fun same => absurd same (by decide),by decide,by decide⟩
      · obtain ⟨cons',woken,ran,result⟩ := handle_stores ranged counted (room ⟨something,back,erase,signal⟩) ⟨back,erase,signal⟩
        have added : editedLine cons.line c = cons.line++[c] := by
          unfold editedLine
          rw [if_neg back,if_neg erase,if_neg signal]
        refine ⟨cons',woken,ran,result.ranged,?_,iff_of_true ?_ fun same => absurd same erase⟩
        · rcases result.parts with ⟨_,_,line,data,_⟩ | ⟨_,_,line,_⟩
          · rw [line]
            intro b member
            rcases List.mem_append.mp member with old | new
            · exact clean b old
            · rw [List.mem_singleton.mp new]
              exact data
          · simp [line]
        · unfold Edited
          rw [added]
          rcases result.parts with ⟨_,unread,line,data⟩ | ⟨_,unread,line,ends⟩
          · exact .inl ⟨unread,line,fun same => absurd same erase,data⟩
          · exact .inr ⟨unread,line,ends.imp_right fun ends => ends.imp_right fun filled => ⟨⟨something,back,erase,signal⟩,filled⟩⟩

theorem translate_stores (stored : stores (translate c)) : stores c := by
  obtain ⟨something,back,erase,signal⟩ := stored
  refine ⟨?_,?_,?_,?_⟩
  · rintro rfl
    exact something rfl
  · rintro rfl
    exact back rfl
  · rintro rfl
    exact erase rfl
  · rintro rfl
    exact signal rfl

theorem consoleIntr_edits (ranged : Ranged cons) (counted : Counted cons.sem) (room : stores c → cons.notFull)
    (clean : ∀ b ∈ cons.line, b ≠ newline) (something : c ≠ 255#8) :
    ∃ cons' woken, consoleIntr cons c = some (cons',woken) ∧ Ranged cons' ∧ (∀ b ∈ cons'.line, b ≠ newline) ∧
      (Edited cons.unread cons.line (translate c) cons' ↔
      (c = ctrlU → cons.line = [] ∨ cons.at cons.writeIdx ≠ newline)) := by
  have same : translate c = ctrlU ↔ c = ctrlU := by
    constructor
    · exact translate_eq (by decide)
    · rintro rfl
      rfl
  have something' : translate c ≠ 255#8 := fun nothing => something (translate_eq (by decide) nothing)
  unfold consoleIntr
  rw [if_neg something,← same]
  exact handle_edits ranged counted (fun stored => room (translate_stores stored)) clean something'

end Lines

end ConsoleInput
