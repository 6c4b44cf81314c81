import HonorKernel.AddressSpace

-- user_readable and user_writeable of kernel/syscall.c, over the sections of thisproc().
namespace PageTable
open DiskFormat

-- The two functions differ in the sections that they skip. start+size is counted in 64
-- bits.
def rangeChecked (usable : Section → Bool) (start size : U64) (sections : List Section) : Bool :=
  if kspaceMask ≤ start then true
  else sections.any fun st => usable st && decide (st.first ≤ start ∧ start+size < st.last)

def userReadable (start size : U64) (sections : List Section) : Bool := rangeChecked (fun _ => true) start size sections

def writable (st : Section) : Bool := decide (st.flags &&& stRo = 0#64)

def userWriteable (start size : U64) (sections : List Section) : Bool := rangeChecked writable start size sections

-- [start, start+size) over the integers.
def Section.Contains (st : Section) (start size : U64) : Prop :=
  st.first.toNat ≤ start.toNat ∧ start.toNat+size.toNat ≤ st.last.toNat

def UserRange (usable : Section → Bool) (start size : U64) (sections : List Section) : Prop :=
  start.toNat+size.toNat ≤ kspaceMask.toNat ∧ ∃ st ∈ sections, usable st = true ∧ st.Contains start size

-- When the answer is right: no range of the kernel half, none that ends together with the
-- only section around it, none that passes the kernel half and comes back below the end
-- of a section.
structure Checkable (usable : Section → Bool) (start size : U64) (sections : List Section) : Prop where
  low : start < kspaceMask
  room : ∀ st ∈ sections, usable st = true → st.first ≤ start → start.toNat+size.toNat = st.last.toNat →
    st.last ≤ kspaceMask → ∃ wider ∈ sections, usable wider = true ∧ wider.first ≤ start ∧ st.last < wider.last
  bounded : ∀ st ∈ sections, usable st = true → st.first ≤ start → start+size < st.last →
    start.toNat+size.toNat ≤ kspaceMask.toNat

theorem kspaceMask_toNat : kspaceMask.toNat = 0xFFFF000000000000 := rfl

theorem add_below {start size : U64} (bounded : start.toNat+size.toNat ≤ kspaceMask.toNat) :
    (start+size).toNat = start.toNat+size.toNat := by
  rw [kspaceMask_toNat] at bounded
  rw [BitVec.toNat_add]
  exact Nat.mod_eq_of_lt (by omega)

theorem rangeChecked_low {usable : Section → Bool} (low : start < kspaceMask) :
    rangeChecked usable start size sections = true ↔
      ∃ st ∈ sections, usable st = true ∧ st.first ≤ start ∧ start+size < st.last := by
  rw [rangeChecked,if_neg (BitVec.not_le.mpr low),List.any_eq_true]
  simp only [Bool.and_eq_true,decide_eq_true_eq]

theorem rangeChecked_user {usable : Section → Bool} (checkable : Checkable usable start size sections) :
    rangeChecked usable start size sections = true ↔ UserRange usable start size sections := by
  rw [rangeChecked_low checkable.low]
  constructor
  · rintro ⟨st,member,use,first,last⟩
    have bounded := checkable.bounded st member use first last
    rw [BitVec.lt_def,add_below bounded] at last
    exact ⟨bounded,st,member,use,BitVec.le_def.mp first,Nat.le_of_lt last⟩
  · rintro ⟨bounded,st,member,use,first,last⟩
    have sum := add_below bounded
    rcases Nat.lt_or_eq_of_le last with inside | ends
    · exact ⟨st,member,use,BitVec.le_def.mpr first,by rw [BitVec.lt_def,sum]; exact inside⟩
    · obtain ⟨wider,there,use,first,last⟩ :=
        checkable.room st member use (BitVec.le_def.mpr first) ends (by rw [BitVec.le_def,← ends]; exact bounded)
      refine ⟨wider,there,use,first,?_⟩
      rw [BitVec.lt_def] at last ⊢
      rw [sum,ends]
      exact last

theorem checkable_of_user {usable : Section → Bool} (some_bytes : size ≠ 0#64)
    (right : rangeChecked usable start size sections = true ↔ UserRange usable start size sections) :
    Checkable usable start size sections := by
  have low : start < kspaceMask := by
    refine BitVec.not_le.mp fun high => ?_
    obtain ⟨bounded,_⟩ := right.mp (by rw [rangeChecked,if_pos high])
    have positive : 0 < size.toNat := Nat.pos_of_ne_zero fun zero => some_bytes (BitVec.eq_of_toNat_eq zero)
    rw [BitVec.le_def] at high
    omega
  rw [rangeChecked_low low] at right
  refine ⟨low,?_,?_⟩
  · intro st member use first ends user
    have bounded : start.toNat+size.toNat ≤ kspaceMask.toNat := by rw [ends]; exact BitVec.le_def.mp user
    obtain ⟨wider,there,use,first,last⟩ :=
      right.mpr ⟨bounded,st,member,use,BitVec.le_def.mp first,Nat.le_of_eq ends⟩
    refine ⟨wider,there,use,first,?_⟩
    rw [BitVec.lt_def,add_below bounded,ends] at last
    exact BitVec.lt_def.mpr last
  · intro st member use first last
    exact (right.mp ⟨st,member,use,first,last⟩).1

theorem user_ranges_checked (start size : U64) (sections : List Section) (some_bytes : size ≠ 0#64) :
    ((userReadable start size sections = true ↔ UserRange (fun _ => true) start size sections) ↔
      Checkable (fun _ => true) start size sections) ∧
    ((userWriteable start size sections = true ↔ UserRange writable start size sections) ↔
      Checkable writable start size sections) :=
  ⟨⟨checkable_of_user some_bytes,rangeChecked_user⟩,⟨checkable_of_user some_bytes,rangeChecked_user⟩⟩

theorem user_ranges_checked_byte :
    userWriteable 0x1FFE#64 1#64 [⟨stFile,0x1000#64,0x2000#64,none,0#64,0#64⟩] = true ∧
    UserRange writable 0x1FFE#64 1#64 [⟨stFile,0x1000#64,0x2000#64,none,0#64,0#64⟩] := by
  have checkable : Checkable writable 0x1FFE#64 1#64 [⟨stFile,0x1000#64,0x2000#64,none,0#64,0#64⟩] :=
    ⟨by decide,by simp,by simp [kspaceMask_toNat]⟩
  have right := (user_ranges_checked 0x1FFE#64 1#64 [⟨stFile,0x1000#64,0x2000#64,none,0#64,0#64⟩] (by decide)).2.mpr checkable
  have checked : userWriteable 0x1FFE#64 1#64 [⟨stFile,0x1000#64,0x2000#64,none,0#64,0#64⟩] = true := by decide
  exact ⟨checked,right.mp checked⟩

-- The whole of a section, the last byte of the address space, and a size of nearly 2^64.
theorem ranges_misjudged :
    (¬ (userReadable 0x1000#64 0x1000#64 [⟨stFile,0x1000#64,0x2000#64,none,0#64,0#64⟩] = true ↔
      UserRange (fun _ => true) 0x1000#64 0x1000#64 [⟨stFile,0x1000#64,0x2000#64,none,0#64,0#64⟩])) ∧
    (¬ (userWriteable 0xFFFFFFFFFFFFFFFF#64 1#64 [] = true ↔ UserRange writable 0xFFFFFFFFFFFFFFFF#64 1#64 [])) ∧
    ¬ (userReadable 0x1800#64 0xFFFFFFFFFFFFF000#64 [⟨stFile,0x1000#64,0x2000#64,none,0#64,0#64⟩] = true ↔
      UserRange (fun _ => true) 0x1800#64 0xFFFFFFFFFFFFF000#64 [⟨stFile,0x1000#64,0x2000#64,none,0#64,0#64⟩]) := by
  refine ⟨fun right => ?_,fun right => ?_,fun right => ?_⟩
  · have contained : UserRange (fun _ => true) 0x1000#64 0x1000#64 [⟨stFile,0x1000#64,0x2000#64,none,0#64,0#64⟩] :=
      ⟨by decide,_,List.mem_singleton_self _,rfl,by decide,by decide⟩
    exact absurd (right.mpr contained) (by decide)
  · exact absurd (right.mp (by decide)).1 (by decide)
  · exact absurd (right.mp (by decide)).1 (by decide)

end PageTable
