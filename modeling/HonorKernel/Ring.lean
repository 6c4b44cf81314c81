import Mathlib.Data.List.Basic
import Mathlib.Logic.Function.Basic
import Mathlib.Data.BitVec

-- A buffer of `size` slots used round and round. Positions count on without bound; the
-- slot of a position is its remainder.
namespace Ring
variable {α : Type*} {size : Nat} [NeZero size]

def slot (size : Nat) [NeZero size] (position : Nat) : Fin size := Fin.ofNat size position

theorem slot_congr (same : i%size = j%size) : slot size i = slot size j := Fin.ext same

theorem slot_ne (lower : i < j) (upper : j < i+size) : slot size i ≠ slot size j := by
  intro same
  have remainders : i%size = j%size := congrArg Fin.val same
  have divides : size ∣ j-i := Nat.dvd_of_mod_eq_zero (Nat.sub_mod_eq_zero_of_mod_eq remainders.symm)
  have small := Nat.le_of_dvd (by omega) divides
  omega

-- The list stands in the slots from position `start` on.
def Holds (buffer : Fin size → α) (start : Nat) (xs : List α) : Prop :=
  ∀ j (inside : j < xs.length), buffer (slot size (start+j)) = xs[j]

variable {buffer buffer' : Fin size → α} {start start' : Nat} {x : α} {xs ys : List α}

theorem Holds.nil : Holds buffer start [] := fun _ inside => absurd inside (Nat.not_lt_zero _)

theorem Holds.congr (holds : Holds buffer start xs) (same : start%size = start'%size) : Holds buffer start' xs := by
  intro j inside
  rw [← holds j inside]
  congr 1
  refine slot_congr ?_
  rw [Nat.add_mod,← same,← Nat.add_mod]

theorem Holds.frame (holds : Holds buffer start xs)
    (same : ∀ j, j < xs.length → buffer' (slot size (start+j)) = buffer (slot size (start+j))) :
    Holds buffer' start xs := by
  intro j inside
  rw [same j inside,holds j inside]

theorem Holds.first (holds : Holds buffer start (xs++ys)) : Holds buffer start xs := by
  intro j inside
  rw [holds j (by rw [List.length_append]; omega),List.getElem_append_left inside]

theorem Holds.head (holds : Holds buffer start (x::xs)) : buffer (slot size start) = x := holds 0 (Nat.zero_lt_succ _)

theorem Holds.tail (holds : Holds buffer start (x::xs)) : Holds buffer (start+1) xs := by
  intro j inside
  have next := holds (j+1) (Nat.succ_lt_succ inside)
  rw [List.getElem_cons_succ] at next
  rw [← next]
  congr 2
  omega

theorem Holds.last (holds : Holds buffer start (xs++[x])) : buffer (slot size (start+xs.length)) = x := by
  rw [holds xs.length (by simp)]
  simp

-- With room left, the next element goes into a slot that holds none of the others.
theorem Holds.push (holds : Holds buffer start xs) (room : xs.length < size) :
    Holds (Function.update buffer (slot size (start+xs.length)) x) start (xs++[x]) := by
  intro j inside
  rw [List.length_append,List.length_singleton] at inside
  by_cases last : j = xs.length
  · subst last
    simp
  · have before : j < xs.length := by omega
    rw [Function.update_of_ne (slot_ne (by omega) (by omega)),holds j before,List.getElem_append_left before]

-- The `n` elements in the slots from position `start` on.
def contents (buffer : Fin size → α) (start n : Nat) : List α := (List.range n).map fun k => buffer (slot size (start+k))

@[simp] theorem contents_length : (contents buffer start n).length = n := by simp [contents]

@[simp] theorem contents_zero : contents buffer start 0 = [] := rfl

theorem contents_succ : contents buffer start (n+1) = contents buffer start n++[buffer (slot size (start+n))] := by
  simp [contents,List.range_succ]

theorem contents_add : contents buffer start (m+n) = contents buffer start m++contents buffer (start+m) n := by
  induction n with
  | zero => simp
  | succ n ih => rw [← Nat.add_assoc,contents_succ,contents_succ,ih,List.append_assoc,Nat.add_assoc]

theorem contents_congr (same : start%size = start'%size) : contents buffer start n = contents buffer start' n := by
  refine List.map_congr_left fun k _ => ?_
  rw [slot_congr]
  rw [Nat.add_mod,same,← Nat.add_mod]

theorem contents_update (i : Fin size) (x : α) (outside : ∀ k < n, slot size (start+k) ≠ i) :
    contents (Function.update buffer i x) start n = contents buffer start n := by
  refine List.map_congr_left fun k member => ?_
  exact Function.update_of_ne (outside k (List.mem_range.mp member)) _ _

-- A queue in the slots from `front` up to `back`. Both are counters of `w` bits that wrap.
structure Between {w : Nat} (buffer : Fin size → α) (front back : BitVec w) (xs : List α) : Prop where
  room : xs.length ≤ size
  count : back = front+BitVec.ofNat w xs.length
  holds : Holds buffer front.toNat xs

variable {w : Nat} {front back : BitVec w}

omit [NeZero size] in
theorem toNat_add_mod (divides : size ∣ 2^w) (a : BitVec w) (k : Nat) :
    (a+BitVec.ofNat w k).toNat%size = (a.toNat+k)%size := by
  rw [BitVec.toNat_add,BitVec.toNat_ofNat,Nat.mod_mod_of_dvd _ divides,Nat.add_mod,Nat.mod_mod_of_dvd _ divides,← Nat.add_mod]

theorem Between.empty (buffer : Fin size → α) (front : BitVec w) : Between buffer front front [] :=
  ⟨Nat.zero_le _,by simp,Holds.nil⟩

theorem Between.empty_iff (small : size < 2^w) (queue : Between buffer front back xs) : front = back ↔ xs = [] := by
  constructor
  · intro same
    have room := queue.room
    have zero : BitVec.ofNat w xs.length = 0#w := by
      have count : front+BitVec.ofNat w xs.length = front+0#w := by
        rw [BitVec.add_zero,← queue.count,same]
      exact BitVec.add_right_inj front |>.mp count
    have length := congrArg BitVec.toNat zero
    rw [BitVec.toNat_ofNat,Nat.mod_eq_of_lt (by omega)] at length
    exact List.eq_nil_of_length_eq_zero (by simpa using length)
  · rintro rfl
    simpa using queue.count.symm

theorem Between.push (divides : size ∣ 2^w) (queue : Between buffer front back xs) (room : xs.length < size) :
    Between (Function.update buffer (slot size back.toNat) x) front (back+1#w) (xs++[x]) := by
  have place : slot size back.toNat = slot size (front.toNat+xs.length) := by
    refine slot_congr ?_
    rw [queue.count,toNat_add_mod divides]
  refine ⟨?_,?_,?_⟩
  · rw [List.length_append,List.length_singleton]
    omega
  · rw [queue.count,List.length_append,List.length_singleton,BitVec.add_assoc,BitVec.ofNat_add]
  · rw [place]
    exact queue.holds.push room

theorem Between.pop (divides : size ∣ 2^w) (queue : Between buffer front back (x::xs)) :
    buffer (slot size front.toNat) = x ∧ Between buffer (front+1#w) back xs := by
  refine ⟨queue.holds.head,?_,?_,?_⟩
  · have room := queue.room
    rw [List.length_cons] at room
    omega
  · rw [queue.count,List.length_cons,BitVec.add_assoc,← BitVec.ofNat_add,Nat.add_comm 1]
  · refine queue.holds.tail.congr ?_
    have step := toNat_add_mod divides front 1
    exact step.symm

end Ring
