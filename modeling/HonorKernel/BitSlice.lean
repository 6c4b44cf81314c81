import Mathlib.Data.BitVec

namespace BitSlice

-- A little-endian memory image is one bit vector; a C field of `w` bits at bit
-- position `pos` is a slice of it. Reading never changes the image, and storing
-- changes the bits of that slice only.
def get (w pos : Nat) (d : BitVec n) : BitVec w := d.extractLsb' pos w

def put (pos : Nat) (v : BitVec w) (d : BitVec n) : BitVec n :=
  (d &&& ~~~((BitVec.allOnes w).setWidth n <<< pos)) ||| (v.setWidth n <<< pos)

theorem get_bit (d : BitVec n) (w pos i : Nat) :
    (get w pos d).getLsbD i = (decide (i < w) && d.getLsbD (pos+i)) := by
  simp [get]

theorem put_bit (pos : Nat) (v : BitVec w) (d : BitVec n) (i : Nat) :
    (put pos v d).getLsbD i =
      if pos ≤ i ∧ i < pos+w then decide (i < n) && v.getLsbD (i-pos) else d.getLsbD i := by
  simp only [put,BitVec.getLsbD_or,BitVec.getLsbD_and,BitVec.getLsbD_not,BitVec.getLsbD_shiftLeft,
    BitVec.getLsbD_setWidth,BitVec.getLsbD_allOnes]
  by_cases inside : pos ≤ i ∧ i < pos+w
  · have above : ¬ i < pos := by omega
    have width : i-pos < w := by omega
    by_cases fits : i < n
    · have shifted : i-pos < n := by omega
      simp [inside,above,width,fits,shifted]
    · simp [inside,above,width,fits,BitVec.getLsbD_of_ge d i (by omega)]
  · rw [if_neg inside]
    by_cases below : i < pos
    · simp only [below,decide_true,Bool.not_true,Bool.false_and,Bool.and_false,Bool.or_false,
        Bool.not_false,Bool.and_true]
      rw [Bool.and_eq_left_iff_imp]
      intro set; simpa using BitVec.lt_of_getLsbD set
    · have beyond : w ≤ i-pos := by omega
      have narrow : ¬ i-pos < w := by omega
      simp only [below,narrow,BitVec.getLsbD_of_ge v _ beyond,decide_false,Bool.and_false,
        Bool.or_false,Bool.not_false,Bool.and_true]
      rw [Bool.and_eq_left_iff_imp]
      intro set; simpa using BitVec.lt_of_getLsbD set

theorem get_put (pos : Nat) (v : BitVec w) (d : BitVec n) (fits : pos+w ≤ n) :
    get w pos (put pos v d) = v := by
  apply BitVec.eq_of_getLsbD_eq
  intro i small
  have inside : pos ≤ pos+i ∧ pos+i < pos+w := by omega
  have bounded : pos+i < n := by omega
  simp only [get_bit,put_bit,inside,small,bounded,and_self,if_true,decide_true,Bool.true_and,
    Nat.add_sub_cancel_left]

theorem get_put_apart (pos : Nat) (v : BitVec w) (d : BitVec n) (u pos' : Nat)
    (apart : pos+w ≤ pos' ∨ pos'+u ≤ pos) : get u pos' (put pos v d) = get u pos' d := by
  apply BitVec.eq_of_getLsbD_eq
  intro i small
  have outside : ¬ (pos ≤ pos'+i ∧ pos'+i < pos+w) := by omega
  simp only [get_bit,put_bit,outside,if_false]

theorem get_zero (n w pos : Nat) : get w pos (0#n) = 0#w := by
  apply BitVec.eq_of_getLsbD_eq
  intro i small
  simp only [get_bit,BitVec.getLsbD_zero,Bool.and_false]

end BitSlice
