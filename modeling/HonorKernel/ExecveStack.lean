import HonorKernel.Execve
import HonorKernel.Overlay

-- The stack that a new program starts with: what fillStack writes there, and how the
-- program reads it.
namespace Execve
open DiskFormat BitSlice
open Overlay (At paint)
open PageTable (U64)

-- A string with the zeros up to the one above it.
def CString.padded (s : CString) : List Byte := s.stored++List.replicate ((8-s.stored.length%8)%8) 0#8

def texts (strings : List CString) : List Byte := strings.flatMap CString.padded

-- Where the strings begin when the first of them is at `base`.
def pointersFrom : U64 → List CString → List U64
  | _,[] => []
  | base,s::rest => base::pointersFrom (base+BitVec.ofNat 64 s.padded.length) rest

section Words
variable {f : Nat → Option Byte} {a : Nat}

@[simp] theorem wordBytes_length (w : U64) : (wordBytes w).length = 8 := getBytes_length w 0 8

@[simp] theorem wordsBytes_length (ws : List U64) : (wordsBytes ws).length = 8*ws.length := by
  induction ws with
  | nil => rfl
  | cons w rest ih =>
    rw [wordsBytes,List.flatMap_cons,List.length_append,wordBytes_length,← wordsBytes,ih,List.length_cons]
    omega

theorem wordsBytes_append (us ws : List U64) : wordsBytes (us++ws) = wordsBytes us++wordsBytes ws := List.flatMap_append

theorem wordsBytes_cons (w : U64) (ws : List U64) : wordsBytes (w::ws) = wordBytes w++wordsBytes ws := rfl

theorem wordBytes_inj {u w : U64} (same : wordBytes u = wordBytes w) : u = w := by
  have back := congrArg (setBytes 0#64 0) same
  rw [wordBytes,wordBytes,setBytes_getBytes _ _ (by decide),setBytes_getBytes _ _ (by decide)] at back
  exact back

theorem words_agree (us ws : List U64) (one : At f a (wordsBytes us)) (two : At f a (wordsBytes ws))
    (short : us.length ≤ ws.length) : us <+: ws := by
  induction us generalizing a ws with
  | nil => exact List.nil_prefix
  | cons u rest ih =>
    cases ws with
    | nil => cases short
    | cons w more =>
      rw [wordsBytes_cons,At.append,wordBytes_length] at one two
      obtain rfl := wordBytes_inj (one.1.unique two.1 (by simp))
      exact (List.prefix_cons_inj u).mpr (ih more one.2 two.2 (by simpa using short))

theorem words_end {us : List U64} (ws : List U64) (one : At f a (wordsBytes (us++[0#64])))
    (two : At f a (wordsBytes (ws++[0#64]))) (nonzero : 0#64 ∉ us) :
    us++[0#64] <+: ws++[0#64] := by
  by_cases short : (us++[0#64]).length ≤ (ws++[0#64]).length
  · exact words_agree _ _ one two short
  · rw [List.length_append,List.length_append] at short
    have inside : ws++[0#64] <+: us := by
      rw [wordsBytes_append,At.append] at one
      exact words_agree _ _ two one.1 (by rw [List.length_append]; simp only [List.length_singleton] at *; omega)
    exact absurd (inside.subset (List.mem_append_right _ List.mem_cons_self)) nonzero

end Words

section Strings
variable {f : Nat → Option Byte} {lo : Nat} {sp : U64} {frame : List Byte}

theorem CString.stored_length (s : CString) : s.stored.length = s.val.length+1 := by
  rw [stored,List.length_append,List.length_singleton]

theorem CString.padded_length (s : CString) : s.padded.length = s.stored.length+(8-s.stored.length%8)%8 := by
  rw [padded,List.length_append,List.length_replicate]

theorem texts_cons (s : CString) (rest : List CString) : texts (s::rest) = s.padded++texts rest := rfl

theorem texts_aligned (strings : List CString) : (texts strings).length%8 = 0 := by
  induction strings with
  | nil => rfl
  | cons s rest ih =>
    rw [texts_cons,List.length_append,s.padded_length]
    omega

theorem pointersFrom_length (base : U64) (strings : List CString) :
    (pointersFrom base strings).length = strings.length := by
  induction strings generalizing base with
  | nil => rfl
  | cons s rest ih => rw [pointersFrom,List.length_cons,List.length_cons,ih]

theorem pushString_toNat (s : CString) (aligned : sp.toNat%8 = 0) (room : s.padded.length ≤ sp.toNat) :
    (pushString sp s).toNat = sp.toNat-s.padded.length := by
  have length := s.padded_length
  rw [s.stored_length] at length
  have small := sp.isLt
  unfold pushString
  simp only
  rw [BitVec.toNat_sub,BitVec.toNat_umod,BitVec.toNat_sub,BitVec.toNat_ofNat,show (8#64).toNat = 8 from rfl]
  omega

-- What has been pushed so far; below it the stack is clear.
structure Stacked (f : Nat → Option Byte) (lo : Nat) (sp : U64) (frame : List Byte) : Prop where
  pushed : At f sp.toNat frame
  clear : ∀ a, lo ≤ a → a < sp.toNat → f a = some 0#8
  aligned : sp.toNat%8 = 0

theorem Stacked.push (sp' : U64) (stacked : Stacked f lo sp frame) (src : List Byte) (zeros : Nat)
    (room : lo ≤ sp'.toNat) (place : sp'.toNat+src.length+zeros = sp.toNat) (aligned : (src.length+zeros)%8 = 0) :
    Stacked (paint f [(sp'.toNat,src)]) lo sp' (src++List.replicate zeros 0#8++frame) := by
  have other : ∀ a, a < sp'.toNat ∨ sp'.toNat+src.length ≤ a → paint f [(sp'.toNat,src)] a = f a := by
    intro a out
    rw [Overlay.paint_one,if_neg (by omega)]
  have before := stacked.aligned
  refine ⟨?_,fun a low high => ?_,by omega⟩
  · rw [At.append,At.append,List.length_append,List.length_replicate,← Nat.add_assoc,place]
    refine ⟨⟨Overlay.paint_at _ _ _,fun i small => ?_⟩,stacked.pushed.same fun x low _ => other x (.inr (by omega))⟩
    rw [List.length_replicate] at small
    rw [other _ (.inr (by omega)),stacked.clear _ (by omega) (by omega),List.getElem?_replicate,if_pos small]
  · rw [other a (.inl high)]
    exact stacked.clear a low (by omega)

theorem Stacked.store (sp' : U64) (stacked : Stacked f lo sp frame) (src : List Byte) (room : lo ≤ sp'.toNat)
    (place : sp'.toNat+src.length = sp.toNat) (aligned : src.length%8 = 0) :
    Stacked (paint f [(sp'.toNat,src)]) lo sp' (src++frame) := by
  have pushed := stacked.push sp' src 0 room place aligned
  rw [List.replicate_zero,List.append_nil] at pushed
  exact pushed

def natWrites (writes : List (U64 × List Byte)) : List (Overlay.Write Byte) := writes.map fun w => (w.1.toNat,w.2)

theorem natWrites_append (ws ws' : List (U64 × List Byte)) : natWrites (ws++ws') = natWrites ws++natWrites ws' := List.map_append

theorem pushStrings_stacked (strings : List CString) (stacked : Stacked f lo sp frame)
    (room : lo+(texts strings).length ≤ sp.toNat) :
    Stacked (paint f (natWrites (pushStrings sp strings).2.2)) lo (pushStrings sp strings).1 (texts strings++frame) ∧
      (pushStrings sp strings).1.toNat+(texts strings).length = sp.toNat ∧
      (pushStrings sp strings).2.1 = pointersFrom (pushStrings sp strings).1 strings ∧
      ∀ w ∈ (pushStrings sp strings).2.2, lo ≤ w.1.toNat ∧ w.1.toNat+w.2.length ≤ sp.toNat := by
  induction strings with
  | nil => exact ⟨stacked,rfl,rfl,fun _ member => absurd member List.not_mem_nil⟩
  | cons s rest ih =>
    have length := s.padded_length
    rw [texts_cons,List.length_append] at room
    obtain ⟨stacked',place,pointers,inside⟩ := ih (by omega)
    obtain ⟨⟨sp₁,pointers₁,copied₁⟩,is⟩ : ∃ r, r = pushStrings sp rest := ⟨_,rfl⟩
    simp only [pushStrings,← is] at stacked' place pointers inside ⊢
    have next := pushString_toNat s stacked'.aligned (by omega)
    have pushed := stacked'.push (pushString sp₁ s) s.stored ((8-s.stored.length%8)%8) (by omega) (by omega) (by omega)
    have back : pushString sp₁ s+BitVec.ofNat 64 s.padded.length = sp₁ := by
      apply BitVec.eq_of_toNat_eq
      have small := sp₁.isLt
      rw [BitVec.toNat_add,BitVec.toNat_ofNat,next]
      omega
    refine ⟨?_,?_,?_,?_⟩
    · rw [natWrites_append,Overlay.paint_append,texts_cons,CString.padded,List.append_assoc,List.append_assoc,
        ← List.append_assoc s.stored]
      exact pushed
    · rw [texts_cons,List.length_append]
      omega
    · rw [pointersFrom,back,pointers]
    · intro w member
      rcases List.mem_append.mp member with old | new
      · exact inside w old
      · rw [List.mem_singleton] at new
        subst new
        exact ⟨by simp only; omega,by simp only; omega⟩

end Strings

-- The bytes that the stack takes, and what they are from `sp` on.
def frameSize (argv envp : List CString) : Nat := 8+8*(argv.length+1)+8*(argv.length+1)+(texts argv).length+8+(texts envp).length+16

def argvBase (sp : U64) (argv : List CString) : U64 := sp+BitVec.ofNat 64 (8+16*(argv.length+1))
def envpBase (sp : U64) (argv : List CString) : U64 := argvBase sp argv+BitVec.ofNat 64 ((texts argv).length+8)

def frameBytes (spare : Nat → U64) (sp : U64) (argv envp : List CString) : List Byte :=
  wordBytes (BitVec.ofNat 64 argv.length)++(wordsBytes (pointerArray spare (pointersFrom (argvBase sp argv) argv) (argv.length+1))++
    (wordsBytes (pointerArray spare (pointersFrom (envpBase sp argv) envp) (argv.length+1))++
      (texts argv++(wordBytes 0#64++(texts envp++(wordBytes 0#64++List.replicate 8 0#8))))))

section Filling
variable {spare : Nat → U64} {lo : Nat} {sp top : U64} {argv envp : List CString}

theorem pointerArray_length (spare : Nat → U64) (pointers : List U64) (count : Nat) :
    (pointerArray spare pointers count).length = count := by
  rw [pointerArray,List.length_map,List.length_range]

theorem frameBytes_length (spare : Nat → U64) (sp : U64) (argv envp : List CString) :
    (frameBytes spare sp argv envp).length = frameSize argv envp := by
  simp only [frameBytes,frameSize,List.length_append,wordBytes_length,wordsBytes_length,pointerArray_length,List.length_replicate]
  omega

theorem toNat_below {n : Nat} (fits : n ≤ top.toNat) : (top-BitVec.ofNat 64 n).toNat = top.toNat-n := by
  have small := top.isLt
  rw [BitVec.toNat_sub,BitVec.toNat_ofNat]
  omega

theorem add_below {n k : Nat} (sum : sp.toNat+n = top.toNat) (more : k ≤ n) :
    (sp+BitVec.ofNat 64 k).toNat = sp.toNat+k := by
  have small := top.isLt
  rw [BitVec.toNat_add,BitVec.toNat_ofNat]
  omega

theorem fillStack_stacked (spare : Nat → U64) (argv envp : List CString) (lo : Nat) (aligned : top.toNat%8 = 0)
    (room : lo+frameSize argv envp ≤ top.toNat) :
    Stacked (paint (fun _ => some 0#8) (natWrites (fillStack spare top argv envp).2.2)) lo (fillStack spare top argv envp).1
        (frameBytes spare (fillStack spare top argv envp).1 argv envp) ∧
      (fillStack spare top argv envp).1.toNat+frameSize argv envp = top.toNat ∧
      (fillStack spare top argv envp).2.1 = (fillStack spare top argv envp).1+8#64 ∧
      ∀ w ∈ (fillStack spare top argv envp).2.2, lo ≤ w.1.toNat ∧ w.1.toNat+w.2.length ≤ top.toNat := by
  unfold frameSize at room
  have bare : Stacked (fun _ => some 0#8) lo top [] := ⟨At.nil _ _,fun _ _ _ => rfl,aligned⟩
  -- The two words that no one reads, and the strings.
  have first : (top-16#64).toNat = top.toNat-16 := toNat_below (by omega)
  have stacked₁ := bare.push (top-16#64) (wordBytes 0#64) 8 (by omega) (by rw [wordBytes_length]; omega) (by rw [wordBytes_length])
  rw [List.append_nil] at stacked₁
  obtain ⟨stacked₂,place₂,pointers₂,inside₂⟩ := pushStrings_stacked envp stacked₁ (by omega)
  obtain ⟨⟨sp₂,envpP,envStrings⟩,env⟩ : ∃ r, r = pushStrings (top-16#64) envp := ⟨_,rfl⟩
  have second : (sp₂-8#64).toNat = sp₂.toNat-8 := toNat_below (by rw [← env] at place₂; simp only at place₂; omega)
  rw [← env] at stacked₂ place₂ pointers₂ inside₂
  simp only at stacked₂ place₂ pointers₂ inside₂
  have stacked₃ := stacked₂.store (sp₂-8#64) (wordBytes 0#64) (by omega) (by rw [wordBytes_length]; omega) (by rw [wordBytes_length])
  obtain ⟨stacked₄,place₄,pointers₄,inside₄⟩ := pushStrings_stacked argv stacked₃ (by omega)
  obtain ⟨⟨sp₄,argvP,argStrings⟩,arg⟩ : ∃ r, r = pushStrings (sp₂-8#64) argv := ⟨_,rfl⟩
  rw [← arg] at stacked₄ place₄ pointers₄ inside₄
  simp only at stacked₄ place₄ pointers₄ inside₄
  -- The two arrays and argc.
  have words : ∀ pointers, (wordsBytes (pointerArray spare pointers (argv.length+1))).length = 8*(argv.length+1) := by
    intro pointers
    rw [wordsBytes_length,pointerArray_length]
  obtain ⟨sp₅,is₅⟩ : ∃ sp₅, sp₅ = sp₄-BitVec.ofNat 64 ((argv.length+1)*8) := ⟨_,rfl⟩
  have place₅ : sp₅.toNat = sp₄.toNat-(argv.length+1)*8 := by rw [is₅]; exact toNat_below (by omega)
  have stacked₅ := stacked₄.store sp₅ (wordsBytes (pointerArray spare envpP (argv.length+1))) (by omega) (by rw [words]; omega)
    (by rw [words]; omega)
  obtain ⟨sp₆,is₆⟩ : ∃ sp₆, sp₆ = sp₅-BitVec.ofNat 64 ((argv.length+1)*8) := ⟨_,rfl⟩
  have place₆ : sp₆.toNat = sp₅.toNat-(argv.length+1)*8 := by rw [is₆]; exact toNat_below (by omega)
  have stacked₆ := stacked₅.store sp₆ (wordsBytes (pointerArray spare argvP (argv.length+1))) (by omega) (by rw [words]; omega)
    (by rw [words]; omega)
  obtain ⟨sp₇,is₇⟩ : ∃ sp₇, sp₇ = sp₆-8#64 := ⟨_,rfl⟩
  have place₇ : sp₇.toNat = sp₆.toNat-8 := by rw [is₇]; exact toNat_below (by omega)
  have stacked₇ := stacked₆.store sp₇ (wordBytes (BitVec.ofNat 64 argv.length)) (by omega) (by rw [wordBytes_length]; omega)
    (by rw [wordBytes_length])
  have filled : fillStack spare top argv envp =
      (sp₇,sp₆,(top-16#64,wordBytes 0#64)::envStrings++(sp₂-8#64,wordBytes 0#64)::argStrings++
      [(sp₅,wordsBytes (pointerArray spare envpP (argv.length+1))),(sp₆,wordsBytes (pointerArray spare argvP (argv.length+1))),
        (sp₇,wordBytes (BitVec.ofNat 64 argv.length))]) := by
    unfold fillStack
    simp only [← env,← arg,← is₅,← is₆,← is₇]
  have sum : sp₇.toNat+frameSize argv envp = top.toNat := by
    unfold frameSize
    omega
  have args : argvBase sp₇ argv = sp₄ := by
    apply BitVec.eq_of_toNat_eq
    rw [argvBase,add_below sum (by unfold frameSize; omega)]
    omega
  have envs : envpBase sp₇ argv = sp₂ := by
    apply BitVec.eq_of_toNat_eq
    rw [envpBase,args,add_below (show sp₄.toNat+(top.toNat-sp₄.toNat) = top.toNat by omega) (by omega)]
    omega
  rw [filled]
  refine ⟨?_,sum,?_,?_⟩
  · unfold frameBytes
    rw [args,envs,← pointers₄,← pointers₂]
    simp only [← Overlay.paint_append] at stacked₇
    simp only [natWrites,List.map_append,List.map_cons,List.map_nil,List.append_assoc,List.cons_append,List.nil_append] at stacked₇ ⊢
    exact stacked₇
  · change sp₆ = sp₇+8#64
    apply BitVec.eq_of_toNat_eq
    rw [show (8#64) = BitVec.ofNat 64 8 from rfl,add_below sum (by unfold frameSize; omega)]
    omega
  · have word : ∀ w : U64, (wordBytes w).length = 8 := wordBytes_length
    intro w member
    simp only [List.cons_append,List.append_assoc,List.mem_cons,List.mem_append,List.not_mem_nil,or_false] at member
    rcases member with rfl | old | rfl | old | rfl | rfl | rfl
    · exact ⟨by simp only; omega,by simp only [word]; omega⟩
    · have bounds := inside₂ w old
      exact ⟨bounds.1,by omega⟩
    · exact ⟨by simp only; omega,by simp only [word]; omega⟩
    · have bounds := inside₄ w old
      exact ⟨bounds.1,by omega⟩
    · exact ⟨by simp only; omega,by simp only [words]; omega⟩
    · exact ⟨by simp only; omega,by simp only [words]; omega⟩
    · exact ⟨by simp only; omega,by simp only [word]; omega⟩

end Filling

-- A vector of the process entry: pointers to the strings, and a 0.
def Points (f : Nat → Option Byte) (p : U64) (s : CString) : Prop := p ≠ 0#64 ∧ At f p.toNat s.stored

def VectorAt (f : Nat → Option Byte) (a : Nat) (strings : List CString) : Prop :=
  ∃ pointers, At f a (wordsBytes (pointers++[0#64])) ∧ List.Forall₂ (Points f) pointers strings

-- argc, argv[0] to argv[argc-1], NULL, envp[0] to envp[envc-1], NULL
structure Decodes (f : Nat → Option Byte) (sp : Nat) (argv envp : List CString) : Prop where
  argc : At f sp (wordBytes (BitVec.ofNat 64 argv.length))
  arguments : VectorAt f (sp+8) argv
  environment : VectorAt f (sp+8+8*(argv.length+1)) envp

-- The words behind an array that is too short are those of the argument strings: they
-- are pointers to what is left of the environment, and a 0.
def Spells (f : Nat → Option Byte) (argv rest : List CString) : Prop :=
  ∃ pointers, wordsBytes (pointers++[0#64]) <+: texts argv++wordBytes 0#64 ∧ List.Forall₂ (Points f) pointers rest

section Decoding
variable {f : Nat → Option Byte} {spare : Nat → U64} {sp top base : U64} {a : Nat} {argv envp strings : List CString}
  {pointers : List U64}

theorem nonzero_of_points (points : List.Forall₂ (Points f) pointers strings) : 0#64 ∉ pointers := by
  induction points with
  | nil => exact List.not_mem_nil
  | cons first _ ih =>
    rw [List.mem_cons,not_or]
    exact ⟨fun zero => first.1 zero.symm,ih⟩

theorem pointersFrom_points (strings : List CString) (base : U64) (texts : At f base.toNat (texts strings))
    (positive : 0 < base.toNat) (small : base.toNat+(Execve.texts strings).length < 2^64) :
    List.Forall₂ (Points f) (pointersFrom base strings) strings := by
  induction strings generalizing base with
  | nil => exact .nil
  | cons s rest ih =>
    rw [texts_cons,List.length_append] at small
    rw [texts_cons,At.append] at texts
    have next : (base+BitVec.ofNat 64 s.padded.length).toNat = base.toNat+s.padded.length := by
      rw [BitVec.toNat_add,BitVec.toNat_ofNat]
      omega
    have here : Points f base s := by
      refine ⟨fun zero => ?_,(At.append.mp texts.1).1⟩
      rw [zero] at positive
      cases positive
    refine .cons here (ih _ ?_ ?_ ?_)
    · rw [next]
      exact texts.2
    · omega
    · omega

theorem pointerArray_whole (spare : Nat → U64) {count : Nat} (room : pointers.length < count) :
    pointers++[0#64] <+: pointerArray spare pointers count := by
  refine ⟨(pointerArray spare pointers count).drop (pointers.length+1),?_⟩
  refine List.ext_getElem? fun i => ?_
  rw [pointerArray]
  by_cases inside : i < pointers.length+1
  · rw [List.getElem?_append_left (by rw [List.length_append]; exact inside),List.getElem?_map,List.getElem?_range
      (by omega),Option.map_some]
    by_cases last : i = pointers.length
    · rw [if_pos last,List.getElem?_append_right (by omega),last,Nat.sub_self]
      rfl
    · rw [if_neg last,List.getElem?_append_left (by omega),List.getD_eq_getElem?_getD,List.getElem?_eq_getElem (by omega)]
      rfl
  · rw [List.getElem?_append_right (by rw [List.length_append]; exact Nat.le_of_not_lt inside),List.getElem?_drop]
    congr 1
    rw [List.length_append,List.length_singleton]
    omega

theorem pointerArray_cut (spare : Nat → U64) {count : Nat} (full : count ≤ pointers.length) :
    pointerArray spare pointers count = pointers.take count := by
  refine List.ext_getElem? fun i => ?_
  rw [pointerArray]
  by_cases inside : i < count
  · rw [List.getElem?_map,List.getElem?_range inside,Option.map_some,if_neg (by omega),
      List.getElem?_take_of_lt inside,List.getD_eq_getElem?_getD,
      List.getElem?_eq_getElem (by omega)]
    rfl
  · rw [List.getElem?_eq_none (by rw [List.length_map,List.length_range]; omega),List.getElem?_eq_none
      (by rw [List.length_take]; omega)]

theorem At.words_take {us ws : List U64} (standing : At f a (wordsBytes ws)) (start : us <+: ws) :
    At f a (wordsBytes us) := by
  obtain ⟨rest,rfl⟩ := start
  rw [wordsBytes_append,At.append] at standing
  exact standing.1

theorem wordBytes_of (bytes : List Byte) (length : bytes.length = 8) : wordBytes (setBytes 0#64 0 bytes) = bytes := by
  refine List.ext_getElem (by rw [wordBytes_length,length]) fun i small inside => ?_
  have value : (wordBytes (setBytes 0#64 0 bytes)).getD i 0#8 = bytes.getD i 0#8 := by
    rw [wordBytes,getBytes_getD _ (by omega),byteAt_setBytes _ _ _ (by omega),if_pos (by omega),Nat.zero_add,Nat.sub_zero]
  rw [List.getD_eq_getElem?_getD,List.getD_eq_getElem?_getD,List.getElem?_eq_getElem small,List.getElem?_eq_getElem inside] at value
  exact value

theorem words_of (bytes : List Byte) (k : Nat) (length : bytes.length = 8*k) : ∃ ws, bytes = wordsBytes ws := by
  induction k generalizing bytes with
  | zero => exact ⟨[],List.eq_nil_of_length_eq_zero length⟩
  | succ k ih =>
    obtain ⟨ws,rest⟩ := ih (bytes.drop 8) (by rw [List.length_drop]; omega)
    refine ⟨setBytes 0#64 0 (bytes.take 8)::ws,?_⟩
    rw [wordsBytes_cons,wordBytes_of _ (by rw [List.length_take]; omega),← rest,List.take_append_drop]

theorem texts_words (strings : List CString) : ∃ ws, texts strings = wordsBytes ws :=
  words_of (texts strings) ((texts strings).length/8) (by have aligned := texts_aligned strings; omega)

theorem stored_unique {s s' : CString} (one : At f a s.stored) (two : At f a s'.stored) : s = s' := by
  have length : ∀ {s s' : CString}, At f a s.stored → At f a s'.stored → ¬ s.val.length < s'.val.length := by
    intro s s' one two shorter
    have last := one s.val.length (by rw [s.stored_length]; omega)
    rw [two s.val.length (by rw [s'.stored_length]; omega),CString.stored,List.getElem?_append_left shorter,CString.stored,
      List.getElem?_append_right (Nat.le_refl _),Nat.sub_self] at last
    exact s'.property (List.mem_of_getElem? last)
  have same := one.unique two (by
    rw [s.stored_length,s'.stored_length]
    have less := length one two
    have more := length two one
    omega)
  exact Subtype.ext (List.append_inj_left' same rfl)

theorem VectorAt.unique {strings' : List CString} (one : VectorAt f a strings) (two : VectorAt f a strings') :
    strings = strings' := by
  obtain ⟨pointers,standing,points⟩ := one
  obtain ⟨pointers',standing',points'⟩ := two
  have first := words_end _ standing standing' (nonzero_of_points points)
  have second := words_end _ standing' standing (nonzero_of_points points')
  have same := List.append_inj_left' (first.eq_of_length_le second.length_le) rfl
  subst same
  clear first second standing standing'
  induction points generalizing strings' with
  | nil =>
    cases points'
    rfl
  | cons here _ ih =>
    cases points' with
    | cons here' rest' => rw [stored_unique here.2 here'.2,ih rest']

theorem Decodes.unique {sp : Nat} {argv' envp' : List CString} (one : Decodes f sp argv envp)
    (two : Decodes f sp argv' envp') :
    argv = argv' ∧ envp = envp' := by
  obtain rfl := one.arguments.unique two.arguments
  exact ⟨rfl,one.environment.unique two.environment⟩

theorem VectorAt.cut (argv strings : List CString) {known : List U64} (standing : At f a (wordsBytes known))
    (behind : At f (a+8*known.length) (texts argv++wordBytes 0#64)) (more : known.length ≤ strings.length)
    (points : List.Forall₂ (Points f) known (strings.take known.length)) :
    VectorAt f a strings ↔ Spells f argv (strings.drop known.length) := by
  obtain ⟨ws,words⟩ := texts_words argv
  constructor
  · rintro ⟨pointers,standing',points'⟩
    have length := points'.length_eq
    have parts : pointers++[0#64] = pointers.take known.length++(pointers.drop known.length++[0#64]) := by
      rw [← List.append_assoc,List.take_append_drop]
    have points₂ := List.forall₂_drop known.length points'
    rw [parts,wordsBytes_append,At.append,wordsBytes_length,List.length_take,Nat.min_eq_left (by omega)] at standing'
    refine ⟨pointers.drop known.length,?_,points₂⟩
    rw [words] at behind ⊢
    have fits := words_end ws standing'.2 (by rw [wordsBytes_append]; exact behind) (nonzero_of_points points₂)
    obtain ⟨rest,whole⟩ := fits
    refine ⟨wordsBytes rest,?_⟩
    rw [← wordsBytes_append,whole,wordsBytes_append]
    rfl
  · rintro ⟨pointers,⟨rest,spelled⟩,points'⟩
    refine ⟨known++pointers,?_,?_⟩
    · rw [List.append_assoc,wordsBytes_append,At.append,wordsBytes_length]
      refine ⟨standing,?_⟩
      rw [← spelled,At.append] at behind
      exact behind.1
    · rw [← List.take_append_drop known.length strings]
      exact List.rel_append points points'

theorem decodes_iff (placed : At f sp.toNat (frameBytes spare sp argv envp))
    (sum : sp.toNat+frameSize argv envp = top.toNat) :
    Decodes f sp.toNat argv envp ↔ envp.length ≤ argv.length ∨ argv.length < envp.length ∧
    Spells f argv (envp.drop (argv.length+1)) := by
  have small := top.isLt
  have size : frameSize argv envp = 8+8*(argv.length+1)+8*(argv.length+1)+(texts argv).length+8+(texts envp).length+16 := rfl
  have args : (argvBase sp argv).toNat = sp.toNat+8+8*(argv.length+1)+8*(argv.length+1) := by
    rw [argvBase,add_below sum (by omega)]
    omega
  have envs : (envpBase sp argv).toNat = (argvBase sp argv).toNat+(texts argv).length+8 := by
    rw [envpBase,BitVec.toNat_add,BitVec.toNat_ofNat]
    omega
  unfold frameBytes at placed
  simp only [At.append,wordBytes_length,wordsBytes_length,pointerArray_length] at placed
  obtain ⟨argc,argArray,envArray,argTexts,gap,envTexts,_⟩ := placed
  have argPoints := pointersFrom_points argv (argvBase sp argv) (by rw [args]; exact argTexts) (by omega) (by omega)
  have envPoints := pointersFrom_points envp (envpBase sp argv) (by rw [envs,args]; exact envTexts) (by omega) (by omega)
  have arguments : VectorAt f (sp.toNat+8) argv := by
    refine ⟨_,At.words_take argArray (pointerArray_whole spare ?_),argPoints⟩
    rw [pointersFrom_length]
    omega
  have length := pointersFrom_length (envpBase sp argv) envp
  have environment : VectorAt f (sp.toNat+8+8*(argv.length+1)) envp ↔
      envp.length ≤ argv.length ∨ argv.length < envp.length ∧ Spells f argv (envp.drop (argv.length+1)) := by
    by_cases fits : envp.length ≤ argv.length
    · refine iff_of_true ⟨_,At.words_take envArray (pointerArray_whole spare ?_),envPoints⟩ (.inl fits)
      omega
    · rw [pointerArray_cut spare (by omega)] at envArray
      have known : ((pointersFrom (envpBase sp argv) envp).take (argv.length+1)).length = argv.length+1 := by
        rw [List.length_take]
        omega
      have points := List.forall₂_take (argv.length+1) envPoints
      have cut := VectorAt.cut argv envp envArray (by rw [known,At.append]; exact ⟨argTexts,gap⟩) (by omega)
        (by rw [known]; exact points)
      rw [cut,known]
      constructor
      · exact fun spelled => .inr ⟨by omega,spelled⟩
      · rintro (few | ⟨_,spelled⟩)
        · exact absurd few fits
        · exact spelled
  constructor
  · exact fun decodes => environment.mp decodes.environment
  · exact fun which => ⟨argc,arguments,environment.mpr which⟩

end Decoding

end Execve
