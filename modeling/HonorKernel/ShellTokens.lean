import HonorKernel.DiskFormat
import HonorKernel.ShellGrammar

-- user/sh/main.c: gettoken and peek, and which tokens a line spells. A pointer into the line is
-- an offset from its start; `es` is that of the NUL.
namespace Shell
open DiskFormat ShellGrammar

def chr (c : Char) : Byte := BitVec.ofNat 8 c.toNat

def whitespace : List Byte := [' ','\t','\r','\n','\x0b'].map chr
def symbols : List Byte := ['<','|','>','&',';','(',')'].map chr

-- strchr finds the NUL of its string too.
def strchr (s : List Byte) (c : Byte) : Bool := c == 0#8 || s.contains c

def blank (c : Byte) : Bool := strchr whitespace c
def letter (c : Byte) : Bool := !strchr whitespace c && !strchr symbols c

def byteAt (buf : List Byte) (s : Nat) : Byte := buf.getD s 0#8

-- while (s < es && test(*s)) s++, with `es-s` as the first number.
def skipWhile (test : Byte → Bool) (buf : List Byte) : Nat → Nat → Nat
  | 0,s => s
  | n+1,s => if test (byteAt buf s) then skipWhile test buf n (s+1) else s

-- From q to eq.
abbrev Span := Nat × Nat

-- The switch of gettoken: what it returns and where the token ends.
def tokenFrom (buf : List Byte) (es s : Nat) : Byte × Nat :=
  let c := byteAt buf s
  if c = 0#8 then (c,s)
  else if c ∈ ['|','(',')',';','&','<'].map chr then (c,s+1)
  else if c = chr '>' then
    if byteAt buf (s+1) = chr '>' then (chr '+',s+2) else (c,s+1)
  else (chr 'a',skipWhile letter buf (es-s) s)

def gettoken (buf : List Byte) (es s : Nat) : Byte × Span × Nat :=
  let s := skipWhile blank buf (es-s) s
  let (ret,eq) := tokenFrom buf es s
  (ret,(s,eq),skipWhile blank buf (es-eq) eq)

def peek (buf : List Byte) (es s : Nat) (toks : List Byte) : Bool × Nat :=
  let s := skipWhile blank buf (es-s) s
  (byteAt buf s ≠ 0#8 && strchr toks (byteAt buf s),s)

-- What gettoken returns for a token, and the byte that it starts with.
def code {Word : Type*} : Token Word → Byte
  | .word _ => chr 'a'
  | .redirect .read => chr '<'
  | .redirect .write => chr '>'
  | .redirect .append => chr '+'
  | .bar => chr '|'
  | .amp => chr '&'
  | .semi => chr ';'
  | .lpar => chr '('
  | .rpar => chr ')'

def sign {Word : Type*} : Token Word → Option Byte
  | .word _ => none
  | .redirect .append => some (chr '>')
  | t => some (code t)

def singles {Word : Type*} : List (Token Word) := [.bar,.lpar,.rpar,.semi,.amp,.redirect .read]

-- The bytes of words. A word ends where the line does or where the next byte is none of them.
def WordByte (b : Byte) : Prop := b ∉ whitespace ∧ b ∉ symbols
instance : DecidablePred WordByte := fun b => inferInstanceAs (Decidable (b ∉ whitespace ∧ b ∉ symbols))
def Ended (rest : List Byte) : Prop := ∀ b ∈ rest.head?, ¬ WordByte b

-- The tokens of a line: each as long as it can be, blanks wherever they are between tokens.
inductive Spells : List Byte → List (Token (List Byte)) → Prop
  | nil : Spells [] []
  | blank : b ∈ whitespace → Spells rest ts → Spells (b::rest) ts
  | single : t ∈ singles → Spells rest ts → Spells (code t::rest) (t::ts)
  | write : rest.head? ≠ some (chr '>') → Spells rest ts → Spells (chr '>'::rest) (.redirect .write::ts)
  | append : Spells rest ts → Spells (chr '>'::chr '>'::rest) (.redirect .append::ts)
  | word : w ≠ [] → (∀ b ∈ w, WordByte b) → Ended rest → Spells rest ts → Spells (w++rest) (.word w::ts)

theorem Spells.length (spells : Spells l ts) : ts.length ≤ l.length := by
  induction spells with
  | nil => exact Nat.le_refl 0
  | blank _ _ ih => exact Nat.le_succ_of_le ih
  | single _ _ ih => exact Nat.succ_le_succ ih
  | write _ _ ih => exact Nat.succ_le_succ ih
  | append _ ih => exact Nat.succ_le_succ (Nat.le_succ_of_le ih)
  | word some _ _ _ ih =>
    have long := List.length_pos_of_ne_nil some
    rw [List.length_cons,List.length_append]
    omega

theorem blank_iff {b : Byte} : blank b = true ↔ b = 0#8 ∨ b ∈ whitespace := by
  simp only [blank,strchr,Bool.or_eq_true,beq_iff_eq,List.contains_iff_mem]

theorem letter_iff {b : Byte} : letter b = true ↔ b ≠ 0#8 ∧ WordByte b := by
  have some : blank b = false ↔ b ≠ 0#8 ∧ b ∉ whitespace := by
    rw [← Bool.not_eq_true,blank_iff,not_or]
  have none : strchr symbols b = false ↔ b ≠ 0#8 ∧ b ∉ symbols := by
    rw [← Bool.not_eq_true,strchr,Bool.or_eq_true,beq_iff_eq,List.contains_iff_mem,not_or]
  rw [letter,Bool.and_eq_true,Bool.not_eq_true',Bool.not_eq_true',none]
  change blank b = false ∧ _ ↔ _
  rw [some]
  unfold WordByte
  tauto

theorem single_code {t : Token (List Byte)} (member : t ∈ singles) : code t ≠ 0#8 ∧ code t ∉ whitespace := by
  revert t
  decide

theorem single_switch {t : Token (List Byte)} (member : t ∈ singles) :
    code t ∈ ['|','(',')',';','&','<'].map chr ∧ ∀ w, t ≠ .word w := by
  simp only [singles,List.mem_cons,List.not_mem_nil,or_false] at member
  rcases member with rfl | rfl | rfl | rfl | rfl | rfl
  all_goals exact ⟨by decide,nofun⟩

-- The next token and what is behind it, once the blanks before it are gone.
inductive Starts : List Byte → List (Token (List Byte)) → Prop
  | nil : Starts [] []
  | single : t ∈ singles → Spells rest ts → Starts (code t::rest) (t::ts)
  | write : rest.head? ≠ some (chr '>') → Spells rest ts → Starts (chr '>'::rest) (.redirect .write::ts)
  | append : Spells rest ts → Starts (chr '>'::chr '>'::rest) (.redirect .append::ts)
  | word : w ≠ [] → (∀ b ∈ w, WordByte b) → Ended rest → Spells rest ts → Starts (w++rest) (.word w::ts)

theorem Starts.spells (starts : Starts l ts) : Spells l ts := by
  cases starts with
  | nil => exact .nil
  | single member rest => exact .single member rest
  | write alone rest => exact .write alone rest
  | append rest => exact .append rest
  | word some letters ended rest => exact .word some letters ended rest

theorem Starts.empty (starts : Starts l []) : l = [] := by
  cases starts
  rfl

theorem Starts.none (starts : Starts [] ts) : ts = [] := by
  generalize same : ([] : List Byte) = l at starts
  cases starts with
  | nil => rfl
  | single => cases same
  | write => cases same
  | append => cases same
  | word some => exact absurd (List.append_eq_nil_iff.mp same.symm).1 some

theorem Spells.starts (spells : Spells l ts) (clean : 0#8 ∉ l) : Starts (l.dropWhile Shell.blank) ts := by
  have kept : ∀ {b : Byte} {rest}, b ≠ 0#8 → b ∉ whitespace → (b::rest).dropWhile Shell.blank = b::rest := by
    intro b rest some no
    rw [List.dropWhile_cons_of_neg]
    rw [blank_iff]
    exact not_or.mpr ⟨some,no⟩
  induction spells with
  | nil => exact .nil
  | blank member _ ih =>
    rw [List.dropWhile_cons_of_pos (blank_iff.mpr (.inr member))]
    exact ih fun there => clean (List.mem_cons_of_mem _ there)
  | single member rest _ =>
    rw [kept (single_code member).1 (single_code member).2]
    exact .single member rest
  | write alone rest _ =>
    rw [kept (by decide) (by decide)]
    exact .write alone rest
  | append rest _ =>
    rw [kept (by decide) (by decide)]
    exact .append rest
  | @word w rest ts some letters ended spells _ =>
    cases w with
    | nil => exact absurd rfl some
    | cons b more =>
      rw [List.cons_append,kept]
      · exact .word some letters ended spells
      · rintro rfl
        exact clean List.mem_cons_self
      · exact (letters b List.mem_cons_self).1

section Buffer
variable {line beyond : List Byte} {test : Byte → Bool} {ts : List (Token (List Byte))} {p n : Nat}

-- The line in its buffer, with whatever is behind the NUL.
def inBuffer (line beyond : List Byte) : List Byte := line++0#8::beyond

theorem byteAt_drop (beyond : List Byte) (inside : p ≤ line.length) :
    byteAt (inBuffer line beyond) p = (line.drop p).headD 0#8 := by
  unfold byteAt inBuffer
  rw [List.headD_eq_head?_getD,List.head?_drop,List.getD_eq_getElem?_getD]
  by_cases last : p = line.length
  · subst last
    rw [List.getElem?_append_right (Nat.le_refl _),Nat.sub_self,List.getElem?_eq_none (Nat.le_refl _)]
    rfl
  · rw [List.getElem?_append_left (by omega)]

theorem drop_takeWhile (l : List Byte) (test : Byte → Bool) : l.drop (l.takeWhile test).length = l.dropWhile test :=
  calc l.drop (l.takeWhile test).length = (l.takeWhile test++l.dropWhile test).drop (l.takeWhile test).length := by
        rw [List.takeWhile_append_dropWhile]
    _ = l.dropWhile test := List.drop_left' rfl

theorem skipWhile_drop (inside : p+n = line.length) :
    skipWhile test (inBuffer line beyond) n p = p+((line.drop p).takeWhile test).length := by
  induction n generalizing p with
  | zero =>
    rw [List.drop_eq_nil_of_le (by omega)]
    rfl
  | succ n ih =>
    rw [skipWhile,byteAt_drop beyond (by omega),List.drop_eq_getElem_cons (by omega),List.headD_cons,List.takeWhile_cons]
    split
    · rw [ih (by omega),List.length_cons]
      omega
    · rfl

-- The pointer stands before these tokens.
structure At (line : List Byte) (p : Nat) (ts : List (Token (List Byte))) : Prop where
  inside : p ≤ line.length
  spells : Spells (line.drop p) ts

theorem At.skip (there : At line p ts) (beyond : List Byte) (clean : 0#8 ∉ line) :
    skipWhile blank (inBuffer line beyond) (line.length-p) p ≤ line.length ∧
      Starts (line.drop (skipWhile blank (inBuffer line beyond) (line.length-p) p)) ts := by
  obtain ⟨inside,spells⟩ := there
  have long := (List.takeWhile_sublist (l := line.drop p) blank).length_le
  rw [List.length_drop] at long
  rw [skipWhile_drop (by omega)]
  refine ⟨by omega,?_⟩
  have starts := spells.starts fun zero => clean (List.mem_of_mem_drop zero)
  rwa [← List.drop_drop,drop_takeWhile]

-- A word and the place where it stands.
structure IsWord (line : List Byte) (span : Span) (w : List Byte) : Prop where
  filled : w ≠ []
  letters : ∀ b ∈ w, WordByte b
  length : span.2 = span.1+w.length
  place : ∃ rest, line.drop span.1 = w++rest ∧ Ended rest

def peeks (toks : List Byte) : List (Token (List Byte)) → Bool
  | [] => false
  | t::_ => (sign t).any fun b => toks.contains b

theorem IsWord.upto {line w rest : List Byte} {s : Nat} (place : line.drop s = w++rest) (some : w ≠ [])
    (letters : ∀ b ∈ w, WordByte b) (ended : Ended rest) :
    IsWord line (s,s+w.length) w := ⟨some,letters,rfl,rest,place,ended⟩

theorem takeWhile_letter {w rest : List Byte} (clean : 0#8 ∉ w) (letters : ∀ b ∈ w, WordByte b) (ended : Ended rest) :
    (w++rest).takeWhile letter = w := by
  have all : ∀ b ∈ w, letter b = true := fun b member => letter_iff.mpr ⟨fun zero => clean (zero ▸ member),letters b member⟩
  rw [List.takeWhile_append_of_pos all]
  cases rest with
  | nil => rw [List.takeWhile_nil,List.append_nil]
  | cons b more =>
    rw [List.takeWhile_cons_of_neg,List.append_nil]
    intro yes
    exact ended b rfl (letter_iff.mp yes).2

theorem tokenFrom_starts (beyond : List Byte) (inside : p ≤ line.length) (starts : Starts (line.drop p) ts)
    (clean : 0#8 ∉ line) :
    (ts = [] ∧ (tokenFrom (inBuffer line beyond) line.length p).1 = 0#8 ∧
    At line (tokenFrom (inBuffer line beyond) line.length p).2 []) ∨
    ∃ t rest, ts = t::rest ∧ (tokenFrom (inBuffer line beyond) line.length p).1 = code t ∧
      At line (tokenFrom (inBuffer line beyond) line.length p).2 rest ∧
      ∀ w, t = .word w → IsWord line (p,(tokenFrom (inBuffer line beyond) line.length p).2) w := by
  have c := byteAt_drop beyond inside
  have size : (line.drop p).length = line.length-p := List.length_drop
  have later : ∀ n, line.drop (p+n) = (line.drop p).drop n := fun n => List.drop_drop.symm
  have sub : ∀ b, b ∈ line.drop p → b ≠ 0#8 := fun b there zero => clean (zero ▸ List.mem_of_mem_drop there)
  unfold tokenFrom
  generalize place : line.drop p = l at starts c size later sub
  cases starts with
  | nil =>
    rw [List.headD_nil] at c
    rw [if_pos c]
    exact .inl ⟨rfl,c,inside,by rw [place]; exact .nil⟩
  | @single t rest ts member spells =>
    rw [List.headD_cons] at c
    rw [List.length_cons] at size
    rw [c,if_neg (single_code member).1,if_pos (single_switch member).1]
    exact .inr ⟨t,ts,rfl,rfl,⟨by omega,by rw [later]; exact spells⟩,fun w same => absurd same ((single_switch member).2 w)⟩
  | @write rest ts alone spells =>
    rw [List.headD_cons] at c
    rw [List.length_cons] at size
    have second := byteAt_drop beyond (show p+1 ≤ line.length by omega)
    rw [later] at second
    rw [c,if_neg (by decide),if_neg (by decide),if_pos rfl,if_neg]
    · exact .inr ⟨_,ts,rfl,rfl,⟨by omega,by rw [later]; exact spells⟩,nofun⟩
    · rw [second]
      cases rest with
      | nil => decide
      | cons b more => exact fun same => alone (congrArg some same)
  | @append rest ts spells =>
    rw [List.headD_cons] at c
    rw [List.length_cons,List.length_cons] at size
    have second : byteAt (inBuffer line beyond) (p+1) = chr '>' := by
      rw [byteAt_drop beyond (by omega),later]
      rfl
    rw [c,if_neg (by decide),if_neg (by decide),if_pos rfl,if_pos second]
    exact .inr ⟨_,ts,rfl,rfl,⟨by omega,by rw [later]; exact spells⟩,nofun⟩
  | @word w rest ts some letters ended spells =>
    obtain ⟨b,more,rfl⟩ := List.exists_cons_of_ne_nil some
    have first := letters b List.mem_cons_self
    have notZero := sub b (by simp)
    rw [List.cons_append,List.headD_cons] at c
    rw [c,if_neg notZero,if_neg,if_neg]
    · have whole : (line.drop p).takeWhile letter = b::more := by
        rw [place]
        exact takeWhile_letter (fun zero => sub 0#8 (List.mem_append_left _ zero) rfl) letters ended
      rw [skipWhile_drop (by omega),whole]
      refine .inr ⟨_,ts,rfl,rfl,⟨?_,?_⟩,?_⟩
      · rw [List.length_append] at size
        omega
      · rw [later,List.drop_left' rfl]
        exact spells
      · intro w same
        cases same
        exact .upto place some letters ended
    · rintro rfl
      exact first.2 (by decide)
    · intro symbol
      exact first.2 ((by decide : ['|','(',')',';','&','<'].map chr ⊆ symbols) symbol)

theorem At.token (there : At line p (t::ts)) (beyond : List Byte) (clean : 0#8 ∉ line) :
    ∃ span s, gettoken (inBuffer line beyond) line.length p = (code t,span,s) ∧ At line s ts ∧ ∀ w, t = .word w →
    IsWord line span w := by
  obtain ⟨inside,starts⟩ := there.skip beyond clean
  rcases tokenFrom_starts beyond inside starts clean with ⟨none,_⟩ | ⟨t',rest,is,ret,next,word⟩
  · cases none
  · cases is
    obtain ⟨inside',starts'⟩ := next.skip beyond clean
    exact ⟨_,_,Prod.ext ret rfl,⟨inside',starts'.spells⟩,word⟩

theorem At.token_none (there : At line p []) (beyond : List Byte) (clean : 0#8 ∉ line) :
    ∃ span s, gettoken (inBuffer line beyond) line.length p = (0#8,span,s) ∧ At line s [] := by
  obtain ⟨inside,starts⟩ := there.skip beyond clean
  rcases tokenFrom_starts beyond inside starts clean with ⟨_,zero,next⟩ | ⟨t,rest,is,_⟩
  · obtain ⟨inside',starts'⟩ := next.skip beyond clean
    exact ⟨_,_,Prod.ext zero rfl,inside',starts'.spells⟩
  · cases is

theorem At.finished (there : At line p ts) (beyond : List Byte) (clean : 0#8 ∉ line) (toks : List Byte) :
    (Shell.peek (inBuffer line beyond) line.length p toks).2 = line.length ↔ ts = [] := by
  obtain ⟨inside,starts⟩ := there.skip beyond clean
  change skipWhile blank (inBuffer line beyond) (line.length-p) p = line.length ↔ ts = []
  constructor
  · intro last
    rw [last,List.drop_eq_nil_of_le (Nat.le_refl _)] at starts
    exact starts.none
  · rintro rfl
    have empty := starts.empty
    rw [List.drop_eq_nil_iff] at empty
    omega

theorem single_symbol {t : Token (List Byte)} (member : t ∈ singles) : code t ∈ symbols := by
  revert t
  decide

theorem single_sign {t : Token (List Byte)} (member : t ∈ singles) : sign t = some (code t) := by
  revert t
  decide

theorem At.peek (there : At line p ts) (beyond : List Byte) (clean : 0#8 ∉ line) {toks : List Byte}
    (signs : toks ⊆ symbols) :
    ∃ s, peek (inBuffer line beyond) line.length p toks = (peeks toks ts,s) ∧ At line s ts := by
  obtain ⟨inside,starts⟩ := there.skip beyond clean
  refine ⟨_,Prod.ext ?_ rfl,inside,starts.spells⟩
  unfold Shell.peek
  have c := byteAt_drop beyond inside
  generalize skipWhile blank (inBuffer line beyond) (line.length-p) p = s at inside starts c
  have sub : ∀ b, b ∈ line.drop s → b ≠ 0#8 := fun b there zero => clean (zero ▸ List.mem_of_mem_drop there)
  have seen : ∀ b, b ≠ 0#8 → byteAt (inBuffer line beyond) s = b →
      (decide (byteAt (inBuffer line beyond) s ≠ 0#8) && strchr toks (byteAt (inBuffer line beyond) s)) = toks.contains b := by
    intro b some same
    rw [same,decide_eq_true some,Bool.true_and,strchr,beq_false_of_ne some,Bool.false_or]
  generalize line.drop s = l at starts c sub
  cases starts with
  | nil =>
    rw [List.headD_nil] at c
    simp only [c,ne_eq,not_true_eq_false,decide_false,Bool.false_and]
    rfl
  | single member spells =>
    simp only [peeks,single_sign member,Option.any_some]
    exact seen _ (single_code member).1 c
  | write alone spells => exact seen _ (by decide) c
  | append spells => exact seen _ (by decide) c
  | @word w rest ts some letters ended spells =>
    obtain ⟨b,more,rfl⟩ := List.exists_cons_of_ne_nil some
    have foreign : b ∉ toks := fun there => (letters b List.mem_cons_self).2 (signs there)
    refine (seen b (sub b (by simp)) c).trans ?_
    simp only [peeks,sign,Option.any_none,List.contains_eq_mem,decide_eq_false foreign]

theorem peeks_code {t : Token (List Byte)} (member : t ∈ singles) :
    peeks [code t] ts = true ↔ ∃ rest, ts = t::rest := by
  have only : ∀ u : Token (List Byte), sign u = some (code t) → u = t := by
    intro u same
    simp only [singles,List.mem_cons,List.not_mem_nil,or_false] at member
    rcases member with rfl | rfl | rfl | rfl | rfl | rfl
    all_goals
      rcases u with w | d | _ | _ | _ | _ | _
      · cases same
      · cases d <;> first | rfl | (revert same; decide)
      all_goals first | rfl | (revert same; decide)
  rcases ts with _ | ⟨u,rest⟩
  · exact ⟨nofun,nofun⟩
  · constructor
    · intro seen
      rw [peeks] at seen
      cases is : sign u with
      | none =>
        rw [is] at seen
        cases seen
      | some b =>
        rw [is,Option.any_some,List.contains_iff_mem,List.mem_singleton] at seen
        exact ⟨rest,by rw [only u (is.trans (congrArg some seen))]⟩
    · rintro ⟨more,same⟩
      cases same
      simp only [peeks,single_sign member,Option.any_some,List.contains_iff_mem,List.mem_singleton]

theorem cut_word {b : Byte} (rest : List Byte) (first : WordByte b) :
    ∃ w last, b::rest = w++last ∧ w ≠ [] ∧ (∀ c ∈ w, WordByte c) ∧ Ended last ∧ last.length ≤ rest.length := by
  induction rest generalizing b with
  | nil => exact ⟨[b],[],rfl,List.cons_ne_nil _ _,by simpa using first,nofun,Nat.le_refl 0⟩
  | cons c more ih =>
    by_cases second : WordByte c
    · obtain ⟨w,last,is,_,letters,ended,short⟩ := ih second
      refine ⟨b::w,last,by rw [is,List.cons_append],List.cons_ne_nil _ _,?_,ended,Nat.le_succ_of_le short⟩
      exact List.forall_mem_cons.mpr ⟨first,letters⟩
    · refine ⟨[b],c::more,rfl,List.cons_ne_nil _ _,by simpa using first,?_,Nat.le_refl _⟩
      intro d there
      cases there
      exact second

theorem spelled (line : List Byte) : ∃ ts, Spells line ts := by
  induction size : line.length using Nat.strongRecOn generalizing line with
  | ind n ih =>
    subst size
    have shorter : ∀ rest : List Byte, rest.length < line.length → ∃ ts, Spells rest ts := fun rest short => ih _ short rest rfl
    cases line with
    | nil => exact ⟨[],.nil⟩
    | cons b rest =>
      obtain ⟨ts,spells⟩ := shorter rest (Nat.lt_succ_self _)
      by_cases gap : b ∈ whitespace
      · exact ⟨ts,.blank gap spells⟩
      by_cases symbol : b ∈ symbols
      · simp only [symbols,List.map_cons,List.map_nil,List.mem_cons,List.not_mem_nil,or_false] at symbol
        rcases symbol with rfl | rfl | rfl | rfl | rfl | rfl | rfl
        · exact ⟨_,.single (t := .redirect .read) (by decide) spells⟩
        · exact ⟨_,.single (t := .bar) (by decide) spells⟩
        · by_cases double : rest.head? = some (chr '>')
          · obtain ⟨more,rfl⟩ := List.head?_eq_some_iff.mp double
            obtain ⟨ts,spells⟩ := shorter more (by simp only [List.length_cons]; omega)
            exact ⟨_,.append spells⟩
          · exact ⟨_,.write double spells⟩
        · exact ⟨_,.single (t := .amp) (by decide) spells⟩
        · exact ⟨_,.single (t := .semi) (by decide) spells⟩
        · exact ⟨_,.single (t := .lpar) (by decide) spells⟩
        · exact ⟨_,.single (t := .rpar) (by decide) spells⟩
      · obtain ⟨w,last,is,some,letters,ended,short⟩ := cut_word rest (show WordByte b from ⟨gap,symbol⟩)
        obtain ⟨ts,spells⟩ := shorter last (Nat.lt_succ_of_le short)
        rw [is]
        exact ⟨_,.word some letters ended spells⟩

end Buffer

end Shell
