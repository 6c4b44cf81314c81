import HonorKernel.ShellParser

-- The shell's parser takes every line of the grammar, and the words it leaves in the buffer.
namespace Shell
open DiskFormat ShellGrammar

section Loops
variable {line beyond : List Byte} {p fuel : Nat} {used rest : List (Token (List Byte))} {cmd : Cmd Span}
  {named : List (Direction × List Byte)} {texts : List (List Byte)}

theorem parseredirs_complete (beyond : List Byte) (cmd : Cmd Span) (redirs : Redirs used named) (clean : 0#8 ∉ line)
    (other : ∀ d more, rest ≠ .redirect d::more) (there : At line p (used++rest))
    (enough : (used++rest).length < fuel) :
    ∃ spans s, parseredirs (inBuffer line beyond) line.length fuel cmd p = .ok (cmd.nest spans,s) ∧ At line s rest ∧
      files line spans = named ∧ ∀ r ∈ spans, Placed line r.2 := by
  induction redirs generalizing p fuel cmd with
  | nil =>
    obtain ⟨fuel,rfl⟩ := Nat.exists_eq_succ_of_ne_zero (Nat.ne_of_gt (Nat.zero_lt_of_lt enough))
    obtain ⟨s,is,there⟩ := parseredirs_stop beyond cmd fuel there clean other
    exact ⟨[],s,is,there,rfl,nofun⟩
  | @cons used redirs d w _ ih =>
    obtain ⟨fuel,rfl⟩ := Nat.exists_eq_succ_of_ne_zero (Nat.ne_of_gt (Nat.zero_lt_of_lt enough))
    obtain ⟨file,s,is,there,word⟩ := parseredirs_file beyond cmd fuel there clean
    obtain ⟨text,placed⟩ := word.placed
    obtain ⟨spans,s',is',there',names,all⟩ := ih (.redir cmd file d.mode d.fd) there (show _ < fuel by
      simp only [List.cons_append,List.length_cons] at enough
      omega)
    refine ⟨(d,file)::spans,s',is.trans is',there',?_,List.forall_mem_cons.mpr ⟨placed,all⟩⟩
    rw [← names,← text]
    rfl

theorem parseargs_complete (beyond : List Byte) (argv : List Span) (redirs : List (Direction × Span))
    (words : Words used texts named) (clean : 0#8 ∉ line) (stops : Stops .exec rest) (there : At line p (used++rest))
    (enough : (used++rest).length < fuel) (few : argv.length+texts.length ≤ maxWords) :
    ∃ more extra s, parseargs (inBuffer line beyond) line.length fuel argv.length ((Cmd.exec argv).nest redirs) p =
        .ok ((Cmd.exec (argv++more)).nest (redirs++extra),s) ∧ At line s rest ∧ more.map (slice line) = texts ∧
        files line extra = named ∧
      (∀ span ∈ more, Placed line span) ∧ ∀ r ∈ extra, Placed line r.2 := by
  induction words generalizing p fuel argv redirs with
  | nil =>
    obtain ⟨fuel,rfl⟩ := Nat.exists_eq_succ_of_ne_zero (Nat.ne_of_gt (Nat.zero_lt_of_lt enough))
    obtain ⟨s,is,there⟩ := parseargs_stop beyond argv.length ((Cmd.exec argv).nest redirs) fuel there clean stops
    exact ⟨[],[],s,by rw [is,List.append_nil,List.append_nil],there,rfl,rfl,nofun,nofun⟩
  | @cons front files used texts others w read words ih =>
    obtain ⟨fuel,rfl⟩ := Nat.exists_eq_succ_of_ne_zero (Nat.ne_of_gt (Nat.zero_lt_of_lt enough))
    rw [List.cons_append,List.append_assoc] at there enough
    obtain ⟨span,s,there,word,is⟩ := parseargs_word beyond argv.length ((Cmd.exec argv).nest redirs) fuel there clean
    obtain ⟨text,placed⟩ := word.placed
    rw [List.length_cons] at enough few
    have count : argv.length+1 = (argv++[span]).length := by rw [List.length_append,List.length_singleton]
    have room : ¬ argv.length+1 ≥ maxArgs := by
      unfold maxArgs
      unfold maxWords at few
      omega
    obtain ⟨here,s₁,is₁,there₁,names,all⟩ := parseredirs_complete beyond (addArg span ((Cmd.exec argv).nest redirs)) read clean
      (words.not_redirect stops) there (show _ < fuel by omega)
    have grown : (addArg span ((Cmd.exec argv).nest redirs)).nest here = (Cmd.exec (argv++[span])).nest (redirs++here) := by
      rw [Cmd.nest_append,addArg_nest]
      rfl
    rw [List.length_append] at enough
    obtain ⟨more,extra,s₂,is₂,there₂,argvTexts,names',placed',all'⟩ := ih (argv++[span]) (redirs++here) there₁ (show _ < fuel by omega)
      (by rw [← count]; omega)
    refine ⟨span::more,here++extra,s₂,?_,there₂,?_,?_,List.forall_mem_cons.mpr ⟨placed,placed'⟩,fun r member =>
        (List.mem_append.mp member).elim (all r) (all' r)⟩
    · rw [is,if_neg room,is₁,grown]
      refine Eq.trans ?_ (is₂.trans ?_)
      · rw [count]
        rfl
      · simp only [List.append_assoc,List.singleton_append]
    · rw [List.map_cons,text,argvTexts]
    · rw [files_append,names,names']

theorem parsebacks_complete (n : Nat) (clean : 0#8 ∉ line) (other : ∀ more, rest ≠ .amp::more)
    (there : At line p (List.replicate n .amp++rest)) (enough : (List.replicate n Token.amp++rest).length < fuel) :
    ∃ s, parsebacks (inBuffer line beyond) line.length fuel cmd p = .ok (cmd.backs n,s) ∧ At line s rest := by
  induction n generalizing p fuel cmd with
  | zero =>
    obtain ⟨fuel,rfl⟩ := Nat.exists_eq_succ_of_ne_zero (Nat.ne_of_gt (Nat.zero_lt_of_lt enough))
    exact parsebacks_stop beyond cmd fuel there clean other
  | succ n ih =>
    obtain ⟨fuel,rfl⟩ := Nat.exists_eq_succ_of_ne_zero (Nat.ne_of_gt (Nat.zero_lt_of_lt enough))
    rw [List.replicate_succ,List.cons_append] at there enough
    obtain ⟨s,is,there⟩ := parsebacks_amp beyond cmd fuel there clean
    rw [is,Cmd.backs_succ]
    exact ih there (by rw [List.length_cons] at enough; omega)

end Loops

-- The function for a rule, and the fuel it has beyond four for each token.
def parser : Rule → List Byte → Nat → Nat → Nat → Except Failure (Cmd Span × Nat)
  | .line => parseline
  | .pipe => parsepipe
  | .exec => parseexec

def need : Rule → Nat
  | .line => 4
  | .pipe => 3
  | .exec => 2

theorem parser_line : parser .line = parseline := rfl
theorem parser_pipe : parser .pipe = parsepipe := rfl
theorem parser_exec : parser .exec = parseexec := rfl
theorem need_line : need .line = 4 := rfl
theorem need_pipe : need .pipe = 3 := rfl
theorem need_exec : need .exec = 2 := rfl

section Completeness
variable {line beyond : List Byte} {p fuel : Nat} {used rest : List (Token (List Byte))} {tree : Cmd (List Byte)}
  {rule : Rule}

-- The function for the rule reads just these tokens and returns their tree.
def Takes (line beyond : List Byte) (rule : Rule) (used : List (Token (List Byte))) (tree : Cmd (List Byte)) : Prop :=
  ∀ rest p fuel, Stops rule rest → At line p (used++rest) → 4*(used++rest).length+need rule ≤ fuel →
    ∃ cmd s, parser rule (inBuffer line beyond) line.length fuel p = .ok (cmd,s) ∧ At line s rest ∧ Denotes line cmd tree

theorem takes_background (clean : 0#8 ∉ line) (n : Nat) (taken : Takes line beyond .pipe used tree)
    (stops : Stops .pipe rest) (other : ∀ more, rest ≠ .amp::more)
    (there : At line p (used++(List.replicate n .amp++rest)))
    (enough : 4*(used++(List.replicate n Token.amp++rest)).length+3 ≤ fuel) :
    ∃ cmd s s', parsepipe (inBuffer line beyond) line.length fuel p = .ok (cmd,s) ∧
      parsebacks (inBuffer line beyond) line.length fuel cmd s = .ok (cmd.backs n,s') ∧ At line s' rest ∧
      Denotes line (cmd.backs n) (tree.backs n) := by
  obtain ⟨cmd,s,is,there,denotes⟩ := taken _ p fuel (stops.amps n) there enough
  rw [List.length_append] at enough
  obtain ⟨s',is',there'⟩ := parsebacks_complete n clean other there (show _ < fuel by omega)
  exact ⟨cmd,s,s',is,is',there',denotes.backs n⟩

theorem takes_line (clean : 0#8 ∉ line) (n : Nat) (taken : Takes line beyond .pipe used tree) :
    Takes line beyond .line (used++List.replicate n .amp) (tree.backs n) := by
  intro rest p fuel stops there enough
  rw [need_line] at enough
  obtain ⟨fuel,rfl⟩ := Nat.exists_eq_add_of_le' (show 1 ≤ fuel by omega)
  rw [List.append_assoc] at there enough
  have notAmp : ∀ more, rest ≠ .amp::more := by
    rintro more rfl
    exact stops
  have notSemi : ∀ more, rest ≠ .semi::more := by
    rintro more rfl
    exact stops
  obtain ⟨cmd,s,s',is,is',there,denotes⟩ := takes_background clean n taken stops.pipe notAmp there (show _ ≤ fuel by omega)
  obtain ⟨s₁,seen,there⟩ := there.missed beyond clean (by decide) semi_only notSemi
  refine ⟨cmd.backs n,s₁,?_,there,denotes⟩
  rw [parser_line,parseline]
  simp only [is,is',bind,Except.bind,seen,Bool.false_eq_true,if_false]

theorem takes_lines {after : List (Token (List Byte))} {right : Cmd (List Byte)} (clean : 0#8 ∉ line) (n : Nat)
    (taken : Takes line beyond .pipe used tree) (others : Takes line beyond .line after right) :
    Takes line beyond .line (used++(List.replicate n .amp++.semi::after)) (.list (tree.backs n) right) := by
  intro rest p fuel stops there enough
  rw [need_line] at enough
  obtain ⟨fuel,rfl⟩ := Nat.exists_eq_add_of_le' (show 1 ≤ fuel by omega)
  rw [List.append_assoc,List.append_assoc,List.cons_append] at there enough
  obtain ⟨cmd,s,s',is,is',there,denotes⟩ := takes_background clean n taken
      (show Stops .pipe (.semi::(after++rest)) from trivial) nofun there (show _ ≤ fuel by omega)
  obtain ⟨s₁,seen,ret,span,next,taken',there⟩ := there.expect beyond clean (by decide) semi_only
  have room : 4*(after++rest).length+4 ≤ fuel := by
    simp only [List.length_append,List.length_cons] at enough ⊢
    omega
  obtain ⟨cmd',s₂,is₂,there₂,denotes₂⟩ := others rest next fuel stops there room
  refine ⟨.list (cmd.backs n) cmd',s₂,?_,there₂,denotes.list denotes₂⟩
  rw [parser_line] at is₂ ⊢
  rw [parseline]
  simp only [is,is',bind,Except.bind,seen,if_true,taken',is₂]

theorem takes_pipe (clean : 0#8 ∉ line) (taken : Takes line beyond .exec used tree) :
    Takes line beyond .pipe used tree := by
  intro rest p fuel stops there enough
  rw [need_pipe] at enough
  obtain ⟨fuel,rfl⟩ := Nat.exists_eq_add_of_le' (show 1 ≤ fuel by omega)
  obtain ⟨cmd,s,is,there,denotes⟩ := taken rest p fuel stops.exec there (by rw [need_exec]; omega)
  have notBar : ∀ more, rest ≠ .bar::more := by
    rintro more rfl
    exact stops
  obtain ⟨s₁,seen,there⟩ := there.missed beyond clean (by decide) bar_only notBar
  refine ⟨cmd,s₁,?_,there,denotes⟩
  rw [parser_exec] at is
  rw [parser_pipe,parsepipe]
  simp only [is,bind,Except.bind,seen,Bool.false_eq_true,if_false]

theorem takes_pipes {after : List (Token (List Byte))} {right : Cmd (List Byte)} (clean : 0#8 ∉ line)
    (taken : Takes line beyond .exec used tree) (others : Takes line beyond .pipe after right) :
    Takes line beyond .pipe (used++.bar::after) (.pipe tree right) := by
  intro rest p fuel stops there enough
  rw [need_pipe] at enough
  obtain ⟨fuel,rfl⟩ := Nat.exists_eq_add_of_le' (show 1 ≤ fuel by omega)
  rw [List.append_assoc,List.cons_append] at there enough
  obtain ⟨cmd,s,is,there,denotes⟩ := taken (.bar::(after++rest)) p fuel trivial there (by rw [need_exec]; omega)
  obtain ⟨s₁,seen,ret,span,next,taken',there⟩ := there.expect beyond clean (by decide) bar_only
  have room : 4*(after++rest).length+3 ≤ fuel := by
    simp only [List.length_append,List.length_cons] at enough ⊢
    omega
  obtain ⟨cmd',s₂,is₂,there₂,denotes₂⟩ := others rest next fuel stops there room
  refine ⟨.pipe cmd cmd',s₂,?_,there₂,denotes.pipe denotes₂⟩
  rw [parser_exec] at is
  rw [parser_pipe] at is₂ ⊢
  rw [parsepipe]
  simp only [is,bind,Except.bind,seen,if_true,taken',is₂]

theorem takes_block {after : List (Token (List Byte))} {named : List (Direction × List Byte)} (clean : 0#8 ∉ line)
    (taken : Takes line beyond .line used tree) (read : Redirs after named) :
    Takes line beyond .exec (.lpar::(used++.rpar::after)) (tree.nest named) := by
  intro rest p fuel stops there enough
  rw [need_exec] at enough
  obtain ⟨fuel,rfl⟩ := Nat.exists_eq_add_of_le' (show 2 ≤ fuel by omega)
  rw [List.cons_append,List.append_assoc,List.cons_append] at there enough
  obtain ⟨s₀,seen₀,there⟩ := there.peek beyond clean (show ['('].map chr ⊆ symbols by decide)
  have opened : peeks (['('].map chr) (.lpar::(used++.rpar::(after++rest))) = true := rfl
  rw [opened] at seen₀
  obtain ⟨s₁,seen₁,ret,span,next,taken₁,there⟩ := there.expect beyond clean (by decide) lpar_only
  have room : 4*(used++.rpar::(after++rest)).length+4 ≤ fuel := by
    simp only [List.length_append,List.length_cons] at enough ⊢
    omega
  obtain ⟨cmd,s₂,is₂,there,denotes⟩ := taken (.rpar::(after++rest)) next fuel trivial there room
  obtain ⟨s₃,seen₃,ret',span',next',taken₃,there⟩ := there.expect beyond clean (by decide) rpar_only
  have notRedirect : ∀ d more, rest ≠ .redirect d::more := by
    rintro d more rfl
    exact stops
  obtain ⟨spans,s₄,is₄,there,names,all⟩ := parseredirs_complete beyond cmd read clean notRedirect there (show _ < fuel by
    simp only [List.length_append,List.length_cons] at room ⊢
    omega)
  refine ⟨cmd.nest spans,s₄,?_,there,names ▸ denotes.nest all⟩
  rw [parser_line] at is₂
  rw [parser_exec,parseexec,seen₀]
  simp only [if_true]
  rw [parseblock]
  simp only [seen₁,taken₁,not_true_eq_false,if_false,is₂,bind,Except.bind,seen₃,taken₃,is₄]

theorem takes_words {after : List (Token (List Byte))} {named more : List (Direction × List Byte)}
    {texts : List (List Byte)} (clean : 0#8 ∉ line) (read : Redirs used named) (words : Words after texts more)
    (few : texts.length ≤ maxWords) :
    Takes line beyond .exec (used++after) ((Cmd.exec texts).nest (named++more)) := by
  intro rest p fuel stops there enough
  rw [need_exec] at enough
  obtain ⟨fuel,rfl⟩ := Nat.exists_eq_add_of_le' (show 1 ≤ fuel by omega)
  rw [List.append_assoc] at there enough
  obtain ⟨s₁,seen,there⟩ := there.missed beyond clean (by decide) lpar_only (words.not_lpar read stops)
  have room : 4*(used++(after++rest)).length+1 ≤ fuel := by
    omega
  obtain ⟨spans,s₂,is₂,there,names,all⟩ := parseredirs_complete beyond (.exec []) read clean
      (words.not_redirect stops) there (show _ < fuel by omega)
  rw [List.length_append] at room
  obtain ⟨argv,extra,s₃,is₃,there,argvTexts,names',placed,all'⟩ :=
      parseargs_complete beyond [] spans words clean stops there (show _ < fuel by omega)
    (by rwa [List.length_nil,Nat.zero_add])
  have every : ∀ r ∈ spans++extra, Placed line r.2 := fun r member => (List.mem_append.mp member).elim (all r) (all' r)
  have denotes := (Denotes.exec placed).nest every
  rw [files_append,argvTexts,names,names'] at denotes
  refine ⟨(Cmd.exec argv).nest (spans++extra),s₃,?_,there,denotes⟩
  rw [parser_exec,parseexec]
  simp only [seen,Bool.false_eq_true,if_false,is₂,bind,Except.bind]
  exact is₃

theorem parser_complete (clean : 0#8 ∉ line) (derived : Derives rule used tree) : Takes line beyond rule used tree := by
  induction derived with
  | line n _ ih => exact takes_line clean n ih
  | lines n _ _ ih ih' => exact takes_lines clean n ih ih'
  | pipe _ ih => exact takes_pipe clean ih
  | pipes _ _ ih ih' => exact takes_pipes clean ih ih'
  | block _ read ih => exact takes_block clean ih read
  | words read words few => exact takes_words clean read words few

end Completeness

-- A NUL at each of these places.
def zeroed (ends : List Nat) (buf : List Byte) : List Byte := ends.foldl (fun buf e => buf.set e 0#8) buf

section Strings
variable {line beyond buf : List Byte} {span : Span} {cmd : Cmd Span}

theorem nulterminate_zeroed (cmd : Cmd Span) (buf : List Byte) :
    nulterminate cmd buf = zeroed (cmd.words.map Prod.snd) buf := by
  induction cmd generalizing buf with
  | exec argv =>
    rw [zeroed,List.foldl_map]
    rfl
  | redir cmd file mode fd ih =>
    rw [nulterminate,ih,Cmd.words,List.map_append,zeroed,zeroed,List.foldl_append]
    rfl
  | pipe left right ihLeft ihRight =>
    rw [nulterminate,ihLeft,ihRight,Cmd.words,List.map_append,zeroed,zeroed,zeroed,List.foldl_append]
  | list left right ihLeft ihRight =>
    rw [nulterminate,ihLeft,ihRight,Cmd.words,List.map_append,zeroed,zeroed,zeroed,List.foldl_append]
  | back cmd ih => exact ih buf

theorem zeroed_get (ends : List Nat) (buf : List Byte) (i : Nat) (inside : i < buf.length) :
    (zeroed ends buf)[i]? = if i ∈ ends then some 0#8 else buf[i]? := by
  induction ends generalizing buf with
  | nil => rfl
  | cons e rest ih =>
    have size : i < (buf.set e 0#8).length := by rwa [List.length_set]
    refine (ih (buf.set e 0#8) size).trans ?_
    by_cases later : i ∈ rest
    · rw [if_pos later,if_pos (List.mem_cons_of_mem _ later)]
    · rw [if_neg later]
      by_cases here : i = e
      · subst here
        rw [if_pos List.mem_cons_self,List.getElem?_set_self inside]
      · rw [if_neg (by simp [here,later]),List.getElem?_set_ne (Ne.symm here)]

theorem cstring_stop {s : Nat} (there : buf[s]? = some 0#8) : cstring buf s = [] := by
  obtain ⟨inside,zero⟩ := List.getElem?_eq_some_iff.mp there
  rw [cstring,List.drop_eq_getElem_cons inside,zero]
  rfl

theorem cstring_next {s : Nat} {b : Byte} (there : buf[s]? = some b) (notZero : b ≠ 0#8) :
    cstring buf s = b::cstring buf (s+1) := by
  obtain ⟨inside,same⟩ := List.getElem?_eq_some_iff.mp there
  have yes : decide (b ≠ 0#8) = true := decide_eq_true notZero
  rw [cstring,List.drop_eq_getElem_cons inside,same,List.takeWhile_cons,yes]
  rfl

theorem cstring_reads (w : List Byte) (s : Nat) (bytes : ∀ i < w.length, buf[s+i]? = w[i]?) (clean : 0#8 ∉ w)
    (stop : buf[s+w.length]? = some 0#8) :
    cstring buf s = w := by
  induction w generalizing s with
  | nil => exact cstring_stop stop
  | cons b w ih =>
    have first : buf[s]? = some b := bytes 0 (Nat.succ_pos _)
    rw [List.mem_cons,not_or] at clean
    rw [cstring_next first (Ne.symm clean.1),ih (s+1) ?_ clean.2 ?_]
    · intro i small
      have next := bytes (i+1) (Nat.succ_lt_succ small)
      rw [List.getElem?_cons_succ] at next
      rw [← next,Nat.add_assoc,Nat.add_comm 1 i]
    · rw [← stop,List.length_cons,Nat.add_assoc,Nat.add_comm 1 w.length]

theorem inBuffer_get {i : Nat} (inside : i < line.length) : (inBuffer line beyond)[i]? = (line)[i]? := List.getElem?_append_left inside

-- A word is inside the line, and its bytes are those of words up to its end.
theorem IsWord.bytes {w : List Byte} (word : IsWord line span w) :
    span.2 ≤ line.length ∧ (∀ i < w.length, (line)[span.1+i]? = w[i]?) ∧ ∀ b, (line)[span.2]? = some b →
    ¬ WordByte b := by
  obtain ⟨filled,_,length,rest,place,ended⟩ := word
  have long := List.length_pos_of_ne_nil filled
  have size := congrArg List.length place
  rw [List.length_drop,List.length_append] at size
  refine ⟨by omega,?_,?_⟩
  · intro i small
    rw [← List.getElem?_drop,place,List.getElem?_append_left small]
  · intro b there
    rw [length,← List.getElem?_drop,place,List.getElem?_append_right (Nat.le_refl _),Nat.sub_self,← List.head?_eq_getElem?] at there
    exact ended b there

theorem zeroed_word {spans : List Span} (clean : 0#8 ∉ line) (all : ∀ span ∈ spans, Placed line span)
    (member : span ∈ spans) :
    cstring (zeroed (spans.map Prod.snd) (inBuffer line beyond)) span.1 = slice line span := by
  have word := all span member
  obtain ⟨inside,bytes,_⟩ := word.bytes
  have size : line.length < (inBuffer line beyond).length := by
    unfold inBuffer
    rw [List.length_append,List.length_cons]
    omega
  have length := word.length
  refine cstring_reads (slice line span) span.1 ?_ ?_ ?_
  · intro i small
    have apart : span.1+i ∉ spans.map Prod.snd := by
      intro there
      obtain ⟨other,among,same⟩ := List.mem_map.mp there
      have byte := bytes i small
      rw [List.getElem?_eq_getElem small,← same] at byte
      exact (all other among).bytes.2.2 _ byte (word.letters _ (List.getElem_mem small))
    rw [zeroed_get _ _ _ (by omega),if_neg apart,inBuffer_get (by omega)]
    exact bytes i small
  · intro zero
    refine clean ?_
    unfold slice at zero
    exact List.mem_of_mem_drop (List.mem_of_mem_take zero)
  · rw [← length,zeroed_get _ _ _ (by omega),if_pos (List.mem_map.mpr ⟨span,member,rfl⟩)]

theorem nulterminate_denotes {tree : Cmd (List Byte)} (clean : 0#8 ∉ line) (denotes : Denotes line cmd tree) :
    cmd.map (fun word => cstring (nulterminate cmd (inBuffer line beyond)) word.1) = tree := by
  rw [nulterminate_zeroed,← denotes.text]
  exact Cmd.map_congr fun span member => zeroed_word clean denotes.placed member

theorem cstring_line (clean : 0#8 ∉ line) (beyond : List Byte) :
    (cstring (inBuffer line beyond) 0).length = line.length := by
  refine congrArg List.length (cstring_reads line 0 ?_ clean ?_)
  · intro i small
    rw [Nat.zero_add]
    exact inBuffer_get small
  · rw [Nat.zero_add,inBuffer,List.getElem?_append_right (Nat.le_refl _),Nat.sub_self]
    rfl

end Strings

section Lines
variable {line : List Byte} {fuel : Nat}

theorem parsecmd_run (line beyond : List Byte) (clean : 0#8 ∉ line) (fuel : Nat) : parsecmd fuel (inBuffer line beyond) = (do
    let (cmd,s) ← parseline (inBuffer line beyond) line.length fuel 0
    if (peek (inBuffer line beyond) line.length s []).2 ≠ line.length then .error (.panic "syntax")
    else .ok (cmd,nulterminate cmd (inBuffer line beyond))) := by
  unfold parsecmd
  simp only [cstring_line clean]

theorem parsecmd_takes (beyond : List Byte) (clean : 0#8 ∉ line) (enough : 4*line.length+4 ≤ fuel)
    {ts : List (Token (List Byte))} {tree : Cmd (List Byte)} (spells : Spells line ts)
    (derived : Derives .line ts tree) :
    ∃ cmd buf, parsecmd fuel (inBuffer line beyond) = .ok (cmd,buf) ∧
    cmd.map (fun word => cstring buf word.1) = tree := by
  have short := spells.length
  have takes : Takes line beyond .line ts tree := parser_complete clean derived
  obtain ⟨cmd,s,is,there,denotes⟩ := takes [] 0 fuel trivial ⟨Nat.zero_le _,by rw [List.append_nil]; exact spells⟩
    (by rw [List.append_nil,need_line]; omega)
  rw [parser_line] at is
  refine ⟨cmd,nulterminate cmd (inBuffer line beyond),?_,nulterminate_denotes clean denotes⟩
  rw [parsecmd_run line beyond clean,is]
  exact if_neg (not_not.mpr ((there.finished beyond clean []).mpr rfl))

theorem parsecmd_reads (beyond : List Byte) (clean : 0#8 ∉ line) (enough : 4*line.length+4 ≤ fuel) :
    Meets (fun r => ∃ ts, Spells line ts ∧ Derives .line ts (r.1.map fun word => cstring r.2 word.1))
    (parsecmd fuel (inBuffer line beyond)) := by
  obtain ⟨ts,spells⟩ := spelled line
  have short := spells.length
  have reads : Parses line beyond .line 4 parseline fuel := (parser_sound clean fuel).1
  rw [parsecmd_run line beyond clean]
  refine (reads 0 ts ⟨Nat.zero_le _,spells⟩ (by omega)).bind ?_
  rintro ⟨cmd,s⟩ ⟨used,rest,tree,rfl,there,derived,denotes⟩
  have finished := there.finished beyond clean []
  dsimp only
  split
  · exact nofun
  · rename_i last
    cases finished.mp (not_not.mp last)
    rw [List.append_nil] at spells
    exact ⟨used,spells,(nulterminate_denotes clean denotes).symm ▸ derived⟩

end Lines

-- The parser ends on every line; it takes the lines of the grammar and no other, and hands back
-- the tree, with the words where the pointers of the tree show.
theorem parsecmd_exact (line beyond : List Byte) (clean : 0#8 ∉ line) (fuel : Nat) (enough : 4*line.length+4 ≤ fuel) :
    parsecmd fuel (line++0#8::beyond) ≠ .error .endless ∧
    ∀ tree, (∃ ts, Spells line ts ∧ Derives .line ts tree) ↔
      ∃ cmd buf, parsecmd fuel (line++0#8::beyond) = .ok (cmd,buf) ∧
      cmd.map (fun word => cstring buf word.1) = tree := by
  have reads := parsecmd_reads beyond clean enough
  refine ⟨?_,fun tree => ⟨?_,?_⟩⟩
  · intro endless
    change parsecmd fuel (inBuffer line beyond) = _ at endless
    rw [endless] at reads
    exact reads rfl
  · rintro ⟨ts,spells,derived⟩
    exact parsecmd_takes beyond clean enough spells derived
  · rintro ⟨cmd,buf,ran,rfl⟩
    change parsecmd fuel (inBuffer line beyond) = _ at ran
    rw [ran] at reads
    exact reads

-- ls>out|wc, with the rest of the buffer behind it.
def lsLine : List Byte := ['l','s','>','o','u','t','|','w','c'].map chr
def lsTree : Cmd (List Byte) := .pipe (.redir (.exec [['l','s'].map chr]) (['o','u','t'].map chr) (oWronly ||| oCreat) 1) (.exec [['w','c'].map chr])

theorem parsecmd_exact_ls :
    (∃ cmd buf, parsecmd 100 (lsLine++0#8::[chr 'x']) = .ok (cmd,buf) ∧
    cmd.map (fun word => cstring buf word.1) = lsTree) ∧
    ∃ ts, Spells lsLine ts ∧ Derives .line ts lsTree := by
  obtain ⟨⟨cmd,buf⟩,ran,same⟩ := Runs.ok_such (x := parsecmd 100 (lsLine++0#8::[chr 'x']))
    (p := fun r => decide (r.1.map (fun word => cstring r.2 word.1) = lsTree)) (by decide +kernel)
  have is := of_decide_eq_true same
  exact ⟨⟨cmd,buf,ran,is⟩,((parsecmd_exact lsLine [chr 'x'] (by decide) 100 (by decide)).2 _).mpr ⟨cmd,buf,ran,is⟩⟩

end Shell
