import HonorKernel.Runs
import HonorKernel.ShellTokens

-- user/sh/main.c: the parser of the shell.
namespace Shell
open DiskFormat ShellGrammar

-- PANIC ends the shell with its message. A loop that is cut off is `endless`.
inductive Failure where
  | panic (s : String)
  | endless
deriving DecidableEq

def maxArgs : Nat := 10

section Parser
variable (buf : List Byte) (es : Nat)

def parseredirs : Nat → Cmd Span → Nat → Except Failure (Cmd Span × Nat)
  | 0,_,_ => .error .endless
  | fuel+1,cmd,s =>
    let (found,s) := peek buf es s (['<','>'].map chr)
    if found then
      let (tok,_,s) := gettoken buf es s
      let (ret,file,s) := gettoken buf es s
      if ret ≠ chr 'a' then .error (.panic "missing file for redirection")
      else if tok = chr '<' then parseredirs fuel (.redir cmd file oRdonly 0) s
      else if tok = chr '>' then parseredirs fuel (.redir cmd file (oWronly ||| oCreat) 1) s
      else if tok = chr '+' then parseredirs fuel (.redir cmd file (oWronly ||| oCreat) 1) s
      else parseredirs fuel cmd s
    else .ok (cmd,s)

-- cmd->argv[argc] = q, where the execcmd is below the redirections that stand around it by now.
def addArg (word : Span) : Cmd Span → Cmd Span
  | .exec argv => .exec (argv++[word])
  | .redir cmd file mode fd => .redir (addArg word cmd) file mode fd
  | cmd => cmd

-- The loop of parseexec.
def parseargs : Nat → Nat → Cmd Span → Nat → Except Failure (Cmd Span × Nat)
  | 0,_,_,_ => .error .endless
  | fuel+1,argc,ret,s =>
    let (found,s) := peek buf es s (['|',')','&',';'].map chr)
    if found then .ok (ret,s)
    else
      let (tok,word,s) := gettoken buf es s
      if tok = 0#8 then .ok (ret,s)
      else if tok ≠ chr 'a' then .error (.panic "syntax")
      else
        let ret := addArg word ret
        let argc := argc+1
        if argc ≥ maxArgs then .error (.panic "too many args")
        else do
          let (ret,s) ← parseredirs buf es fuel ret s
          parseargs fuel argc ret s

-- while (peek(ps, es, "&"))
def parsebacks : Nat → Cmd Span → Nat → Except Failure (Cmd Span × Nat)
  | 0,_,_ => .error .endless
  | fuel+1,cmd,s =>
    let (found,s) := peek buf es s (['&'].map chr)
    if found then
      let (_,_,s) := gettoken buf es s
      parsebacks fuel (.back cmd) s
    else .ok (cmd,s)

mutual

def parseline : Nat → Nat → Except Failure (Cmd Span × Nat)
  | 0,_ => .error .endless
  | fuel+1,s => do
    let (cmd,s) ← parsepipe fuel s
    let (cmd,s) ← parsebacks buf es fuel cmd s
    let (found,s) := peek buf es s ([';'].map chr)
    if found then
      let (_,_,s) := gettoken buf es s
      let (right,s) ← parseline fuel s
      .ok (.list cmd right,s)
    else .ok (cmd,s)

def parsepipe : Nat → Nat → Except Failure (Cmd Span × Nat)
  | 0,_ => .error .endless
  | fuel+1,s => do
    let (cmd,s) ← parseexec fuel s
    let (found,s) := peek buf es s (['|'].map chr)
    if found then
      let (_,_,s) := gettoken buf es s
      let (right,s) ← parsepipe fuel s
      .ok (.pipe cmd right,s)
    else .ok (cmd,s)

def parseexec : Nat → Nat → Except Failure (Cmd Span × Nat)
  | 0,_ => .error .endless
  | fuel+1,s =>
    let (found,s) := peek buf es s (['('].map chr)
    if found then parseblock fuel s
    else do
      let (ret,s) ← parseredirs buf es fuel (.exec []) s
      parseargs buf es fuel 0 ret s

def parseblock : Nat → Nat → Except Failure (Cmd Span × Nat)
  | 0,_ => .error .endless
  | fuel+1,s =>
    let (found,s) := peek buf es s (['('].map chr)
    if ¬ found then .error (.panic "parseblock")
    else do
      let (_,_,s) := gettoken buf es s
      let (cmd,s) ← parseline fuel s
      let (found,s) := peek buf es s ([')'].map chr)
      if ¬ found then .error (.panic "syntax - missing )")
      else
        let (_,_,s) := gettoken buf es s
        parseredirs buf es fuel cmd s

end

end Parser

-- *eargv[i] = 0 for every word of the tree.
def nulterminate : Cmd Span → List Byte → List Byte
  | .exec argv,buf => argv.foldl (fun buf word => buf.set word.2 0#8) buf
  | .redir cmd file _ _,buf => (nulterminate cmd buf).set file.2 0#8
  | .pipe left right,buf => nulterminate right (nulterminate left buf)
  | .list left right,buf => nulterminate right (nulterminate left buf)
  | .back cmd,buf => nulterminate cmd buf

-- The string at a pointer, up to its NUL.
def cstring (buf : List Byte) (s : Nat) : List Byte := (buf.drop s).takeWhile (· ≠ 0#8)

-- The tree, and the line as nulterminate leaves it.
def parsecmd (fuel : Nat) (buf : List Byte) : Except Failure (Cmd Span × List Byte) := do
  let es := (cstring buf 0).length
  let (cmd,s) ← parseline buf es fuel 0
  let (_,s) := peek buf es s []
  if s ≠ es then .error (.panic "syntax")
  else .ok (cmd,nulterminate cmd buf)

section Steps
variable {line beyond : List Byte} {p fuel argc : Nat} {ts : List (Token (List Byte))} {t : Token (List Byte)}
  {cmd : Cmd Span} {w : List Byte} {d : Direction}

theorem code_word {t : Token (List Byte)} : code t = chr 'a' ↔ ∃ w, t = .word w := by
  constructor
  · intro same
    rcases t with w | d | _ | _ | _ | _ | _
    · exact ⟨w,rfl⟩
    · cases d <;> exact absurd same (by decide)
    all_goals exact absurd same (by decide)
  · rintro ⟨w,rfl⟩
    rfl

theorem At.expect (there : At line p (t::ts)) (beyond : List Byte) (clean : 0#8 ∉ line) (member : t ∈ singles)
    {toks : List Byte} (only : toks = [code t]) : ∃ s, Shell.peek (inBuffer line beyond) line.length p toks = (true,s) ∧
      ∃ ret span next, gettoken (inBuffer line beyond) line.length s = (ret,span,next) ∧ At line next ts := by
  subst only
  obtain ⟨s,seen,there⟩ := there.peek beyond clean (List.cons_subset.mpr ⟨single_symbol member,List.nil_subset _⟩)
  obtain ⟨span,next,taken,there,_⟩ := there.token beyond clean
  rw [(peeks_code member).mpr ⟨ts,rfl⟩] at seen
  exact ⟨s,seen,_,span,next,taken,there⟩

theorem At.missed (there : At line p ts) (beyond : List Byte) (clean : 0#8 ∉ line) (member : t ∈ singles)
    {toks : List Byte} (only : toks = [code t]) (other : ∀ rest, ts ≠ t::rest) :
    ∃ s, Shell.peek (inBuffer line beyond) line.length p toks = (false,s) ∧ At line s ts := by
  subst only
  obtain ⟨s,seen,there⟩ := there.peek beyond clean (List.cons_subset.mpr ⟨single_symbol member,List.nil_subset _⟩)
  have none : peeks [code t] ts = false := by
    rw [← Bool.not_eq_true,peeks_code member]
    exact fun ⟨rest,same⟩ => other rest same
  rw [none] at seen
  exact ⟨s,seen,there⟩

theorem amp_only : ['&'].map chr = [code (.amp : Token (List Byte))] := rfl
theorem semi_only : [';'].map chr = [code (.semi : Token (List Byte))] := rfl
theorem bar_only : ['|'].map chr = [code (.bar : Token (List Byte))] := rfl
theorem lpar_only : ['('].map chr = [code (.lpar : Token (List Byte))] := rfl
theorem rpar_only : [')'].map chr = [code (.rpar : Token (List Byte))] := rfl

theorem parseredirs_stop (beyond : List Byte) (cmd : Cmd Span) (fuel : Nat) (there : At line p ts)
    (clean : 0#8 ∉ line) (other : ∀ d rest, ts ≠ .redirect d::rest) :
    ∃ s, parseredirs (inBuffer line beyond) line.length (fuel+1) cmd p = .ok (cmd,s) ∧ At line s ts := by
  obtain ⟨s,seen,there⟩ := there.peek beyond clean (show ['<','>'].map chr ⊆ symbols by decide)
  have none : peeks (['<','>'].map chr) ts = false := by
    rcases ts with _ | ⟨t,rest⟩
    · rfl
    · cases t with
      | redirect d => exact absurd rfl (other d rest)
      | word w => rfl
      | bar => rfl
      | amp => rfl
      | semi => rfl
      | lpar => rfl
      | rpar => rfl
  rw [none] at seen
  refine ⟨s,?_,there⟩
  rw [parseredirs,seen]
  rfl

theorem parseredirs_file (beyond : List Byte) (cmd : Cmd Span) (fuel : Nat)
    (there : At line p (.redirect d::.word w::ts)) (clean : 0#8 ∉ line) :
    ∃ file s, parseredirs (inBuffer line beyond) line.length (fuel+1) cmd p =
        parseredirs (inBuffer line beyond) line.length fuel (.redir cmd file d.mode d.fd) s ∧
      At line s ts ∧ IsWord line file w := by
  obtain ⟨s,seen,there⟩ := there.peek beyond clean (show ['<','>'].map chr ⊆ symbols by decide)
  obtain ⟨span,s₁,taken,there,_⟩ := there.token beyond clean
  obtain ⟨file,s₂,taken',there,word⟩ := there.token beyond clean
  refine ⟨file,s₂,?_,there,word w rfl⟩
  rw [parseredirs,seen]
  simp only [taken,taken']
  cases d <;> rfl

theorem parseredirs_panic (there : At line p (.redirect d::ts)) (clean : 0#8 ∉ line) (other : ∀ w rest, ts ≠ .word w::rest) :
    parseredirs (inBuffer line beyond) line.length (fuel+1) cmd p = .error (.panic "missing file for redirection") := by
  obtain ⟨s,seen,there⟩ := there.peek beyond clean (show ['<','>'].map chr ⊆ symbols by decide)
  obtain ⟨span,s₁,taken,there,_⟩ := there.token beyond clean
  have some : peeks (['<','>'].map chr) (.redirect d::ts) = true := by cases d <;> rfl
  have ret : (gettoken (inBuffer line beyond) line.length s₁).1 ≠ chr 'a' := by
    rcases ts with _ | ⟨t,rest⟩
    · obtain ⟨_,_,taken,_⟩ := there.token_none beyond clean
      rw [taken]
      exact (by decide : (0#8 : Byte) ≠ chr 'a')
    · obtain ⟨_,_,taken,_⟩ := there.token beyond clean
      rw [taken]
      intro same
      obtain ⟨w,rfl⟩ := code_word.mp same
      exact other w rest rfl
  rw [some] at seen
  rw [parseredirs,seen]
  simp only [taken,if_true]
  exact if_pos ret

theorem parseargs_stop (beyond : List Byte) (argc : Nat) (cmd : Cmd Span) (fuel : Nat) (there : At line p ts)
    (clean : 0#8 ∉ line) (stops : Stops .exec ts) :
    ∃ s, parseargs (inBuffer line beyond) line.length (fuel+1) argc cmd p = .ok (cmd,s) ∧ At line s ts := by
  obtain ⟨s,seen,there⟩ := there.peek beyond clean (show ['|',')','&',';'].map chr ⊆ symbols by decide)
  rcases ts with _ | ⟨t,rest⟩
  · obtain ⟨span,next,taken,there⟩ := there.token_none beyond clean
    refine ⟨next,?_,there⟩
    rw [parseargs,seen]
    simp only [taken]
    rfl
  · refine ⟨s,?_,there⟩
    have some : peeks (['|',')','&',';'].map chr) (t::rest) = true := by
      cases t with
      | word w => cases stops
      | redirect d => cases stops
      | bar => rfl
      | amp => rfl
      | semi => rfl
      | lpar => cases stops
      | rpar => rfl
    rw [some] at seen
    rw [parseargs,seen]
    rfl

theorem parseargs_panic (there : At line p (t::ts)) (clean : 0#8 ∉ line) (stops : ¬ Stops .exec (t::ts)) (other : ∀ w, t ≠ .word w) :
    parseargs (inBuffer line beyond) line.length (fuel+1) argc cmd p = .error (.panic "syntax") := by
  obtain ⟨s,seen,there⟩ := there.peek beyond clean (show ['|',')','&',';'].map chr ⊆ symbols by decide)
  obtain ⟨span,s₁,taken,there,_⟩ := there.token beyond clean
  have none : peeks (['|',')','&',';'].map chr) (t::ts) = false ∧ code t ≠ 0#8 ∧ code t ≠ chr 'a' := by
    rcases t with w | d | _ | _ | _ | _ | _
    · exact absurd rfl (other w)
    · cases d <;> exact ⟨rfl,by decide,by decide⟩
    · exact absurd trivial stops
    · exact absurd trivial stops
    · exact absurd trivial stops
    · exact ⟨rfl,by decide,by decide⟩
    · exact absurd trivial stops
  rw [none.1] at seen
  rw [parseargs,seen]
  simp only [taken]
  rw [if_neg Bool.false_ne_true,if_neg none.2.1,if_pos none.2.2]

theorem parseargs_word (beyond : List Byte) (argc : Nat) (cmd : Cmd Span) (fuel : Nat) (there : At line p (.word w::ts)) (clean : 0#8 ∉ line) :
    ∃ span s, At line s ts ∧ IsWord line span w ∧
      parseargs (inBuffer line beyond) line.length (fuel+1) argc cmd p =
        if argc+1 ≥ maxArgs then .error (.panic "too many args")
        else parseredirs (inBuffer line beyond) line.length fuel (addArg span cmd) s >>= fun r =>
          parseargs (inBuffer line beyond) line.length fuel (argc+1) r.1 r.2 := by
  obtain ⟨s,seen,there⟩ := there.peek beyond clean (show ['|',')','&',';'].map chr ⊆ symbols by decide)
  obtain ⟨span,s₁,taken,there,word⟩ := there.token beyond clean
  have none : peeks (['|',')','&',';'].map chr) (.word w::ts) = false := rfl
  have some : code (.word w) ≠ 0#8 := show chr 'a' ≠ 0#8 by decide
  rw [none] at seen
  refine ⟨span,s₁,there,word w rfl,?_⟩
  rw [parseargs,seen]
  simp only [taken]
  rw [if_neg Bool.false_ne_true,if_neg some,if_neg (show ¬ code (.word w) ≠ chr 'a' from not_not.mpr rfl)]

theorem parsebacks_stop (beyond : List Byte) (cmd : Cmd Span) (fuel : Nat) (there : At line p ts)
    (clean : 0#8 ∉ line) (other : ∀ rest, ts ≠ .amp::rest) :
    ∃ s, parsebacks (inBuffer line beyond) line.length (fuel+1) cmd p = .ok (cmd,s) ∧ At line s ts := by
  obtain ⟨s,seen,there⟩ := there.missed beyond clean (by decide) amp_only other
  refine ⟨s,?_,there⟩
  rw [parsebacks,seen]
  rfl

theorem parsebacks_amp (beyond : List Byte) (cmd : Cmd Span) (fuel : Nat) (there : At line p (.amp::ts))
    (clean : 0#8 ∉ line) :
    ∃ s, parsebacks (inBuffer line beyond) line.length (fuel+1) cmd p = parsebacks
        (inBuffer line beyond) line.length fuel (.back cmd) s ∧
      At line s ts := by
  obtain ⟨s,seen,_,_,next,taken,there⟩ := there.expect beyond clean (by decide) amp_only
  refine ⟨next,?_,there⟩
  rw [parsebacks,seen]
  simp only [taken]
  rfl

end Steps

-- A run that ends, and then has a result such as `post` says or a message.
def Meets {Result : Type} (post : Result → Prop) : Except Failure Result → Prop
  | .ok r => post r
  | .error e => e ≠ .endless

theorem Meets.bind {First Result : Type} {run : Except Failure First} {rest : First → Except Failure Result}
    {middle : First → Prop} {post : Result → Prop} (first : Meets middle run)
    (second : ∀ r, middle r → Meets post (rest r)) : Meets post (run >>= rest) := by
  cases run with
  | ok r => exact second r first
  | error e => exact first

theorem Meets.imp {Result : Type} {run : Except Failure Result} {post post' : Result → Prop} (meets : Meets post run)
    (all : ∀ r, post r → post' r) :
    Meets post' run := by
  cases run with
  | ok r => exact all r meets
  | error e => exact meets

-- The text of a word of the line.
def slice (line : List Byte) (span : Span) : List Byte := (line.drop span.1).take (span.2-span.1)

abbrev Placed (line : List Byte) (span : Span) : Prop := IsWord line span (slice line span)

-- A tree of places in the line stands for the tree of the words there.
structure Denotes (line : List Byte) (cmd : Cmd Span) (tree : Cmd (List Byte)) : Prop where
  text : cmd.map (slice line) = tree
  placed : ∀ span ∈ cmd.words, Placed line span

def files (line : List Byte) (redirs : List (Direction × Span)) : List (Direction × List Byte) := redirs.map (Prod.map id (slice line))

section Trees
variable {line : List Byte} {span : Span} {w : List Byte} {cmd right : Cmd Span} {tree rest : Cmd (List Byte)}
  {redirs more : List (Direction × Span)} {argv : List Span}

theorem IsWord.placed (word : IsWord line span w) : slice line span = w ∧ Placed line span := by
  obtain ⟨some,letters,length,last,place,ended⟩ := word
  have same : slice line span = w := by
    rw [slice,place,length,Nat.add_sub_cancel_left,List.take_left]
  exact ⟨same,by rw [Placed,same]; exact ⟨some,letters,length,last,place,ended⟩⟩

theorem Denotes.nest (denotes : Denotes line cmd tree) (placed : ∀ r ∈ redirs, Placed line r.2) :
    Denotes line (cmd.nest redirs) (tree.nest (files line redirs)) := by
  refine ⟨by rw [Cmd.map_nest,denotes.text]; rfl,?_⟩
  rw [Cmd.words_nest]
  intro span member
  rcases List.mem_append.mp member with inside | file
  · exact denotes.placed span inside
  · obtain ⟨r,there,rfl⟩ := List.mem_map.mp file
    exact placed r there

theorem Denotes.exec (placed : ∀ span ∈ argv, Placed line span) : Denotes line (.exec argv) (.exec (argv.map (slice line))) := ⟨rfl,placed⟩

theorem Denotes.backs (denotes : Denotes line cmd tree) (n : Nat) : Denotes line (cmd.backs n) (tree.backs n) :=
  ⟨by rw [Cmd.map_backs,denotes.text],by rw [Cmd.words_backs]; exact denotes.placed⟩

theorem Denotes.pipe (left : Denotes line cmd tree) (last : Denotes line right rest) : Denotes line (.pipe cmd right)
    (.pipe tree rest) :=
  ⟨by rw [Cmd.map,left.text,last.text],fun span member => (List.mem_append.mp member).elim (left.placed span) (last.placed span)⟩

theorem Denotes.list (left : Denotes line cmd tree) (last : Denotes line right rest) : Denotes line (.list cmd right)
    (.list tree rest) :=
  ⟨by rw [Cmd.map,left.text,last.text],fun span member => (List.mem_append.mp member).elim (left.placed span) (last.placed span)⟩

end Trees

section Loops
variable {line beyond : List Byte} {p fuel : Nat} {ts used rest : List (Token (List Byte))} {cmd : Cmd Span}

theorem parseredirs_sound (clean : 0#8 ∉ line) (there : At line p ts) (enough : ts.length < fuel) :
    Meets (fun r => ∃ used rest redirs, ts = used++rest ∧ At line r.2 rest ∧ Redirs used (files line redirs) ∧
    r.1 = cmd.nest redirs ∧
      ∀ r ∈ redirs, Placed line r.2) (parseredirs (inBuffer line beyond) line.length fuel cmd p) := by
  induction fuel generalizing cmd p ts with
  | zero => exact absurd enough (Nat.not_lt_zero _)
  | succ fuel ih =>
    by_cases redirected : ∃ d rest, ts = .redirect d::rest
    · obtain ⟨d,rest,rfl⟩ := redirected
      by_cases named : ∃ w more, rest = .word w::more
      · obtain ⟨w,more,rfl⟩ := named
        obtain ⟨file,s,is,there,word⟩ := parseredirs_file beyond cmd fuel there clean
        obtain ⟨text,placed⟩ := word.placed
        rw [is]
        refine (ih there (by simp only [List.length_cons] at enough; omega)).imp ?_
        rintro ⟨cmd',s'⟩ ⟨used,last,redirs,split,there,derived,nested,all⟩
        refine ⟨.redirect d::.word w::used,last,(d,file)::redirs,?_,there,?_,nested,List.forall_mem_cons.mpr ⟨placed,all⟩⟩
        · rw [split]
          rfl
        · have head : files line ((d,file)::redirs) = (d,w)::files line redirs := by rw [← text]; rfl
          rw [head]
          exact .cons derived
      · rw [parseredirs_panic there clean fun w more same => named ⟨w,more,same⟩]
        exact nofun
    · obtain ⟨s,is,there⟩ := parseredirs_stop beyond cmd fuel there clean fun d rest same => redirected ⟨d,rest,same⟩
      rw [is]
      exact ⟨[],ts,[],rfl,there,.nil,rfl,nofun⟩

theorem addArg_nest (span : Span) (cmd : Cmd Span) (redirs : List (Direction × Span)) :
    addArg span (cmd.nest redirs) = (addArg span cmd).nest redirs := by
  induction redirs generalizing cmd with
  | nil => rfl
  | cons r rest ih => exact ih (.redir cmd r.2 r.1.mode r.1.fd)

theorem files_append (line : List Byte) (redirs more : List (Direction × Span)) :
    files line (redirs++more) = files line redirs++files line more :=
  List.map_append

theorem parseargs_sound {argv : List Span} (clean : 0#8 ∉ line) (there : At line p ts) (enough : ts.length < fuel)
    (few : argv.length ≤ maxWords) (redirs : List (Direction × Span)) :
    Meets (fun r => ∃ used rest more extra, ts = used++rest ∧ At line r.2 rest ∧
    Words used (more.map (slice line)) (files line extra) ∧
      r.1 = (Cmd.exec (argv++more)).nest (redirs++extra) ∧ (argv++more).length ≤ maxWords ∧
      (∀ span ∈ more, Placed line span) ∧ ∀ r ∈ extra, Placed line r.2)
      (parseargs (inBuffer line beyond) line.length fuel argv.length ((Cmd.exec argv).nest redirs) p) := by
  induction fuel generalizing argv redirs p ts with
  | zero => exact absurd enough (Nat.not_lt_zero _)
  | succ fuel ih =>
    by_cases stops : Stops .exec ts
    · obtain ⟨s,is,there⟩ := parseargs_stop beyond argv.length ((Cmd.exec argv).nest redirs) fuel there clean stops
      rw [is]
      exact ⟨[],ts,[],[],rfl,there,.nil,by rw [List.append_nil,List.append_nil],by rwa [List.append_nil],nofun,nofun⟩
    · rcases ts with _ | ⟨t,ts⟩
      · exact absurd trivial stops
      by_cases named : ∃ w, t = .word w
      · obtain ⟨w,rfl⟩ := named
        obtain ⟨span,s,there,word,is⟩ := parseargs_word beyond argv.length ((Cmd.exec argv).nest redirs) fuel there clean
        obtain ⟨text,placed⟩ := word.placed
        rw [is]
        split
        · exact nofun
        · rename_i room
          rw [List.length_cons] at enough
          refine (parseredirs_sound clean there (by omega)).bind ?_
          rintro ⟨ret,s'⟩ ⟨front,last,here,split,there',derived,nested,all⟩
          have grown : ret = (Cmd.exec (argv++[span])).nest (redirs++here) := by
            rw [Cmd.nest_append]
            refine nested.trans ?_
            rw [addArg_nest]
            rfl
          have count : argv.length+1 = (argv++[span]).length := by rw [List.length_append,List.length_singleton]
          have short : last.length ≤ ts.length := by
            rw [split,List.length_append]
            omega
          rw [count,grown]
          refine (ih there' (by omega)
              (show (argv++[span]).length ≤ maxWords by rw [← count]; unfold maxWords; unfold maxArgs at room; omega)
              (redirs++here)).imp ?_
          rintro ⟨cmd,s''⟩ ⟨used,rest,more,extra,split',there'',words,whole,few',placed',all'⟩
          refine ⟨.word w::(front++used),rest,span::more,here++extra,?_,there'',?_,?_,?_,?_,?_⟩
          · rw [split,split',List.cons_append,List.append_assoc]
          · rw [List.map_cons,text,files_append]
            exact .cons derived words
          · rw [whole,List.append_assoc,List.append_assoc,List.singleton_append]
          · rwa [List.append_assoc,List.singleton_append] at few'
          · exact List.forall_mem_cons.mpr ⟨placed,placed'⟩
          · intro r member
            exact (List.mem_append.mp member).elim (all r) (all' r)
      · rw [parseargs_panic there clean stops fun w same => named ⟨w,same⟩]
        exact nofun

theorem parsebacks_sound (clean : 0#8 ∉ line) (there : At line p ts) (enough : ts.length < fuel) :
    Meets (fun r => ∃ n rest, ts = List.replicate n .amp++rest ∧ At line r.2 rest ∧ r.1 = cmd.backs n)
      (parsebacks (inBuffer line beyond) line.length fuel cmd p) := by
  induction fuel generalizing cmd p ts with
  | zero => exact absurd enough (Nat.not_lt_zero _)
  | succ fuel ih =>
    by_cases background : ∃ rest, ts = .amp::rest
    · obtain ⟨rest,rfl⟩ := background
      obtain ⟨s,is,there⟩ := parsebacks_amp beyond cmd fuel there clean
      rw [is]
      refine (ih there (by rw [List.length_cons] at enough; omega)).imp ?_
      rintro ⟨cmd',s'⟩ ⟨n,last,split,there,whole⟩
      exact ⟨n+1,last,by rw [split,List.replicate_succ,List.cons_append],there,by rw [Cmd.backs_succ]; exact whole⟩
    · obtain ⟨s,is,there⟩ := parsebacks_stop beyond cmd fuel there clean fun rest same => background ⟨rest,same⟩
      rw [is]
      exact ⟨0,ts,rfl,there,rfl⟩

end Loops

-- What a function of the parser has read when it returns; `4*ts.length+need` is fuel enough.
def Parses (line beyond : List Byte) (rule : Rule) (need : Nat) (parse : List Byte → Nat → Nat → Nat → Except Failure (Cmd Span × Nat)) (fuel : Nat) : Prop :=
  ∀ p ts, At line p ts → 4*ts.length+need ≤ fuel →
    Meets (fun r => ∃ used rest tree, ts = used++rest ∧ At line r.2 rest ∧ Derives rule used tree ∧ Denotes line r.1 tree)
      (parse (inBuffer line beyond) line.length fuel p)

section Soundness
variable {line beyond : List Byte} {fuel : Nat}

theorem parseline_sound (clean : 0#8 ∉ line) (pipes : Parses line beyond .pipe 3 parsepipe fuel)
    (lines : Parses line beyond .line 4 parseline fuel) :
    Parses line beyond .line 4 parseline (fuel+1) := by
  intro p ts there enough
  rw [parseline]
  refine (pipes p ts there (by omega)).bind ?_
  rintro ⟨cmd,s⟩ ⟨used,rest,tree,rfl,there,derived,denotes⟩
  rw [List.length_append] at enough
  refine (parsebacks_sound clean there (by omega)).bind ?_
  rintro ⟨cmd',s'⟩ ⟨n,last,rfl,there,whole⟩
  replace whole : cmd' = cmd.backs n := whole
  subst whole
  rw [List.length_append] at enough
  by_cases more : ∃ after, last = .semi::after
  · obtain ⟨after,rfl⟩ := more
    obtain ⟨s₁,seen,ret,span,next,taken,there⟩ := there.expect beyond clean (by decide) semi_only
    simp only [seen,taken,if_true]
    rw [List.length_cons] at enough
    refine (lines next after there (by omega)).bind ?_
    rintro ⟨right,s₂⟩ ⟨used',rest',tree',rfl,there',derived',denotes'⟩
    refine ⟨used++(List.replicate n .amp++.semi::used'),rest',_,?_,there',.lines n derived derived',(denotes.backs n).list denotes'⟩
    simp only [List.append_assoc,List.cons_append]
  · obtain ⟨s₁,seen,there⟩ := there.missed beyond clean (by decide) semi_only fun after same => more ⟨after,same⟩
    simp only [seen,Bool.false_eq_true,if_false]
    exact ⟨used++List.replicate n .amp,last,_,(List.append_assoc _ _ _).symm,there,.line n derived,denotes.backs n⟩

theorem parsepipe_sound (clean : 0#8 ∉ line) (execs : Parses line beyond .exec 2 parseexec fuel)
    (pipes : Parses line beyond .pipe 3 parsepipe fuel) :
    Parses line beyond .pipe 3 parsepipe (fuel+1) := by
  intro p ts there enough
  rw [parsepipe]
  refine (execs p ts there (by omega)).bind ?_
  rintro ⟨cmd,s⟩ ⟨used,rest,tree,rfl,there,derived,denotes⟩
  rw [List.length_append] at enough
  by_cases more : ∃ after, rest = .bar::after
  · obtain ⟨after,rfl⟩ := more
    obtain ⟨s₁,seen,ret,span,next,taken,there⟩ := there.expect beyond clean (by decide) bar_only
    simp only [seen,taken,if_true]
    rw [List.length_cons] at enough
    refine (pipes next after there (by omega)).bind ?_
    rintro ⟨right,s₂⟩ ⟨used',rest',tree',rfl,there',derived',denotes'⟩
    refine ⟨used++.bar::used',rest',_,?_,there',.pipes derived derived',denotes.pipe denotes'⟩
    simp only [List.append_assoc,List.cons_append]
  · obtain ⟨s₁,seen,there⟩ := there.missed beyond clean (by decide) bar_only fun after same => more ⟨after,same⟩
    simp only [seen,Bool.false_eq_true,if_false]
    exact ⟨used,rest,tree,rfl,there,.pipe derived,denotes⟩

theorem parseblock_sound (clean : 0#8 ∉ line) (lines : Parses line beyond .line 4 parseline fuel) :
    Parses line beyond .exec 1 parseblock (fuel+1) := by
  intro p ts there enough
  rw [parseblock]
  by_cases inside : ∃ after, ts = .lpar::after
  · obtain ⟨after,rfl⟩ := inside
    obtain ⟨s₁,seen,ret,span,next,taken,there⟩ := there.expect beyond clean (by decide) lpar_only
    simp only [seen,taken,not_true_eq_false,if_false]
    rw [List.length_cons] at enough
    refine (lines next after there (by omega)).bind ?_
    rintro ⟨cmd,s₂⟩ ⟨used,rest,tree,rfl,there,derived,denotes⟩
    rw [List.length_append] at enough
    by_cases closed : ∃ last, rest = .rpar::last
    · obtain ⟨last,rfl⟩ := closed
      obtain ⟨s₃,seen,ret,span,next,taken,there⟩ := there.expect beyond clean (by decide) rpar_only
      simp only [seen,taken,not_true_eq_false,if_false]
      rw [List.length_cons] at enough
      refine (parseredirs_sound clean there (by omega)).imp ?_
      rintro ⟨cmd',s₄⟩ ⟨front,rest',redirs,rfl,there,read,nested,all⟩
      replace nested : cmd' = cmd.nest redirs := nested
      subst nested
      refine ⟨.lpar::(used++.rpar::front),rest',_,?_,there,.block derived read,denotes.nest all⟩
      simp only [List.append_assoc,List.cons_append]
    · obtain ⟨s₃,seen,_⟩ := there.missed beyond clean (by decide) rpar_only fun last same => closed ⟨last,same⟩
      simp only [seen,Bool.false_eq_true,not_false_eq_true,if_true]
      exact nofun
  · obtain ⟨s₁,seen,_⟩ := there.missed beyond clean (by decide) lpar_only fun after same => inside ⟨after,same⟩
    simp only [seen,Bool.false_eq_true,not_false_eq_true,if_true]
    exact nofun

theorem parseexec_sound (clean : 0#8 ∉ line) (blocks : Parses line beyond .exec 1 parseblock fuel) :
    Parses line beyond .exec 2 parseexec (fuel+1) := by
  intro p ts there enough
  rw [parseexec]
  by_cases inside : ∃ after, ts = .lpar::after
  · obtain ⟨after,rfl⟩ := inside
    obtain ⟨s₁,seen,there⟩ := there.peek beyond clean (show ['('].map chr ⊆ symbols by decide)
    have some : peeks (['('].map chr) (.lpar::after) = true := rfl
    rw [some] at seen
    simp only [seen,if_true]
    exact blocks s₁ _ there (by omega)
  · obtain ⟨s₁,seen,there⟩ := there.missed beyond clean (by decide) lpar_only fun after same => inside ⟨after,same⟩
    simp only [seen,Bool.false_eq_true,if_false]
    refine (parseredirs_sound clean there (by omega)).bind ?_
    rintro ⟨ret,s₂⟩ ⟨front,rest,redirs,rfl,there,read,nested,all⟩
    replace nested : ret = (Cmd.exec []).nest redirs := nested
    subst nested
    rw [List.length_append] at enough
    refine (parseargs_sound clean there (show rest.length < fuel by omega)
        (show ([] : List Span).length ≤ maxWords from Nat.zero_le _) redirs).imp ?_
    rintro ⟨cmd,s₃⟩ ⟨used,last,argv,extra,rfl,there,words,whole,few,placed,all'⟩
    replace whole : cmd = (Cmd.exec argv).nest (redirs++extra) := whole
    subst whole
    have every : ∀ r ∈ redirs++extra, Placed line r.2 := fun r member => (List.mem_append.mp member).elim (all r) (all' r)
    have denotes := (Denotes.exec placed).nest every
    rw [files_append] at denotes
    exact ⟨front++used,last,_,(List.append_assoc _ _ _).symm,there,.words read words (by rwa [List.length_map]),denotes⟩

theorem parser_sound (clean : 0#8 ∉ line) (fuel : Nat) : Parses line beyond .line 4 parseline fuel ∧
    Parses line beyond .pipe 3 parsepipe fuel ∧
    Parses line beyond .exec 2 parseexec fuel ∧ Parses line beyond .exec 1 parseblock fuel := by
  induction fuel with
  | zero => exact ⟨fun _ _ _ few => absurd few (by omega),fun _ _ _ few => absurd few (by omega),fun _ _ _ few => absurd few (by omega),
      fun _ _ _ few => absurd few (by omega)⟩
  | succ fuel ih =>
    obtain ⟨lines,pipes,execs,blocks⟩ := ih
    exact ⟨parseline_sound clean pipes lines,parsepipe_sound clean execs pipes,parseexec_sound clean blocks,
        parseblock_sound clean lines⟩

end Soundness

end Shell
