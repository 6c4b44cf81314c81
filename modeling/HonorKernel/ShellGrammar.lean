import Mathlib.Data.List.Basic
import Mathlib.Logic.Function.Iterate

-- The command lines of a shell: tokens, command trees, and which tokens spell which tree.
-- `Word` is whatever stands for a word.
namespace ShellGrammar

inductive Direction where
  | read | write | append
deriving DecidableEq

inductive Token (Word : Type*) where
  | word (w : Word)
  | redirect (d : Direction)
  | bar | amp | semi | lpar | rpar
deriving DecidableEq

-- The second argument of open, and what `<`, `>` and `>>` make of it.
def oRdonly : Nat := 0
def oWronly : Nat := 1
def oCreat : Nat := 0o100

def Direction.mode : Direction → Nat
  | .read => oRdonly
  | .write => oWronly ||| oCreat
  | .append => oWronly ||| oCreat

def Direction.fd : Direction → Nat
  | .read => 0
  | .write => 1
  | .append => 1

inductive Cmd (Word : Type*) where
  | exec (argv : List Word)
  | redir (cmd : Cmd Word) (file : Word) (mode fd : Nat)
  | pipe (left right : Cmd Word)
  | list (left right : Cmd Word)
  | back (cmd : Cmd Word)
deriving DecidableEq

section Grammar
variable {Word : Type*}

-- A redirection further right stands around those before it.
def Cmd.nest (cmd : Cmd Word) (redirs : List (Direction × Word)) : Cmd Word :=
  redirs.foldl (fun cmd r => .redir cmd r.2 r.1.mode r.1.fd) cmd

def Cmd.backs (n : Nat) (cmd : Cmd Word) : Cmd Word := Cmd.back^[n] cmd

-- redir*, redir := ('<' | '>' | '>>') word
inductive Redirs : List (Token Word) → List (Direction × Word) → Prop
  | nil : Redirs [] []
  | cons : Redirs rest redirs → Redirs (.redirect d::.word w::rest) ((d,w)::redirs)

-- (word redir*)*
inductive Words : List (Token Word) → List Word → List (Direction × Word) → Prop
  | nil : Words [] [] []
  | cons : Redirs ts redirs → Words rest argv more → Words (.word w::(ts++rest)) (w::argv) (redirs++more)

inductive Rule where
  | line | pipe | exec

def maxWords : Nat := 9

-- line := pipe '&'* [';' line]
-- pipe := exec ['|' pipe]
-- exec := '(' line ')' redir* | redir* (word redir*)*
inductive Derives : Rule → List (Token Word) → Cmd Word → Prop
  | line (n : Nat) : Derives .pipe ts cmd → Derives .line (ts++List.replicate n .amp) (cmd.backs n)
  | lines (n : Nat) : Derives .pipe ts cmd → Derives .line rest right →
      Derives .line (ts++(List.replicate n .amp++.semi::rest)) (.list (cmd.backs n) right)
  | pipe : Derives .exec ts cmd → Derives .pipe ts cmd
  | pipes : Derives .exec ts cmd → Derives .pipe rest right → Derives .pipe (ts++.bar::rest) (.pipe cmd right)
  | block : Derives .line ts cmd → Redirs rest redirs → Derives .exec (.lpar::(ts++.rpar::rest)) (cmd.nest redirs)
  | words : Redirs ts redirs → Words rest argv more → argv.length ≤ maxWords →
      Derives .exec (ts++rest) ((Cmd.exec argv).nest (redirs++more))

-- The tokens that may come behind what a rule derives.
def Stops : Rule → List (Token Word) → Prop
  | _,[] => True
  | .exec,.bar::_ => True
  | .exec,.amp::_ => True
  | .pipe,.amp::_ => True
  | .exec,.semi::_ => True
  | .pipe,.semi::_ => True
  | _,.rpar::_ => True
  | _,_ => False

theorem Stops.exec (stops : Stops rule ts) : Stops .exec ts := by
  rcases ts with _ | ⟨t,rest⟩
  · trivial
  · cases rule <;> cases t <;> trivial

theorem Stops.pipe (stops : Stops .line ts) : Stops .pipe ts := by
  rcases ts with _ | ⟨t,rest⟩
  · trivial
  · cases t <;> trivial

theorem Stops.amps (n : Nat) (stops : Stops .pipe ts) : Stops .pipe (List.replicate n .amp++ts) := by
  cases n with
  | zero => exact stops
  | succ n => trivial

theorem Words.not_redirect (words : Words ts argv redirs) (stops : Stops .exec rest) (d : Direction)
    (more : List (Token Word)) :
    ts++rest ≠ .redirect d::more := by
  cases words with
  | nil =>
    rintro rfl
    exact stops
  | cons => nofun

theorem Words.not_lpar (front : Redirs us named) (words : Words ts argv redirs) (stops : Stops .exec rest)
    (more : List (Token Word)) :
    us++(ts++rest) ≠ .lpar::more := by
  cases front with
  | nil =>
    cases words with
    | nil =>
      rintro rfl
      exact stops
    | cons => nofun
  | cons => nofun

-- Every word of a tree, in the order in which nulterminate meets them.
def Cmd.words : Cmd Word → List Word
  | .exec argv => argv
  | .redir cmd file _ _ => cmd.words++[file]
  | .pipe left right => left.words++right.words
  | .list left right => left.words++right.words
  | .back cmd => cmd.words

variable {Other : Type*}

def Cmd.map (f : Word → Other) : Cmd Word → Cmd Other
  | .exec argv => .exec (argv.map f)
  | .redir cmd file mode fd => .redir (cmd.map f) (f file) mode fd
  | .pipe left right => .pipe (left.map f) (right.map f)
  | .list left right => .list (left.map f) (right.map f)
  | .back cmd => .back (cmd.map f)

theorem Cmd.map_congr {f g : Word → Other} {cmd : Cmd Word} (same : ∀ w ∈ cmd.words, f w = g w) :
    cmd.map f = cmd.map g := by
  induction cmd with
  | exec argv => exact congrArg Cmd.exec (List.map_congr_left same)
  | redir cmd file mode fd ih =>
    have rest := ih fun w member => same w (List.mem_append_left _ member)
    have last := same file (List.mem_append_right _ (List.mem_singleton.mpr rfl))
    simp only [Cmd.map,rest,last]
  | pipe left right ihLeft ihRight =>
    have front := ihLeft fun w member => same w (List.mem_append_left _ member)
    have rest := ihRight fun w member => same w (List.mem_append_right _ member)
    simp only [Cmd.map,front,rest]
  | list left right ihLeft ihRight =>
    have front := ihLeft fun w member => same w (List.mem_append_left _ member)
    have rest := ihRight fun w member => same w (List.mem_append_right _ member)
    simp only [Cmd.map,front,rest]
  | back cmd ih => exact congrArg Cmd.back (ih same)

theorem Cmd.nest_append (cmd : Cmd Word) (redirs more : List (Direction × Word)) :
    cmd.nest (redirs++more) = (cmd.nest redirs).nest more :=
  List.foldl_append

theorem Cmd.map_nest (f : Word → Other) (cmd : Cmd Word) (redirs : List (Direction × Word)) :
    (cmd.nest redirs).map f = (cmd.map f).nest (redirs.map (Prod.map id f)) := by
  induction redirs generalizing cmd with
  | nil => rfl
  | cons r rest ih => exact ih (.redir cmd r.2 r.1.mode r.1.fd)

theorem Cmd.words_nest (cmd : Cmd Word) (redirs : List (Direction × Word)) :
    (cmd.nest redirs).words = cmd.words++redirs.map Prod.snd := by
  induction redirs generalizing cmd with
  | nil => exact (List.append_nil _).symm
  | cons r rest ih =>
    refine (ih (.redir cmd r.2 r.1.mode r.1.fd)).trans ?_
    rw [Cmd.words,List.append_assoc]
    rfl

theorem Cmd.backs_succ (n : Nat) (cmd : Cmd Word) : cmd.backs (n+1) = (Cmd.back cmd).backs n := Function.iterate_succ_apply _ _ _

theorem Cmd.map_backs (f : Word → Other) (n : Nat) (cmd : Cmd Word) : (cmd.backs n).map f = (cmd.map f).backs n := by
  induction n generalizing cmd with
  | zero => rfl
  | succ n ih => rw [Cmd.backs_succ,ih,Cmd.backs_succ]; rfl

theorem Cmd.words_backs (n : Nat) (cmd : Cmd Word) : (cmd.backs n).words = cmd.words := by
  induction n generalizing cmd with
  | zero => rfl
  | succ n ih => rw [Cmd.backs_succ,ih]; rfl

end Grammar

end ShellGrammar
