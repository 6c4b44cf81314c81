import HonorKernel.FileTable
import HonorKernel.ShellAcceptance

-- runcmd of the shell: the processes that a command tree becomes, with the descriptors that
-- each of them has.
namespace ShellRun
open ShellGrammar
open FileTable (nOpenFile)

inductive Object (Word : Type*) where
  | console
  | file (name : Word) (mode : Nat)
  | readEnd (pipe : Nat)
  | writeEnd (pipe : Nat)
deriving DecidableEq

abbrev Table (Word : Type*) := Nat → Option (Object Word)

-- A program that is started, or a shell that waits for its children.
inductive Work (Word : Type*) where
  | exec (argv : List Word)
  | wait
deriving DecidableEq

structure Process (Word : Type*) where
  work : Work Word
  table : Table Word

section Calls
variable {Word : Type*}

-- fdalloc: the lowest free descriptor.
def lowest (t : Table Word) : Option Nat := (List.range nOpenFile).find? fun fd => (t fd).isNone

def install (x : Object Word) (t : Table Word) : Option (Nat × Table Word) := (lowest t).map fun fd => (fd,Function.update t fd (some x))

def close (fd : Nat) (t : Table Word) : Table Word := Function.update t fd none

-- The shell does not look at what dup returns.
def dup (fd : Nat) (t : Table Word) : Table Word :=
  match (t fd).bind fun x => install x t with
  | some r => r.2
  | none => t

-- `opens` says which files can be opened. The second result is the number of pipes so far.
-- Every fork and every pipe succeeds, and a child runs on a copy of the table.
def runcmd (opens : Word → Nat → Bool) : Cmd Word → Table Word → Nat → List (Process Word) × Nat
  | .exec argv,t,n => (if argv.isEmpty then [] else [⟨.exec argv,t⟩],n)
  | .redir cmd file mode fd,t,n =>
    if opens file mode then
      match install (.file file mode) (close fd t) with
      | some r => runcmd opens cmd r.2 n
      | none => ([],n)
    else ([],n)
  | .list left right,t,n =>
    let first := runcmd opens left t n
    let second := runcmd opens right t first.2
    (⟨.wait,t⟩::(first.1++second.1),second.2)
  | .pipe left right,t,n =>
    match install (.readEnd n) t with
    | none => ([],n)
    | some p₀ =>
      match install (.writeEnd n) p₀.2 with
      | none => ([],n)
      | some p₁ =>
        let first := runcmd opens left (close p₁.1 (close p₀.1 (dup p₁.1 (close 1 p₁.2)))) (n+1)
        let second := runcmd opens right (close p₁.1 (close p₀.1 (dup p₀.1 (close 0 p₁.2)))) first.2
        (⟨.wait,close p₁.1 (close p₀.1 p₁.2)⟩::(first.1++second.1),second.2)
  | .back cmd,t,n => runcmd opens cmd t n

end Calls

-- What the tree asks for: the standard input and output of every process.
structure Wired (Word : Type*) where
  work : Work Word
  input : Object Word
  output : Object Word

section Wiring
variable {Word : Type*}

def wiring (opens : Word → Nat → Bool) : Cmd Word → Object Word → Object Word → Nat → List (Wired Word) × Nat
  | .exec argv,i,o,n => (if argv.isEmpty then [] else [⟨.exec argv,i,o⟩],n)
  | .redir cmd file mode fd,i,o,n =>
    if opens file mode then
      if fd = 0 then wiring opens cmd (.file file mode) o n else wiring opens cmd i (.file file mode) n
    else ([],n)
  | .list left right,i,o,n =>
    let first := wiring opens left i o n
    let second := wiring opens right i o first.2
    (⟨.wait,i,o⟩::(first.1++second.1),second.2)
  | .pipe left right,i,o,n =>
    let first := wiring opens left i (.writeEnd n) (n+1)
    let second := wiring opens right (.readEnd n) o first.2
    (⟨.wait,i,o⟩::(first.1++second.1),second.2)
  | .back cmd,i,o,n => wiring opens cmd i o n

-- Descriptors 0, 1 and 2 and no other.
def standard (i o e : Object Word) : Table Word
  | 0 => some i
  | 1 => some o
  | 2 => some e
  | _ => none

-- Redirections are of 0 and 1.
def Redirects : Cmd Word → Prop
  | .exec _ => True
  | .redir cmd _ _ fd => fd ≤ 1 ∧ Redirects cmd
  | .list left right => Redirects left ∧ Redirects right
  | .pipe left right => Redirects left ∧ Redirects right
  | .back cmd => Redirects cmd

theorem redirects_exec (argv : List Word) : Redirects (.exec argv) := trivial

theorem Redirects.nest {cmd : Cmd Word} (redirects : Redirects cmd) (redirs : List (Direction × Word)) :
    Redirects (cmd.nest redirs) := by
  unfold Cmd.nest
  induction redirs generalizing cmd with
  | nil => exact redirects
  | cons r rest ih =>
    refine ih ⟨?_,redirects⟩
    cases r.1 <;> decide

theorem Redirects.backs {cmd : Cmd Word} (redirects : Redirects cmd) (n : Nat) : Redirects (cmd.backs n) := by
  unfold Cmd.backs
  induction n with
  | zero => exact redirects
  | succ n ih =>
    rw [Function.iterate_succ_apply']
    exact ih

theorem redirects_of_derives {rule : Rule} {ts : List (Token Word)} {cmd : Cmd Word}
    (derives : Derives rule ts cmd) : Redirects cmd := by
  induction derives with
  | line n _ ih => exact ih.backs n
  | lines n _ _ left right => exact ⟨left.backs n,right⟩
  | pipe _ ih => exact ih
  | pipes _ _ left right => exact ⟨left,right⟩
  | block _ _ ih => exact ih.nest _
  | words => exact (redirects_exec _).nest _

end Wiring

section Tables
variable {Word : Type*} {i o e x y : Object Word} {t : Table Word} {fd : Nat}

theorem lowest_of (small : fd < nOpenFile) (free : t fd = none) (taken : ∀ j < fd, (t j).isSome) :
    lowest t = some fd := by
  unfold lowest
  refine List.find?_eq_some_iff_getElem.mpr ⟨by rw [free]; rfl,fd,by rw [List.length_range]; exact small,List.getElem_range .., ?_⟩
  intro j below
  rw [List.getElem_range]
  have there := taken j below
  cases found : t j with
  | none =>
    rw [found] at there
    cases there
  | some _ => rfl

theorem install_at (small : fd < nOpenFile) (free : t fd = none) (taken : ∀ j < fd, (t j).isSome) (x : Object Word) :
    install x t = some (fd,Function.update t fd (some x)) := by
  unfold install
  rw [lowest_of small free taken]
  rfl

theorem table_ext {t' : Table Word} (zero : t 0 = t' 0) (one : t 1 = t' 1) (rest : ∀ j, 2 ≤ j → t j = t' j) :
    t = t' := by
  funext j
  rcases j with _ | _ | j
  · exact zero
  · exact one
  · exact rest _ (by omega)

theorem standard_low (i o e : Object Word) {j : Nat} (below : j < 3) : (standard i o e j).isSome := by
  rcases j with _ | _ | _ | j
  · rfl
  · rfl
  · rfl
  · omega

theorem install_free (small : fd < nOpenFile) (taken : ∀ j < fd, (t j).isSome) (x : Object Word) :
    install x (close fd t) = some (fd,Function.update t fd (some x)) := by
  have free : close fd t fd = none := Function.update_self ..
  have same : ∀ j < fd, (close fd t j).isSome := by
    intro j below
    unfold close
    rw [Function.update_of_ne (Nat.ne_of_lt below)]
    exact taken j below
  rw [install_at small free same]
  unfold close
  rw [Function.update_idem]

theorem standard_input (i o e x : Object Word) : Function.update (standard i o e) 0 (some x) = standard x o e := by
  refine table_ext rfl rfl fun j above => ?_
  rw [Function.update_of_ne (by omega)]
  rcases j with _ | _ | _ | j
  · omega
  · omega
  · rfl
  · rfl

theorem standard_output (i o e x : Object Word) : Function.update (standard i o e) 1 (some x) = standard i x e := by
  refine table_ext rfl rfl fun j above => ?_
  rw [Function.update_of_ne (by omega)]
  rcases j with _ | _ | _ | j
  · omega
  · omega
  · rfl
  · rfl

theorem redirect_input (i o e x : Object Word) : install x (close 0 (standard i o e)) = some (0,standard x o e) := by
  rw [install_free (by decide) fun j below => absurd below (Nat.not_lt_zero j),standard_input]

theorem redirect_output (i o e x : Object Word) : install x (close 1 (standard i o e)) = some (1,standard i x e) := by
  rw [install_free (by decide) fun j below => standard_low i o e (by omega),standard_output]

-- The table with both ends of the pipe `n`.
def piped (i o e : Object Word) (n : Nat) : Table Word := Function.update (Function.update (standard i o e) 3 (some (.readEnd n))) 4 (some (.writeEnd n))

theorem piped_made (i o e : Object Word) (n : Nat) :
    install (.readEnd n) (standard i o e) = some (3,Function.update (standard i o e) 3 (some (.readEnd n))) ∧
    install (.writeEnd n) (Function.update (standard i o e) 3 (some (.readEnd n))) = some (4,piped i o e n) := by
  refine ⟨install_at (by decide) rfl (fun j below => standard_low i o e below) _,install_at (by decide) rfl (fun j below => ?_) _⟩
  by_cases last : j = 3
  · rw [last,Function.update_self]
    rfl
  · rw [Function.update_of_ne last]
    exact standard_low i o e (by omega)

theorem piped_closed (i o e : Object Word) (n : Nat) : close 4 (close 3 (piped i o e n)) = standard i o e := by
  funext j
  unfold close piped
  by_cases four : j = 4
  · subst four
    rw [Function.update_self]
    rfl
  · rw [Function.update_of_ne four]
    by_cases three : j = 3
    · subst three
      rw [Function.update_self]
      rfl
    · rw [Function.update_of_ne three,Function.update_of_ne four,Function.update_of_ne three]

-- What the child on either side does with the ends: `fd` becomes the one it keeps.
theorem child_table (i o e : Object Word) (n : Nat) {fd kept : Nat} (low : fd < 3) {x : Object Word}
    (there : piped i o e n kept = some x) (other : kept ≠ fd) :
    close 4 (close 3 (dup kept (close fd (piped i o e n)))) = Function.update (standard i o e) fd (some x) := by
  have taken : ∀ j < fd, (piped i o e n j).isSome := by
    intro j below
    unfold piped
    rw [Function.update_of_ne (by omega),Function.update_of_ne (by omega)]
    exact standard_low i o e (by omega)
  have found : close fd (piped i o e n) kept = some x := (Function.update_of_ne other ..).trans there
  have small : fd < nOpenFile := Nat.lt_trans low (by decide)
  have copied : dup kept (close fd (piped i o e n)) = Function.update (piped i o e n) fd (some x) := by
    simp only [dup,found,Option.bind_some,install_free small taken]
  rw [copied]
  funext j
  by_cases mine : j = fd
  · subst mine
    unfold close
    rw [Function.update_of_ne (by omega),Function.update_of_ne (by omega),Function.update_self,Function.update_self]
  · have apart := congrFun (piped_closed i o e n) j
    unfold close at apart ⊢
    rw [Function.update_of_ne mine,← apart]
    by_cases four : j = 4
    · subst four
      rw [Function.update_self,Function.update_self]
    · rw [Function.update_of_ne four,Function.update_of_ne four]
      by_cases three : j = 3
      · subst three
        rw [Function.update_self,Function.update_self]
      · rw [Function.update_of_ne three,Function.update_of_ne three,Function.update_of_ne mine]

def Wired.process (e : Object Word) (p : Wired Word) : Process Word := ⟨p.work,standard p.input p.output e⟩

-- Every process has the two descriptors that the tree asks for and standard error, and no
-- end of any pipe beside them.
theorem runcmd_wiring (opens : Word → Nat → Bool) {cmd : Cmd Word} (redirects : Redirects cmd) (i o e : Object Word)
    (n : Nat) :
    runcmd opens cmd (standard i o e) n = ((wiring opens cmd i o n).1.map (Wired.process e),(wiring opens cmd i o n).2) := by
  induction cmd generalizing i o n with
  | exec argv =>
    unfold runcmd wiring
    split <;> rfl
  | redir cmd file mode fd ih =>
    obtain ⟨low,redirects⟩ := redirects
    unfold runcmd wiring
    by_cases opened : opens file mode = true
    · rw [if_pos opened,if_pos opened]
      by_cases zero : fd = 0
      · subst zero
        rw [redirect_input,if_pos rfl]
        exact ih redirects _ _ _
      · obtain rfl : fd = 1 := by omega
        rw [redirect_output,if_neg zero]
        exact ih redirects _ _ _
    · rw [if_neg opened,if_neg opened]
      rfl
  | list left right first second =>
    unfold runcmd wiring
    simp only [first redirects.1,second redirects.2,List.map_cons,List.map_append]
    rfl
  | pipe left right first second =>
    obtain ⟨made,made'⟩ := piped_made i o e n
    have leftTable : close 4 (close 3 (dup 4 (close 1 (piped i o e n)))) = standard i (.writeEnd n) e :=
      (child_table i o e n (by decide) (Function.update_self ..) (by decide)).trans (standard_output ..)
    have rightTable : close 4 (close 3 (dup 3 (close 0 (piped i o e n)))) = standard (.readEnd n) o e :=
      (child_table i o e n (by decide) ((Function.update_of_ne (by decide) ..).trans (Function.update_self ..))
          (by decide)).trans (standard_input ..)
    unfold runcmd wiring
    simp only [made,made',leftTable,rightTable,piped_closed,first redirects.1,second redirects.2,List.map_cons,List.map_append]
    rfl
  | back cmd ih => exact ih redirects i o n

-- No side has the wrong end, the pipes are among the first `n`, and nobody reads what he writes.
structure Ends (i o : Object Word) (n : Nat) : Prop where
  input : ∀ k, i ≠ .writeEnd k
  output : ∀ k, o ≠ .readEnd k
  reads : ∀ k, i = .readEnd k → k < n
  writes : ∀ k, o = .writeEnd k → k < n
  apart : ∀ k, i = .readEnd k → o ≠ .writeEnd k

theorem Ends.mono {m : Nat} (ends : Ends i o n) (more : n ≤ m) : Ends i o m :=
  ⟨ends.input,ends.output,fun k is => Nat.lt_of_lt_of_le (ends.reads k is) more,fun k is => Nat.lt_of_lt_of_le
      (ends.writes k is) more,ends.apart⟩

theorem wiring_ends (opens : Word → Nat → Bool) (cmd : Cmd Word) {i o : Object Word} {n : Nat} (ends : Ends i o n) :
    n ≤ (wiring opens cmd i o n).2 ∧ ∀ p ∈ (wiring opens cmd i o n).1,
    Ends p.input p.output (wiring opens cmd i o n).2 := by
  induction cmd generalizing i o n with
  | exec argv =>
    refine ⟨Nat.le_refl n,fun p member => ?_⟩
    unfold wiring at member
    split at member
    · exact absurd member List.not_mem_nil
    · obtain rfl := List.mem_singleton.mp member
      exact ends
  | redir cmd file mode fd ih =>
    unfold wiring
    split
    · split
      · refine ih ⟨?_,ends.output,?_,ends.writes,?_⟩ <;> exact fun k impossible => by cases impossible
      · refine ih ⟨ends.input,?_,ends.reads,?_,(fun k _ impossible => by cases impossible)⟩ <;> exact fun k impossible => by cases impossible
    · exact ⟨Nat.le_refl n,fun p member => absurd member List.not_mem_nil⟩
  | list left right first second =>
    obtain ⟨grown,sound⟩ := first ends
    obtain ⟨grown',sound'⟩ := second (ends.mono grown)
    unfold wiring
    refine ⟨Nat.le_trans grown grown',fun p member => ?_⟩
    rcases List.mem_cons.mp member with rfl | member
    · exact ends.mono (Nat.le_trans grown grown')
    · rcases List.mem_append.mp member with member | member
      · exact (sound p member).mono grown'
      · exact sound' p member
  | pipe left right first second =>
    have leftEnds : Ends i (.writeEnd n) (n+1) := by
      refine ⟨ends.input,(fun k impossible => by cases impossible),fun k is => Nat.lt_succ_of_lt (ends.reads k is),?_,?_⟩
      · rintro k ⟨⟩
        exact Nat.lt_succ_self n
      · rintro k is ⟨⟩
        exact absurd (ends.reads n is) (Nat.lt_irrefl n)
    obtain ⟨grown,sound⟩ := first leftEnds
    have rightEnds : Ends (.readEnd n) o (wiring opens left i (.writeEnd n) (n+1)).2 := by
      refine ⟨(fun k impossible => by cases impossible),ends.output,?_,fun k is => ?_,?_⟩
      · rintro k ⟨⟩
        exact grown
      · exact Nat.lt_of_lt_of_le (ends.writes k is) (Nat.le_of_succ_le grown)
      · rintro k ⟨⟩ is
        exact absurd (ends.writes n is) (Nat.lt_irrefl n)
    obtain ⟨grown',sound'⟩ := second rightEnds
    have all := Nat.le_trans (Nat.le_of_succ_le grown) grown'
    unfold wiring
    refine ⟨all,fun p member => ?_⟩
    rcases List.mem_cons.mp member with rfl | member
    · exact ends.mono all
    · rcases List.mem_append.mp member with member | member
      · exact (sound p member).mono grown'
      · exact sound' p member
  | back cmd ih => exact ih ends

theorem runcmd_derived (opens : Word → Nat → Bool) {ts : List (Token Word)} {cmd : Cmd Word}
    (derives : Derives .line ts cmd) :
    (runcmd opens cmd (standard .console .console .console) 0).1 = (wiring opens cmd .console .console 0).1.map
        (Wired.process .console) ∧
    ∀ p ∈ (runcmd opens cmd (standard .console .console .console) 0).1, (∀ fd, (p.table fd).isSome ↔ fd < 3) ∧
    p.table 2 = some .console ∧
      ∀ k, p.table 0 ≠ some (.writeEnd k) ∧ p.table 1 ≠ some (.readEnd k) ∧
      (p.table 0 = some (.readEnd k) → p.table 1 ≠ some (.writeEnd k)) := by
  have none : Ends (Object.console : Object Word) .console 0 := by
    refine ⟨?_,?_,?_,?_,?_⟩ <;> exact fun k impossible => by cases impossible
  have same := congrArg Prod.fst (runcmd_wiring opens (redirects_of_derives derives) .console .console .console 0)
  refine ⟨same,fun p member => ?_⟩
  rw [same] at member
  obtain ⟨wired,there,rfl⟩ := List.mem_map.mp member
  have ends := (wiring_ends opens cmd none).2 wired there
  refine ⟨fun fd => ⟨fun there => ?_,standard_low _ _ _⟩,rfl,fun k => ⟨fun is => ends.input k (Option.some.inj is),
      fun is => ends.output k (Option.some.inj is),
    fun is is' => ends.apart k (Option.some.inj is) (Option.some.inj is')⟩⟩
  by_contra high
  obtain ⟨rest,rfl⟩ := Nat.exists_eq_add_of_le (Nat.le_of_not_lt high)
  rw [Nat.add_comm] at there
  exact Bool.false_ne_true there

end Tables

-- A line that the shell has parsed: the processes are wired as its tree says, none of them
-- has a descriptor beside its three, and none reads a pipe that it writes to itself.
theorem runcmd_wires (line beyond : List DiskFormat.Byte) (clean : 0#8 ∉ line) (fuel : Nat)
    (enough : 4*line.length+4 ≤ fuel) {cmd : Cmd Shell.Span} {buf : List DiskFormat.Byte}
    (parsed : Shell.parsecmd fuel (line++0#8::beyond) = .ok (cmd,buf)) {tree : Cmd (List DiskFormat.Byte)}
    (is : cmd.map (fun word => Shell.cstring buf word.1) = tree) (opens : List DiskFormat.Byte → Nat → Bool) :
    (runcmd opens tree (standard .console .console .console) 0).1 = (wiring opens tree .console .console 0).1.map
        (Wired.process .console) ∧
    ∀ p ∈ (runcmd opens tree (standard .console .console .console) 0).1, (∀ fd, (p.table fd).isSome ↔ fd < 3) ∧
    p.table 2 = some .console ∧
      ∀ k, p.table 0 ≠ some (.writeEnd k) ∧ p.table 1 ≠ some (.readEnd k) ∧
      (p.table 0 = some (.readEnd k) → p.table 1 ≠ some (.writeEnd k)) := by
  have reads := Shell.parsecmd_reads beyond clean enough
  have parsed : Shell.parsecmd fuel (Shell.inBuffer line beyond) = .ok (cmd,buf) := parsed
  rw [parsed] at reads
  obtain ⟨ts,_,derives⟩ := reads
  have derives : Derives .line ts (cmd.map fun word => Shell.cstring buf word.1) := derives
  rw [is] at derives
  exact runcmd_derived opens derives

-- ls>out|wc: wc reads the pipe and writes to the console.
theorem runcmd_wires_ls : ∃ cmd buf, Shell.parsecmd 100 (Shell.lsLine++0#8::[Shell.chr 'x']) = .ok (cmd,buf) ∧
    cmd.map (fun word => Shell.cstring buf word.1) = Shell.lsTree ∧
    ∃ p ∈ (runcmd (fun _ _ => true) Shell.lsTree (standard .console .console .console) 0).1,
    p.work = .exec [['w','c'].map Shell.chr] ∧
      p.table 0 = some (.readEnd 0) ∧ p.table 1 = some .console ∧ p.table 4 = none := by
  obtain ⟨⟨cmd,buf⟩,ran,same⟩ := Runs.ok_such (x := Shell.parsecmd 100 (Shell.lsLine++0#8::[Shell.chr 'x']))
    (p := fun r => decide (r.1.map (fun word => Shell.cstring r.2 word.1) = Shell.lsTree)) (by decide +kernel)
  have is := of_decide_eq_true same
  obtain ⟨wired,_⟩ := runcmd_wires Shell.lsLine [Shell.chr 'x'] (by decide) 100 (by decide) ran is (fun _ _ => true)
  refine ⟨cmd,buf,ran,is,⟨.exec [['w','c'].map Shell.chr],standard (.readEnd 0) .console .console⟩,?_,rfl,rfl,rfl,rfl⟩
  rw [wired]
  exact .tail _ (.tail _ (.head _))

end ShellRun
