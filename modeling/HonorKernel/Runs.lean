import Mathlib.Algebra.BigOperators.Fin
import Mathlib.Algebra.Order.BigOperators.Group.Finset

namespace Runs
variable {State Action : Type*}

instance twoNeZero : NeZero 2 := ⟨by decide⟩

-- A transition function is partial: `none` means that the action is not enabled.
-- `Guarded` collects the runs whose every step also meets `guard`.
inductive Guarded (next : State → Action → Option State) (guard : State → Action → Prop) (start : State) :
    State → Prop where
  | start : Guarded next guard start start
  | step : Guarded next guard start s → guard s a → next s a = some s' → Guarded next guard start s'

abbrev Reached (next : State → Action → Option State) (start : State) : State → Prop :=
  Guarded next (fun _ _ => True) start

variable {next : State → Action → Option State} {guard : State → Action → Prop} {start s s' : State}

theorem Guarded.reached (path : Guarded next guard start s) : Reached next start s := by
  induction path with
  | start => exact .start
  | step _ _ ran ih => exact .step ih trivial ran

theorem Guarded.imp {guard' : State → Action → Prop} (path : Guarded next guard start s)
    (holds : ∀ s a s', Guarded next guard start s → guard s a → next s a = some s' → guard' s a) :
    Guarded next guard' start s := by
  induction path with
  | start => exact .start
  | step path met ran ih => exact .step ih (holds _ _ _ path met ran) ran

theorem Guarded.invariant (path : Guarded next guard start s) (I : State → Prop) (base : I start)
    (keeps : ∀ s a s', I s → guard s a → next s a = some s' → I s') : I s := by
  induction path with
  | start => exact base
  | step _ met ran ih => exact keeps _ _ _ ih met ran

def exec (next : State → Action → Option State) : State → List Action → Option State
  | s,[] => some s
  | s,a::rest => (next s a).bind (exec next · rest)

theorem exec_always (path : Guarded next guard start s) (always : ∀ a ∈ actions, ∀ s, guard s a)
    (ran : exec next s actions = some s') :
    Guarded next guard start s' := by
  induction actions generalizing s with
  | nil => cases ran; exact path
  | cons a rest ih =>
    obtain ⟨middle,first,tail⟩ := Option.bind_eq_some_iff.mp ran
    exact ih (.step path (always a List.mem_cons_self s) first) (fun a member => always a (List.mem_cons_of_mem _ member)) tail

theorem exec_reached (path : Reached next start s) (ran : exec next s actions = some s') : Reached next start s' :=
  exec_always path (fun _ _ _ => trivial) ran

-- The same with every step tested first.
def execGuarded (next : State → Action → Option State) (guard : State → Action → Prop)
    [∀ s a, Decidable (guard s a)] : State → List Action → Option State
  | s,[] => some s
  | s,a::rest => if guard s a then (next s a).bind (execGuarded next guard · rest) else none

theorem exec_guarded [∀ s a, Decidable (guard s a)] (path : Guarded next guard start s)
    (ran : execGuarded next guard s actions = some s') : Guarded next guard start s' := by
  induction actions generalizing s with
  | nil => cases ran; exact path
  | cons a rest ih =>
    simp only [execGuarded] at ran
    split at ran
    · rename_i met
      obtain ⟨middle,first,tail⟩ := Option.bind_eq_some_iff.mp ran
      exact ih (.step path met first) tail
    · cases ran

-- Every action of the list finds its guard met where it runs.
def Meets (next : State → Action → Option State) (guard : State → Action → Prop) : State → List Action → Prop
  | _,[] => True
  | s,a::rest => guard s a ∧ ∀ s', next s a = some s' → Meets next guard s' rest

theorem meets_iff {guard' : State → Action → Prop} (path : Reached next start s) (ran : exec next s actions = some s')
    (agree : ∀ s a s', Reached next start s → next s a = some s' → (guard s a ↔ guard' s a)) :
    Meets next guard s actions ↔ Meets next guard' s actions := by
  induction actions generalizing s with
  | nil => rfl
  | cons a rest ih =>
    obtain ⟨middle,first,tail⟩ := Option.bind_eq_some_iff.mp ran
    have later := ih (.step path trivial first) tail
    constructor
    · rintro ⟨met,others⟩
      refine ⟨(agree _ _ _ path first).mp met,fun s' taken => ?_⟩
      cases first.symm.trans taken
      exact later.mp (others middle first)
    · rintro ⟨met,others⟩
      refine ⟨(agree _ _ _ path first).mpr met,fun s' taken => ?_⟩
      cases first.symm.trans taken
      exact later.mpr (others middle first)

theorem meets_always (always : ∀ a ∈ actions, ∀ s, guard s a) : Meets next guard s actions := by
  induction actions generalizing s with
  | nil => trivial
  | cons a rest ih =>
    exact ⟨always a List.mem_cons_self s,fun s' _ => ih fun a member => always a (List.mem_cons_of_mem _ member)⟩

theorem meets_append (met : Meets next guard s actions) (ran : exec next s actions = some s') :
    Meets next guard s (actions++more) ↔ Meets next guard s' more := by
  induction actions generalizing s with
  | nil => cases ran; rfl
  | cons a rest ih =>
    obtain ⟨middle,first,tail⟩ := Option.bind_eq_some_iff.mp ran
    refine (and_iff_right met.1).trans ⟨fun others => (ih (met.2 middle first) tail).mp (others middle first),fun last s' taken => ?_⟩
    cases first.symm.trans taken
    exact (ih (met.2 middle first) tail).mpr last

theorem exec_append (ran : exec next s actions = some s') : exec next s (actions++more) = exec next s' more := by
  induction actions generalizing s with
  | nil => cases ran; rfl
  | cons a rest ih =>
    obtain ⟨middle,first,tail⟩ := Option.bind_eq_some_iff.mp ran
    simp only [List.cons_append,exec,first,Option.bind_some]
    exact ih tail

variable {Part : Type*}

-- A quantity summed over a population of components, of which a step changes one.
def total (weight : Part → Nat) (parts : Fin n → Part) : Nat := ∑ i, weight (parts i)

theorem total_congr {weight : Part → Nat} {parts parts' : Fin n → Part}
    (same : ∀ i, weight (parts' i) = weight (parts i)) : total weight parts' = total weight parts :=
  Finset.sum_congr rfl fun i _ => same i

theorem total_update (weight : Part → Nat) (parts : Fin n → Part) (i : Fin n) (part : Part) :
    total weight (Function.update parts i part)+weight (parts i) = total weight parts+weight part := by
  have rest : ∀ f : Fin n → Part, (∀ j, j ≠ i → f j = parts j) →
      total weight f = weight (f i)+∑ j ∈ Finset.univ.erase i, weight (parts j) := by
    intro f same
    rw [total,← Finset.add_sum_erase _ _ (Finset.mem_univ i)]
    congr 1
    refine Finset.sum_congr rfl fun j member => ?_
    rw [same j (Finset.ne_of_mem_erase member)]
  rw [rest (Function.update parts i part) (fun j other => Function.update_of_ne other _ _),rest parts (fun _ _ => rfl),
    Function.update_self]
  omega

theorem le_total (weight : Part → Nat) (parts : Fin n → Part) (i : Fin n) : weight (parts i) ≤ total weight parts :=
  Finset.single_le_sum (f := fun j => weight (parts j)) (fun _ _ => Nat.zero_le _) (Finset.mem_univ i)

theorem total_le {weight bound : Part → Nat} {parts : Fin n → Part} (c : Nat)
    (each : ∀ i, weight (parts i) ≤ c*bound (parts i)) : total weight parts ≤ c*total bound parts := by
  rw [total,total,Finset.mul_sum]
  exact Finset.sum_le_sum fun i _ => each i

theorem total_zero {weight : Part → Nat} {parts : Fin n → Part} (none : ∀ i, weight (parts i) = 0) :
    total weight parts = 0 := Finset.sum_eq_zero fun i _ => none i

theorem add_le_total (weight : Part → Nat) (parts : Fin n → Part) {i j : Fin n} (different : i ≠ j) :
    weight (parts i)+weight (parts j) ≤ total weight parts :=
  Finset.add_le_sum (f := fun k => weight (parts k)) (fun _ _ => Nat.zero_le _) (Finset.mem_univ i) (Finset.mem_univ j) different

-- A fallible computation that ended well: what ran first, and what ran on its result.
theorem bind_ok {ε α β : Type} {x : Except ε α} {f : α → Except ε β} {r : β} :
    (x >>= f) = .ok r ↔ ∃ a, x = .ok a ∧ f a = .ok r := by
  cases x with
  | error e => simp [bind,Except.bind]
  | ok a => simp [bind,Except.bind]

theorem map_ok {ε α β : Type} {x : Except ε α} {f : α → β} {r : β} (ran : f <$> x = .ok r) :
    ∃ a, x = .ok a ∧ f a = r := by
  cases x with
  | error e => cases ran
  | ok a => exact ⟨a,rfl,Except.ok.inj ran⟩

-- A computation that does not end with `fault`, and whose result meets `post`.
def Avoids {ε α : Type} (fault : ε) (post : α → Prop) : Except ε α → Prop
  | .ok a => post a
  | .error e => e ≠ fault

def stopsWith {ε α : Type} [DecidableEq ε] (fault : ε) : Except ε α → Bool
  | .ok _ => false
  | .error e => decide (e = fault)

theorem stopsWith_iff {ε α : Type} [DecidableEq ε] {fault : ε} {x : Except ε α} :
    stopsWith fault x = true ↔ x = .error fault := by
  cases x with
  | error e => simp [stopsWith]
  | ok a => simp [stopsWith]

section avoids
variable {ε α β : Type} {fault : ε} {post post' : α → Prop} {last : β → Prop} {x : Except ε α}

theorem Avoids.bind {f : α → Except ε β} (first : Avoids fault post x) (rest : ∀ a, post a → Avoids fault last (f a)) :
    Avoids fault last (x >>= f) := by
  cases x with
  | error e => exact first
  | ok a => exact rest a first

theorem Avoids.map {f : α → β} (first : Avoids fault post x) (rest : ∀ a, post a → last (f a)) :
    Avoids fault last (f <$> x) := by
  cases x with
  | error e => exact first
  | ok a => exact rest a first

theorem Avoids.mono (first : Avoids fault post x) (weaker : ∀ a, post a → post' a) : Avoids fault post' x := by
  cases x with
  | error e => exact first
  | ok a => exact weaker a first

theorem Avoids.iff : Avoids fault post x ↔ x ≠ .error fault ∧ ∀ a, x = .ok a → post a := by
  cases x with
  | error e => simp [Avoids]
  | ok a => simp [Avoids]

end avoids

-- Two computations that fail together, or whose results are related by `R`.
def Agrees {ε α β : Type} (R : α → β → Prop) : Except ε α → Except ε β → Prop
  | .ok a,.ok b => R a b
  | .error _,.error _ => True
  | _,_ => False

section agrees
variable {ε α β γ δ : Type} {R : α → β → Prop} {S : γ → δ → Prop} {x : Except ε α} {y : Except ε β}

theorem Agrees.bind {f : α → Except ε γ} {g : β → Except ε δ} (first : Agrees R x y)
    (rest : ∀ a b, R a b → Agrees S (f a) (g b)) :
    Agrees S (x >>= f) (y >>= g) := by
  cases x with
  | error e => cases y with
    | error e' => trivial
    | ok b => exact first.elim
  | ok a => cases y with
    | error e' => exact first.elim
    | ok b => exact rest a b first

theorem Agrees.mono {R' : α → β → Prop} (first : Agrees R x y) (weaker : ∀ a b, R a b → R' a b) : Agrees R' x y := by
  cases x with
  | error e => cases y with
    | error e' => trivial
    | ok b => exact first.elim
  | ok a => cases y with
    | error e' => exact first.elim
    | ok b => exact weaker a b first

theorem Agrees.symm (agrees : Agrees R x y) : Agrees (fun b a => R a b) y x := by
  cases x with
  | error e => cases y with
    | error e' => trivial
    | ok b => exact agrees.elim
  | ok a => cases y with
    | error e' => exact agrees.elim
    | ok b => exact agrees

theorem Agrees.trans {T : α → γ → Prop} {U : β → γ → Prop} {z : Except ε γ} (first : Agrees R x y)
    (second : Agrees U y z) (join : ∀ a b c, R a b → U b c → T a c) : Agrees T x z := by
  cases x with
  | error e => cases y with
    | error e' => cases z with
      | error e'' => trivial
      | ok c => exact second.elim
    | ok b => exact first.elim
  | ok a => cases y with
    | error e' => exact first.elim
    | ok b => cases z with
      | error e'' => exact second.elim
      | ok c => exact join a b c first second

theorem Agrees.ok_left {a : α} (agrees : Agrees R (.ok a) y) : ∃ b, y = .ok b ∧ R a b := by
  cases y with
  | error e => exact agrees.elim
  | ok b => exact ⟨b,rfl,agrees⟩

theorem Agrees.ok_right {b : β} (agrees : Agrees R x (.ok b)) : ∃ a, x = .ok a ∧ R a b := by
  cases x with
  | error e => exact agrees.elim
  | ok a => exact ⟨a,rfl,agrees⟩

end agrees

-- for (usize i = start; i < start + count; i++)
def upTo {ε σ : Type} (body : Nat → σ → Except ε σ) : Nat → Nat → σ → Except ε σ
  | 0,_,s => .ok s
  | count+1,i,s => do
    let s ← body i s
    upTo body count (i+1) s

theorem upTo_invariant {ε σ : Type} {body : Nat → σ → Except ε σ} (I : Nat → σ → Prop) (count i : Nat) {s s' : σ}
    (start : I i s) (keeps : ∀ j t t', i ≤ j → j < i+count → I j t → body j t = .ok t' → I (j+1) t')
    (ran : upTo body count i s = .ok s') : I (i+count) s' := by
  induction count generalizing i s with
  | zero => cases ran; exact start
  | succ count ih =>
    obtain ⟨middle,first,rest⟩ := bind_ok.mp ran
    have next := keeps i s middle (Nat.le_refl i) (by omega) start first
    have last := ih (i+1) next (fun j t t' lower upper => keeps j t t' (by omega) (by omega)) rest
    rwa [Nat.add_assoc,Nat.add_comm 1 count] at last

theorem upTo_avoids {ε σ : Type} {fault : ε} {body : Nat → σ → Except ε σ} (I : σ → Prop) (count i : Nat) {s : σ}
    (start : I s) (keeps : ∀ j t, i ≤ j → j < i+count → I t → Avoids fault I (body j t)) :
    Avoids fault I (upTo body count i s) := by
  induction count generalizing i s with
  | zero => exact start
  | succ count ih =>
    refine Avoids.bind (keeps i s (Nat.le_refl i) (by omega) start) fun middle between => ?_
    exact ih (i+1) between fun j t lower upper => keeps j t (by omega) (by omega)

theorem toOption_some {ε α : Type} {x : Except ε α} {a : α} (some : x.toOption = .some a) : x = .ok a := by
  cases x with
  | error e => cases some
  | ok b => cases some; rfl

theorem ok_such {ε α : Type} {x : Except ε α} {p : α → Bool}
    (passes : (match x with | .ok a => p a | .error _ => false) = true) : ∃ a, x = .ok a ∧ p a = true := by
  cases x with
  | error e => cases passes
  | ok a => exact ⟨a,rfl,passes⟩

theorem some_such {α : Type} {x : Option α} {p : α → Bool} (passes : x.any p = true) :
    ∃ a, x = some a ∧ p a = true := by
  cases x with
  | none => cases passes
  | some a => exact ⟨a,rfl,passes⟩

end Runs
