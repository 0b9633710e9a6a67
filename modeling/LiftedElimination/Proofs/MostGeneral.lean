import LiftedElimination.Proofs.Unifier
import LiftedElimination.Proofs.Comparison

/-!
# Most general unifiers

The unifier of two atoms makes them equal, and every other substitution that does goes through it.
Its run is a sequence of turns: an equation of equal sides is dropped, and one that has a solution is
bound.  No turn binds a source again, so a run is stuck at nothing but two distinct constants.

* `Turn`                     one turn of the run;
* `Turn.unify_eq`, `Turn.reduced`   a turn keeps the outcome, and the equations free of sources;
* `exists_turn`, `exists_clash`     a run fails at two distinct constants only;
* `Atom.mgu_most_general`    what the unifier of two atoms is.
-/

namespace LiftedElimination

open Relation

namespace Substitution

/-- the substitution makes functor and arguments of the atoms equal -/
def Unifies (sigma : Substitution) (a b : Atom) : Prop :=
  a.functor = b.functor ∧ a.terms.map sigma.apply = b.terms.map sigma.apply

/-- no source occurs in a target -/
def IsIdempotent (theta : Substitution) : Prop :=
  ∀ b ∈ theta.bindings, ∀ c ∈ theta.bindings, b.target ≠ .var c.source

theorem Reduced.isIdempotent {theta : Substitution} {eqs : List (Term × Term)}
    (h : theta.Reduced eqs) : theta.IsIdempotent := by
  intro b hb c hc htarget
  have hnone := h.targets b.source b.target (get?_eq_some.mpr hb) c.source htarget
  rw [get?_eq_some.mpr hc] at hnone
  cases hnone

end Substitution

/-! ## turns -/

/-- the equations that are left, and the bindings found so far -/
abbrev Unification := List (Term × Term) × Substitution

/-- one turn: an equation of equal sides is dropped, and the solution of another one is put into the
equations that are left and added to the bindings -/
inductive Turn : Unification → Unification → Prop where
  | drop {s : Term} {rest : List (Term × Term)} {theta : Substitution} :
      Turn ((s, s) :: rest, theta) (rest, theta)
  | bind {s t : Term} {rest : List (Term × Term)} {theta theta' : Substitution} {b : Binding} :
      s ≠ t → solve s t = some b → theta.extend b = .ok theta' →
      Turn ((s, t) :: rest, theta) (rest.map b.applyBoth, theta')

theorem Turn.unify_eq {x y : Unification} (h : Turn x y) : unify x.1 x.2 = unify y.1 y.2 := by
  cases h with
  | drop => rw [unify, if_pos rfl]
  | bind hne hs he =>
    rw [unify, if_neg hne]
    simp only [hs, he]
    rfl

theorem Turn.reduced {x y : Unification} (h : Turn x y) (hr : x.2.Reduced x.1) :
    y.2.Reduced y.1 := by
  cases h with
  | drop => exact hr.tail
  | bind hne hs he => exact (unifyStep hr hne hs he).reduced

theorem reduced_of_reached {x y : Unification} (h : ReflTransGen Turn x y)
    (hr : x.2.Reduced x.1) : y.2.Reduced y.1 := by
  induction h with
  | refl => exact hr
  | tail _ hturn ih => exact hturn.reduced ih

/-- a run goes on until no equation is left, or two distinct constants meet -/
theorem exists_turn (eqs : List (Term × Term)) {theta : Substitution} (hr : theta.Reduced eqs) :
    eqs = [] ∨ (∃ c d rest, c ≠ d ∧ eqs = (.const c, .const d) :: rest)
      ∨ ∃ y, Turn (eqs, theta) y := by
  cases eqs with
  | nil => exact .inl rfl
  | cons e rest =>
    obtain ⟨s, t⟩ := e
    by_cases hst : s = t
    · subst hst
      exact .inr (.inr ⟨_, .drop⟩)
    · cases hs : solve s t with
      | none =>
        obtain ⟨c, d, rfl, rfl⟩ := solve_eq_none hs
        exact .inr (.inl ⟨c, d, rest, fun h => hst (congrArg _ h), rfl⟩)
      | some b =>
        obtain ⟨theta', he⟩ := hr.exists_extend hs
        exact .inr (.inr ⟨_, .bind hst hs he⟩)

theorem Turn.length {x y : Unification} (h : Turn x y) : x.1.length = y.1.length + 1 := by
  cases h with
  | drop => rfl
  | bind => rw [List.length_cons, List.length_map]

/-- **A run fails at two distinct constants only.** -/
theorem exists_clash {x : Unification} (hr : x.2.Reduced x.1) (h : unify x.1 x.2 = none) :
    ∃ c d rest theta, c ≠ d ∧ ReflTransGen Turn x ((.const c, .const d) :: rest, theta) := by
  induction hn : x.1.length generalizing x with
  | zero =>
    rw [List.length_eq_zero_iff.mp hn, unify] at h
    cases h
  | succ n ih =>
    rcases exists_turn x.1 hr with hnil | ⟨c, d, rest, hcd, hclash⟩ | ⟨y, hturn⟩
    · rw [hnil] at hn
      cases hn
    · exact ⟨c, d, rest, x.2, hcd, hclash ▸ .refl⟩
    · have hlen : y.1.length = n := Nat.succ.inj (hturn.length.symm.trans hn)
      obtain ⟨c, d, rest, theta, hcd, hreach⟩ :=
        ih (hturn.reduced hr) (hturn.unify_eq ▸ h) hlen
      exact ⟨c, d, rest, theta, hcd, .head hturn hreach⟩

/-! ## unifiers of atoms -/

theorem unify_self (l : List Term) (theta : Substitution) : unify (l.zip l) theta = some theta := by
  induction l with
  | nil => rw [List.zip_nil_left, unify]
  | cons t l ih => rw [List.zip_cons_cons, unify, if_pos rfl, ih]

namespace Atom

variable {a b : Atom} {sigma theta : Substitution}

/-- the run on the arguments of the atoms gets there -/
def Reaches (a b : Atom) (x : Unification) : Prop :=
  ReflTransGen Turn (a.terms.zip b.terms, .identity) x

theorem mgu_self (a : Atom) : a.mgu a = some .identity := by
  rw [mgu, if_pos ⟨rfl, rfl⟩, unify_self]

/-- atoms that some substitution makes equal have a unifier, and the substitution goes through it -/
theorem exists_mgu_of_unifies (h : sigma.Unifies a b) :
    ∃ theta, a.mgu b = some theta ∧ ∀ t, sigma.apply (theta.apply t) = sigma.apply t :=
  mgu_of_map (fun _ _ h => Term.const.inj h) h.1 h.2

theorem mgu_eq_none_iff : a.mgu b = none ↔ ¬ ∃ sigma : Substitution, sigma.Unifies a b := by
  constructor
  · rintro hnone ⟨sigma, hsigma⟩
    obtain ⟨theta, hsome, -⟩ := exists_mgu_of_unifies hsigma
    cases hnone.symm.trans hsome
  · intro h
    cases hmgu : a.mgu b with
    | none => rfl
    | some theta => exact absurd ⟨theta, mgu_sound hmgu⟩ h

/-- why atoms have no unifier -/
theorem clash_of_mgu_eq_none (h : a.mgu b = none) : a.functor ≠ b.functor ∨ a.arity ≠ b.arity
    ∨ ∃ c d rest theta, c ≠ d ∧ a.Reaches b ((.const c, .const d) :: rest, theta) := by
  unfold mgu at h
  split at h
  · exact .inr (.inr (exists_clash (Substitution.reduced_identity (a.terms.zip b.terms)) h))
  · rename_i hne
    exact (not_and_or.mp hne).imp_right .inl

/-- **Most general unifiers.**  The atoms have a unifier where some substitution makes them equal; the
unifier is idempotent, and every substitution that makes them equal goes through it.  Wherever the
run on their arguments gets, the next binding is accepted, so it fails at two distinct constants
only.  An atom is unified with itself by doing nothing. -/
theorem mgu_most_general (a b : Atom) :
    (a.mgu b = none ↔ ¬ ∃ sigma : Substitution, sigma.Unifies a b)
      ∧ (∀ theta, a.mgu b = some theta → theta.Unifies a b ∧ theta.IsIdempotent
        ∧ ∀ sigma : Substitution, sigma.Unifies a b →
          ∀ t, sigma.apply (theta.apply t) = sigma.apply t)
      ∧ (∀ s t rest theta, a.Reaches b ((s, t) :: rest, theta) →
        ∀ c, solve s t = some c → ∃ theta', theta.extend c = .ok theta')
      ∧ (a.mgu b = none → a.functor ≠ b.functor ∨ a.arity ≠ b.arity
        ∨ ∃ c d rest theta, c ≠ d ∧ a.Reaches b ((.const c, .const d) :: rest, theta))
      ∧ a.mgu a = some .identity := by
  refine ⟨mgu_eq_none_iff, fun theta h => ⟨mgu_sound h, ?_, fun sigma hsigma => ?_⟩,
    fun s t rest theta h c hc => ?_, clash_of_mgu_eq_none, a.mgu_self⟩
  · obtain ⟨-, -, hr⟩ := unify_sound (Substitution.reduced_identity _) (mgu_eq_some h).2
    exact hr.isIdempotent
  · obtain ⟨theta', hsome, hthrough⟩ := exists_mgu_of_unifies hsigma
    obtain rfl := Option.some.inj (h.symm.trans hsome)
    exact hthrough
  · have hr := reduced_of_reached h (Substitution.reduced_identity (a.terms.zip b.terms))
    exact hr.exists_extend hc

end Atom

namespace Epidemic

def link (r s t : Term) : Atom := ⟨"link", [r, s, t], .boolean⟩

/-- in a chain of equations every variable is bound to the last term -/
theorem mgu_most_general_chain : ∃ theta,
    (link (.var person) (.var contact) (.var contact)).mgu
      (link (.var contact) (.var person) (.const ⟨"x1"⟩)) = some theta
    ∧ theta.bindings = [⟨person, .const ⟨"x1"⟩⟩, ⟨contact, .const ⟨"x1"⟩⟩] ∧ theta.IsIdempotent := by
  have hrun : ((link (.var person) (.var contact) (.var contact)).mgu
      (link (.var contact) (.var person) (.const ⟨"x1"⟩))).map Substitution.bindings
        = some [⟨person, .const ⟨"x1"⟩⟩, ⟨contact, .const ⟨"x1"⟩⟩] := by decide +kernel
  obtain ⟨theta, h, hbindings⟩ := Option.map_eq_some_iff.mp hrun
  have hmost := (Atom.mgu_most_general _ _).2.1 theta h
  exact ⟨theta, h, hbindings, hmost.2.1⟩

end Epidemic

end LiftedElimination
