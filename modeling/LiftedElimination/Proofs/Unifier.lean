import LiftedElimination.Proofs.Valuation

/-!
# Unifiers

`unify` solves its equations one by one.  Between two steps no source of the substitution occurs in
an equation that is left or in a target (`Reduced`); every statement below is an induction on the
run from there.

* `Reduced.extend`   so it is again once the next equation is solved;
* `unify_sound`      the unifier makes the two sides of every equation equal;
* `unify_complete`   if some map that keeps constants apart makes the two sides equal, there is a
                     unifier, and the map does not change under it;
* `unify_populations`   bindings between variables stay inside one population, if the equations do;
* `Atom.mgu_sound`, `Atom.mgu_complete`, `Atom.mgu_populations`   the same for two atoms.
-/

namespace LiftedElimination

namespace Substitution

/-- `t` is no source of `theta` -/
def Free (theta : Substitution) (t : Term) : Prop := ∀ x, t = .var x → theta.get? x = none

theorem apply_of_free {theta : Substitution} {t : Term} (h : theta.Free t) : theta.apply t = t := by
  cases t with
  | const c => rfl
  | var x => exact apply_of_get?_none (h x rfl)

/-- no source of `theta` occurs in the equations or in a target -/
structure Reduced (theta : Substitution) (eqs : List (Term × Term)) : Prop where
  eqs : ∀ e ∈ eqs, theta.Free e.1 ∧ theta.Free e.2
  targets : ∀ x t, theta.get? x = some t → theta.Free t

theorem reduced_identity (eqs : List (Term × Term)) : identity.Reduced eqs where
  eqs _ _ := ⟨fun _ _ => rfl, fun _ _ => rfl⟩
  targets _ _ h := nomatch h

theorem Reduced.tail {theta : Substitution} {e : Term × Term} {eqs : List (Term × Term)}
    (h : theta.Reduced (e :: eqs)) : theta.Reduced eqs where
  eqs d hd := h.eqs d (List.mem_cons_of_mem _ hd)
  targets := h.targets

theorem Reduced.apply_apply {theta : Substitution} {eqs : List (Term × Term)}
    (h : theta.Reduced eqs) (t : Term) : theta.apply (theta.apply t) = theta.apply t := by
  refine apply_of_free ?_
  cases t with
  | const c => exact nofun
  | var x =>
    cases hx : theta.get? x with
    | none =>
      rw [apply_of_get?_none hx]
      intro y hy
      cases hy
      exact hx
    | some u =>
      rw [show theta.apply (.var x) = u from apply_of_mem (get?_eq_some.mp hx)]
      exact h.targets x u hx

/-! ## one step -/

theorem get?_mapTargets (theta : Substitution) (f : Term → Term) (x : LogVar) :
    (theta.mapTargets f).get? x = (theta.get? x).map f := by
  cases hx : theta.get? x with
  | none =>
    refine get?_eq_none.mpr fun t ht => ?_
    obtain ⟨b, hb, hbx⟩ := List.mem_map.mp ht
    have hsource : b.source = x := congrArg Binding.source hbx
    exact get?_eq_none.mp hx b.target (hsource ▸ hb)
  | some t =>
    exact get?_eq_some.mpr (List.mem_map.mpr ⟨⟨x, t⟩, get?_eq_some.mp hx, rfl⟩)

theorem get?_extend {theta theta' : Substitution} {b : Binding} (h : theta.extend b = .ok theta')
    (x : LogVar) : theta'.get? x
      = if x = b.source then some b.target else (theta.get? x).map (single b).apply := by
  rw [get?_bind h, get?_mapTargets]

theorem exists_extend {theta : Substitution} {b : Binding} (h : theta.get? b.source = none) :
    ∃ theta', theta.extend b = .ok theta' := by
  cases he : theta.extend b with
  | ok theta' => exact ⟨theta', rfl⟩
  | error e =>
    obtain ⟨t, ht⟩ := bind_eq_error he
    have hs := get?_eq_some.mpr ht
    rw [get?_mapTargets, h] at hs
    cases hs

theorem apply_extend {theta theta' : Substitution} {b : Binding}
    (hb : theta.get? b.source = none) (h : theta.extend b = .ok theta') (t : Term) :
    theta'.apply t = (single b).apply (theta.apply t) := by
  cases t with
  | const c => rfl
  | var x =>
    show (theta'.get? x).getD (.var x) = _
    rw [get?_extend h]
    by_cases hx : x = b.source
    · rw [if_pos hx, hx, apply_of_get?_none hb]
      exact (apply_single_self b.source b.target).symm
    · rw [if_neg hx]
      cases hg : theta.get? x with
      | none => rw [apply_of_get?_none hg, apply_single_ne hx]; rfl
      | some u => rw [show theta.apply (.var x) = u from apply_of_mem (get?_eq_some.mp hg)]; rfl

end Substitution

/-- the solved equation as a binding, with the variable on either side -/
theorem solve_eq_some {s t : Term} {b : Binding} (h : solve s t = some b) :
    (t = .var b.source ∧ s = b.target) ∨ (s = .var b.source ∧ t = b.target) := by
  cases t with
  | var y =>
    cases s <;> cases h <;> exact .inl ⟨rfl, rfl⟩
  | const c =>
    cases s <;> cases h
    exact .inr ⟨rfl, rfl⟩

theorem solve_eq_none {s t : Term} (h : solve s t = none) :
    ∃ c d, s = .const c ∧ t = .const d := by
  cases s <;> cases t <;> first
    | exact ⟨_, _, rfl, rfl⟩
    | cases h

/-- the solution of the next equation can be added to the bindings -/
theorem Substitution.Reduced.exists_extend {s t : Term} {rest : List (Term × Term)}
    {theta : Substitution} (hr : theta.Reduced ((s, t) :: rest)) {b : Binding}
    (hs : solve s t = some b) : ∃ theta', theta.extend b = .ok theta' := by
  obtain ⟨hfs, hft⟩ := hr.eqs _ List.mem_cons_self
  rcases solve_eq_some hs with ⟨ht, -⟩ | ⟨hs, -⟩
  · exact Substitution.exists_extend (hft _ ht)
  · exact Substitution.exists_extend (hfs _ hs)

/-- both sides of an equation under a binding -/
def Binding.applyBoth (b : Binding) (e : Term × Term) : Term × Term :=
  ((Substitution.single b).apply e.1, (Substitution.single b).apply e.2)

/-- a term without sources has none after an extension, once the new binding is applied to it -/
theorem Substitution.Free.extend {theta theta' : Substitution} {b : Binding} {u : Term}
    (hu : theta.Free u) (hb : theta.Free b.target) (hne : b.target ≠ .var b.source)
    (h : theta.extend b = .ok theta') : theta'.Free ((Substitution.single b).apply u) := by
  intro x hx
  rw [Substitution.get?_extend h]
  rcases Substitution.apply_single_eq_var.mp hx with ⟨rfl, hxb⟩ | ⟨-, ht⟩
  · rw [if_neg hxb, hu x rfl]
    rfl
  · rw [if_neg fun heq : x = b.source => hne (heq ▸ ht), hb x ht]
    rfl

/-- the equations that are left and the targets have no sources after the extension, either -/
theorem Substitution.Reduced.extend {theta theta' : Substitution} {b : Binding} {e : Term × Term}
    {rest : List (Term × Term)} (hr : theta.Reduced (e :: rest)) (hb : theta.Free b.target)
    (hne : b.target ≠ .var b.source) (h : theta.extend b = .ok theta') :
    theta'.Reduced (rest.map b.applyBoth) where
  eqs d hd := by
    obtain ⟨c, hc, rfl⟩ := List.mem_map.mp hd
    obtain ⟨h1, h2⟩ := hr.eqs c (List.mem_cons_of_mem _ hc)
    exact ⟨h1.extend hb hne h, h2.extend hb hne h⟩
  targets x u hx := by
    rw [Substitution.get?_extend h] at hx
    split at hx
    · cases hx
      have hself : (Substitution.single b).apply b.target = b.target := by
        cases ht : b.target with
        | const c => rfl
        | var y => exact Substitution.apply_single_ne fun hy => hne (ht.trans (hy ▸ rfl))
      rw [← hself]
      exact hb.extend hb hne h
    · obtain ⟨v, hv, rfl⟩ := Option.map_eq_some_iff.mp hx
      exact (hr.targets x v hv).extend hb hne h

/-- what a step of `unify` finds before and leaves behind -/
structure UnifyStep (s t : Term) (rest : List (Term × Term)) (theta theta' : Substitution)
    (b : Binding) : Prop where
  sides : (t = .var b.source ∧ s = b.target) ∨ (s = .var b.source ∧ t = b.target)
  target_ne : b.target ≠ .var b.source
  source_free : theta.get? b.source = none
  target_free : theta.Free b.target
  get? : ∀ x, theta'.get? x
    = if x = b.source then some b.target else (theta.get? x).map (Substitution.single b).apply
  apply : ∀ u, theta'.apply u = (Substitution.single b).apply (theta.apply u)
  reduced : theta'.Reduced (rest.map (b.applyBoth))

theorem unifyStep {s t : Term} {rest : List (Term × Term)} {theta theta' : Substitution}
    {b : Binding} (hr : theta.Reduced ((s, t) :: rest)) (hne : s ≠ t) (hs : solve s t = some b)
    (he : theta.extend b = .ok theta') : UnifyStep s t rest theta theta' b := by
  have hcases := solve_eq_some hs
  obtain ⟨hfs, hft⟩ := hr.eqs _ List.mem_cons_self
  have htarget : b.target ≠ .var b.source := by
    rcases hcases with ⟨ht, hs⟩ | ⟨hs, ht⟩
    · exact fun h => hne (hs.trans (h.trans ht.symm))
    · exact fun h => hne (hs.trans (h.symm.trans ht.symm))
  have hsource : theta.get? b.source = none := by
    rcases hcases with ⟨ht, -⟩ | ⟨hs, -⟩
    · exact hft _ ht
    · exact hfs _ hs
  have hfree : theta.Free b.target := by
    rcases hcases with ⟨-, hs⟩ | ⟨-, ht⟩
    · exact hs ▸ hfs
    · exact ht ▸ hft
  exact ⟨hcases, htarget, hsource, hfree, Substitution.get?_extend he,
    Substitution.apply_extend hsource he, hr.extend hfree htarget he⟩

/-! ## whole runs -/

/-- induction over a run of `unify` from a reduced substitution -/
theorem unify_induct {P : List (Term × Term) → Substitution → Option Substitution → Prop}
    (hnil : ∀ theta : Substitution, theta.Reduced [] → P [] theta (some theta))
    (hsame : ∀ s rest theta, theta.Reduced ((s, s) :: rest) → P rest theta (unify rest theta) →
      P ((s, s) :: rest) theta (unify rest theta))
    (hclash : ∀ c d rest theta, c ≠ d → P ((.const c, .const d) :: rest) theta none)
    (hstep : ∀ s t rest theta theta' b, theta.Reduced ((s, t) :: rest) →
      UnifyStep s t rest theta theta' b →
      P (rest.map b.applyBoth) theta' (unify (rest.map b.applyBoth) theta') →
      P ((s, t) :: rest) theta (unify (rest.map b.applyBoth) theta')) :
    ∀ (eqs : List (Term × Term)) (theta : Substitution), theta.Reduced eqs →
      P eqs theta (unify eqs theta) := by
  intro eqs
  induction hn : eqs.length generalizing eqs with
  | zero =>
    intro theta hr
    obtain rfl := List.length_eq_zero_iff.mp hn
    rw [unify]
    exact hnil theta hr
  | succ n ih =>
    intro theta hr
    obtain ⟨⟨s, t⟩, rest, rfl⟩ := List.exists_cons_of_length_eq_add_one hn
    have hlen : rest.length = n := Nat.succ.inj hn
    rw [unify]
    split
    · rename_i hst
      subst hst
      exact hsame s rest theta hr (ih rest hlen theta hr.tail)
    · rename_i hne
      split
      · rename_i hs
        obtain ⟨c, d, rfl, rfl⟩ := solve_eq_none hs
        exact hclash c d rest theta fun h => hne (congrArg _ h)
      · rename_i b hs
        split
        · rename_i he
          obtain ⟨theta', hok⟩ := hr.exists_extend hs
          rw [hok] at he
          cases he
        · rename_i theta' he
          have st := unifyStep hr hne hs he
          refine hstep s t rest theta theta' b hr st (ih _ ?_ theta' st.reduced)
          rw [List.length_map, hlen]

/-- the unifier solves the equations and goes on from the substitution it started with -/
theorem unify_sound {eqs : List (Term × Term)} {theta sigma : Substitution}
    (hr : theta.Reduced eqs) (h : unify eqs theta = some sigma) :
    (∀ e ∈ eqs, sigma.apply e.1 = sigma.apply e.2)
      ∧ (∀ t, sigma.apply (theta.apply t) = sigma.apply t) ∧ sigma.Reduced [] := by
  revert sigma
  refine unify_induct (P := fun eqs theta out => ∀ {sigma : Substitution}, out = some sigma →
    (∀ e ∈ eqs, sigma.apply e.1 = sigma.apply e.2)
      ∧ (∀ t, sigma.apply (theta.apply t) = sigma.apply t) ∧ sigma.Reduced [])
    ?_ ?_ ?_ ?_ eqs theta hr
  · intro theta hr sigma h
    cases h
    exact ⟨fun e he => absurd he List.not_mem_nil, hr.apply_apply, hr⟩
  · intro s rest theta _ ih sigma h
    obtain ⟨h1, h2, h3⟩ := ih h
    refine ⟨fun e he => ?_, h2, h3⟩
    rcases List.mem_cons.mp he with rfl | he
    · rfl
    · exact h1 e he
  · intro c d rest theta _ sigma h
    cases h
  · intro s t rest theta theta' b hr st ih sigma h
    obtain ⟨h1, h2, h3⟩ := ih h
    -- terms of the equations are the same for the unifier before and after the new binding
    have hkeep : ∀ u, theta.Free u →
        sigma.apply ((Substitution.single b).apply u) = sigma.apply u := fun u hu => by
      rw [← h2 u, st.apply, Substitution.apply_of_free hu]
    have hb : sigma.apply (.var b.source) = sigma.apply b.target := by
      have hfree : theta.Free (.var b.source) := fun x hx => by
        cases hx
        exact st.source_free
      rw [← hkeep _ hfree, Substitution.apply_single_self]
    refine ⟨fun e he => ?_, fun u => ?_, h3⟩
    · rcases List.mem_cons.mp he with rfl | he
      · rcases st.sides with ⟨ht, hs⟩ | ⟨hs, ht⟩
        · rw [hs, ht, hb]
        · rw [hs, ht, hb]
      · obtain ⟨hf1, hf2⟩ := hr.eqs e (List.mem_cons_of_mem _ he)
        rw [← hkeep _ hf1, ← hkeep _ hf2]
        exact h1 _ (List.mem_map_of_mem he)
    · rw [← h2 (theta.apply u), st.apply, hr.apply_apply, ← st.apply, h2]

/-- a map that solves the equations, keeps constants apart and does not change under `theta` is
matched by a unifier, and does not change under it either -/
theorem unify_complete {D : Type} {h : Term → D}
    (hconst : ∀ c d, h (.const c) = h (.const d) → c = d) {eqs : List (Term × Term)}
    {theta : Substitution} (hr : theta.Reduced eqs) (heqs : ∀ e ∈ eqs, h e.1 = h e.2)
    (htheta : ∀ t, h (theta.apply t) = h t) :
    ∃ sigma, unify eqs theta = some sigma ∧ ∀ t, h (sigma.apply t) = h t := by
  revert heqs htheta
  refine unify_induct (P := fun eqs theta out => (∀ e ∈ eqs, h e.1 = h e.2) →
    (∀ t, h (theta.apply t) = h t) → ∃ sigma, out = some sigma ∧ ∀ t, h (sigma.apply t) = h t)
    ?_ ?_ ?_ ?_ eqs theta hr
  · exact fun theta _ _ htheta => ⟨theta, rfl, htheta⟩
  · exact fun s rest theta _ ih heqs htheta =>
      ih (fun e he => heqs e (List.mem_cons_of_mem _ he)) htheta
  · exact fun c d rest theta hcd heqs _ =>
      absurd (hconst c d (heqs _ List.mem_cons_self)) hcd
  · intro s t rest theta theta' b hr st ih heqs htheta
    have hb : h (.var b.source) = h b.target := by
      have hhead : h s = h t := heqs _ List.mem_cons_self
      rcases st.sides with ⟨ht, hs⟩ | ⟨hs, ht⟩
      · rw [← hs, ← ht, hhead]
      · rw [← hs, ← ht, hhead]
    have hsingle : ∀ u, h ((Substitution.single b).apply u) = h u := fun u => by
      cases u with
      | const c => rfl
      | var x =>
        by_cases hx : x = b.source
        · rw [hx, Substitution.apply_single_self, hb]
        · rw [Substitution.apply_single_ne hx]
    refine ih (fun e he => ?_) fun u => ?_
    · obtain ⟨d, hd, rfl⟩ := List.mem_map.mp he
      show h ((Substitution.single b).apply d.1) = h ((Substitution.single b).apply d.2)
      rw [hsingle, hsingle]
      exact heqs d (List.mem_cons_of_mem _ hd)
    · rw [st.apply, hsingle, htheta]

/-- the sources of a unifier occur in the equations -/
theorem mem_of_unify {eqs : List (Term × Term)} {theta sigma : Substitution}
    (hr : theta.Reduced eqs) (h : unify eqs theta = some sigma) {x : LogVar}
    (hx : (sigma.get? x).isSome) :
    (theta.get? x).isSome ∨ ∃ e ∈ eqs, e.1 = .var x ∨ e.2 = .var x := by
  revert sigma
  refine unify_induct (P := fun eqs theta out => ∀ {sigma : Substitution}, out = some sigma →
    (sigma.get? x).isSome → (theta.get? x).isSome ∨ ∃ e ∈ eqs, e.1 = .var x ∨ e.2 = .var x)
    ?_ ?_ ?_ ?_ eqs theta hr
  · intro theta _ sigma h hx
    cases h
    exact .inl hx
  · exact fun s rest theta _ ih sigma h hx =>
      (ih h hx).imp_right fun ⟨e, he, hex⟩ => ⟨e, List.mem_cons_of_mem _ he, hex⟩
  · intro c d rest theta _ sigma h
    cases h
  · intro s t rest theta theta' b _ st ih sigma h hx
    have hhead : b.source = x ∨ b.target = .var x →
        ∃ e ∈ (s, t) :: rest, e.1 = .var x ∨ e.2 = .var x := by
      intro hy
      refine ⟨(s, t), List.mem_cons_self, ?_⟩
      rcases st.sides with ⟨ht, hs⟩ | ⟨hs, ht⟩ <;> rcases hy with rfl | hy
      · exact .inr ht
      · exact .inl (hs.trans hy)
      · exact .inl hs
      · exact .inr (ht.trans hy)
    rcases ih h hx with hx' | ⟨e, he, hex⟩
    · rw [st.get?] at hx'
      split at hx'
      · rename_i hsource
        exact .inr (hhead (.inl hsource.symm))
      · rw [Option.isSome_map] at hx'
        exact .inl hx'
    · obtain ⟨d, hd, rfl⟩ := List.mem_map.mp he
      rcases hex with hex | hex <;>
        rcases Substitution.apply_single_eq_var.mp hex with ⟨hdx, -⟩ | ⟨-, htarget⟩
      · exact .inr ⟨d, List.mem_cons_of_mem _ hd, .inl hdx⟩
      · exact .inr (hhead (.inr htarget))
      · exact .inr ⟨d, List.mem_cons_of_mem _ hd, .inr hdx⟩
      · exact .inr (hhead (.inr htarget))

/-! ## populations -/

/-- if both are variables, they have one population -/
def SamePopulation (s t : Term) : Prop :=
  ∀ x y, s = .var x → t = .var y → x.population = y.population

theorem SamePopulation.symm {s t : Term} (h : SamePopulation s t) : SamePopulation t s :=
  fun x y hx hy => (h y x hy hx).symm

/-- a binding within one population -/
theorem SamePopulation.single {b : Binding}
    (hb : ∀ y, b.target = .var y → b.source.population = y.population) {s t : Term}
    (h : SamePopulation s t) : SamePopulation s ((Substitution.single b).apply t) := by
  intro x y hx hy
  rcases Substitution.apply_single_eq_var.mp hy with ⟨ht, -⟩ | ⟨ht, htarget⟩
  · exact h x y hx ht
  · exact (h x b.source hx ht).trans (hb y htarget)

theorem UnifyStep.population {s t : Term} {rest : List (Term × Term)} {theta theta' : Substitution}
    {b : Binding} (st : UnifyStep s t rest theta theta' b) (h : SamePopulation s t) :
    ∀ y, b.target = .var y → b.source.population = y.population := by
  intro y hy
  rcases st.sides with ⟨ht, hs⟩ | ⟨hs, ht⟩
  · exact (h y _ (hs.trans hy) ht).symm
  · exact h _ y hs (ht.trans hy)

theorem unify_populations {eqs : List (Term × Term)} {theta sigma : Substitution}
    (hr : theta.Reduced eqs) (h : unify eqs theta = some sigma)
    (heqs : ∀ e ∈ eqs, SamePopulation e.1 e.2)
    (htheta : ∀ x t, theta.get? x = some t → SamePopulation (.var x) t) :
    ∀ x t, sigma.get? x = some t → SamePopulation (.var x) t := by
  revert sigma heqs htheta
  refine unify_induct (P := fun eqs theta out => ∀ {sigma : Substitution}, out = some sigma →
    (∀ e ∈ eqs, SamePopulation e.1 e.2) →
    (∀ x t, theta.get? x = some t → SamePopulation (.var x) t) →
    ∀ x t, sigma.get? x = some t → SamePopulation (.var x) t) ?_ ?_ ?_ ?_ eqs theta hr
  · intro theta _ sigma h _ htheta
    cases h
    exact htheta
  · exact fun s rest theta _ ih sigma h heqs htheta =>
      ih h (fun e he => heqs e (List.mem_cons_of_mem _ he)) htheta
  · intro c d rest theta _ sigma h
    cases h
  · intro s t rest theta theta' b _ st ih sigma h heqs htheta
    have hb := st.population (heqs _ List.mem_cons_self)
    refine ih h (fun e he => ?_) fun y v hy => ?_
    · obtain ⟨d, hd, rfl⟩ := List.mem_map.mp he
      have hd := heqs d (List.mem_cons_of_mem _ hd)
      exact (hd.single hb).symm.single hb |>.symm
    · rw [st.get?] at hy
      split at hy
      · rename_i hsource
        cases hy
        intro y' z hy' hz
        cases hy'
        rw [hsource]
        exact hb z hz
      · obtain ⟨w, hw, rfl⟩ := Option.map_eq_some_iff.mp hy
        exact (htheta y w hw).single hb

/-! ## atoms -/

/-- a population for every argument position of every functor -/
abbrev Signature := String → Nat → Population

namespace Atom

/-- the variables of the atom have the populations of their positions -/
def IsOver (sig : Signature) (a : Atom) : Prop :=
  ∀ i x, a.terms[i]? = some (.var x) → x.population = sig a.functor i

theorem samePopulation_zip {sig : Signature} {a b : Atom} (ha : a.IsOver sig) (hb : b.IsOver sig)
    (hf : a.functor = b.functor) : ∀ e ∈ a.terms.zip b.terms, SamePopulation e.1 e.2 := by
  intro e he x y hx hy
  obtain ⟨i, hi⟩ := List.mem_iff_getElem?.mp he
  obtain ⟨h1, h2⟩ := List.getElem?_zip_eq_some.mp hi
  rw [ha i x (hx ▸ h1), hb i y (hy ▸ h2), hf]

theorem mgu_eq_some {a b : Atom} {theta : Substitution} (h : a.mgu b = some theta) :
    (a.functor = b.functor ∧ a.terms.length = b.terms.length)
      ∧ unify (a.terms.zip b.terms) .identity = some theta := by
  unfold mgu at h
  split at h
  · exact ⟨‹_›, h⟩
  · cases h

/-- the unifier makes the atoms equal -/
theorem mgu_sound {a b : Atom} {theta : Substitution} (h : a.mgu b = some theta) :
    a.functor = b.functor ∧ a.terms.map theta.apply = b.terms.map theta.apply := by
  obtain ⟨⟨hf, hl⟩, hu⟩ := mgu_eq_some h
  obtain ⟨heqs, -⟩ := unify_sound (Substitution.reduced_identity _) hu
  refine ⟨hf, List.ext_getElem? fun i => ?_⟩
  rw [List.getElem?_map, List.getElem?_map]
  by_cases hi : i < a.terms.length
  · have hib : i < b.terms.length := hl ▸ hi
    rw [List.getElem?_eq_getElem hi, List.getElem?_eq_getElem hib]
    refine congrArg some (heqs (a.terms[i], b.terms[i]) (List.mem_iff_getElem?.mpr ⟨i, ?_⟩))
    exact List.getElem?_zip_eq_some.mpr
      ⟨List.getElem?_eq_getElem hi, List.getElem?_eq_getElem hib⟩
  · have hib : ¬ i < b.terms.length := hl ▸ hi
    rw [List.getElem?_eq_none (Nat.le_of_not_lt hi), List.getElem?_eq_none (Nat.le_of_not_lt hib)]

/-- a map of the terms that keeps constants apart and makes the atoms equal does not change under the
unifier -/
theorem mgu_of_map {D : Type} {h : Term → D} (hconst : ∀ c d, h (.const c) = h (.const d) → c = d)
    {a b : Atom} (hf : a.functor = b.functor) (hargs : a.terms.map h = b.terms.map h) :
    ∃ theta, a.mgu b = some theta ∧ ∀ t, h (theta.apply t) = h t := by
  have hl : a.terms.length = b.terms.length := by
    have hlen := congrArg List.length hargs
    rwa [List.length_map, List.length_map] at hlen
  have heqs : ∀ e ∈ a.terms.zip b.terms, h e.1 = h e.2 := by
    intro e he
    obtain ⟨i, hi⟩ := List.mem_iff_getElem?.mp he
    obtain ⟨h1, h2⟩ := List.getElem?_zip_eq_some.mp hi
    have hi := congrArg (·[i]?) hargs
    rw [List.getElem?_map, List.getElem?_map, h1, h2] at hi
    exact Option.some.inj hi
  obtain ⟨theta, hu, ht⟩ := unify_complete hconst
    (Substitution.reduced_identity _) heqs fun t => by rw [Substitution.apply_identity]
  exact ⟨theta, by rw [mgu, if_pos ⟨hf, hl⟩, hu], ht⟩

/-- a common ground instance is an instance of the unified atom -/
theorem mgu_complete {a b : Atom} {γ : Valuation} (h : a.ground γ = b.ground γ) :
    ∃ theta, a.mgu b = some theta ∧ theta.pull γ = γ := by
  obtain ⟨theta, hmgu, ht⟩ := mgu_of_map (h := Term.eval γ) (fun _ _ h => h)
    (congrArg GroundAtom.functor h) (congrArg GroundAtom.args h)
  exact ⟨theta, hmgu, funext fun x => ht (.var x)⟩

theorem mgu_populations {sig : Signature} {a b : Atom} {theta : Substitution}
    (h : a.mgu b = some theta) (ha : a.IsOver sig) (hb : b.IsOver sig) :
    ∀ x t, theta.get? x = some t → SamePopulation (.var x) t := by
  obtain ⟨⟨hf, -⟩, hu⟩ := mgu_eq_some h
  exact unify_populations (Substitution.reduced_identity _) hu (samePopulation_zip ha hb hf)
    fun x t ht => nomatch ht

/-- only variables of the atoms are bound -/
theorem mem_of_mgu {a b : Atom} {theta : Substitution} (h : a.mgu b = some theta) {x : LogVar}
    (hx : (theta.get? x).isSome) : x ∈ a.variables ∨ x ∈ b.variables := by
  rcases mem_of_unify (Substitution.reduced_identity _) (mgu_eq_some h).2 hx
    with hid | ⟨e, he, hex | hex⟩
  · cases hid
  · exact .inl (mem_variables.mpr (hex ▸ (List.of_mem_zip (show (e.1, e.2) ∈ _ from he)).1))
  · exact .inr (mem_variables.mpr (hex ▸ (List.of_mem_zip (show (e.1, e.2) ∈ _ from he)).2))

end Atom

end LiftedElimination
