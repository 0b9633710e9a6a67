import LiftedElimination.Proofs.Halting
import LiftedElimination.Proofs.Alignment

/-!
# What the operations hand down

The operations of the engine are made of a few steps on components: normal forms, refinements,
counting, products and sums.  A property that each of these steps keeps holds of all components after
an operation, provided that it holds of the parfactors that an elimination has renamed.

* `forall_run_of_normal`    what all normal forms have;
* `Component.Closed`        a property that all steps keep;
* `Closed.shatter`, `Closed.run`   shattering and all other operations keep it, too;
* `Hereditary.closed`       properties of constraints and random variables that refinement hands down;
* `Hereditary.aligned`      renaming to a set hands them down as well;
* `Hereditary.run`          and so does every operation.
-/

namespace LiftedElimination

variable {K : Type} [Scalar K]

/-- a property of components that squares, normal forms, refinements, counting, products and sums
keep -/
structure Component.Closed (P : Component K → Prop) : Prop where
  squared : ∀ {c}, P c → P c.squared
  normalize : ∀ {c d : Component K}, P c → c.normalize = .ok (some d) → P d
  pieces : ∀ {c : Component K} {l}, P c → c.Pieces l → ∀ d ∈ l, P d
  count : ∀ {p q : Parfactor K} {x}, P (.standard p) → p.count x = .ok q → P (.standard q)
  multiply : ∀ {p q r : Parfactor K}, P (.standard p) → P (.standard q) → p.multiply q = .ok r →
    P (.standard r)
  sumOut : ∀ {p r : Parfactor K} {q}, P (.standard p) → p.sumOut q = .ok r → P (.standard r)

theorem Substitution.IsRenaming.keepsPopulations {s : Substitution} (h : s.IsRenaming) :
    s.KeepsPopulations := by
  intro x y hxy
  obtain ⟨z, hz, hpop⟩ := h x
  cases Term.var.inj (hxy.symm.trans hz)
  exact hpop

omit [Scalar K] in
theorem Parfactor.mem_of_normalForms {ps : List (Parfactor K)} {l : List (Component K)}
    (h : Operation.normalForms ps = .ok l) {c : Component K} (hc : c ∈ l) :
    ∃ p ∈ ps, (Component.standard p).normalize = .ok (some c) := by
  obtain ⟨normal, hn, hl⟩ := bind_ok h
  cases hl
  obtain ⟨o, ho, hoc⟩ := List.mem_filterMap.mp hc
  have hall := collect_ok hn
  clear h hn hc
  induction hall with
  | nil => cases ho
  | cons hpr _ ih =>
    rcases List.mem_cons.mp ho with rfl | ho
    · exact ⟨_, List.mem_cons_self, by rw [Component.normalize, hpr, ← hoc]; rfl⟩
    · obtain ⟨p, hp, hpq⟩ := ih ho
      exact ⟨p, List.mem_cons_of_mem _ hp, hpq⟩

omit [Scalar K] in
/-- what splits and normal forms keep holds of all instances of a variable -/
theorem Operation.forall_groundAll {P : Parfactor K → Prop}
    (hsplit : ∀ p b s, P p → p.split b = .ok s → P s.fragment ∧ P s.residual)
    (hnormalize : ∀ p q, P p → p.normalize = .ok (some q) → P q) {x : LogVar}
    {o : Option (Parfactor K)} {cs : List Constant} {l : List (Parfactor K)} (ho : ∀ p ∈ o, P p)
    (hl : groundAll x o cs = .ok l) : ∀ q ∈ l, P q := by
  induction cs generalizing o l with
  | nil =>
    cases o with
    | none => cases hl; nofun
    | some p =>
      cases hl
      exact fun q hq => List.mem_singleton.mp hq ▸ ho p rfl
  | cons c cs ih =>
    cases o with
    | none => cases hl; nofun
    | some p =>
      obtain ⟨-, rfl⟩ | ⟨-, s, fragment, residual, rest, hs, hfragment, hresidual, hrest, rfl⟩ :=
        groundAll_ok hl
      · exact fun q hq => List.mem_singleton.mp hq ▸ ho p rfl
      · have hparts := hsplit p _ s (ho p rfl) hs
        intro q hq
        rcases List.mem_append.mp hq with hq | hq
        · cases Option.mem_toList.mp hq
          exact hnormalize _ _ hparts.1 hfragment
        · refine ih (fun r hr => ?_) hrest q hq
          cases hr
          exact hnormalize _ _ hparts.2 hresidual

/-! ## what normal forms have -/

namespace Operation

variable {P : Component K → Prop} {m m' : Marginal K}

theorem forall_shatter_of_normal (hsquared : ∀ c, P c → P c.squared)
    (hnormal : ∀ c d : Component K, c.normalize = .ok (some d) → P d) (h : m.shatter = .ok m') :
    ∀ c ∈ m'.distribution.toList, P c := by
  obtain ⟨cs, hcs, -, -, rfl⟩ := shatter_forall hsquared (fun c _ d hd => hnormal c d hd)
    (fun _ _ _ _ hl d hd => by
      obtain ⟨pieces, normal, -, hn, rfl⟩ := Component.perform_ok hl
      obtain ⟨p, -, hpd⟩ := Component.mem_of_normalized hn hd
      exact hnormal p d hpd) h
  exact Distribution.forall_mem_ofList hsquared hcs

/-- **What all normal forms have** holds of all components after an operation: whatever it puts into
the distribution is a normal form. -/
theorem forall_run_of_normal {op : Operation K} (hsquared : ∀ c, P c → P c.squared)
    (hnormal : ∀ c d : Component K, c.normalize = .ok (some d) → P d)
    (hm : ∀ c ∈ m.distribution.toList, P c) (hrun : op.run m = .ok m') :
    ∀ c ∈ m'.distribution.toList, P c := by
  have hremoved : ∀ {c d}, remove m.distribution c = .ok d → ∀ c ∈ d.toList, P c := by
    intro c d hd b hb
    obtain rfl := remove_ok hd
    exact hm b (List.mem_filter.mp hb).1
  have hadded : ∀ {ps l} {d : Distribution K}, normalForms ps = .ok l → (∀ c ∈ d.toList, P c) →
      ∀ c ∈ (d.addAll l).toList, P c := by
    intro ps l d hl hd
    refine Distribution.forall_mem_addAll hsquared (fun c hc => ?_) d hd
    obtain ⟨p, -, hp⟩ := Parfactor.mem_of_normalForms hl hc
    exact hnormal _ c hp
  cases op with
  | convert a =>
    obtain ⟨d, ps, l, hd, -, hl, rfl⟩ := runConvert_ok hrun
    exact hadded hl (hremoved hd)
  | shatter => exact forall_shatter_of_normal hsquared hnormal hrun
  | count p x =>
    obtain ⟨counted, d, l, -, hd, hl, rfl⟩ := runCount_ok hrun
    exact hadded hl (hremoved hd)
  | sumOut e =>
    obtain ⟨p, ps, product, summed, d, l, -, -, -, hd, hl, rfl⟩ := runSumOut_ok hrun
    exact hadded hl fun c hc => hm c (mem_of_mem_removeAll hd c hc)
  | expand p f =>
    obtain ⟨expanded, d, l, -, -, -, hrun⟩ := runExpand_ok hrun
    exact forall_shatter_of_normal hsquared hnormal hrun
  | ground p x =>
    obtain ⟨pieces, d, -, -, hrun⟩ := runGround_ok hrun
    exact forall_shatter_of_normal hsquared hnormal hrun

end Operation

namespace Component.Closed

variable {P : Component K → Prop} (h : Closed P) {p q : Parfactor K} {m m' : Marginal K}
include h

/-! ## sequences of steps -/

theorem normalForms {ps : List (Parfactor K)} {l : List (Component K)}
    (hps : ∀ p ∈ ps, P (.standard p)) (hl : Operation.normalForms ps = .ok l) : ∀ c ∈ l, P c := by
  intro c hc
  obtain ⟨p, hp, hpc⟩ := Parfactor.mem_of_normalForms hl hc
  exact h.normalize (hps p hp) hpc

theorem perform {c : Component K} {a : Action} {l : List (Component K)} (hc : P c)
    (hl : c.perform a = .ok l) : ∀ d ∈ l, P d := by
  obtain ⟨pieces, normal, hp, hn, rfl⟩ := Component.perform_ok hl
  intro d hd
  obtain ⟨p, hpmem, hpd⟩ := Component.mem_of_normalized hn hd
  exact h.normalize (h.pieces hc (Component.pieces_ok hp) p hpmem) hpd

theorem expandAll {o : Option CountingFormula} {cs : List Constant} (hp : P (.standard p))
    (hq : Operation.expandAll p o cs = .ok q) : P (.standard q) := by
  induction cs generalizing p o with
  | nil => cases o <;> cases hq <;> exact hp
  | cons c cs ih =>
    cases o with
    | none =>
      cases hq
      exact hp
    | some f =>
      obtain ⟨r, hr, -, hq⟩ := Operation.expandAll_ok hq
      exact ih (h.pieces hp (.expand hr) _ List.mem_cons_self) hq

theorem groundAll {x : LogVar} {o : Option (Parfactor K)} {cs : List Constant}
    {l : List (Parfactor K)} (ho : ∀ p ∈ o, P (.standard p))
    (hl : Operation.groundAll x o cs = .ok l) : ∀ q ∈ l, P (.standard q) :=
  Operation.forall_groundAll (P := fun p => P (.standard p))
    (fun _ _ _ hp hs => ⟨h.pieces hp (.split hs) _ (by simp), h.pieces hp (.split hs) _ (by simp)⟩)
    (fun _ _ hp hq => h.normalize hp (by rw [Component.normalize, hq]; rfl)) ho hl

theorem multiplyAll {ps : List (Parfactor K)} (hp : P (.standard p))
    (hps : ∀ q ∈ ps, P (.standard q)) (hq : Operation.multiplyAll p ps = .ok q) :
    P (.standard q) := by
  induction ps generalizing p with
  | nil =>
    cases hq
    exact hp
  | cons r ps ih =>
    obtain ⟨product, hproduct, hq⟩ := Operation.multiplyAll_ok hq
    exact ih (h.multiply hp (hps r List.mem_cons_self) hproduct)
      (fun t ht => hps t (List.mem_cons_of_mem _ ht)) hq

/-! ## operations -/

/-- a component replaced by others -/
theorem replace {c : Component K} {d : Distribution K} {l : List (Component K)}
    (hm : ∀ c ∈ m.distribution.toList, P c) (hl : ∀ c ∈ l, P c)
    (hd : Operation.remove m.distribution c = .ok d) : ∀ c ∈ (d.addAll l).toList, P c := by
  obtain rfl := Operation.remove_ok hd
  exact Distribution.forall_mem_addAll (fun _ hc => h.squared hc) hl _
    fun c hc => hm c (List.mem_filter.mp hc).1

theorem shatter (hm : ∀ c ∈ m.distribution.toList, P c) (hs : m.shatter = .ok m') :
    ∀ c ∈ m'.distribution.toList, P c := by
  obtain ⟨cs, hcs, -, -, rfl⟩ := shatter_forall (fun _ hc => h.squared hc)
    (fun c hc _ hcd => h.normalize (hm c hc) hcd) (fun _ _ _ hc hl => h.perform hc hl) hs
  exact Distribution.forall_mem_ofList (fun _ hc => h.squared hc) hcs

theorem runSumOut {e : SetElimination K} (hm : ∀ c ∈ m.distribution.toList, P c)
    (haligned : ∀ p ∈ e.aligned, P (.standard p)) (hrun : Operation.runSumOut m e = .ok m') :
    ∀ c ∈ m'.distribution.toList, P c := by
  obtain ⟨p, ps, product, summed, d, l, heq, hproduct, hsummed, hd, hl, rfl⟩ :=
    Operation.runSumOut_ok hrun
  rw [heq] at haligned
  have hresult := h.sumOut (h.multiplyAll (haligned p List.mem_cons_self)
    (fun q hq => haligned q (List.mem_cons_of_mem _ hq)) hproduct) hsummed
  exact Distribution.forall_mem_addAll (fun _ hc => h.squared hc)
    (h.normalForms (fun q hq => List.mem_singleton.mp hq ▸ hresult) hl) d
    fun c hc => hm c (Operation.mem_of_mem_removeAll hd c hc)

/-- **Every operation keeps it**, if the renaming of an elimination does. -/
theorem run {op : Operation K} (hm : ∀ c ∈ m.distribution.toList, P c) (hop : op.Eligible m)
    (haligned : ∀ e, op = .sumOut e → ∀ p ∈ e.aligned, P (.standard p))
    (hrun : op.run m = .ok m') : ∀ c ∈ m'.distribution.toList, P c := by
  cases op with
  | convert a =>
    obtain ⟨d, ps, l, hd, hps, hl, rfl⟩ := Operation.runConvert_ok hrun
    have hpieces := h.pieces (hm _ hop) (.convert hps)
    exact h.replace hm (h.normalForms (fun p hp => hpieces _ (List.mem_map_of_mem hp)) hl) hd
  | shatter => exact h.shatter hm hrun
  | count p x =>
    obtain ⟨counted, d, l, hcounted, hd, hl, rfl⟩ := Operation.runCount_ok hrun
    have hp := h.count (hm _ hop.1) hcounted
    exact h.replace hm (h.normalForms (fun q hq => List.mem_singleton.mp hq ▸ hp) hl) hd
  | sumOut e => exact h.runSumOut hm (haligned e rfl) hrun
  | expand p f =>
    obtain ⟨expanded, d, l, hexpanded, hd, hl, hrun⟩ := Operation.runExpand_ok hrun
    have hp := h.expandAll (hm _ hop.1) hexpanded
    exact h.shatter
      (h.replace hm (h.normalForms (fun q hq => List.mem_singleton.mp hq ▸ hp) hl) hd) hrun
  | ground p x =>
    obtain ⟨pieces, d, hpieces, hd, hrun⟩ := Operation.runGround_ok hrun
    have hp := h.groundAll (fun q hq => Option.some.inj hq ▸ hm _ hop.1) hpieces
    refine h.shatter (h.replace hm (fun c hc => ?_) hd) hrun
    obtain ⟨q, hq, rfl⟩ := List.mem_map.mp hc
    exact hp q hq

end Component.Closed

/-! ## properties of constraints and random variables -/

namespace Hereditary

variable {C : ConstraintSet → Prop} {Q : Prv → Prop} (h : Hereditary C Q) {p q : Parfactor K}
  {m m' : Marginal K} {x : LogVar}
include h

theorem count (hp : (Component.standard p).Meets C Q) (hq : p.count x = .ok q) :
    (Component.standard q).Meets C Q := by
  obtain ⟨-, f, i, -, hturns, -⟩ := Parfactor.turnsInto_of_count hq
  refine ⟨?_, fun r hr => ?_⟩
  · rw [show (Component.standard q).constraints = _ from hturns.constraints_eq]
    exact h.subset hp.constraints fun c hc => (ConstraintSet.mem_notOnVariable.mp hc).1
  · rcases hturns.mem_prvs.mp hr with rfl | hr
    · have hformula : Q (.count ⟨f.bound, f.inner, p.constraints.onVariable f.bound⟩) :=
        h.counted hp.constraints (hp.prvs _ (List.mem_of_getElem? hturns.holder))
      rwa [← hturns.own] at hformula
    · exact hp.prvs r (List.mem_of_mem_eraseIdx hr)

omit h in
theorem multiply {r : Parfactor K} (hp : (Component.standard p).Meets C Q)
    (hq : (Component.standard q).Meets C Q) (hr : p.multiply q = .ok r) :
    (Component.standard r).Meets C Q := by
  refine ⟨?_, fun t ht => ?_⟩
  · rw [show (Component.standard r).constraints = _ from (Parfactor.parts_multiply hr).1]
    exact hp.constraints
  · exact ((Parfactor.mem_prvs_multiply hr).mp ht).elim (hp.prvs t) (hq.prvs t)

theorem sumOut {s : Prv} (hp : (Component.standard p).Meets C Q) (hq : p.sumOut s = .ok q) :
    (Component.standard q).Meets C Q := by
  obtain ⟨hcs, hprvs⟩ := Parfactor.parts_sumOut hq
  refine ⟨?_, fun t ht => ?_⟩
  · rw [show (Component.standard q).constraints = _ from hcs]
    exact h.subset hp.constraints fun c hc => (ConstraintSet.mem_restrictTo.mp hc).1
  · rw [show (Component.standard q).prvs = _ from hprvs] at ht
    exact hp.prvs t (List.mem_of_mem_erase ht)

theorem closed : Component.Closed fun c : Component K => c.Meets C Q where
  squared hc := hc.squared
  normalize := h.normalize
  pieces := h.pieces
  count := h.count
  multiply := multiply
  sumOut := h.sumOut

/-- **Renaming to a set** of random variables of the marginal hands it down. -/
theorem aligned {e : SetElimination K} (hm : ∀ c ∈ m.distribution.toList, c.Meets C Q)
    (he : (Operation.sumOut e).Eligible m) :
    ∀ p ∈ e.aligned, (Component.standard p).Meets C Q := by
  obtain ⟨-, p, hp, q, hq, -, hsum⟩ := he
  obtain ⟨pairs, hpairs, -, rfl⟩ := Operation.sumOut?_ok hsum
  intro r hr
  obtain ⟨y, hy, rfl⟩ := List.mem_map.mp hr
  obtain ⟨t, k, ht, hmem, -, halign⟩ := (Operation.alignAll?_ok hpairs).2 y hy
  obtain ⟨u, rho, renamed, -, -, hrho, happly, -, hconstraints, -, heq⟩ :=
    Operation.alignAt?_ok halign
  have hrenaming := Extent.isRenaming_of_renaming? (Extent.isClosed_of _ _)
    (Extent.isClosed_of _ _) hrho
  have hrenamed := h.parfactor_apply (ht ▸ hm y.1 hmem) hrenaming.keepsPopulations happly
  rw [heq]
  refine ⟨hrenamed.constraints, fun v hv => ?_⟩
  rcases List.mem_or_eq_of_mem_set hv with hv | hvq
  · exact hrenamed.prvs v hv
  · exact hvq ▸ (hm _ hp).prvs q hq

/-- **Every operation hands it down.** -/
theorem run {op : Operation K} (hm : ∀ c ∈ m.distribution.toList, c.Meets C Q)
    (hop : op.Eligible m) (hrun : op.run m = .ok m') :
    ∀ c ∈ m'.distribution.toList, c.Meets C Q :=
  h.closed.run hm hop (fun _ he => h.aligned hm (he ▸ hop)) hrun

end Hereditary

end LiftedElimination
