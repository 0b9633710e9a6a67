import LiftedElimination.Proofs.Estimates
import LiftedElimination.Proofs.Failures

/-!
# Costs are table sizes

The cost of counting, of a full expansion and of an elimination is found before anything is built, from
range sizes, powers and binomial coefficients.  If it is finite, it is the number of entries of the
largest table that the operation builds: of the counted table, of the fully expanded one, or of the
product before the set is summed out.  An elimination computes its cost from the aligned parfactors, so
the renaming to the set has to capture nothing and to merge no variables.

* `Operation.Completes`, `Builds`   the table that the cost is about, and all tables on the way;
* `SetElimination.Faithful`         the renaming to the set leaves the random variables apart;
* `Operation.Priced`                the cost is the size of the largest table;
* `priced_count`, `priced_expand`, `priced_sumOut`   so it is for each kind of operation;
* `Operation.cost_exact`            **costs are exact**.
-/

namespace LiftedElimination

variable {K : Type} [Scalar K]

namespace SetElimination

/-- the renaming to the set captures nothing, and leaves as many logical variables as there were -/
structure Faithful (e : SetElimination K) : Prop where
  captureFree : e.CaptureFree
  length : ∀ c ∈ e.involved, c.logVars.length = e.eliminated.prv.freeVars.length

instance (e : SetElimination K) : Decidable e.Faithful :=
  decidable_of_iff (e.CaptureFree ∧ ∀ c ∈ e.involved,
    c.logVars.length = e.eliminated.prv.freeVars.length)
    ⟨fun h => ⟨h.1, h.2⟩, fun h => ⟨h.captureFree, h.length⟩⟩

end SetElimination

namespace Operation

open Parfactor (Full Dense Spans Expanding)

variable {m m' : Marginal K} {op : Operation K} {e : SetElimination K} {p : Parfactor K}
  {f : CountingFormula} {x : LogVar} {n : Nat}

/-! ## the tables of an operation -/

/-- the table that the operation is for: the counted one, the fully expanded one, and the product before
the set is summed out -/
inductive Completes : Operation K → Parfactor K → Prop where
  | count {p q : Parfactor K} {x : LogVar} (h : p.count x = .ok q) : Completes (.count p x) q
  | expand {p q : Parfactor K} {f : CountingFormula}
      (h : expandAll p (some f) f.individuals.individuals = .ok q) : Completes (.expand p f) q
  | multiply {e : SetElimination K} {p q : Parfactor K} {ps : List (Parfactor K)}
      (haligned : e.aligned = p :: ps) (h : multiplyAll p ps = .ok q) : Completes (.sumOut e) q

/-- all tables of the operation: the counted one; those after some individuals have been taken out; the
products of some of the parfactors, and what is left when the set has been summed out of the last -/
inductive Builds : Operation K → Parfactor K → Prop where
  | count {p q : Parfactor K} {x : LogVar} (h : p.count x = .ok q) : Builds (.count p x) q
  | expand {p q : Parfactor K} {f : CountingFormula} (k : Nat)
      (h : expandAll p (some f) (f.individuals.individuals.take k) = .ok q) : Builds (.expand p f) q
  | multiply {e : SetElimination K} {p q : Parfactor K} {ps : List (Parfactor K)} (k : Nat)
      (haligned : e.aligned = p :: ps) (h : multiplyAll p (ps.take k) = .ok q) : Builds (.sumOut e) q
  | sum {e : SetElimination K} {p product q : Parfactor K} {ps : List (Parfactor K)}
      (haligned : e.aligned = p :: ps) (hproduct : multiplyAll p ps = .ok product)
      (h : product.sumOut e.eliminated.prv = .ok q) : Builds (.sumOut e) q

theorem Completes.builds {q : Parfactor K} (h : op.Completes q) : op.Builds q := by
  cases h with
  | count h => exact .count h
  | @expand p q f h => exact .expand f.individuals.individuals.length (by rwa [List.take_length])
  | @multiply e p q ps haligned h => exact .multiply ps.length haligned (by rwa [List.take_length])

/-- the operation has the number `n` of entries of its largest table for its cost -/
structure Priced (op : Operation K) (n : Nat) : Prop where
  /-- the table is built if memory holds `n` entries -/
  completes_iff : (∃ q, op.Completes q) ↔ n ≤ Index.maxEntries
  /-- it has `n` entries -/
  size_eq : ∀ q, op.Completes q → q.factor.size = n
  /-- no table on the way to it, or made from it, has more -/
  size_le : ∀ q, op.Builds q → q.factor.size ≤ n

/-- it is enough to know the size of the table if it is built, and that it is built if it fits -/
theorem Priced.of_size (hsize : ∀ q, op.Completes q → q.factor.size = n ∧ n ≤ Index.maxEntries)
    (hexists : n ≤ Index.maxEntries → ∃ q, op.Completes q)
    (hle : ∀ q, op.Builds q → q.factor.size ≤ n) : op.Priced n :=
  ⟨⟨fun ⟨q, hq⟩ => (hsize q hq).2, hexists⟩, fun q hq => (hsize q hq).1, hle⟩

/-! ## counting and expansion -/

theorem priced_count (hp : p.Full) (hcountable : p.isCountable x = true)
    (hcost : (count p x).cost = .finite n) : (count p x).Priced n := by
  refine .of_size (fun q hq => ?_) (fun hle => ?_) fun q hq => ?_
  · cases hq with
    | count h => exact hp.size_count hcost h
  · obtain ⟨q, hq⟩ := hp.exists_count hcountable hcost hle
    exact ⟨q, .count hq⟩
  · cases hq with
    | count h => exact (hp.size_count hcost h).1.le

theorem priced_expand (hp : p.Full) (hf : .count f ∈ p.prvs) (hconstant : f.excludedVars = [])
    (hcounts : 0 < f.domainSize) (hcost : (expand p f).cost = .finite n) : (expand p f).Priced n := by
  have hexpanding : Parfactor.ExpandingTo n p (some f) :=
    hp.toDense.expanding hf hconstant hcounts hcost
  have hnodup : f.individuals.individuals.Nodup := Population.nodup_domain _ _
  have hall : ∀ g ∈ some f, ∀ c ∈ f.individuals.individuals, c ∈ g.individuals := by
    rintro _ ⟨⟩ c hc
    exact hc
  refine .of_size (fun q hq => ?_) (fun hle => ?_) fun q hq => ?_
  · cases hq with
    | expand h =>
      refine (hexpanding.size_expandAll hnodup hall h).2 ?_
      rintro _ ⟨⟩
      exact Nat.sub_le _ _
  · obtain ⟨q, hq⟩ := hexpanding.exists_expandAll hnodup hall hle
    exact ⟨q, .expand hq⟩
  · cases hq with
    | expand k h =>
      exact (hexpanding.size_expandAll (hnodup.sublist (List.take_sublist k _))
        (fun g hg c hc => hall g hg c (List.mem_of_mem_take hc)) h).1

/-! ## elimination -/

/-- **The renamed parfactors** have the tables that they had, and hold the set once. -/
theorem full_aligned (hm : ∀ c ∈ m.distribution.toList, c.Full)
    (hvalid : e.eliminated.prv.Valid) (hordered : e.eliminated.prv.IsOrdered)
    (he : sumOut? m e.eliminated = some e) (hfaithful : e.Faithful) :
    ∀ q ∈ e.aligned, q.Full ∧ Spans e.eliminated q := by
  intro q hq
  obtain ⟨-, p, k, hp, hinvolved, halign, hothers⟩ := exists_of_mem_aligned he hq
  exact Parfactor.full_alignAt? (hm _ hp) hvalid hordered
    (fun f hf => hfaithful.captureFree _ hinvolved _ hf f rfl) (hfaithful.length _ hinvolved)
    hothers halign

/-- the estimate is the number of assignments to the random variables of all aligned parfactors -/
theorem eq_prod_of_sumOutCost {ps : List (Parfactor K)} (haligned : e.aligned = p :: ps)
    (hnodup : p.prvs.Nodup) (hcost : sumOutCost e = .finite n) :
    n = ((Parfactor.unionPrvs p.prvs (ps.flatMap Parfactor.prvs)).map Prv.rangeSize).prod := by
  have hunion : Parfactor.unionPrvs [] p.prvs = p.prvs :=
    Parfactor.unionPrvs_of_disjoint hnodup fun _ _ => List.not_mem_nil
  rw [sumOutCost, haligned, List.flatMap_cons, Parfactor.unionPrvs_append, hunion,
    Cost.prod_eq_sat] at hcost
  exact Cost.eq_of_sat hcost

/-- the product of the aligned parfactors has as many entries as estimated, and is found if they fit -/
theorem priced_sumOut (hne : e.aligned ≠ []) (hfull : ∀ q ∈ e.aligned, q.Full ∧ Spans e.eliminated q)
    (hcost : (sumOut e).cost = .finite n) : (sumOut e).Priced n := by
  obtain ⟨p, ps, haligned⟩ := List.exists_cons_of_ne_nil hne
  have hlist : ∀ {q qs}, e.aligned = q :: qs → q = p ∧ qs = ps := fun h =>
    List.cons.inj (h.symm.trans haligned)
  rw [haligned, List.forall_mem_cons] at hfull
  obtain ⟨⟨hp, hspans⟩, hps⟩ := hfull
  have hdense : ∀ q ∈ ps, q.Dense := fun q hq => (hps q hq).1.toDense
  have hn := eq_prod_of_sumOutCost haligned hp.nodup hcost
  have hproduct : ∀ q, multiplyAll p ps = .ok q → q.Dense ∧ q.factor.size = n := fun q h =>
    ⟨hp.toDense.multiplyAll hdense h, (hp.toDense.size_multiplyAll hdense h).trans hn.symm⟩
  refine .of_size (fun q hq => ?_) (fun hle => ?_) fun q hq => ?_
  · cases hq with
    | multiply heq h =>
      obtain ⟨rfl, rfl⟩ := hlist heq
      obtain ⟨hq, hsize⟩ := hproduct q h
      exact ⟨hsize, hsize ▸ hq.tabulated.stored⟩
  · obtain ⟨q, hq⟩ := Parfactor.exists_multiplyAll hp.toDense hspans
      (fun r hr => ⟨hdense r hr, (hps r hr).2⟩) (hn ▸ hle)
    exact ⟨q, .multiply haligned hq⟩
  · cases hq with
    | multiply k heq h =>
      obtain ⟨rfl, rfl⟩ := hlist heq
      exact (hp.toDense.size_multiplyAll_take_le hdense h).trans hn.ge
    | sum heq hmultiply h =>
      obtain ⟨rfl, rfl⟩ := hlist heq
      obtain ⟨hq, hsize⟩ := hproduct _ hmultiply
      exact (hq.size_sumOut_le h).trans hsize.le

/-! ## all three -/

/-- the operation is offered for the marginal: counting and expansion for a parfactor of it, and an
elimination for a checked set -/
def MadeIn (m : Marginal K) : Operation K → Prop
  | count p x => .standard p ∈ m.distribution.toList ∧ count? m p x = some (count p x)
  | expand p f => .standard p ∈ m.distribution.toList ∧ expand? p f = some (expand p f)
  | sumOut e => e.eliminated.prv.Valid ∧ e.eliminated.prv.IsOrdered ∧ sumOut? m e.eliminated = some e
  | _ => False

/-- an elimination renames its parfactors faithfully; the other operations rename nothing -/
def Faithful : Operation K → Prop
  | sumOut e => e.Faithful
  | _ => True

theorem priced_of_madeIn (hm : ∀ c ∈ m.distribution.toList, c.Full) (hop : op.MadeIn m)
    (hfaithful : op.Faithful) (hcost : op.cost = .finite n) : op.Priced n := by
  cases op with
  | count p x =>
    obtain ⟨-, hcountable, -⟩ := count?_ok hop.2
    exact priced_count (hm _ hop.1) hcountable hcost
  | expand p f =>
    obtain ⟨-, hf, hconstant, hcounts⟩ := expand?_ok hop.2
    exact priced_expand (hm _ hop.1) hf hconstant hcounts hcost
  | sumOut e =>
    obtain ⟨hvalid, hordered, he⟩ := hop
    exact priced_sumOut (aligned_ne_nil he) (full_aligned hm hvalid hordered he hfaithful) hcost
  | convert a => exact hop.elim
  | shatter => exact hop.elim
  | ground p x => exact hop.elim

/-- an operation that has a result has built its table -/
theorem exists_completes (hop : op.MadeIn m) (h : op.run m = .ok m') : ∃ q, op.Completes q := by
  cases op with
  | count p x =>
    obtain ⟨q, hq, -⟩ := bind_ok h
    exact ⟨q, .count hq⟩
  | expand p f =>
    obtain ⟨q, hq, -⟩ := bind_ok h
    exact ⟨q, .expand hq⟩
  | sumOut e =>
    obtain ⟨p, ps, product, -, -, -, haligned, hproduct, -⟩ := runSumOut_ok h
    exact ⟨product, .multiply haligned hproduct⟩
  | convert a => exact hop.elim
  | shatter => exact hop.elim
  | ground p x => exact hop.elim

/-- **Costs are exact.**  Let all parfactors have full tables of distinct random variables, and let an
elimination rename them faithfully.  Then an operation with a finite cost, for counting, expansion or
elimination, can build its table exactly if memory holds as many entries as it costs.  The table has
that number of entries, no other table on the way to it, or made from it, has more, and the operation
has no result without it. -/
theorem cost_exact (hm : ∀ c ∈ m.distribution.toList, c.Full) (hop : op.MadeIn m)
    (hfaithful : op.Faithful) (hcost : op.cost = .finite n) :
    ((∃ q, op.Completes q) ↔ n ≤ Index.maxEntries)
      ∧ (∀ q, op.Completes q → op.Builds q ∧ q.factor.size = n)
      ∧ (∀ q, op.Builds q → q.factor.size ≤ n)
      ∧ ∀ m', op.run m = .ok m' → ∃ q, op.Completes q := by
  have hpriced := priced_of_madeIn hm hop hfaithful hcost
  exact ⟨hpriced.completes_iff, fun q hq => ⟨hq.builds, hpriced.size_eq q hq⟩, hpriced.size_le,
    fun m' h => exists_completes hop h⟩

end Operation

/-! ## sick people under two names -/

open scoped ExactScalar

namespace Epidemic

/-- who is sick, by the number of others to be infected by, and under another name -/
def ward : Marginal Nat := .make [.standard infected, .standard (prior patient)] []

def patients : PrvSet := ⟨.atom (sick (.var patient)), ∅⟩

theorem full_infected : infected.Full :=
  accepted_infected.full ⟨fun _ hc => absurd hc List.not_mem_nil, isOrdered_infected⟩
    (by decide) (by decide)

theorem full_prior : (prior patient).Full := by
  have hatoms : ∀ f, Prv.count f ∉ (prior patient).prvs := by simp [prior]
  have haccepted : (prior patient).Accepted := ⟨rfl, fun f hf => absurd hf (hatoms f), by decide⟩
  exact haccepted.full ⟨fun _ hc => absurd hc List.not_mem_nil,
    fun _ hq f hf => absurd (hf ▸ hq) (hatoms f)⟩ (by decide) (by decide)

theorem full_ward : ∀ c ∈ ward.distribution.toList, c.Full := by
  refine Distribution.forall_mem_ofList (fun _ hc => hc.squared) ?_
  rintro c (_ | ⟨_, _ | ⟨_, ⟨⟩⟩⟩)
  · exact full_infected
  · exact full_prior

end Epidemic

/-- **The elimination of who is sick** costs as many entries as its product has. -/
theorem Epidemic.cost_exact_ward : ∃ e : SetElimination Nat,
    Operation.sumOut? ward patients = some e ∧ (Operation.sumOut e).cost = .finite 6
      ∧ (∃ q, (Operation.sumOut e).Completes q)
      ∧ ∀ q, (Operation.sumOut e).Completes q → q.factor.size = 6 := by
  have hchecks : ∃ e ∈ Operation.sumOut? ward patients, e.eliminated = patients ∧ e.Faithful
      ∧ (Operation.sumOut e).cost = .finite 6 := by
    decide +kernel
  obtain ⟨e, he, heq, hfaithful, hcost⟩ := hchecks
  have hmade : (Operation.sumOut e).MadeIn ward := by
    refine ⟨?_, ?_, heq ▸ he⟩ <;> rw [heq]
    · trivial
    · exact fun _ h => nomatch h
  obtain ⟨hiff, hsize, -, -⟩ := Operation.cost_exact full_ward hmade hfaithful hcost
  exact ⟨e, he, hcost, hiff.mpr (by decide), fun q hq => (hsize q hq).2⟩

/-- a renaming that captures `X` makes two formulas one, which the cost then counts once -/
example : ∃ e ∈ Operation.sumOut? (.make [.standard ⟨∅, [.atom (Epidemic.sick (.var Epidemic.other)),
      .count ⟨Epidemic.person, Epidemic.infects (.var Epidemic.person) (.var Epidemic.other), ∅⟩,
      .count ⟨Epidemic.person, Epidemic.infects (.var Epidemic.person) (.var Epidemic.person), ∅⟩],
        ⟨⟨List.replicate 32 1⟩⟩⟩] [] : Marginal Nat) ⟨.atom (Epidemic.sick (.var Epidemic.person)), ∅⟩,
    (Operation.sumOut e).cost = .finite 8 ∧ e.aligned.map (·.factor.size) = [32] := by
  decide +kernel

end LiftedElimination
