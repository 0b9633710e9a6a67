import LiftedElimination.Proofs.Groundings
import LiftedElimination.Proofs.JsonForms

/-!
# Substitutions are canonical

A substitution keeps its bindings in the order of their sources, so it does not show how it was
built.  The operations are described by the bindings they are given and keep, in any order: what a
sequence of them comes to is the one substitution with these bindings.

* `compose_eq_ok`, `compose_eq_error`   composition unites the bindings, or names a shared variable;
* `compose_comm`, `compose_assoc`       so it does not matter what is composed first;
* `Built`                the sequences of operations, with the bindings that they keep;
* `Built.perm`           **a sequence comes to the bindings it keeps**, one case for each operation;
* `canonical`            what substitutions have from being sorted.
-/

namespace LiftedElimination

namespace Substitution

variable {s t u v : Substitution} {b : Binding} {l m : List Binding} {x : LogVar}

/-! ## what an operation keeps -/

theorem bind_eq_ok : s.bind b = .ok t ↔ (b :: s.bindings).Perm t.bindings := by
  refine ⟨fun h => (perm_bind h).symm, fun h => ?_⟩
  have hnew : b.source ∉ s.domain :=
    (List.nodup_cons.mp ((h.map Binding.source).nodup_iff.mpr t.nodup_domain)).1
  obtain ⟨t', ht'⟩ := exists_bind hnew
  rw [ht', eq_of_perm ((perm_bind ht').trans h)]

theorem error_of_bind {e : Error} (h : s.bind b = .error e) : e = .duplicateBinding b.source := by
  unfold bind at h
  split at h
  · exact (Except.error.inj h).symm
  · cases h

theorem binds_iff : s.binds x = true ↔ x ∈ s.domain := by
  rw [binds, Option.isSome_iff_exists, mem_domain]

theorem find?_binds_eq_none : t.domain.find? s.binds = none ↔ ∀ x ∈ s.domain, x ∉ t.domain := by
  rw [List.find?_eq_none]
  exact ⟨fun h x hs ht => h x ht (binds_iff.mpr hs), fun h x ht hs => h x (binds_iff.mp hs) ht⟩

/-- the least variable that both bind -/
theorem find?_binds_comm (s t : Substitution) :
    t.domain.find? s.binds = s.domain.find? t.binds := by
  have hsorted : ∀ s t : Substitution,
      (t.domain.filter s.binds).Pairwise fun x y => compare x y = .lt := fun s t =>
    (List.pairwise_map.mpr t.increasing).filter _
  rw [← List.head?_filter, ← List.head?_filter,
    SortedSet.eq_of_mem_iff (hsorted s t) (hsorted t s) fun x => ?_]
  rw [List.mem_filter, List.mem_filter, binds_iff, binds_iff, and_comm]

/-- binding one after the other fails at a variable that is bound twice -/
theorem duplicate_of_bindMany {e : Error} (h : s.bindMany l = .error e) :
    ∃ x, ((s.bindings ++ l).map Binding.source).Duplicate x ∧ e = .duplicateBinding x := by
  induction l generalizing s with
  | nil => cases h
  | cons b l ih =>
    cases hb : s.bind b with
    | error e' =>
      obtain ⟨t, ht⟩ := bind_eq_error hb
      have hold : [b.source].Sublist (s.bindings.map Binding.source) :=
        List.singleton_sublist.mpr (List.mem_map.mpr ⟨_, ht, rfl⟩)
      have hnew : [b.source].Sublist ((b :: l).map Binding.source) :=
        List.singleton_sublist.mpr List.mem_cons_self
      refine ⟨b.source, List.duplicate_iff_sublist.mpr ?_, ?_⟩
      · rw [List.map_append]
        exact hold.append hnew
      · rw [bindMany, hb] at h
        rw [← Except.error.inj h]
        exact error_of_bind hb
    | ok u =>
      rw [bindMany, hb] at h
      obtain ⟨x, hx, he⟩ := ih h
      have hperm : (u.bindings ++ l).Perm (s.bindings ++ b :: l) :=
        ((perm_bind hb).append_right l).trans List.perm_middle.symm
      rw [List.duplicate_iff_two_le_count, (hperm.map Binding.source).count_eq] at hx
      exact ⟨x, List.duplicate_iff_two_le_count.mpr hx, he⟩

/-- the sources of both are distinct where they bind no common variable -/
theorem nodup_sources_append : ((s.bindings ++ t.bindings).map Binding.source).Nodup
    ↔ ∀ x ∈ s.domain, x ∉ t.domain := by
  rw [List.map_append, List.nodup_append]
  exact ⟨fun h x hs ht => h.2.2 x hs x ht rfl,
    fun h => ⟨s.nodup_domain, t.nodup_domain, fun x hs y ht hxy => h x hs (hxy ▸ ht)⟩⟩

theorem exists_compose (h : ∀ x ∈ s.domain, x ∉ t.domain) : ∃ u, s.compose t = .ok u := by
  unfold compose
  split
  · rename_i x hx
    cases (find?_binds_eq_none.mpr h).symm.trans hx
  · exact exists_bindMany (nodup_sources_append.mpr h)

/-- **Composition fails** at the least variable that both bind. -/
theorem compose_eq_error {e : Error} : s.compose t = .error e
    ↔ ∃ x, t.domain.find? s.binds = some x ∧ e = .overlappingDomains x := by
  cases hshared : t.domain.find? s.binds with
  | some x =>
    unfold compose
    rw [hshared]
    exact ⟨fun h => ⟨x, rfl, (Except.error.inj h).symm⟩, fun ⟨y, hy, he⟩ => by
      rw [he, Option.some.inj hy]⟩
  | none =>
    obtain ⟨u, hu⟩ := exists_compose (find?_binds_eq_none.mp hshared)
    rw [hu]
    exact ⟨nofun, fun ⟨x, hx, _⟩ => nomatch hx⟩

theorem perm_compose (h : s.compose t = .ok u) : u.bindings.Perm (s.bindings ++ t.bindings) := by
  unfold compose at h
  split at h
  · cases h
  · exact perm_bindMany h

/-- **Composition unites the bindings.** -/
theorem compose_eq_ok : s.compose t = .ok u ↔ (s.bindings ++ t.bindings).Perm u.bindings := by
  refine ⟨fun h => (perm_compose h).symm, fun h => ?_⟩
  have hnodup := (h.map Binding.source).nodup_iff.mpr u.nodup_domain
  obtain ⟨u', hu'⟩ := exists_compose (nodup_sources_append.mp hnodup)
  rw [hu', eq_of_perm ((perm_compose hu').trans h)]

theorem compose_comm (s t : Substitution) : s.compose t = t.compose s := by
  cases h : s.compose t with
  | ok u =>
    have hunion : (t.bindings ++ s.bindings).Perm u.bindings :=
      List.perm_append_comm.trans (compose_eq_ok.mp h)
    exact (compose_eq_ok.mpr hunion).symm
  | error e =>
    obtain ⟨x, hx, he⟩ := compose_eq_error.mp h
    exact (compose_eq_error.mpr ⟨x, find?_binds_comm s t ▸ hx, he⟩).symm

theorem exists_error_compose : (∃ e, s.compose t = .error e) ↔ ∃ x, x ∈ s.domain ∧ x ∈ t.domain := by
  constructor
  · rintro ⟨e, h⟩
    by_contra hnone
    obtain ⟨u, hu⟩ := exists_compose fun x hs ht => hnone ⟨x, hs, ht⟩
    cases h.symm.trans hu
  · rintro ⟨x, hs, ht⟩
    cases h : s.compose t with
    | error e => exact ⟨e, rfl⟩
    | ok u =>
      have hnodup := ((perm_compose h).map Binding.source).nodup_iff.mp u.nodup_domain
      exact absurd ht (nodup_sources_append.mp hnodup x hs)

/-- three substitutions composed from the left are all their bindings -/
theorem compose_compose_eq_ok : (∃ w, s.compose t = .ok w ∧ w.compose u = .ok v)
    ↔ (s.bindings ++ t.bindings ++ u.bindings).Perm v.bindings := by
  constructor
  · rintro ⟨w, hw, hv⟩
    exact ((perm_compose hw).symm.append_right _).trans (compose_eq_ok.mp hv)
  · intro h
    have hnodup := (h.map Binding.source).nodup_iff.mpr v.nodup_domain
    rw [List.map_append] at hnodup
    obtain ⟨w, hw⟩ := exists_compose (nodup_sources_append.mp (List.nodup_append.mp hnodup).1)
    exact ⟨w, hw, compose_eq_ok.mpr (((perm_compose hw).append_right _).trans h)⟩

theorem compose_assoc (s t u v : Substitution) : (∃ w, s.compose t = .ok w ∧ w.compose u = .ok v)
    ↔ ∃ w, t.compose u = .ok w ∧ s.compose w = .ok v := by
  have hright : (∃ w, t.compose u = .ok w ∧ s.compose w = .ok v)
      ↔ (t.bindings ++ u.bindings ++ s.bindings).Perm v.bindings := by
    rw [← compose_compose_eq_ok]
    exact exists_congr fun w => by rw [compose_comm s w]
  have hrotate : (s.bindings ++ t.bindings ++ u.bindings).Perm
      (t.bindings ++ u.bindings ++ s.bindings) := by
    rw [List.append_assoc]
    exact List.perm_append_comm
  rw [hright, compose_compose_eq_ok]
  exact ⟨hrotate.symm.trans, hrotate.trans⟩

/-! ## sequences of operations -/

/-- `s` is what a sequence of operations comes to that was given the bindings `l`, in this order -/
inductive Built : Substitution → List Binding → Prop where
  | identity : Built identity []
  | single (b : Binding) : Built (single b) [b]
  | ofBindings {s : Substitution} {l : List Binding} : ofBindings l = .ok s → Built s l
  | read {s : Substitution} {l : List Binding} {j : Json} :
      ofJson? j = some l → ofJson? j = some s → Built s l
  | bind {s t : Substitution} {l : List Binding} {b : Binding} :
      Built s l → s.bind b = .ok t → Built t (l ++ [b])
  | compose {s t u : Substitution} {l m : List Binding} :
      Built s l → Built t m → s.compose t = .ok u → Built u (l ++ m)
  | without {s : Substitution} {l : List Binding} (p : LogVar → Bool) :
      Built s l → Built (s.without p) (l.filter fun b => !p b.source)
  | extend {s t : Substitution} {l : List Binding} {b : Binding} :
      Built s l → s.extend b = .ok t →
        Built t ((l.map fun c => ⟨c.source, (Substitution.single b).apply c.target⟩) ++ [b])

theorem ofBindings_of_read {j : Json} (hl : ofJson? j = some l) (hs : ofJson? j = some s) :
    ofBindings l = .ok s := by
  rw [ofJson?_substitution hl] at hs
  cases h : ofBindings l with
  | error e =>
    rw [h] at hs
    cases hs
  | ok t =>
    rw [h] at hs
    cases hs
    rfl

theorem perm_bind_of_perm (hl : l.Perm s.bindings) (h : s.bind b = .ok t) :
    (l ++ [b]).Perm t.bindings :=
  ((hl.append_right _).trans List.perm_append_comm).trans (bind_eq_ok.mp h)

/-- **A run keeps the bindings it was given**, whatever their order. -/
theorem Built.perm (h : s.Built l) : l.Perm s.bindings := by
  induction h with
  | identity => exact .refl _
  | single b => exact .refl _
  | ofBindings h => exact ofBindings_eq_ok.mp h
  | read hl hs => exact ofBindings_eq_ok.mp (ofBindings_of_read hl hs)
  | bind _ hb ih => exact perm_bind_of_perm ih hb
  | compose _ _ hu ihs iht => exact (ihs.append iht).trans (compose_eq_ok.mp hu)
  | without p _ ih => exact ih.filter _
  | extend _ hb ih => exact perm_bind_of_perm (ih.map _) hb

/-- **Substitutions are canonical.**  However one is built, its sources increase strictly.  So two are
equal where they replace every variable alike; a list of bindings makes the same substitution in any
order, and makes none exactly where a source repeats, of which the error names one; and composition
is refused exactly where both bind a variable, and is commutative and associative otherwise. -/
theorem canonical :
    (∀ (s : Substitution) (l : List Binding), s.Built l →
        s.domain.Pairwise (fun x y => compare x y = .lt) ∧ s.domain.Nodup ∧ l.Perm s.bindings)
      ∧ (∀ s t : Substitution, s = t ↔ ∀ x, s.get? x = t.get? x)
      ∧ (∀ l m : List Binding, l.Perm m → ∀ s, ofBindings l = .ok s ↔ ofBindings m = .ok s)
      ∧ (∀ l : List Binding, (∃ e, ofBindings l = .error e) ↔ ¬ (l.map Binding.source).Nodup)
      ∧ (∀ (l : List Binding) (e : Error), ofBindings l = .error e →
          ∃ x, (l.map Binding.source).Duplicate x ∧ e = .duplicateBinding x)
      ∧ (∀ s t : Substitution, (∃ e, s.compose t = .error e) ↔ ∃ x, x ∈ s.domain ∧ x ∈ t.domain)
      ∧ (∀ s t : Substitution, s.compose t = t.compose s)
      ∧ ∀ s t u v : Substitution, (∃ w, s.compose t = .ok w ∧ w.compose u = .ok v)
          ↔ ∃ w, t.compose u = .ok w ∧ s.compose w = .ok v := by
  refine ⟨fun s l h => ⟨List.pairwise_map.mpr s.increasing, s.nodup_domain, h.perm⟩,
    fun s t => ⟨fun h _ => h ▸ rfl, eq_of_get?⟩, fun l m hperm s => ?_, fun l => ?_,
    fun l e => duplicate_of_bindMany (s := identity), fun s t => exists_error_compose, compose_comm,
    compose_assoc⟩
  · rw [ofBindings_eq_ok, ofBindings_eq_ok]
    exact ⟨hperm.symm.trans, hperm.trans⟩
  · rw [← exists_ofBindings]
    cases ofBindings l <;> simp

end Substitution

namespace Epidemic

/-- the person is somebody else, who is known -/
def identified : Substitution :=
  ⟨[⟨person, .var other⟩, ⟨other, .const ⟨"x1"⟩⟩], by decide⟩

/-- the variable that was bound first stands last -/
theorem canonical_identified :
    identified.Built [⟨other, .const ⟨"x1"⟩⟩, ⟨person, .var other⟩]
      ∧ identified.domain.Nodup
      ∧ Substitution.ofBindings [⟨other, .const ⟨"x1"⟩⟩, ⟨person, .var other⟩] = .ok identified := by
  have hswap : [(⟨other, .const ⟨"x1"⟩⟩ : Binding), ⟨person, .var other⟩].Perm identified.bindings :=
    .swap ..
  have hbuilt : identified.Built [⟨other, .const ⟨"x1"⟩⟩, ⟨person, .var other⟩] :=
    .bind (.single _) (Substitution.bind_eq_ok.mpr (.refl _))
  obtain ⟨hrun, -, hperm, -⟩ := Substitution.canonical
  exact ⟨hbuilt, (hrun _ _ hbuilt).2.1,
    (hperm _ _ hswap identified).mpr (Substitution.ofBindings_eq_ok.mpr (.refl _))⟩

end Epidemic

end LiftedElimination
