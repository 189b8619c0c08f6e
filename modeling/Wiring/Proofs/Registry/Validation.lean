import Wiring.Proofs.Registry.Graph

/-!
What validation looks at.

Validation reads the entries that the registry is going to have: of each key the candidate that takes
precedence, or the contributions that stand. Only their direct dependencies count, and only what is neither
bound nor the injector is missing. Without validation the same registrations freeze to the same entries.
-/

set_option autoImplicit false

namespace Wiring

namespace Builder

variable {b : Builder} {a : Ident} {key asker : Key}

/-- The binding counts for an identity: it is that of the candidate that takes precedence over all others, or
that of a contribution that stands. -/
inductive InForce (b : Builder) (a : Ident) : Binding → Prop where
  | candidate {cs rest : List Candidate} {c : Candidate} : b.at? a = some (.candidates cs) →
      cs.Perm (c :: rest) → (∀ d ∈ rest, precedes b.overrides c d) → InForce b a c.binding
  | contribution {g : Aggregate} {c : Contribution} : b.at? a = some (.aggregate g) →
      c ∈ g.contributions → InForce b a c.binding

theorem view_eq_binding {c : Candidate} : b.view a = some (.binding c) ↔
    ∃ cs, b.at? a = some (.candidates cs) ∧ effective? b.overrides cs = some c := by
  unfold view
  cases b.at? a with
  | none => simp
  | some p =>
    cases p with
    | aggregate g => simp [Pending.frozen?]
    | candidates cs => simp [Pending.frozen?]

theorem view_eq_aggregate {g : Aggregate} :
    b.view a = some (.aggregate g) ↔ b.at? a = some (.aggregate g) := by
  unfold view
  cases b.at? a with
  | none => simp
  | some p =>
    cases p with
    | aggregate g' => simp [Pending.frozen?]
    | candidates cs => simp [Pending.frozen?]

theorem inForce_dependency {d : Dependency} : (∃ x, b.InForce a x ∧ d ∈ x.dependencies) ↔
    ∃ e, b.view a = some e ∧ d ∈ e.dependencies := by
  constructor
  · rintro ⟨x, hx, hd⟩
    cases hx with
    | candidate hcs hperm hprecedes =>
      exact ⟨_, view_eq_binding.mpr ⟨_, hcs, effective?_eq_some.mpr ⟨_, hperm, hprecedes⟩⟩, hd⟩
    | contribution hg hc =>
      exact ⟨_, view_eq_aggregate.mpr hg, List.mem_flatMap.mpr ⟨_, hc, hd⟩⟩
  · rintro ⟨e, he, hd⟩
    cases e with
    | binding c =>
      obtain ⟨cs, hcs, hc⟩ := view_eq_binding.mp he
      obtain ⟨rest, hperm, hprecedes⟩ := effective?_eq_some.mp hc
      exact ⟨_, .candidate hcs hperm hprecedes, hd⟩
    | aggregate g =>
      obtain ⟨c, hc, hd⟩ := List.mem_flatMap.mp hd
      exact ⟨_, .contribution (view_eq_aggregate.mp he) hc, hd⟩

def relaxed (b : Builder) : Builder := { b with config := { b.config with validate := false } }

@[simp] theorem isFinalized_relaxed (b : Builder) : b.relaxed.isFinalized = b.isFinalized := rfl

@[simp] theorem entries_relaxed (b : Builder) : b.relaxed.entries = b.entries := rfl

@[simp] theorem overrides_relaxed (b : Builder) : b.relaxed.overrides = b.overrides := rfl

@[simp] theorem defaultScope_relaxed (b : Builder) :
    b.relaxed.config.defaultScope = b.config.defaultScope := rfl

@[simp] theorem write_relaxed (b : Builder) (k : Key) (p : Pending) :
    b.relaxed.write k p = (b.write k p).relaxed := rfl

/-- What is reported missing is a direct dependency of the key that is named, and nothing else is in the way
of freezing. -/
theorem freeze_unsatisfied (hs : b.entries.Sorted)
    (h : b.freeze = .error (.unsatisfied key asker)) :
    key.isInjector = false ∧ b.at? key.ident = none ∧
      (∃ e, b.view asker.ident = some e ∧ .direct key ∈ e.dependencies) ∧
      ∃ r, b.relaxed.freeze = .ok r ∧ r.at? = b.view := by
  unfold freeze at h
  cases hf : freezeEntries b.overrides b.entries.entries with
  | error e =>
    rw [hf] at h
    obtain ⟨x, _, he, _⟩ := freezeEntries_eq_error hf
    cases h
    cases he
  | ok entries =>
    have hall := freezeEntries_eq_ok.mp hf
    have hview : KeyMap.at? ⟨entries⟩ = b.view := funext fun a => at?_frozen hall a
    have hrelaxed : b.relaxed.freeze = .ok { entries := ⟨entries⟩, config := b.relaxed.config } := by
      have hf' : freezeEntries b.relaxed.overrides b.relaxed.entries.entries = .ok entries := hf
      simp only [freeze, hf']
      rfl
    rw [hf] at h
    dsimp only at h
    split at h
    · split at h
      · rename_i e hm
        cases h
        obtain ⟨_, x, hx, he, hdirect, hinj, habsent⟩ := firstMissing_eq_some hm
        cases he
        rw [hview] at habsent
        have hcounts := freeze_spec (b := b.relaxed) hs
        rw [hrelaxed] at hcounts
        refine ⟨hinj, ?_, ⟨x.2, ?_, hdirect⟩, _, hrelaxed, hview⟩
        · cases hp : b.at? key.ident with
          | none => rfl
          | some p =>
            obtain ⟨e, he⟩ := hcounts.2.2.2.1 key.ident p hp
            simp [view, hp, show p.frozen? b.overrides = some e from he] at habsent
        · rw [← hview]
          exact (sorted_frozen hall hs).at?_of_mem hx
      · cases h
    · cases h

/-- Freezing goes through exactly if some candidate counts for each key and what counts has the direct
dependencies that it needs. -/
theorem freeze_ok_iff (hs : b.entries.Sorted) (hv : b.config.validate = true) :
    (∃ r, b.freeze = .ok r) ↔
      (∀ a, (b.at? a).isSome → ∃ e, b.view a = some e) ∧
      ∀ a x d, b.InForce a x → d ∈ x.dependencies → d.kind = .direct → d.key.isInjector = false →
        (b.at? d.key.ident).isSome := by
  have hspec := freeze_spec hs
  constructor
  · rintro ⟨r, hr⟩
    rw [hr] at hspec
    obtain ⟨_, _, _, hcounts, hclosed⟩ := hspec
    refine ⟨fun a ha => ?_, fun a x d hx hd hkind hinj => ?_⟩
    · obtain ⟨p, hp⟩ := Option.isSome_iff_exists.mp ha
      obtain ⟨e, he⟩ := hcounts a p hp
      exact ⟨e, Option.bind_eq_some_iff.mpr ⟨p, hp, he⟩⟩
    · obtain ⟨e, he, hde⟩ := inForce_dependency.mp ⟨x, hx, hd⟩
      have hbound := hclosed hv a e he d hde hkind hinj
      rw [view, Option.isSome_bind] at hbound
      exact Option.isSome_of_any hbound
  · rintro ⟨hcounts, hbound⟩
    cases hf : b.freeze with
    | ok r => exact ⟨r, rfl⟩
    | error e =>
      rw [hf] at hspec
      rcases hspec with ⟨_, a, p, hp, hnone⟩ | ⟨_, _, hopen⟩
      · obtain ⟨e, he⟩ := hcounts a (by rw [hp]; rfl)
        rw [view, hp, Option.bind_some, hnone] at he
        contradiction
      · refine absurd (fun a e he d hd hkind hinj => ?_) hopen
        obtain ⟨x, hx, hdx⟩ := inForce_dependency.mpr ⟨e, he, hd⟩
        obtain ⟨e', he'⟩ := hcounts _ (hbound a x d hx hdx hkind hinj)
        rw [he']
        rfl

end Builder

namespace Operation

variable {b : Builder}

theorem apply_relaxed (b : Builder) {op : Operation} (ho : op ≠ .finalize) :
    op.apply b.relaxed = ((op.apply b).1, (op.apply b).2.relaxed) := by
  cases hf : b.isFinalized with
  | true =>
    cases op with
    | finalize => contradiction
    | declareOverride x y => simp [apply, Builder.declareOverride, hf]
    | _ => rw [apply_frozen hf rfl, apply_frozen (b := b.relaxed) hf rfl]
  | false =>
    cases op with
    | register key binding source =>
      simp only [apply, Builder.register, Builder.isFinalized_relaxed, hf, Builder.entries_relaxed,
        Builder.overrides_relaxed, Builder.defaultScope_relaxed, Builder.write_relaxed]
      by_cases ht : binding.provides.id = key.type.id
      · cases b.entries.find? key with
        | none => simp [ht]
        | some p =>
          cases p with
          | aggregate g => simp [ht]
          | candidates cs =>
            cases hc : cs.find? fun c => Builder.unrelated b.overrides source c.source <;> simp [ht, hc]
      · simp [ht]
    | declareAggregate key shape =>
      simp only [apply, Builder.declareAggregate, Builder.isFinalized_relaxed, hf,
        Builder.entries_relaxed, Builder.defaultScope_relaxed, Builder.write_relaxed]
      cases b.entries.find? key with
      | none => simp
      | some p => cases p <;> simp
    | contribute key binding source mapKey =>
      simp only [apply, Builder.contribute, Builder.isFinalized_relaxed, hf, Builder.entries_relaxed,
        Builder.overrides_relaxed, Builder.defaultScope_relaxed, Builder.write_relaxed]
      cases b.entries.find? key with
      | none => simp
      | some p =>
        cases p with
        | candidates cs => simp
        | aggregate g =>
          cases hg : g.insert b.overrides.isOverriding key
            ⟨binding.withDefaultScope b.config.defaultScope, source, mapKey⟩ <;> simp [hg]
    | setAggregateScope key scope =>
      simp only [apply, Builder.setAggregateScope, Builder.isFinalized_relaxed, hf,
        Builder.entries_relaxed, Builder.write_relaxed]
      cases b.entries.find? key with
      | none => simp
      | some p => cases p <;> simp
    | declareOverride x y =>
      simp only [apply, Builder.declareOverride, Builder.isFinalized_relaxed, hf]
      rfl
    | finalize => contradiction

/-- Unless the registry is frozen in between, what a run registers is registered by a run without validation
as well. -/
theorem exists_runAll_relaxed {ops : List Operation} (hf : (runAll b ops).2.finalized = none) :
    ∃ more, (∀ op ∈ more, op ∈ ops) ∧ (runAll b.relaxed more).2 = (runAll b ops).2.relaxed := by
  induction ops generalizing b with
  | nil => exact ⟨[], by simp, rfl⟩
  | cons op rest ih =>
    obtain ⟨more, hsub, hmore⟩ := ih (b := (op.apply b).2) hf
    by_cases ho : op = .finalize
    · -- An attempt to freeze that fails leaves the builder as it was.
      have hsame : (op.apply b).2 = b := by
        subst ho
        rcases apply_cases b .finalize with ⟨e, ha⟩ | ⟨_, _, _, hk, _⟩ | ⟨_, _, ho, _⟩ | ⟨_, r, _, ha⟩
        · rw [ha]
        · cases hk
        · cases ho
        · have hfrozen : (runAll (apply b .finalize).2 rest).2.finalized = some r := by
            refine runAll_induction (P := fun c => c.finalized = some r) rest (fun c op _ hc => ?_) ?_
            · rw [apply_of_finalized hc]
              exact hc
            · rw [ha]
          exact absurd (hf.symm.trans hfrozen) (by simp)
      rw [hsame] at hmore
      refine ⟨more, fun o h => List.mem_cons_of_mem _ (hsub o h), ?_⟩
      rw [hmore]
      simp only [runAll, hsame]
    · refine ⟨op :: more, fun o h => ?_, ?_⟩
      · rcases List.mem_cons.mp h with rfl | h
        · exact List.mem_cons_self
        · exact List.mem_cons_of_mem _ (hsub o h)
      · simp only [runAll, apply_relaxed b ho]
        exact hmore

end Operation

namespace Registry

variable {config : Config} {ops : List Operation} {r : Registry}

theorem frozen_of_finalize (ht : ∀ op ∈ ops, op.Typed)
    (h : (Operation.runAll (.withConfig config) ops).2.finalize.1 = .ok r) : r.Frozen := by
  cases hf : (Operation.runAll (.withConfig config) ops).2.finalized with
  | none =>
    rw [Builder.finalize_of_open hf] at h
    exact frozen_of_freeze ht hf h
  | some s =>
    simp only [Builder.finalize, hf] at h
    cases h
    exact ⟨config, ops, ht, hf⟩

theorem frozen_of_relaxed (ht : ∀ op ∈ ops, op.Typed)
    (hopen : (Operation.runAll (.withConfig config) ops).2.finalized = none)
    (h : (Operation.runAll (.withConfig config) ops).2.relaxed.freeze = .ok r) : r.Frozen := by
  obtain ⟨more, hsub, hmore⟩ := Operation.exists_runAll_relaxed hopen
  have hmore' : (Operation.runAll (.withConfig { config with validate := false }) more).2 =
      (Operation.runAll (.withConfig config) ops).2.relaxed := hmore
  rw [← hmore'] at h
  refine frozen_of_freeze (fun op ho => ht op (hsub op ho)) ?_ h
  rw [hmore']
  exact hopen

end Registry

end Wiring
