import Mathlib.Data.List.Permutation
import Wiring.Proofs.Registry.Contributions
import Wiring.Proofs.Resolution.Account
import Wiring.Proofs.Resolution.Moment

set_option autoImplicit false

namespace Wiring

namespace Registry

variable {r : Registry} {i : InjectorId}

theorem lacks_not_of_closed (hc : Closed r.at?) {key target : Key} {e : Entry}
    (he : r.find? key = some e) (hd : Dependency.direct target ∈ e.dependencies) : ¬ r.Lacks target := by
  intro hlacks
  have hbound := hc key.ident e he _ hd rfl hlacks.1
  rw [Dependency.direct, ← find?_eq_at, hlacks.2] at hbound
  contradiction

theorem Grounded.not_lacks {key target : Key} {e : Entry} (h : r.Grounded key.ident)
    (he : r.find? key = some e) (hd : Dependency.direct target ∈ e.dependencies) : ¬ r.Lacks target := by
  intro hlacks
  have htarget : r.Grounded target.ident := h.edge ⟨e, he, _, hd, rfl, hlacks.1, rfl⟩
  cases htarget with
  | intro hb _ =>
    rw [← find?_eq_at, hlacks.2] at hb
    contradiction

end Registry

namespace World

variable {m : World} {i : InjectorId} {key : Key}

/-- In a registry that is closed under direct dependencies nothing is missing for what is bound. -/
theorem Moment.not_unsatisfied (hm : m.Moment) (hc : Closed (m.registry i).at?)
    (hb : ¬ (m.registry i).Lacks key) (missing : Key) (asker : Option Key) (v : World) :
    resolve i key m ≠ .error (.error (.unsatisfied missing asker)) v := by
  intro h
  have hleads : (Account.among (m.registry i) i m.events (fun k => ¬ (m.registry i).Lacks k)
      fun _ _ _ he hd => Registry.lacks_not_of_closed hc he hd).leads (m.underConstruction i) key := hb
  obtain ⟨hbound, hlacks⟩ := hm.inv.resolve_ends hleads h
  exact hbound hlacks

theorem Moment.not_resolved (hm : m.Moment) (hinj : key.isInjector = false) {e : Entry} {target : Key}
    (he : (m.registry i).find? key = some e) (hd : Dependency.direct target ∈ e.dependencies)
    (hlacks : (m.registry i).Lacks target) (a : Instance) (v : World) : resolve i key m ≠ .ok a v := by
  intro h
  have hgood := resolve_good hm.inv i key
  rw [h] at hgood
  exact (hgood.2.2 hinj).1.not_lacks he hd hlacks

theorem resolve_injector (hinj : key.isInjector = true) :
    resolve i key m = .ok (.injector i) (m.requested i key) :=
  Resolution.request_injector hinj

/-- What a key resolves to of which a direct dependency is missing: nothing, unless it is the injector's. -/
theorem Moment.resolve_blamed (hm : m.Moment) {e : Entry} {target : Key}
    (he : (m.registry i).find? key = some e) (hd : Dependency.direct target ∈ e.dependencies)
    (hlacks : (m.registry i).Lacks target) :
    if key.isInjector then resolve i key m = .ok (.injector i) (m.requested i key)
    else ∀ a v, resolve i key m ≠ .ok a v := by
  split
  · rename_i hinj
    exact resolve_injector hinj
  · rename_i hinj
    exact hm.not_resolved (Bool.eq_false_of_not_eq_true hinj) he hd hlacks

/-- Validation is sound and not too strict. If it lets a registry pass, no request of a bound key ever finds a
dependency missing. If it reports one, what counts for the key that is blamed does depend on it directly, and
the key cannot be resolved in the registry that the same registrations freeze to without validation. It lets
every registry pass in which what counts has its direct dependencies; what is overridden or replaced does not
count, and of the contributions under one map key only one stands. -/
theorem finalize_validated {config : Config} {ops : List Operation} {b : Builder}
    (ht : ∀ op ∈ ops, op.Typed) (hb : (Operation.runAll (.withConfig config) ops).2 = b)
    (hv : config.validate = true) :
    (∀ r, b.finalize.1 = .ok r → r.Frozen ∧
      ∀ m i key, Moment m → m.registry i = r → r.contains key = true →
        ∀ missing asker v, resolve i key m ≠ .error (.error (.unsatisfied missing asker)) v) ∧
    (∀ key asker, b.finalize.1 = .error (.unsatisfied key asker) →
      key.isInjector = false ∧ b.contains key = false ∧
      (∃ x, b.InForce asker.ident x ∧ .direct key ∈ x.dependencies) ∧
      ∃ r, b.relaxed.finalize.1 = .ok r ∧ r.Frozen ∧ ∀ m i, Moment m → m.registry i = r →
        if asker.isInjector then resolve i asker m = .ok (.injector i) (m.requested i asker)
        else ∀ a v, resolve i asker m ≠ .ok a v) ∧
    ((∃ r, b.finalize.1 = .ok r) ↔ (∀ a, (b.at? a).isSome → ∃ e, b.view a = some e) ∧
      ∀ a x d, b.InForce a x → d ∈ x.dependencies → d.kind = .direct → d.key.isInjector = false →
        (b.at? d.key.ident).isSome) ∧
    ∀ a g, b.at? a = some (.aggregate g) →
      ∀ c ∈ g.contributions, ∀ k, c.mapKey = some k → g.at? k = some c := by
  have hcoherent : b.Coherent := hb ▸ Operation.coherent_runAll (Builder.coherent_withConfig config) ops
  have hsealed : b.Sealed := hb ▸ Operation.sealed_runAll (Builder.sealed_withConfig config) ops
  have hconfig : b.config.validate = true := by
    rw [← hb, Operation.config_runAll]
    exact hv
  have hspec := Builder.freeze_spec hcoherent.sorted
  rw [hsealed.finalize]
  refine ⟨fun r hr => ⟨?_, fun m i key hm hi hkey missing asker v => ?_⟩,
    fun key asker hr => ?_, Builder.freeze_ok_iff hcoherent.sorted hconfig, fun a g hg c hc k hk => ?_⟩
  · subst hb
    rw [← hsealed.finalize] at hr
    exact Registry.frozen_of_finalize ht hr
  · subst hi
    rw [hr] at hspec
    refine hm.not_unsatisfied (hspec.2.2.1 ▸ hspec.2.2.2.2 hconfig) (fun hlacks => ?_) missing asker v
    rw [Registry.contains, KeyMap.contains_eq_isSome] at hkey
    rw [← Registry.at?, ← Registry.find?_eq_at, hlacks.2] at hkey
    contradiction
  · obtain ⟨hinj, habsent, ⟨e, he, hd⟩, r, hr', hview⟩ := Builder.freeze_unsatisfied hcoherent.sorted hr
    have hopen := hsealed.open_of_error hr
    have hcontains : b.contains key = false := by
      rw [Builder.contains, hopen, KeyMap.contains_eq_isSome]
      exact congrArg Option.isSome habsent
    have hfrozen : r.Frozen := by
      subst hb
      exact Registry.frozen_of_relaxed ht hopen hr'
    refine ⟨hinj, hcontains, Builder.inForce_dependency.mpr ⟨e, he, hd⟩, r, ?_, hfrozen,
      fun m i hm hi => ?_⟩
    · rw [Builder.finalize_of_open (b := b.relaxed) hopen]
      exact hr'
    · subst hi
      have hlacks : (m.registry i).Lacks key := by
        refine ⟨hinj, ?_⟩
        rw [Registry.find?_eq_at, hview, Builder.view, habsent]
        rfl
      rw [← hview] at he
      exact hm.resolve_blamed he hd hlacks
  · subst hb
    exact (Builder.distinct_runAll hg).at?_of_mem hc hk

def gapKey : Key := .of (.value .alpha)

def absentKey : Key := .of (.value .beta)

def strictConfig : Config := { validate := true }

def lowerModule : ModuleId := ⟨.module .a, .number 0⟩

def upperModule : ModuleId := ⟨.module .b, .number 0⟩

/-- A binding that needs a key that nobody binds, and one that overrides it and needs the key `points`. -/
def gapOperations (points : List Point) : List Operation :=
  [.declareOverride upperModule lowerModule,
    .register gapKey ⟨.alias (.named (.value .alpha) "nowhere"), none⟩ (.module lowerModule),
    .register gapKey ⟨.construct (.value .alpha) points fun _ => .done ⟨.alpha "gap", []⟩ rfl, none⟩
      (.module upperModule)]

/-- A key that only an overridden binding needs, or that is needed on demand, may be missing. One that is
needed at once may not, and without validation it leaves a key that never resolves. -/
theorem finalize_validated_gap :
    (Operation.runAll (.withConfig strictConfig)
      (gapOperations [.lazy absentKey false])).2.finalize.1.toOption.isSome = true ∧
    (Operation.runAll (.withConfig strictConfig)
      (gapOperations [.inject absentKey false])).2.finalize.1 =
        .error (.unsatisfied absentKey gapKey) ∧
    ∃ r, (Operation.runAll (.withConfig strictConfig)
        (gapOperations [.inject absentKey false])).2.relaxed.finalize.1 = .ok r ∧
      ∀ a v, resolve 0 gapKey (({} : World).addInjector "main" { registry := r }) ≠ .ok a v := by
  have htyped : ∀ op ∈ gapOperations [.inject absentKey false], op.Typed := by
    simp [gapOperations, Operation.Typed]
  have hmissing : (Operation.runAll (.withConfig strictConfig)
      (gapOperations [.inject absentKey false])).2.finalize.1 =
        .error (.unsatisfied absentKey gapKey) := by cbv
  have hstrict : strictConfig.validate = true := rfl
  obtain ⟨_, hreports, _⟩ := finalize_validated htyped rfl hstrict
  obtain ⟨_, _, _, r, hr, hfrozen, hnever⟩ := hreports absentKey gapKey hmissing
  have hreachable : (({} : World).addInjector "main" { registry := r }).Reachable :=
    Relation.ReflTransGen.single (.inject "main" hfrozen rfl)
  exact ⟨by cbv, hmissing, r, hr, hnever _ 0 hreachable.moment rfl⟩

end World

end Wiring
