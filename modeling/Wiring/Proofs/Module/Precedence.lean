import Wiring.Proofs.Module.StableOrder
import Wiring.Proofs.Resolution.Reachable

/-!
Which module decides a binding.

Of several modules that register one key each two are related by overrides. One of them overrides all
others; what it registers is the effective binding, and no other strategy for the key is ever run.
-/

set_option autoImplicit false

namespace Wiring

open Relation OverrideGraph

namespace Assembly

/-- The error is that of a module, if these are configured one after another, or else that of freezing what
they leave. -/
def FailsWith (config : Config) (ms xs : List Module) (e : BuildError) : Prop :=
  let c := Module.configureAll xs (declared config ms)
  match c.outcome with
  | .error cause => ∃ m ∈ xs, e = .configure m.id cause
  | .ok _ => ∃ cause, c.builder.finalize.1 = .error cause ∧ e = .bind cause

/-- The candidates for a key whose registration is accepted while the modules are applied. -/
def acceptedFor (a : Assembly) (key : Key) : List Candidate :=
  Operation.accepted key.ident (.withConfig a.config) a.build.tried

structure Ranked (ms : List Module) (cs : List Candidate) : Prop where
  source : ∀ c ∈ cs, ∃ m ∈ ms, c.source = .module m.id
  related : cs.Pairwise fun c d => Supersedes ms c.source d.source ∨ Supersedes ms d.source c.source

/-- The candidate is one of those given, from a module that overrides all the others and that none of
them overrides. -/
def Prevails (ms : List Module) (c : Candidate) (cs : List Candidate) : Prop :=
  ∃ rest, cs.Perm (c :: rest) ∧
    ∀ d ∈ rest, Supersedes ms c.source d.source ∧ ¬ Supersedes ms d.source c.source

variable {a : Assembly} {b : Builder} {tried : List Operation} {key : Key} {c : Candidate}

theorem Declared.prevails_iff {config : Config} {ms : List Module} {cs : List Candidate}
    (h : Declared config ms b) :
    Prevails ms c cs ↔ Builder.effective? b.overrides cs = some c := by
  simp only [Builder.effective?_eq_some, Prevails, Builder.precedes_iff, h.above_iff]

theorem Sound.candidatesOf (h : Sound a b tried) (key : Key) :
    Pending.candidatesOf (b.at? key.ident) =
      Operation.accepted key.ident (.withConfig a.config) tried := by
  rw [h.run]
  exact Operation.candidatesOf_runAll (.withConfig a.config) tried key.ident

theorem Sound.ranked (h : Sound a b tried) (key : Key) :
    Ranked a.modules (Operation.accepted key.ident (.withConfig a.config) tried) := by
  refine ⟨fun c hc => ?_, ?_⟩
  · obtain ⟨k, binding, hm⟩ := Operation.mem_accepted hc
    rcases (h.tried _ hm).2 with ⟨_, _, hop⟩ | ⟨m, hm, hfrom⟩
    · contradiction
    · exact ⟨m, hm, hfrom⟩
  · rw [← h.candidatesOf]
    cases hat : b.at? key.ident with
    | none => exact List.Pairwise.nil
    | some p =>
      cases p with
      | aggregate g => exact List.Pairwise.nil
      | candidates cs =>
        refine (h.coherent.entries _ _ hat).2.imp fun hcd => ?_
        rwa [h.declared.above_iff, h.declared.above_iff] at hcd

theorem Sound.view_iff (h : Sound a b tried) :
    b.view key.ident = some (.binding c) ↔
      Prevails a.modules c (Operation.accepted key.ident (.withConfig a.config) tried) := by
  rw [← h.candidatesOf, h.declared.prevails_iff, Builder.view]
  cases b.at? key.ident with
  | none => simp [Pending.candidatesOf, Builder.effective?, Builder.effectiveAmong]
  | some p =>
    cases p with
    | aggregate g =>
      simp [Pending.frozen?, Pending.candidatesOf, Builder.effective?, Builder.effectiveAmong]
    | candidates cs => simp [Pending.frozen?, Pending.candidatesOf]

theorem Sound.exists_prevails (h : Sound a b tried) (key : Key)
    (hn : Operation.accepted key.ident (.withConfig a.config) tried ≠ []) :
    ∃ c, Prevails a.modules c (Operation.accepted key.ident (.withConfig a.config) tried) := by
  have hrelated : Builder.Related b.overrides
      (Operation.accepted key.ident (.withConfig a.config) tried) := by
    refine (h.ranked key).related.imp fun hcd => ?_
    rwa [h.declared.above_iff, h.declared.above_iff]
  obtain ⟨c, hc⟩ := hrelated.exists_effective h.acyclic hn
  exact ⟨c, h.declared.prevails_iff.mpr hc⟩

end Assembly

namespace World

variable {w v : World} {i : InjectorId} {key : Key} {c : Candidate} {s : Source}

/-- Of a bound key no other strategy is run than the one of its effective binding. -/
theorem Quiet.produced_source (hw : w.Quiet) (hc : (w.registry i).find? key = some (.binding c))
    (he : .produced i (.binding key.ident) s ∈ w.events) : s = c.source := by
  obtain ⟨later, earlier, hsplit⟩ := List.append_of_mem he
  obtain ⟨spot, hspot, hs, _⟩ := hw.recorded.justified later _ earlier hsplit
  rw [Registry.spot?_binding hc] at hspot
  cases hspot
  exact (Option.some.inj hs).symm

theorem Quiet.produced_later {name : String} {j : Injector} (hw : w.Quiet) (hf : j.registry.Frozen)
    (hj : j.cache = []) (hv : Later (w.addInjector name j) v)
    (hc : j.registry.find? key = some (.binding c))
    (he : .produced w.injectors.length (.binding key.ident) s ∈ v.events) : s = c.source := by
  have hadded := hw.inject name hf hj
  obtain ⟨_, hregistry⟩ := hv.registry hadded (i := w.injectors.length) (by simp [addInjector])
  refine (Later.quiet hv hadded).produced_source ?_ he
  rw [hregistry, registry, injector_addInjector, if_pos rfl]
  exact hc

end World

namespace Assembly

theorem configuredAs_of_build {config : Config} {ms : List Module} (hn : (ms.map Module.id).Nodup)
    {j : Injector} (h : (Assembly.mk config ms).build.outcome = .ok j) :
    ∃ order, Stable ms order ∧ ConfiguredAs config ms (pick ms order) (Assembly.mk config ms).build := by
  obtain ⟨infos, hok⟩ := apply_of_build h
  obtain ⟨order, horder⟩ := sort_of_apply hok
  obtain ⟨hnotes, htried, houtcome⟩ := build_of_sort config horder
  refine ⟨order, stable_of_sort hn horder, ?_, hnotes, htried⟩
  cases hc : (Module.configureAll (pick ms order) (declared config ms)).outcome with
  | ok _ => rfl
  | error e =>
    rw [hc] at houtcome
    obtain ⟨m, _, he⟩ := houtcome
    rw [he] at h
    contradiction

theorem failsWith_of_build {config : Config} {ms : List Module} (hn : (ms.map Module.id).Nodup)
    {e : BuildError} (h : (Assembly.mk config ms).build.outcome = .error e) :
    (∃ m, TransGen (Overrides ms) m m) ∨
      ∃ order, Stable ms order ∧ FailsWith config ms (pick ms order) e := by
  by_cases hcycle : ∃ m, TransGen (Overrides ms) m m
  · exact .inl hcycle
  · obtain ⟨order, horder⟩ := (sort_ordered_iff hn).mpr (not_exists.mp hcycle)
    obtain ⟨_, _, houtcome⟩ := build_of_sort config horder
    refine .inr ⟨order, stable_of_sort hn horder, ?_⟩
    simp only [FailsWith]
    cases hc : (Module.configureAll (pick ms order) (declared config ms)).outcome with
    | error cause =>
      rw [hc] at houtcome
      obtain ⟨m, hm, he⟩ := houtcome
      rw [h] at he
      exact ⟨m, hm, Except.error.inj he⟩
    | ok _ =>
      rw [hc] at houtcome
      dsimp only at houtcome ⊢
      rw [h] at houtcome
      split at houtcome
      · rename_i cause hfinal
        exact ⟨cause, hfinal, Except.error.inj houtcome⟩
      · contradiction

/-- Overrides between modules decide. A build fails for a cycle of overrides, in a module, or as freezing does,
but never for an ambiguous override. One that succeeds has configured the modules in their stable order and
frozen what they left. Then each key with accepted registrations is bound to the one of the only module that
overrides the others, and no run of the injector ever runs a strategy that another module registered for it. -/
theorem build_precedence (config : Config) (ms : List Module) :
    let built := (ofModules config ms).build
    match built.outcome with
    | .error e => (∀ key, e ≠ .bind (.ambiguousOverride key)) ∧
        ((∃ m, TransGen (Overrides (Module.kept ms)) m m) ∨ ∃ order, Stable (Module.kept ms) order ∧
          FailsWith config (Module.kept ms) (pick (Module.kept ms) order) e)
    | .ok j =>
      (∃ order, Stable (Module.kept ms) order ∧
        ConfiguredAs config (Module.kept ms) (pick (Module.kept ms) order) built) ∧
      (Operation.runAll (.withConfig config) built.tried).2.finalize.1 = .ok j.registry ∧
      ∀ key,
      ((ofModules config ms).acceptedFor key ≠ [] → ∃ c, j.registry.find? key = some (.binding c)) ∧
      ∀ c, j.registry.find? key = some (.binding c) →
        Ranked (Module.kept ms) ((ofModules config ms).acceptedFor key) ∧
        Prevails (Module.kept ms) c ((ofModules config ms).acceptedFor key) ∧
        (∀ d, Prevails (Module.kept ms) d ((ofModules config ms).acceptedFor key) → d = c) ∧
        ∀ (w v : World) (name : String), w.Reachable → World.Later (w.addInjector name j) v →
          ∀ s, .produced w.injectors.length (.binding key.ident) s ∈ v.events → s = c.source := by
  intro built
  have hn := Module.nodup_kept ms
  rcases build_cases (a := ofModules config ms) hn with
    ⟨j, ho, hcache, hs, hfreeze⟩ | ⟨e, ho, hkind⟩ <;> simp only [built, ho]
  · have hfinal : (Operation.runAll (.withConfig config) (ofModules config ms).build.tried).2.finalize.1 =
        .ok j.registry := by
      have hrun : (ofModules config ms).apply.builder =
          (Operation.runAll (.withConfig config) (ofModules config ms).build.tried).2 := hs.run
      rw [← hrun, Builder.finalize_of_open hs.declared.unfrozen, hfreeze]
    refine ⟨configuredAs_of_build hn ho, hfinal, fun key => ?_⟩
    have hspec := Builder.freeze_spec hs.coherent.sorted
    rw [hfreeze] at hspec
    obtain ⟨_, _, hview, _⟩ := hspec
    have hbound : ∀ c, j.registry.find? key = some (.binding c) ↔
        Prevails (Module.kept ms) c ((ofModules config ms).acceptedFor key) := by
      intro c
      rw [Registry.find?_eq_at, hview]
      exact hs.view_iff
    refine ⟨fun hne => ?_, fun c hc => ⟨hs.ranked key, (hbound c).mp hc, fun d hd => ?_, ?_⟩⟩
    · obtain ⟨c, hc⟩ := hs.exists_prevails key hne
      exact ⟨c, (hbound c).mpr hc⟩
    · have hd := (hbound d).mpr hd
      rw [hc] at hd
      cases hd
      rfl
    · intro w v name hw hv s he
      have hfrozen : j.registry.Frozen := by
        refine Registry.frozen_of_freeze (fun op hop => (hs.tried op hop).1) ?_ (hs.run ▸ hfreeze)
        rw [← hs.run]
        exact hs.declared.unfrozen
      exact hw.quiet.produced_later hfrozen hcache hv hc he
  · refine ⟨fun key => ?_, failsWith_of_build hn ho⟩
    rcases hkind with ⟨path, rfl⟩ | ⟨m, cause, rfl⟩ | ⟨k, asker, rfl⟩ <;> simp

/-- Two modules bind one key, and both registrations are accepted. The key is bound to that of the overriding
one, which is the one that is run. -/
theorem build_precedence_base_patch :
    (ofModules {} [baseModule, patchModule]).acceptedFor alphaKey =
      [valueOf baseModule baseObject, valueOf patchModule patchObject] ∧
    ∃ j, (ofModules {} [baseModule, patchModule]).build.outcome = .ok j ∧
      j.registry.find? alphaKey = some (.binding (valueOf patchModule patchObject)) ∧
      Prevails [baseModule, patchModule] (valueOf patchModule patchObject)
        [valueOf baseModule baseObject, valueOf patchModule patchObject] ∧
      ∃ v, World.Later (({} : World).addInjector "main" j) v ∧
        .produced 0 (.binding alphaKey.ident) (.module patchModule.id) ∈ v.events ∧
        ∀ s, .produced 0 (.binding alphaKey.ident) s ∈ v.events → s = .module patchModule.id := by
  obtain ⟨⟨infos, hj⟩, htried⟩ := build_base_patch
  have haccepted : (ofModules {} [baseModule, patchModule]).acceptedFor alphaKey =
      [valueOf baseModule baseObject, valueOf patchModule patchObject] := by
    simp only [acceptedFor, htried]
    cbv
  have hfind : patchedRegistry.find? alphaKey = some (.binding (valueOf patchModule patchObject)) := rfl
  have hprecedence := build_precedence {} [baseModule, patchModule]
  simp only [hj] at hprecedence
  obtain ⟨_, _, hkeys⟩ := hprecedence
  obtain ⟨_, hbound⟩ := hkeys alphaKey
  obtain ⟨_, hprevails, _, hruns⟩ := hbound _ hfind
  rw [haccepted] at hprevails
  have hlater : World.Later (({} : World).addInjector "main" { registry := patchedRegistry, modules := infos })
      ((({} : World).addInjector "main" { registry := patchedRegistry, modules := infos }).after
        (World.fetch 0 (.of alphaKey))) := ReflTransGen.single (.fetch 0 _)
  have hevents : ((({} : World).addInjector "main" { registry := patchedRegistry, modules := infos }).after
      (World.fetch 0 (.of alphaKey))).events =
        [.yielded 0 (.binding alphaKey.ident) (.object patchObject),
          .produced 0 (.binding alphaKey.ident) (.module patchModule.id),
          .requested 0 alphaKey [] [[]]] := rfl
  exact ⟨haccepted, _, hj, hfind, hprevails, _, hlater, by simp [hevents],
    hruns {} _ "main" .refl hlater⟩

end Assembly

end Wiring
