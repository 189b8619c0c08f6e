import Mathlib.Data.List.Permutation
import Wiring.Proofs.Module.Overrides

set_option autoImplicit false

namespace Wiring

open OverrideGraph

namespace Operation

/-- An operation that a module can try: it is about a key, and attributed to the module. -/
def From (s : Source) : Operation → Prop
  | register _ _ t => t = s
  | contribute _ _ t _ => t = s
  | declareAggregate .. => True
  | setAggregateScope .. => True
  | declareOverride .. => False
  | finalize => False

theorem From.subject {s : Source} {op : Operation} (h : op.From s) :
    ∃ key, op.subject? = some key := by
  cases op with
  | register key => exact ⟨key, rfl⟩
  | contribute key => exact ⟨key, rfl⟩
  | declareAggregate key => exact ⟨key, rfl⟩
  | setAggregateScope key => exact ⟨key, rfl⟩
  | declareOverride => exact h.elim
  | finalize => exact h.elim

theorem tried_mem {b : Builder} {ops : List Operation} {op : Operation}
    (h : op ∈ (applyAll b ops).2.1) : op ∈ ops := by
  induction ops generalizing b with
  | nil => exact h
  | cons o rest ih =>
    simp only [applyAll] at h
    generalize o.apply b = r at h
    obtain ⟨outcome, left⟩ := r
    cases outcome with
    | error e => exact List.mem_cons.mpr (.inl (List.mem_singleton.mp h))
    | ok _ => exact List.mem_cons.mpr ((List.mem_cons.mp h).imp_right ih)

theorem mem_accepted {a : Ident} {b : Builder} {ops : List Operation} {c : Candidate}
    (h : c ∈ accepted a b ops) : ∃ key binding, .register key binding c.source ∈ ops := by
  induction ops generalizing b with
  | nil => contradiction
  | cons op rest ih =>
    have later : c ∈ accepted a (op.apply b).2 rest →
        ∃ key binding, .register key binding c.source ∈ op :: rest := by
      intro hc
      obtain ⟨key, binding, hm⟩ := ih hc
      exact ⟨key, binding, List.mem_cons_of_mem _ hm⟩
    simp only [accepted] at h
    split at h
    · rename_i left hop
      rcases List.mem_append.mp h with hc | hc
      · cases op with
        | register key binding source =>
          simp only [candidate?, Option.mem_toList] at hc
          split at hc
          · cases hc
            exact ⟨key, binding, List.mem_cons_self⟩
          · contradiction
        | _ => simp [candidate?] at hc
      · exact later (by rwa [hop])
    · rename_i e left hop
      exact later (by rwa [hop])

end Operation

namespace Directive

theorem operations_from (s : Source) (d : Directive) :
    ∀ op ∈ d.operations s, op.From s ∧ op.Typed := by
  intro op h
  cases d with
  | bind key binding =>
    rw [List.mem_singleton.mp h]
    exact ⟨rfl, trivial⟩
  | register key binding =>
    rw [List.mem_singleton.mp h]
    exact ⟨rfl, trivial⟩
  | collection shape q parts fits =>
    rcases List.mem_cons.mp h with rfl | h
    · exact ⟨trivial, rfl⟩
    · obtain ⟨part, hpart, rfl⟩ := List.mem_map.mp h
      cases part with
      | scope s => exact ⟨trivial, trivial⟩
      | contribution mapKey binding =>
        refine ⟨rfl, fun shape' hshape => ?_⟩
        cases hshape
        exact of_decide_eq_true (fits _ hpart)
  | aliasChain type stem count scope =>
    obtain ⟨n, _, rfl⟩ := List.mem_map.mp h
    exact ⟨rfl, trivial⟩

end Directive

/-- Whatever becomes of a plan, the builder is what the tried operations made. -/
theorem Plan.run_spec (source : Source) (plan : Plan) (b : Builder) :
    let r := plan.run source b
    r.builder = (Operation.runAll b r.tried).2 ∧ ∀ op ∈ r.tried, op.From source ∧ op.Typed := by
  induction plan generalizing b with
  | done => exact ⟨rfl, by simp [run]⟩
  | fail e => exact ⟨rfl, by simp [run]⟩
  | note n next ih => exact ih b
  | direct d next ih =>
    have hrun := Operation.applyAll_eq_runAll b (d.operations source)
    have hfrom : ∀ op ∈ (Operation.applyAll b (d.operations source)).2.1,
        op.From source ∧ op.Typed :=
      fun op h => d.operations_from source op (Operation.tried_mem h)
    simp only [run]
    generalize Operation.applyAll b (d.operations source) = r at hrun hfrom
    obtain ⟨outcome, tried, left⟩ := r
    obtain ⟨hrest, hrestFrom⟩ := ih outcome left
    refine ⟨?_, fun op h => (List.mem_append.mp h).elim (hfrom op) (hrestFrom op)⟩
    rw [Operation.runAll_append, ← hrun]
    exact hrest

namespace Module

theorem configure_spec (m : Module) (b : Builder) :
    (m.configure b).builder = (Operation.runAll b (m.configure b).tried).2 ∧
      ∀ op ∈ (m.configure b).tried, op.From (.module m.id) ∧ op.Typed :=
  m.steps.run_spec (.module m.id) b

end Module

namespace Assembly

theorem applyInOrder_spec (ms : List Module) (b : Builder) (order : List Nat) :
    let r := applyInOrder ms b order
    r.builder = (Operation.runAll b r.tried).2 ∧
      (∀ op ∈ r.tried, ∃ m ∈ ms, op.From (.module m.id) ∧ op.Typed) ∧
      ∀ e, r.outcome = .error e → ∃ m cause, e = .configure m cause := by
  induction order generalizing b with
  | nil => exact ⟨rfl, by simp [applyInOrder], by simp [applyInOrder]⟩
  | cons index rest ih =>
    simp only [applyInOrder]
    cases hm : ms[index]? with
    | none => exact ih b
    | some m =>
      obtain ⟨hrun, hfrom⟩ := m.configure_spec b
      have hmem : m ∈ ms := List.mem_of_getElem? hm
      dsimp only
      cases hc : (m.configure b).outcome with
      | error e =>
        refine ⟨hrun, fun op h => ⟨m, hmem, hfrom op h⟩, ?_⟩
        rintro _ ⟨⟩
        exact ⟨_, _, rfl⟩
      | ok _ =>
        obtain ⟨hrest, hrestFrom, herror⟩ := ih (m.configure b).builder
        refine ⟨?_, fun op h => ?_, fun e he => ?_⟩
        · rw [Operation.runAll_append, ← hrun]
          exact hrest
        · rcases List.mem_append.mp h with h | h
          · exact ⟨m, hmem, hfrom op h⟩
          · exact hrestFrom op h
        · cases ho : (applyInOrder ms (m.configure b).builder rest).outcome with
          | error d =>
            rw [ho] at he
            cases he
            exact herror _ ho
          | ok infos =>
            rw [ho] at he
            contradiction

structure Sound (a : Assembly) (b : Builder) (tried : List Operation) : Prop where
  run : b = (Operation.runAll (.withConfig a.config) tried).2
  declared : Declared a.config a.modules b
  acyclic : b.overrides.Acyclic
  tried : ∀ op ∈ tried, op.Typed ∧ ((∃ m n, op = .declareOverride m n) ∨
    ∃ m ∈ a.modules, op.From (.module m.id))

theorem Sound.coherent {a : Assembly} {b : Builder} {tried : List Operation}
    (h : Sound a b tried) : b.Coherent := by
  rw [h.run]
  exact Operation.coherent_runAll (Builder.coherent_withConfig _) _

theorem apply_cases {a : Assembly} (hn : (a.modules.map Module.id).Nodup) :
    (∃ path, a.apply.outcome = .error (.cycle path)) ∨
    (∃ m cause, a.apply.outcome = .error (.configure m cause)) ∨
    (∃ infos, a.apply.outcome = .ok infos) ∧ Sound a a.apply.builder a.apply.tried := by
  unfold apply
  cases hs : Sorting.sort a.modules.length (overriders a.modules) with
  | overdrawn => exact .inl ⟨_, rfl⟩
  | cyclic trail => exact .inl ⟨_, rfl⟩
  | ordered order =>
    have hac := (sort_ordered_iff hn).mp ⟨order, hs⟩
    obtain ⟨left, ha, hd, _⟩ := declare_overrides a.config a.modules
    obtain ⟨hrun, hfrom, herror⟩ := applyInOrder_spec a.modules left order
    right
    simp only [ha]
    cases ho : (applyInOrder a.modules left order).outcome with
    | error e =>
      obtain ⟨m, cause, rfl⟩ := herror e ho
      exact .inl ⟨m, cause, rfl⟩
    | ok infos =>
      refine .inr ⟨⟨infos, rfl⟩, ?_⟩
      have hleft : left = (Operation.runAll (.withConfig a.config)
          (overrideOperations a.modules)).2 := by
        have := Operation.applyAll_eq_runAll (.withConfig a.config) (overrideOperations a.modules)
        rwa [ha] at this
      -- Operations of modules leave the declared overrides as they are.
      have hkept : Declared a.config a.modules (applyInOrder a.modules left order).builder := by
        rw [hrun]
        refine Operation.runAll_induction _ (fun b op hop hb => ?_) hd
        obtain ⟨m, _, hm, _⟩ := hfrom op hop
        obtain ⟨hc, hov, hf⟩ := Operation.apply_of_subject b hm.subject
        exact ⟨hc.trans hb.config, hf.trans hb.unfrozen, by rw [hov, hb.overrides]⟩
      refine ⟨?_, hkept, ?_, fun op hop => ?_⟩
      · rw [Operation.runAll_append, ← hleft]
        exact hrun
      · intro m
        rw [hkept.overrides]
        exact hac m
      · rcases List.mem_append.mp hop with hop | hop
        · obtain ⟨m, n, rfl, _⟩ := mem_overrideOperations.mp hop
          exact ⟨trivial, .inl ⟨m, n, rfl⟩⟩
        · obtain ⟨m, hm, hfr, ht⟩ := hfrom op hop
          exact ⟨ht, .inr ⟨m, hm, hfr⟩⟩

theorem build_notes (a : Assembly) :
    a.build.notes = a.apply.notes ∧ a.build.tried = a.apply.tried := by
  simp only [build]
  cases a.apply.outcome with
  | error e => exact ⟨rfl, rfl⟩
  | ok infos => cases a.apply.builder.finalize.1 <;> exact ⟨rfl, rfl⟩

/-- Building from modules succeeds with the frozen registry of a sound builder, or fails by a cycle, in
a module, or for a dependency that is not bound. -/
theorem build_cases {a : Assembly} (hn : (a.modules.map Module.id).Nodup) :
    (∃ j, a.build.outcome = .ok j ∧ j.cache = [] ∧ Sound a a.apply.builder a.build.tried ∧
      a.apply.builder.freeze = .ok j.registry) ∨
    ∃ e, a.build.outcome = .error e ∧ ((∃ path, e = .cycle path) ∨
      (∃ m cause, e = .configure m cause) ∨ ∃ key asker, e = .bind (.unsatisfied key asker)) := by
  unfold build
  rcases apply_cases hn with ⟨path, ho⟩ | ⟨m, cause, ho⟩ | ⟨⟨infos, ho⟩, hs⟩ <;> simp only [ho]
  · exact .inr ⟨_, rfl, .inl ⟨path, rfl⟩⟩
  · exact .inr ⟨_, rfl, .inr (.inl ⟨m, cause, rfl⟩)⟩
  · rw [Builder.finalize_of_open hs.declared.unfrozen]
    have hf := Builder.freeze_spec hs.coherent.sorted
    cases hb : a.apply.builder.freeze with
    | ok r => exact .inl ⟨_, rfl, rfl, hs, rfl⟩
    | error e =>
      rw [hb] at hf
      refine .inr ⟨_, rfl, .inr (.inr ?_)⟩
      rcases hf with ⟨_, i, p, hp, hnone⟩ | ⟨⟨key, asker, rfl⟩, _⟩
      · obtain ⟨entry, hentry⟩ := (hs.coherent.entries i p hp).frozen hs.acyclic
        rw [hentry] at hnone
        contradiction
      · exact ⟨key, asker, rfl⟩

theorem apply_of_build {a : Assembly} {j : Injector} (h : a.build.outcome = .ok j) :
    ∃ infos, a.apply.outcome = .ok infos := by
  cases ho : a.apply.outcome with
  | ok infos => exact ⟨infos, rfl⟩
  | error e =>
    simp only [build, ho] at h
    contradiction

theorem sort_of_apply {a : Assembly} {infos : List ModuleInfo}
    (h : a.apply.outcome = .ok infos) :
    ∃ order, Sorting.sort a.modules.length (overriders a.modules) = .ordered order := by
  cases hs : Sorting.sort a.modules.length (overriders a.modules) with
  | ordered order => exact ⟨order, rfl⟩
  | cyclic trail =>
    simp only [apply, hs] at h
    contradiction
  | overdrawn =>
    simp only [apply, hs] at h
    contradiction

theorem sound_of_apply {a : Assembly} (hn : (a.modules.map Module.id).Nodup)
    {infos : List ModuleInfo} (h : a.apply.outcome = .ok infos) :
    Sound a a.apply.builder a.apply.tried := by
  rcases apply_cases hn with ⟨_, he⟩ | ⟨_, _, he⟩ | ⟨_, hs⟩
  · rw [h] at he
    contradiction
  · rw [h] at he
    contradiction
  · exact hs

theorem build_of_apply {a : Assembly} (hn : (a.modules.map Module.id).Nodup)
    {infos : List ModuleInfo} (h : a.apply.outcome = .ok infos) :
    a.build.outcome = match a.apply.builder.freeze with
      | .ok registry => .ok { registry, modules := infos }
      | .error e => .error (.bind e) := by
  have hopen := (sound_of_apply hn h).declared.unfrozen
  simp only [build, h]
  rw [Builder.finalize_of_open hopen]
  cases a.apply.builder.freeze <;> rfl

def alphaKey : Key := .of (.value .alpha)

def valueModule (type : ModuleType) (overrides : List TypeId) (o : Object) : Module where
  id := ⟨.module type, .number 0⟩
  overrides := overrides
  steps := Plan.ofSteps [{ directive := .register alphaKey { strategy := .fixed o } }]

def valueOf (m : Module) (o : Object) : Candidate :=
  ⟨⟨.fixed o, some ({} : Config).defaultScope⟩, .module m.id⟩

def baseObject : Object := ⟨.fixed 0, .alpha "base", []⟩

def patchObject : Object := ⟨.fixed 1, .alpha "patch", []⟩

def baseModule : Module := valueModule .a [] baseObject

def patchModule : Module := valueModule .b [.module .a] patchObject

def patchedGraph : OverrideGraph := OverrideGraph.declare [] patchModule.id baseModule.id

def baseBuilder : Builder where
  overrides := patchedGraph
  entries := { entries := [(alphaKey, .candidates [valueOf baseModule baseObject])] }

def patchedBuilder : Builder where
  overrides := patchedGraph
  entries := { entries := [(alphaKey, .candidates [valueOf baseModule baseObject,
    valueOf patchModule patchObject])] }

def patchedRegistry : Registry where
  entries := { entries := [(alphaKey, .binding (valueOf patchModule patchObject))] }

theorem sort_base_patch :
    Sorting.sort 2 (overriders [baseModule, patchModule]) = .ordered [0, 1] := by
  have hdrain : Sorting.drain (overriders [baseModule, patchModule])
      (Sorting.start 2 (overriders [baseModule, patchModule])) = some ([0, 1], [0, 0]) := by
    rw [Sorting.drain_cons rfl rfl, Sorting.drain_cons rfl rfl, Sorting.drain_nil rfl]
    rfl
  rw [Sorting.sort, hdrain]
  rfl

theorem build_base_patch :
    (∃ infos, (ofModules {} [baseModule, patchModule]).build.outcome =
      .ok { registry := patchedRegistry, modules := infos }) ∧
    (ofModules {} [baseModule, patchModule]).build.tried =
      [.declareOverride patchModule.id baseModule.id,
        .register alphaKey { strategy := .fixed baseObject } (.module baseModule.id),
        .register alphaKey { strategy := .fixed patchObject } (.module patchModule.id)] := by
  have hsort : Sorting.sort (Module.kept [baseModule, patchModule]).length
      (overriders (Module.kept [baseModule, patchModule])) = .ordered [0, 1] := sort_base_patch
  have hdeclare : Operation.applyAll (.withConfig {})
      (overrideOperations (Module.kept [baseModule, patchModule])) =
        (.ok (), [.declareOverride patchModule.id baseModule.id], { overrides := patchedGraph }) := rfl
  have hbase : baseModule.configure { overrides := patchedGraph } =
      ⟨.ok (), [.configure (.module .a) (.module baseModule.id)],
        [.register alphaKey { strategy := .fixed baseObject } (.module baseModule.id)], baseBuilder⟩ := rfl
  have hpatch : patchModule.configure baseBuilder =
      ⟨.ok (), [.configure (.module .b) (.module patchModule.id)],
        [.register alphaKey { strategy := .fixed patchObject } (.module patchModule.id)],
        patchedBuilder⟩ := by cbv
  have hfreeze : patchedBuilder.finalize.1 = .ok patchedRegistry := by cbv
  have hfirst : (Module.kept [baseModule, patchModule])[0]? = some baseModule := rfl
  have hsecond : (Module.kept [baseModule, patchModule])[1]? = some patchModule := rfl
  simp only [build, apply, ofModules, hsort, hdeclare, applyInOrder, hfirst, hsecond, hbase, hpatch, hfreeze,
    Except.map]
  exact ⟨⟨_, rfl⟩, rfl⟩

end Assembly

end Wiring
