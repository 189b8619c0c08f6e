import Wiring.Proofs.Module.Build
import Wiring.Proofs.Registry.Reorder

/-!
Building from the same modules added in another order.

Modules are configured in an order in which none comes before one that it overrides, whichever order
they were added in. So at each key the same operations are tried in two orders that both respect the
overrides, and they come to the same.
-/

set_option autoImplicit false

namespace Wiring

open OverrideGraph

namespace Operation

theorem applyAll_append (b : Builder) (ops more : List Operation) :
    applyAll b (ops ++ more) =
      match applyAll b ops with
      | (.error e, tried, left) => (.error e, tried, left)
      | (.ok _, tried, left) =>
        ((applyAll left more).1, tried ++ (applyAll left more).2.1, (applyAll left more).2.2) := by
  induction ops generalizing b with
  | nil => rfl
  | cons op rest ih =>
    simp only [List.cons_append, applyAll]
    generalize op.apply b = r
    obtain ⟨outcome, left⟩ := r
    cases outcome with
    | error e => rfl
    | ok _ =>
      simp only [ih left]
      generalize applyAll left rest = r
      obtain ⟨outcome, tried, final⟩ := r
      cases outcome <;> rfl

variable {g : OverrideGraph} {s t : Source} {o p : Operation}

theorem From.above (ho : o.From s) (hp : p.From t) (h : g.Above o.origin p.origin) :
    g.Above s t := by
  have origin : ∀ {o : Operation} {s : Source}, o.From s → o.origin = s ∨ o.origin = .direct := by
    intro o s ho
    cases o with
    | register => exact .inl ho
    | contribute => exact .inl ho
    | declareAggregate => exact .inr rfl
    | setAggregateScope => exact .inr rfl
    | declareOverride => exact ho.elim
    | finalize => exact ho.elim
  obtain ⟨a, b, ha, hb, _⟩ := above_iff.mp h
  rcases origin ho with hs | hs
  · rcases origin hp with ht | ht
    · rwa [hs, ht] at h
    · rw [ht] at hb
      contradiction
  · rw [hs] at ha
    contradiction

theorem Led.append {t : TypeId} {ops more : List Operation} (h : Led t ops) (hm : Led t more) :
    Led t (ops ++ more) := by
  cases ops with
  | nil => exact hm
  | cons op rest => exact h

theorem Led.flatMap {t : TypeId} {α : Type} {f : α → List Operation} (h : ∀ x, Led t (f x))
    (xs : List α) : Led t (xs.flatMap f) := by
  induction xs with
  | nil => trivial
  | cons x rest ih => exact (h x).append ih

theorem led_of_registers {t : TypeId} {ops : List Operation}
    (h : ∀ op ∈ ops, op.isRegister = true) : Led t ops := by
  cases ops with
  | nil => trivial
  | cons op rest => exact .inl (h op List.mem_cons_self)

end Operation

theorem Directive.led (d : Directive) (source : Source) (a : Ident) :
    Operation.Led a.type ((d.operations source).filter (Operation.isAbout a)) := by
  cases d with
  | bind key binding =>
    exact Operation.led_of_registers fun op ho => by
      rw [List.mem_singleton.mp (List.mem_filter.mp ho).1]
      rfl
  | register key binding =>
    exact Operation.led_of_registers fun op ho => by
      rw [List.mem_singleton.mp (List.mem_filter.mp ho).1]
      rfl
  | aliasChain type stem count scope =>
    exact Operation.led_of_registers fun op ho => by
      obtain ⟨n, _, rfl⟩ := List.mem_map.mp (List.mem_filter.mp ho).1
      rfl
  | collection shape q parts fits =>
    have habout : ∀ op ∈ (collection shape q parts fits).operations source,
        Operation.isAbout a op = decide ((Key.qualified (.collection shape) q).ident = a) := by
      intro op ho
      rcases List.mem_cons.mp ho with rfl | ho
      · simp [Operation.isAbout, Operation.subject?]
      · obtain ⟨part, _, rfl⟩ := List.mem_map.mp ho
        cases part <;> simp [Operation.isAbout, Operation.subject?, partOperation]
    rw [List.filter_congr habout]
    by_cases ha : (Key.qualified (.collection shape) q).ident = a
    · subst ha
      simp only [decide_true, List.filter_true]
      exact .inr ⟨_, shape, rfl, rfl⟩
    · simp only [ha, decide_false, List.filter_false]
      trivial

namespace Plan

/-- A fixed list of directives, of which the first that fails ends the plan with its error. -/
def Plain : Plan → Prop
  | done => True
  | direct _ next => (∀ e, next (.error e) = fail e) ∧ (next (.ok ())).Plain
  | _ => False

def operations (source : Source) : Plan → List Operation
  | direct d next => d.operations source ++ (next (.ok ())).operations source
  | note _ next => next.operations source
  | _ => []

variable {source : Source} {plan : Plan}

theorem operations_from : ∀ op ∈ plan.operations source, op.From source := by
  induction plan with
  | done => simp [operations]
  | fail e => simp [operations]
  | note n next ih => exact ih
  | direct d next ih =>
    intro op h
    rcases List.mem_append.mp h with h | h
    · exact (d.operations_from source op h).1
    · exact ih (.ok ()) op h

theorem led (a : Ident) :
    Operation.Led a.type ((plan.operations source).filter (Operation.isAbout a)) := by
  induction plan with
  | done => trivial
  | fail e => trivial
  | note n next ih => exact ih
  | direct d next ih =>
    rw [operations, List.filter_append]
    exact (d.led source a).append (ih (.ok ()))

theorem applyAll_operations (h : plan.Plain) (b : Builder) :
    Operation.applyAll b (plan.operations source) =
      ((plan.run source b).outcome, (plan.run source b).tried, (plan.run source b).builder) := by
  induction plan generalizing b with
  | done => rfl
  | fail e => exact h.elim
  | note n next ih => exact h.elim
  | direct d next ih =>
    rw [operations, Operation.applyAll_append]
    simp only [run]
    generalize Operation.applyAll b (d.operations source) = r
    obtain ⟨outcome, tried, left⟩ := r
    cases outcome with
    | ok _ => simp only [ih (.ok ()) h.2 left]
    | error e => simp [h.1 e, run]

theorem plain_ofSteps {steps : List ModuleStep} (h : ∀ step ∈ steps, step.ignore = false) :
    (ofSteps steps).Plain := by
  induction steps with
  | nil => trivial
  | cons step rest ih =>
    refine ⟨fun e => ?_, ih fun s hs => h s (List.mem_cons_of_mem _ hs)⟩
    simp [h step List.mem_cons_self]

end Plan

namespace Module

def Plain (m : Module) : Prop := m.steps.Plain

def operations (m : Module) : List Operation := m.steps.operations (.module m.id)

theorem applyAll_operations {m : Module} (hm : m.Plain) (b : Builder) :
    Operation.applyAll b m.operations =
      ((m.configure b).outcome, (m.configure b).tried, (m.configure b).builder) :=
  Plan.applyAll_operations hm b

end Module

namespace Assembly

variable {ms : List Module}

theorem applyInOrder_plain (hm : ∀ m ∈ ms, m.Plain) (b : Builder) (order : List Nat) :
    match Operation.applyAll b ((pick ms order).flatMap Module.operations) with
    | (.ok _, _, left) => (∃ infos, (applyInOrder ms b order).outcome = .ok infos) ∧
        (applyInOrder ms b order).builder = left
    | (.error _, _, _) => ∃ e, (applyInOrder ms b order).outcome = .error e := by
  induction order generalizing b with
  | nil => exact ⟨⟨[], rfl⟩, rfl⟩
  | cons index rest ih =>
    simp only [applyInOrder]
    cases hi : ms[index]? with
    | none =>
      have hpick : pick ms (index :: rest) = pick ms rest := by simp [pick, hi]
      rw [hpick]
      exact ih b
    | some m =>
      have hpick : pick ms (index :: rest) = m :: pick ms rest := by simp [pick, hi]
      rw [hpick, List.flatMap_cons, Operation.applyAll_append,
        Module.applyAll_operations (hm m (List.mem_of_getElem? hi))]
      dsimp only
      cases (m.configure b).outcome with
      | error e => exact ⟨_, rfl⟩
      | ok _ =>
        have hrest := ih (m.configure b).builder
        dsimp only
        generalize Operation.applyAll (m.configure b).builder
          ((pick ms rest).flatMap Module.operations) = r at hrest
        obtain ⟨outcome, tried, left⟩ := r
        cases outcome with
        | ok _ =>
          obtain ⟨⟨infos, ho⟩, hl⟩ := hrest
          exact ⟨⟨_, by rw [ho]; rfl⟩, hl⟩
        | error d =>
          obtain ⟨e, he⟩ := hrest
          exact ⟨e, by rw [he]; rfl⟩

/-- In the order of configuration no operation comes before one that it overrides. -/
theorem ordered_operations {config : Config} {b : Builder} (hd : Declared config ms b)
    (hg : b.overrides.Acyclic) {xs : List Module}
    (hx : xs.Pairwise fun x y => ¬ Relation.TransGen (Overrides ms) x.id y.id) :
    Operation.Ordered b.overrides (xs.flatMap Module.operations) := by
  refine List.pairwise_flatMap.mpr ⟨fun m _ => ?_, hx.imp fun {x y} hxy o ho p hp hop => hxy ?_⟩
  · refine List.pairwise_of_forall_mem_list fun o ho p hp hop => ?_
    exact hg.irrefl _ ((Plan.operations_from o ho).above (Plan.operations_from p hp) hop)
  · have := (Plan.operations_from o ho).above (Plan.operations_from p hp) hop
    obtain ⟨m, n, hm, hn, hmn⟩ := hd.above_iff.mp this
    cases hm
    cases hn
    exact hmn

theorem led_operations (xs : List Module) (a : Ident) :
    Operation.Led a.type ((xs.flatMap Module.operations).filter (Operation.isAbout a)) := by
  rw [List.filter_flatMap]
  exact Operation.Led.flatMap (fun _ => Plan.led a) xs

end Assembly

/-- One candidate, or aggregates of one shape with the same contributions, and with the same one under
each map key. -/
def Entry.Alike : Entry → Entry → Prop
  | binding c, binding d => c = d
  | aggregate a, aggregate b =>
    a.shape = b.shape ∧ a.contributions.Perm b.contributions ∧ ∀ k, a.at? k = b.at? k
  | _, _ => False

structure Registry.Alike (r s : Registry) : Prop where
  config : r.config = s.config
  entries : ∀ key, Option.Rel Entry.Alike (r.find? key) (s.find? key)

theorem Entry.Alike.mem_dependencies {e e' : Entry} (h : e.Alike e') (d : Dependency) :
    d ∈ e.dependencies ↔ d ∈ e'.dependencies := by
  cases e with
  | binding c =>
    cases e' with
    | binding c' => rw [show c = c' from h]
    | aggregate a' => exact h.elim
  | aggregate a =>
    cases e' with
    | binding c' => exact h.elim
    | aggregate a' =>
      simp only [dependencies, Aggregate.dependencies, List.mem_flatMap, h.2.1.mem_iff]

theorem Builder.effective?_congr {g g' : OverrideGraph} (h : g.isOverriding = g'.isOverriding)
    (cs : List Candidate) : effective? g cs = effective? g' cs := by
  have hprecedes : precedes g = precedes g' := by
    funext c d
    simp only [precedes, h]
  refine Option.ext fun c => ?_
  rw [effective?_eq_some, effective?_eq_some, hprecedes]

theorem Pending.Alike.frozen {g g' : OverrideGraph} (h : g.isOverriding = g'.isOverriding)
    {p q : Pending} (hp : p.Alike q) : Option.Rel Entry.Alike (p.frozen? g) (q.frozen? g') := by
  cases p with
  | candidates cs =>
    cases q with
    | candidates ds =>
      cases (hp : cs = ds)
      simp only [frozen?, Builder.effective?_congr h]
      cases Builder.effective? g' cs with
      | none => exact .none
      | some c => exact .some rfl
    | aggregate b => exact hp.elim
  | aggregate a =>
    cases q with
    | candidates ds => exact hp.elim
    | aggregate b => exact .some hp

theorem Builder.view_alike {b b' : Builder} (h : b.overrides.isOverriding = b'.overrides.isOverriding)
    (hat : ∀ a, Option.Rel Pending.Alike (b.at? a) (b'.at? a)) (a : Ident) :
    Option.Rel Entry.Alike (b.view a) (b'.view a) := by
  have := hat a
  simp only [view]
  generalize b.at? a = p at this
  generalize b'.at? a = q at this
  cases this with
  | none => exact .none
  | some hp => exact hp.frozen h

theorem Closed.alike {view view' : Ident → Option Entry} (hc : Closed view)
    (h : ∀ a, Option.Rel Entry.Alike (view a) (view' a)) : Closed view' := by
  intro a e' ha d hd hkind hinj
  have hae := h a
  rw [ha] at hae
  generalize hv : view a = v at hae
  cases hae with
  | some halike =>
    have hbound := hc a _ hv d ((halike.mem_dependencies d).mpr hd) hkind hinj
    have hdk := h d.key.ident
    generalize view d.key.ident = x at hbound hdk
    generalize view' d.key.ident = y at hdk
    cases hdk with
    | none => contradiction
    | some _ => rfl

namespace Assembly

variable {ms ns : List Module} {config : Config}

theorem Declared.isOverriding_eq {b c : Builder} (hb : Declared config ms b)
    (hc : Declared config ns c) (hp : ms.Perm ns) :
    b.overrides.isOverriding = c.overrides.isOverriding := by
  funext s t
  have habove : b.overrides.Above s t ↔ c.overrides.Above s t := by
    rw [hb.above_iff, hc.above_iff, Supersedes, Supersedes, overrides_perm hp]
  exact Bool.eq_iff_iff.mpr habove

/-- Operations that go through in the order of one sorting go through in that of another. -/
theorem applyAll_reordered (hp : ms.Perm ns) {b c : Builder} (hb : Declared config ms b)
    (hc : Declared config ns c) (hbe : b.entries = {}) (hce : c.entries = {})
    (hg : b.overrides.Acyclic) {xs ys : List Module} (hx : xs.Perm ms) (hy : ys.Perm ns)
    (hxo : xs.Pairwise fun x y => ¬ Relation.TransGen (Overrides ms) x.id y.id)
    (hyo : ys.Pairwise fun x y => ¬ Relation.TransGen (Overrides ns) x.id y.id)
    {tried : List Operation} {left : Builder}
    (h : Operation.applyAll b (xs.flatMap Module.operations) = (.ok (), tried, left)) :
    ∃ tried' left', Operation.applyAll c (ys.flatMap Module.operations) = (.ok (), tried', left') ∧
      ∀ a, Option.Rel Pending.Alike (left.at? a) (left'.at? a) := by
  have hover := hb.isOverriding_eq hc hp
  have hg' : c.overrides.Acyclic := by
    intro m
    rw [hc.overrides, ← overrides_perm hp, ← hb.overrides]
    exact hg m
  have hsubject : ∀ zs : List Module, ∀ op ∈ zs.flatMap Module.operations,
      ∃ key, op.subject? = some key := by
    intro zs op hop
    obtain ⟨m, _, hm⟩ := List.mem_flatMap.mp hop
    exact (Plan.operations_from op hm).subject
  have hperm : (xs.flatMap Module.operations).Perm (ys.flatMap Module.operations) :=
    (hx.trans (hp.trans hy.symm)).flatMap_right _
  have hbat : ∀ a, b.at? a = none := fun a => by rw [Builder.at?, hbe]; rfl
  have hcat : ∀ a, c.at? a = none := fun a => by rw [Builder.at?, hce]; rfl
  have hrun := Operation.applyAll_settleAll hb.unfrozen (hsubject xs)
  rw [h] at hrun
  obtain ⟨_, _, _, _, hat⟩ := hrun
  have transfer : ∀ a, ∃ r, Operation.settleAll c.overrides c.config.defaultScope
        ((ys.flatMap Module.operations).filter (Operation.isAbout a)) none = some r ∧
      Option.Rel Pending.Alike (left.at? a) r := by
    intro a
    have hxa := hat a
    rw [hbat, hb.config, Operation.settleAll_congr hover] at hxa
    rw [hc.config]
    have hxord := (ordered_operations hb hg hxo).filter (Operation.isAbout a)
    simp only [Above, hover] at hxord
    exact Operation.settleAll_perm hg' (hperm.filter _)
      (fun op hop => hsubject xs op (List.mem_filter.mp hop).1) hxord
      ((ordered_operations hc hg' hyo).filter _) (led_operations xs a) (led_operations ys a) hxa
  have hrun' := Operation.applyAll_settleAll hc.unfrozen (hsubject ys)
  generalize Operation.applyAll c (ys.flatMap Module.operations) = r at hrun'
  obtain ⟨outcome, tried', left'⟩ := r
  cases outcome with
  | error e =>
    obtain ⟨a, ha⟩ := hrun'
    obtain ⟨r, hr, _⟩ := transfer a
    rw [hcat, hr] at ha
    contradiction
  | ok _ =>
    obtain ⟨_, _, _, _, hat'⟩ := hrun'
    refine ⟨tried', left', rfl, fun a => ?_⟩
    obtain ⟨r, hr, halike⟩ := transfer a
    have ha := hat' a
    rw [hcat, hr] at ha
    cases ha
    exact halike

theorem apply_plain (hplain : ∀ m ∈ ms, m.Plain) {order : List Nat}
    (ho : Sorting.sort ms.length (overriders ms) = .ordered order) {b : Builder}
    {declared : List Operation}
    (hb : Operation.applyAll (.withConfig config) (overrideOperations ms) = (.ok (), declared, b)) :
    match Operation.applyAll b ((pick ms order).flatMap Module.operations) with
    | (.ok _, _, left) => (∃ infos, (Assembly.mk config ms).apply.outcome = .ok infos) ∧
        (Assembly.mk config ms).apply.builder = left
    | (.error _, _, _) => ∃ e, (Assembly.mk config ms).apply.outcome = .error e := by
  unfold apply
  simp only [ho, hb]
  exact applyInOrder_plain hplain b order

theorem Sound.freeze_alike {b c : Builder} {tried tried' : List Operation}
    (hb : Sound ⟨config, ms⟩ b tried) (hc : Sound ⟨config, ns⟩ c tried')
    (hview : ∀ a, Option.Rel Entry.Alike (b.view a) (c.view a)) {r : Registry}
    (h : b.freeze = .ok r) : ∃ s, c.freeze = .ok s ∧ r.Alike s := by
  have hconfigs : b.config = c.config := hb.declared.config.trans hc.declared.config.symm
  have hspec := Builder.freeze_spec hb.coherent.sorted
  rw [h] at hspec
  obtain ⟨hconfig, _, hat, _, hclosed⟩ := hspec
  have hspec' := Builder.freeze_spec hc.coherent.sorted
  cases hfreeze : c.freeze with
  | error e =>
    rw [hfreeze] at hspec'
    rcases hspec' with ⟨_, a, p, hp, hnone⟩ | ⟨_, hvalidate, hopen⟩
    · obtain ⟨entry, hentry⟩ := (hc.coherent.entries a p hp).frozen hc.acyclic
      rw [hentry] at hnone
      contradiction
    · exact absurd ((hclosed (by rwa [hconfigs])).alike hview) hopen
  | ok s =>
    rw [hfreeze] at hspec'
    obtain ⟨hconfig', _, hat', _⟩ := hspec'
    refine ⟨s, rfl, by rw [hconfig, hconfigs, hconfig'], fun key => ?_⟩
    simp only [Registry.find?_eq_at, hat, hat']
    exact hview key.ident

theorem build_reordered (hp : ms.Perm ns) (hn : (ms.map Module.id).Nodup)
    (hplain : ∀ m ∈ ms, m.Plain) {j : Injector}
    (h : (Assembly.mk config ms).build.outcome = .ok j) :
    ∃ j', (Assembly.mk config ns).build.outcome = .ok j' ∧ j.registry.Alike j'.registry := by
  have hn' : (ns.map Module.id).Nodup := (hp.map _).nodup_iff.mp hn
  have hplain' : ∀ m ∈ ns, m.Plain := fun m hm => hplain m (hp.mem_iff.mpr hm)
  obtain ⟨infos, hok⟩ := apply_of_build h
  obtain ⟨order, horder⟩ := sort_of_apply hok
  have hacyclic := (sort_ordered_iff hn).mp ⟨order, horder⟩
  obtain ⟨order', horder'⟩ := (sort_ordered_iff hn').mpr (by rwa [← overrides_perm hp])
  obtain ⟨b, hb, hbd, hbe⟩ := declare_overrides config ms
  obtain ⟨c, hc, hcd, hce⟩ := declare_overrides config ns
  obtain ⟨hx, hxo⟩ := pick_ordered hn horder
  obtain ⟨hy, hyo⟩ := pick_ordered hn' horder'
  have hfirst := apply_plain hplain horder hb
  have hsecond := apply_plain hplain' horder' hc
  generalize hrun : Operation.applyAll b ((pick ms order).flatMap Module.operations) = r at hfirst
  obtain ⟨outcome, tried, left⟩ := r
  cases outcome with
  | error e =>
    obtain ⟨d, hd⟩ := hfirst
    rw [hd] at hok
    contradiction
  | ok _ =>
    obtain ⟨_, rfl⟩ := hfirst
    obtain ⟨tried', left', hrun', halike⟩ := applyAll_reordered hp hbd hcd hbe hce
      (by intro m; rw [hbd.overrides]; exact hacyclic m) hx hy hxo hyo hrun
    rw [hrun'] at hsecond
    obtain ⟨⟨infos', hok'⟩, rfl⟩ := hsecond
    have hs := sound_of_apply hn hok
    have hs' := sound_of_apply hn' hok'
    have hview := Builder.view_alike (hs.declared.isOverriding_eq hs'.declared hp) halike
    rw [build_of_apply hn hok] at h
    cases hfreeze : (Assembly.mk config ms).apply.builder.freeze with
    | error e =>
      rw [hfreeze] at h
      contradiction
    | ok r =>
      rw [hfreeze] at h
      cases h
      obtain ⟨s, hs, hrs⟩ := hs.freeze_alike hs' hview hfreeze
      exact ⟨_, by rw [build_of_apply hn' hok', hs], hrs⟩

/-- The order in which distinct plain modules are added does not change what is built: building succeeds
in one order exactly if it does in the other, and then the registries are alike. -/
theorem build_order_irrelevant (config : Config) {ms ns : List Module} (hp : ms.Perm ns)
    (hn : (ms.map Module.id).Nodup) (hplain : ∀ m ∈ ms, m.Plain) :
    match (ofModules config ms).build.outcome, (ofModules config ns).build.outcome with
    | .ok j, .ok j' => j.registry.Alike j'.registry
    | .error _, .error _ => True
    | _, _ => False := by
  have hn' : (ns.map Module.id).Nodup := (hp.map _).nodup_iff.mp hn
  have hplain' : ∀ m ∈ ns, m.Plain := fun m hm => hplain m (hp.mem_iff.mpr hm)
  simp only [ofModules, Module.kept_eq_self hn, Module.kept_eq_self hn']
  cases h : (Assembly.mk config ms).build.outcome with
  | ok j =>
    obtain ⟨j', h', halike⟩ := build_reordered hp hn hplain h
    rw [h']
    exact halike
  | error e =>
    cases h' : (Assembly.mk config ns).build.outcome with
    | error e' => trivial
    | ok j' =>
      obtain ⟨j, hj, _⟩ := build_reordered hp.symm hn' hplain' h'
      rw [h] at hj
      contradiction

/-- Two modules of which one overrides the other can be built in the order in which the overriding one is added
last, so also in the other one. What it registers stands in both. -/
theorem build_order_irrelevant_base_patch :
    ∃ j, (ofModules {} [patchModule, baseModule]).build.outcome = .ok j ∧
      j.registry.find? alphaKey = some (.binding (valueOf patchModule patchObject)) := by
  have hplain : ∀ m ∈ [baseModule, patchModule], m.Plain := by
    simp [baseModule, patchModule, valueModule, Module.Plain, Plan.plain_ofSteps]
  have halike := build_order_irrelevant {} (List.Perm.swap patchModule baseModule [])
    (by decide) hplain
  obtain ⟨⟨infos, hj⟩, _⟩ := build_base_patch
  rw [hj] at halike
  cases hother : (ofModules {} [patchModule, baseModule]).build.outcome with
  | error e =>
    rw [hother] at halike
    exact halike.elim
  | ok j' =>
    rw [hother] at halike
    have hentry := halike.entries alphaKey
    rw [show patchedRegistry.find? alphaKey = some (.binding (valueOf patchModule patchObject)) from rfl]
      at hentry
    cases hfind : j'.registry.find? alphaKey with
    | none =>
      rw [hfind] at hentry
      cases hentry
    | some e =>
      rw [hfind] at hentry
      cases hentry with
      | some hsame =>
        cases e with
        | binding c => exact ⟨j', rfl, by rw [hfind, ← hsame]⟩
        | aggregate g => exact hsame.elim

end Assembly

end Wiring
