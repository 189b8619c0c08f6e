import Wiring.Proofs.Registry.Origin
import Wiring.Proofs.Resolution.Purity

set_option autoImplicit false

namespace Wiring

open Filter

namespace Reference

variable {m : Reference} {r : Registry} {x : Instance}

def Runs (m : Reference) (P : Strategy → Prop) : Prop :=
  ∀ a way, m.method? a = some way → ∀ s ∈ way.strategies, P s

theorem Runs.imp {P Q : Strategy → Prop} (h : m.Runs P) (hpq : ∀ s, P s → Q s) : m.Runs Q :=
  fun a way hway s hs => hpq s (h a way hway s hs)

theorem runs_of_operations {P : Strategy → Prop} {config : Config} {ops : List Operation}
    (hm : m.method? = r.method?) (hr : (Operation.runAll (.withConfig config) ops).2.finalized = some r)
    (hops : ∀ op ∈ ops, ∀ b, op.binding? = some b → P b.strategy) : m.Runs P := by
  intro a way hway s hs
  rw [hm] at hway
  obtain ⟨e, he, rfl⟩ := Option.map_eq_some_iff.mp hway
  rw [Entry.strategies_method] at hs
  obtain ⟨op, ho, b, hb, rfl⟩ := Operation.handed_in hr he hs
  exact hops op ho b hb

def valuing (m : Reference) (r : Registry) : Regime :=
  ⟨m.injector, r, m.offers, fun a x => m.Value a x.content⟩

theorem fits_of_gives {p : Point} {h : Held} (hg : (m.valuing r).Gives p h) : h.Fits m.injector p := by
  cases p <;> cases h <;> first | exact hg.1 | exact hg

theorem eventually_given {p : Point} {h : Held} (hg : (m.valuing r).Gives p h) :
    ∀ᶠ depth in atTop, m.given (m.valueWithin depth) p = some h.plain := by
  cases p with
  | inject key q =>
    cases h with
    | resolved x =>
      have hvalue : m.Value key.ident x.content := hg.2
      filter_upwards [hvalue.eventually] with depth hdepth
      simp [given, hdepth, Held.plain]
    | _ => exact hg.elim
  | lazy key q =>
    cases h with
    | lazy l =>
      cases hg
      exact Eventually.of_forall fun _ => rfl
    | _ => exact hg.elim
  | injector =>
    cases h with
    | injector j =>
      cases hg
      exact Eventually.of_forall fun _ => rfl
    | _ => exact hg.elim

/-- A routine hands over the same value for what it was given as for the values of that. -/
theorem eventually_call {t : TypeId} {ps : List Point} {body : List Held → Routine t}
    (hp : DependsOnValues m.injector ps body) {held : List Held}
    (hg : List.Forall₂ (m.valuing r).Gives ps held) (hx : (body held).Drafts x) :
    ∀ᶠ depth in atTop, m.call (m.valueWithin depth) ps body = some x.content := by
  have hfits : List.Forall₂ (Held.Fits m.injector) ps held := hg.imp fun _ _ => fits_of_gives
  have hplain : List.Forall₂ (Held.Fits m.injector) ps (held.map Held.plain) :=
    List.forall₂_map_right_iff.mpr (hfits.imp fun _ _ => Held.Fits.plain)
  obtain ⟨d, hd, hd'⟩ := hp held (held.map Held.plain) hfits hplain (by simp [Function.comp_def])
  obtain ⟨id, draft, hmake, rfl⟩ := hx
  have hgiven : List.Forall₂ (fun p h => ∀ᶠ depth in atTop, m.given (m.valueWithin depth) p = some h)
      ps (held.map Held.plain) :=
    List.forall₂_map_right_iff.mpr (hg.imp fun _ _ => eventually_given)
  filter_upwards [eventually_mapM hgiven] with depth hdepth
  simp [call, hdepth, hd'.value?, Instance.content, hd.datum hmake]

theorem eventually_make {s : Strategy} (hp : s.Pure m.injector) (ho : s.Offered m.offers)
    (hx : (m.valuing r).Makes s x) :
    ∀ᶠ depth in atTop, m.make (m.valueWithin depth) s = some x.content := by
  cases s with
  | construct t ps body => exact hx.elim fun held h => eventually_call hp h.1 h.2
  | fixed o =>
    cases hx
    exact Eventually.of_forall fun _ => rfl
  | shared name d =>
    obtain ⟨datum, ⟨_, hdatum⟩, rfl⟩ := hx
    obtain ⟨offered, hoffered⟩ := Option.isSome_iff_exists.mp ho
    refine Eventually.of_forall fun _ => ?_
    simp [make, Instance.content, hoffered, hdatum offered hoffered]
  | providerType t name ps body => exact hx.elim fun held h => eventually_call hp h.1 h.2
  | provider t name body =>
    obtain ⟨d, hd⟩ := hp
    obtain ⟨id, draft, hmake, rfl⟩ := hx
    refine Eventually.of_forall fun _ => ?_
    simp [make, hd.value?, Instance.content, hd.datum hmake]
  | «alias» target =>
    have hvalue : m.Value target.ident x.content := hx
    exact hvalue.eventually

theorem eventually_parts {cs : List Contribution} {es : List (Option MapKey × Instance)}
    {os : List (Option MapKey × Object)} {e : Base}
    (hp : ∀ c ∈ cs, c.binding.strategy.Pure m.injector ∧ c.binding.strategy.Offered m.offers)
    (hadds : List.Forall₂ (m.valuing r).Adds cs es)
    (hos : List.Forall₂ (Aggregate.Carries e) es os) :
    ∀ᶠ depth in atTop, (cs.map fun c => (c.mapKey, c.binding.strategy)).mapM
      (m.part (m.valueWithin depth)) = some (os.map Aggregate.bare) := by
  refine eventually_mapM ?_
  rw [List.forall₂_map_left_iff, List.forall₂_map_right_iff]
  induction hadds generalizing os with
  | nil =>
    cases hos
    exact .nil
  | @cons c x cs es hx _ ih =>
    cases hos with
    | @cons _ o _ os ho hos =>
      refine .cons ?_ (ih (fun d hd => hp d (List.mem_cons_of_mem _ hd)) hos)
      obtain ⟨hpure, hoffered⟩ := hp c List.mem_cons_self
      filter_upwards [eventually_make hpure hoffered hx.2] with depth hdepth
      simp [part, hdepth, ho.object, Instance.content, Content.datum?, Aggregate.bare, ho.mapKey, hx.1]

/-- What the reference says of the keys of a registry holds of whatever the registry makes. -/
theorem upheld_valuing (hm : m.method? = r.method?) (hp : m.Runs (Strategy.Pure m.injector))
    (ho : m.Runs (Strategy.Offered m.offers)) : (m.valuing r).Upheld := by
  refine ⟨fun key hinj => ?_, fun {key e x} hinj he hx => ?_⟩
  · have htype : key.ident.type = .injector := of_decide_eq_true hinj
    exact value_of_step (Eventually.of_forall fun _ => step_injector htype)
  · have htype : key.ident.type ≠ .injector := of_decide_eq_false hinj
    have hway : m.method? key.ident = some e.method := by
      rw [hm]
      exact Option.map_eq_some_iff.mpr ⟨e, he, rfl⟩
    refine value_of_step ?_
    cases e with
    | binding c =>
      have hrun : c.binding.strategy ∈ (Entry.binding c).method.strategies := List.mem_singleton_self _
      filter_upwards [eventually_make (hp _ _ hway _ hrun) (ho _ _ hway _ hrun) hx] with depth hdepth
      rw [step_single htype hway, hdepth]
    | aggregate g =>
      obtain ⟨id, es, items, hadds, hitems, rfl⟩ := hx
      obtain ⟨os, hos, rfl⟩ := Aggregate.assemble_eq_ok.mp hitems
      have hparts : ∀ c ∈ g.contributions, c.binding.strategy.Pure m.injector ∧
          c.binding.strategy.Offered m.offers := by
        intro c hc
        have hrun : c.binding.strategy ∈ (Entry.aggregate g).method.strategies := by
          rw [Entry.strategies_method]
          exact List.mem_map_of_mem hc
        exact ⟨hp _ _ hway _ hrun, ho _ _ hway _ hrun⟩
      filter_upwards [eventually_parts hparts hadds (Aggregate.objects_eq_ok.mp hos).2] with depth hdepth
      rw [step_gather htype hway, hdepth, Option.map_some, ← Aggregate.bare_gather]
      rfl

end Reference

namespace World

variable {w u : World} {m : Reference}

/-- The injector of the reference was made with the ways that the reference knows, while the values that it
knows were on offer, those that are shared among them. Anything may have happened before, and since. -/
inductive Hosts (m : Reference) : World → Prop where
  | intro {w₀ w : World} (name : String) {j : Injector} : w₀.Reachable → j.registry.Frozen →
      j.cache = [] → m.injector = w₀.injectors.length → m.offers = w₀.offers →
      m.Runs (Strategy.Offered m.offers) → m.method? = j.registry.method? →
      Later (w₀.addInjector name j) w → Hosts m w

theorem Hosts.obeys (hw : w.Hosts m) (hp : m.Runs (Strategy.Pure m.injector)) :
    ∃ r, (m.valuing r).Upheld ∧ w.Obeys (m.valuing r) := by
  obtain @⟨w₀, w, name, j, hreach, hf, hj, hi, hoffers, hshared, hways, hlater⟩ := hw
  have hupheld := Reference.upheld_valuing hways hp hshared
  have hmade : (w₀.addInjector name j).Obeys (m.valuing j.registry) :=
    hreach.quiet.obeys_inject hj hi rfl fun k d h => by rwa [← hoffers]
  refine ⟨j.registry, hupheld, Later.obeys hupheld hlater (hreach.quiet.inject name hf hj) hmade ?_⟩
  simp [Reference.valuing, addInjector, hi]

theorem Hosts.value_of_fetch (hw : w.Hosts m) (hp : m.Runs (Strategy.Pure m.injector)) {req : Request}
    {x : Instance} {v : World} (h : fetch m.injector req w = .ok x v) : m.Value req.key.ident x.content := by
  obtain ⟨r, hupheld, hobeys⟩ := hw.obeys hp
  have hkept := Resolution.keeps_serve (abides_resolve hupheld) m.injector req w hobeys
  rw [show Resolution.serve resolve m.injector req w = .ok x v from h] at hkept
  exact hkept.2.2 rfl

/-- Keeping instances is transparent. Whatever was handed out for a key, in any resolution and however deep in
it, holds the value that the key has from scratch, and so does what a request is answered with. What happened
before and in which scopes instances are kept makes no difference to it. -/
theorem values_transparent (hp : m.Runs (Strategy.Pure m.injector)) (hw : w.Hosts m) :
    (∀ a x, .yielded m.injector (.binding a) x ∈ w.events → m.Value a x.content) ∧
    ∀ req x v, fetch m.injector req w = .ok x v →
      (∀ c, m.Value req.key.ident c ↔ c = x.content) ∧
      ∀ u other y t, u.Hosts m → other.key.ident = req.key.ident →
        fetch m.injector other u = .ok y t → y.content = x.content := by
  refine ⟨fun a x h => ?_, fun req x v h => ⟨fun c => ?_, fun u other y t hu hkey h' => ?_⟩⟩
  · obtain ⟨r, _, hobeys⟩ := hw.obeys hp
    exact hobeys.yielded (.binding a) x h
  · have hvalue := hw.value_of_fetch hp h
    exact ⟨fun hc => hc.unique hvalue, fun hc => hc ▸ hvalue⟩
  · have hvalue := hu.value_of_fetch hp h'
    rw [hkey] at hvalue
    exact hvalue.unique (hw.value_of_fetch hp h)

def answer? : EStateM.Result Stop World Instance → Option Content
  | .ok x _ => some x.content
  | .error _ _ => none

theorem answer?_eq_some {result : EStateM.Result Stop World Instance} {c : Content} :
    answer? result = some c ↔ ∃ x v, result = .ok x v ∧ x.content = c := by
  cases result <;> simp [answer?]

def leafKey : Key := .of (.value .alpha)

def twigKey : Key := .of (.value .beta)

def crownKey : Key := .of (.collection (.set .beta))

def leafScript : Script := { tally := 0, value := .text "leaf" }

def twigScript : Script := { tally := 1, value := .text "twig", points := [.inject leafKey false] }

/-- A set to which one key contributes twice. What is made for one of its elements is kept, and the other is
made anew each time. -/
def crownOperations : List Operation :=
  [.register leafKey ((Recipe.script leafScript).binding (.value .alpha) (some .singleton)) .direct,
    .register twigKey ((Recipe.script twigScript).binding (.value .beta) none) .direct,
    .declareAggregate crownKey (.set .beta),
    .contribute crownKey ⟨.alias twigKey, some .singleton⟩ .direct none,
    .contribute crownKey ⟨.alias twigKey, none⟩ .direct none,
    .finalize]

def crownInjector : Injector where
  registry := (Operation.runAll {} crownOperations).2.finalized.getD {}

def crownReference : Reference := ⟨0, [], crownInjector.registry.method?⟩

/-- Its two elements are of one value, so that the set has one item, whatever was requested before. -/
theorem values_transparent_crown :
    let w := ({} : World).addInjector "main" crownInjector
    ∃ x v, fetch 0 (.of crownKey) (w.after (fetch 0 (.of twigKey))) = .ok x v ∧
      ∀ c, crownReference.Value crownKey.ident c ↔
        c = .collection (.set .beta) [(none, .beta "twig(leaf)")] := by
  have hfinal : (Operation.runAll (.withConfig {}) crownOperations).2.finalized =
      some crownInjector.registry := rfl
  have htyped : ∀ op ∈ crownOperations, op.Typed := by
    simp [crownOperations, Operation.Typed, crownKey, Key.of, TypeInfo.of, Collection.keyType?]
  have hruns : crownReference.Runs fun s => s.Pure 0 ∧ s.Offered [] := by
    refine Reference.runs_of_operations rfl hfinal fun op ho b hb => ?_
    have hleaf : (Recipe.script leafScript).Plain := Script.Plain.mk rfl rfl rfl rfl
    have htwig : (Recipe.script twigScript).Plain := Script.Plain.mk rfl rfl rfl rfl
    simp only [crownOperations, List.mem_cons, List.not_mem_nil, or_false] at ho
    rcases ho with rfl | rfl | rfl | rfl | rfl | rfl <;> cases hb
    · exact ⟨Recipe.pure_valueStrategy hleaf 0 .alpha, trivial⟩
    · exact ⟨Recipe.pure_valueStrategy htwig 0 .beta, trivial⟩
    · exact ⟨trivial, trivial⟩
    · exact ⟨trivial, trivial⟩
  have hhosts : ((({} : World).addInjector "main" crownInjector).after
      (fetch 0 (.of twigKey))).Hosts crownReference :=
    .intro "main" .refl ⟨{}, crownOperations, htyped, hfinal⟩ rfl rfl rfl
      (hruns.imp fun _ h => h.2) rfl (.single (.fetch 0 _))
  have hanswer : answer? (fetch 0 (.of crownKey) ((({} : World).addInjector "main" crownInjector).after
      (fetch 0 (.of twigKey)))) = some (.collection (.set .beta) [(none, .beta "twig(leaf)")]) := by
    decide +kernel
  obtain ⟨x, v, hx, hcontent⟩ := answer?_eq_some.mp hanswer
  obtain ⟨hvalue, _⟩ := (values_transparent (hruns.imp fun _ h => h.1) hhosts).2 (.of crownKey) x v hx
  exact ⟨x, v, hx, fun c => hcontent ▸ hvalue c⟩

end World

end Wiring
