import Wiring.Proofs.Resolution.Reachable

set_option autoImplicit false

namespace Wiring

/-- Whether something is done to make an instance for a place. -/
def Event.Makes (i : InjectorId) (p : Place) : Event → Prop
  | produced j q _ => j = i ∧ q = p
  | assembled j k => j = i ∧ .binding k = p
  | stored j q _ => j = i ∧ q = p
  | _ => False

/-- After an instance is stored, nothing is done to make another, and no other is found or handed out. -/
theorem AllJustified.after_stored {registry : InjectorId → Registry} {later earlier : List Event}
    {i : InjectorId} {p : Place} {a : Instance}
    (h : AllJustified registry (later ++ .stored i p a :: earlier)) :
    ∀ e ∈ later, ¬ e.Makes i p ∧ (∀ b, e = .yielded i p b → b = a) ∧
      ∀ found, e = .acquired i p found → found = .ready a := by
  intro e he
  obtain ⟨front, back, rfl⟩ := List.append_of_mem he
  have hsplit : front ++ e :: back ++ .stored i p a :: earlier =
      front ++ e :: (back ++ .stored i p a :: earlier) := by simp
  rw [hsplit] at h
  have hjust := h front e _ rfl
  have hstored : stored? i p (back ++ .stored i p a :: earlier) = some a :=
    AllJustified.stored_stays fun l e' es hs => h (front ++ e :: l) e' es (by simp [hs])
  -- The place is one that keeps its instance, since an instance was stored for it.
  obtain ⟨spot, hspot, hc⟩ : (registry i).Singleton p :=
    (h (front ++ e :: back) (.stored i p a) earlier (by simp)).1
  refine ⟨fun hmakes => ?_, ?_, ?_⟩
  · cases e with
    | produced j q s =>
      obtain ⟨rfl, rfl⟩ := hmakes
      obtain ⟨spot', hspot', _, hnone⟩ := hjust
      cases hspot.symm.trans hspot'
      rw [hstored] at hnone
      exact absurd (hnone hc) (by simp)
    | assembled j k =>
      obtain ⟨rfl, rfl⟩ := hmakes
      obtain ⟨spot', hspot', hnone⟩ := hjust
      cases hspot.symm.trans hspot'
      rw [hstored] at hnone
      exact absurd (hnone hc) (by simp)
    | stored j q b =>
      obtain ⟨rfl, rfl⟩ := hmakes
      exact absurd (hstored.symm.trans hjust.2) (by simp)
    | _ => exact hmakes
  · rintro b rfl
    obtain ⟨spot', hspot', hready⟩ := hjust
    cases hspot.symm.trans hspot'
    rw [hstored] at hready
    exact (Option.some.inj (hready hc)).symm
  · rintro found rfl
    rcases hjust.2 with ⟨b, rfl, hb⟩ | ⟨rfl, hnone⟩
    · rw [hstored] at hb
      rw [Option.some.inj hb]
    · rw [hstored] at hnone
      contradiction

namespace World

variable {w : World} {i : InjectorId} {key : Key} {p : Place}

theorem entry_of_singleton (h : (w.registry i).Singleton (.binding key.ident)) :
    ∃ e, (w.registry i).find? key = some e ∧ e.scope.isCached = true := by
  obtain ⟨spot, hspot, hc⟩ := h
  obtain ⟨e, he, rfl⟩ := Option.map_eq_some_iff.mp hspot
  exact ⟨e, he, hc⟩

theorem resolve_of_ready {a : Instance} (hp : (w.registry i).Singleton (.binding key.ident))
    (hinj : key.isInjector = false) (ha : w.slot i (.binding key.ident) = some (.ready a)) :
    ∃ v, resolve i key w = .ok a v := by
  obtain ⟨e, hf, hc⟩ := entry_of_singleton hp
  have hrequest : resolve i key w = Resolution.request (Resolution.resolveWithin _) i key w := rfl
  rw [hrequest, Resolution.request_kept hinj hf hc, ready?_eq_some.mpr ha]
  exact ⟨_, rfl⟩

end World

namespace Resolution

open World

def Extends {α : Type} (events : List Event) (r : EStateM.Result Stop World α) : Prop :=
  ∃ new, (match r with
    | .ok _ v => v
    | .error _ v => v).events = new ++ events

variable {w : World} {i : InjectorId} {key : Key} {p : Place} {x : Act Instance}
  {events : List Event}

theorem Good.extends {Q : Instance → World → Prop} {r : EStateM.Result Stop World Instance}
    (h : w.Good Q r) : Extends w.events r := by
  cases r with
  | ok a v => exact h.1.path.events
  | error stop v => exact h.1.path.events

theorem yielding_extends (h : Extends events (x w)) : Extends events (yielding i p x w) := by
  change Extends events (EStateM.bind x _ w)
  simp only [EStateM.bind]
  generalize x w = r at h ⊢
  cases r with
  | error stop v => exact h
  | ok a v =>
    obtain ⟨new, hnew⟩ := h
    exact ⟨.yielded i p a :: new, congrArg (_ :: ·) hnew⟩

theorem kept_extends (hp : w.slot i p = none)
    (h : Extends events (x ((w.record (.acquired i p .vacant)).withCache i fun c => c.reserve p))) :
    Extends events (kept i p x w) := by
  have hfind : (w.cache i).find p = .vacant := by rw [cache_find, hp]
  simp only [kept, hfind]
  generalize x ((w.record (.acquired i p .vacant)).withCache i fun c => c.reserve p) = r at h ⊢
  obtain ⟨new, hnew⟩ := h
  cases r with
  | ok a v => exact ⟨.stored i p a :: new, congrArg (_ :: ·) hnew⟩
  | error stop v => exact ⟨new, hnew⟩

theorem underConstruction_extends {limit : Nat} (hidle : w.underConstruction i = [])
    (hlimit : 0 < limit) (h : Extends events (x (w.under i key))) :
    Extends events (underConstruction i key limit x w) := by
  simp only [underConstruction, hidle, List.dropWhile_nil, ne_eq, not_true_eq_false, if_false,
    List.length_nil, Nat.not_le.mpr hlimit, Act.withFrame]
  change Extends events (x { w with frames := ⟨i, key⟩ :: w.frames }) at h
  generalize x { w with frames := ⟨i, key⟩ :: w.frames } = r at h ⊢
  cases r with
  | ok a v => exact h
  | error stop v => exact h

/-- A request, with nothing under construction, of a key whose instance is not kept yet finds its place
vacant and begins to make it. -/
theorem request_begins {d : Nat} {self : Resolver} (hs : Serves d self) (hw : w.Inv)
    (hfuel : w.capacity ≤ d + 1) (hidle : w.frames = []) (hinj : key.isInjector = false)
    {e : Entry} (hf : (w.registry i).find? key = some e) (hc : e.scope.isCached = true)
    (hlimit : 0 < (w.registry i).config.maxDepth) (hp : w.slot i (.binding key.ident) = none) :
    Extends (((w.requested i key).under i key).reserved i
      (.binding key.ident) e.source?).events (request self i key w) := by
  have hready : (w.cache i).ready? (.binding key.ident) = none := by rw [cache_ready?, hp]
  have hunder : w.underConstruction i = [] := underConstruction_of_idle hidle
  have hrequested := settles_requested w i key
  have hsite : Site (d + 1) i (w.registry i) 0 (w.requested i key) :=
    stable_site _ _ hrequested ⟨rfl, by rw [hunder]; rfl, Nat.le_trans hfuel (Nat.le_add_right _ _)⟩
  have hnone : ∀ f, f ∉ (w.requested i key).frames := by
    intro f hm
    rw [hrequested.frames, hidle] at hm
    contradiction
  have hpush : Step (w.requested i key) ((w.requested i key).under i key) :=
    .push hf hinj (fun f hm => absurd hm (hnone f)) (Nat.lt_of_le_of_lt hsite.depth.le hlimit)
  rw [request_kept hinj hf hc, hready]
  refine yielding_extends (underConstruction_extends hunder hlimit (kept_extends hp ?_))
  rw [construct_eq_fill]
  refine Good.extends (fill_reserved_good hs hf hc (hpush.inv (hrequested.inv hw))
    (hsite.under fun q _ hq => ?_) hp)
  obtain ⟨f, hm, _⟩ := (hrequested.inv hw).pending i q hq
  exact hnone f hm

end Resolution

namespace World

variable {w : World} {i : InjectorId} {p : Place}

theorem Quiet.slot_eq_none (hq : w.Quiet) (hnever : ∀ a, .stored i p a ∉ w.events) :
    w.slot i p = none := by
  cases hs : w.slot i p with
  | none => rfl
  | some s =>
    cases s with
    | pending => exact absurd hs (hq.inv.not_pending hq.idle)
    | ready a => exact absurd (stored?_of_mem ((hq.recorded.kept i p a).mp hs)) (hnever a)

theorem Quiet.begins_anew {key : Key} (hq : w.Quiet)
    (hp : (w.registry i).Singleton (.binding key.ident)) (hinj : key.isInjector = false)
    (hlimit : 0 < (w.registry i).config.maxDepth) (hslot : w.slot i (.binding key.ident) = none) :
    ∃ new, (w.after (resolve i key)).events = new ++ w.events ∧
      .acquired i (.binding key.ident) .vacant ∈ new ∧
      ∀ c, (w.registry i).find? key = some (.binding c) →
        .produced i (.binding key.ident) c.source ∈ new := by
  obtain ⟨e, hf, hc⟩ := entry_of_singleton hp
  obtain ⟨new, hnew⟩ := Resolution.request_begins
    (Resolution.serves_resolveWithin
      ((w.injectors.map fun j => j.registry.size).foldr (· + ·) 0)) hq.inv
    (Nat.le_refl _) hq.idle hinj hf hc hlimit hslot
  have hevents : (w.after (resolve i key)).events = new ++
      (((w.requested i key).under i key).reserved i
        (.binding key.ident) e.source?).events := hnew
  cases e with
  | binding c =>
    refine ⟨new ++ [.produced i (.binding key.ident) c.source,
      .acquired i (.binding key.ident) .vacant, .requested i key w.frames w.caches], ?_, ?_, ?_⟩
    · rw [hevents, List.append_assoc]
      rfl
    · simp
    · intro c' hc'
      rw [hf] at hc'
      cases hc'
      simp
  | aggregate g =>
    refine ⟨new ++ [.acquired i (.binding key.ident) .vacant,
      .requested i key w.frames w.caches], ?_, ?_, ?_⟩
    · rw [hevents, List.append_assoc]
      rfl
    · simp
    · intro c' hc'
      rw [hf] at hc'
      cases hc'

/-- An instance that is kept is made once. After it was stored, its strategy is not run and it is not
put together again, it is what is found and handed out, and what its key resolves to. Before, every
attempt finds the place vacant and runs the strategy at once, and whatever ended without an instance
has left nothing behind: the next resolution of the key begins anew. -/
theorem singleton_made_once (hw : w.Reachable) (hp : (w.registry i).Singleton p) :
    (∀ later a earlier, w.events = later ++ .stored i p a :: earlier →
      (∀ e ∈ later, ¬ e.Makes i p) ∧
      (∀ b, .yielded i p b ∈ later → b = a) ∧
      (∀ found, .acquired i p found ∈ later → found = .ready a) ∧
      ∀ key, p = .binding key.ident → key.isInjector = false → ∃ v, resolve i key w = .ok a v) ∧
    (∀ later found earlier, w.events = later ++ .acquired i p found :: earlier →
      (∀ a, .stored i p a ∉ earlier) →
      found = .vacant ∧
      ∀ spot s, (w.registry i).spot? p = some spot → spot.source? = some s →
        ∃ rest, later = rest ++ [.produced i p s]) ∧
    ((∀ a, .stored i p a ∉ w.events) →
      w.slot i p = none ∧
      ∀ key, p = .binding key.ident → key.isInjector = false →
        0 < (w.registry i).config.maxDepth →
        ∃ new, (w.after (resolve i key)).events = new ++ w.events ∧
          .acquired i p .vacant ∈ new ∧
          ∀ c, (w.registry i).find? key = some (.binding c) → .produced i p c.source ∈ new) := by
  have hq := hw.quiet
  have hrec := hq.recorded
  refine ⟨fun later a earlier hsplit => ?_, fun later found earlier hsplit hnever => ?_,
    fun hnever => ?_⟩
  · have hjust := hrec.justified
    rw [hsplit] at hjust
    have hafter := hjust.after_stored
    refine ⟨fun e he => (hafter e he).1, fun b hb => (hafter _ hb).2.1 b rfl,
      fun found hf => (hafter _ hf).2.2 found rfl, ?_⟩
    rintro key rfl hinj
    refine resolve_of_ready hp hinj ((hrec.kept i _ a).mpr ?_)
    rw [hsplit]
    exact hjust.stored_stays
  · rcases (hrec.justified later _ earlier hsplit).2 with ⟨a, rfl, ha⟩ | ⟨rfl, _⟩
    · exact absurd (stored?_of_mem ha) (hnever a)
    · exact ⟨rfl, fun spot s hspot hs => hrec.pursued later i p earlier spot s hsplit hspot hs⟩
  · have hslot := hq.slot_eq_none hnever
    refine ⟨hslot, ?_⟩
    rintro key rfl hinj hlimit
    exact hq.begins_anew hp hinj hlimit hslot

def flakyKey : Key := .of (.value .alpha)

def flakyBinding : Binding where
  strategy := .construct (.value .alpha) [] fun _ => .count 0 fun n =>
    if n = 1 then .fail (.message "first") else .done ⟨.alpha "made", []⟩ rfl
  scope := some .singleton

def flakyOperations : List Operation := [.register flakyKey flakyBinding .direct, .finalize]

def flaky : Injector where
  registry := (Operation.runAll {} flakyOperations).2.finalized.getD {}

def flakyFailed : World :=
  (({} : World).addInjector "main" flaky).after (fetch 0 (.of flakyKey))

def flakyRetried : World := flakyFailed.after (fetch 0 (.of flakyKey))

/-- The constructor that failed runs again at the next request, and what it then makes is kept. -/
theorem singleton_made_once_flaky :
    (∃ new, flakyRetried.events = new ++ flakyFailed.events ∧
      .produced 0 (.binding flakyKey.ident) .direct ∈ new) ∧
    ∃ v, resolve 0 flakyKey flakyRetried = .ok (.object ⟨.made 0, .alpha "made", []⟩) v := by
  have hfrozen : flaky.registry.Frozen := ⟨{}, flakyOperations, by simp [flakyOperations, Operation.Typed], rfl⟩
  have hfailed : flakyFailed.Reachable :=
    (Relation.ReflTransGen.single (.inject "main" hfrozen rfl)).tail (.fetch 0 _)
  have hretried : flakyRetried.Reachable := hfailed.tail (.fetch 0 _)
  constructor
  · obtain ⟨_, _, hbegins⟩ := singleton_made_once hfailed (i := 0) (p := .binding flakyKey.ident)
      ⟨_, rfl, rfl⟩
    have hnever : ∀ a, .stored 0 (.binding flakyKey.ident) a ∉ flakyFailed.events := by
      have hevents : flakyFailed.events = [.entered 0 flakyKey,
          .produced 0 (.binding flakyKey.ident) .direct,
          .acquired 0 (.binding flakyKey.ident) .vacant, .requested 0 flakyKey [] [[]]] := rfl
      simp [hevents]
    obtain ⟨_, hnext⟩ := hbegins hnever
    obtain ⟨new, hnew, _, hproduced⟩ := hnext flakyKey rfl rfl (by decide)
    exact ⟨new, hnew, hproduced _ rfl⟩
  · obtain ⟨hstored, _, _⟩ := singleton_made_once hretried (i := 0)
      (p := .binding flakyKey.ident) ⟨_, rfl, rfl⟩
    obtain ⟨_, _, _, hkept⟩ := hstored [.yielded 0 _ _] _ _ rfl
    exact hkept flakyKey rfl rfl

end World

end Wiring
