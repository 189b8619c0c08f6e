import Wiring.Proofs.Resolution.Conduct
import Wiring.Proofs.Resolution.Hereafter
import Wiring.Proofs.Resolution.Termination

set_option autoImplicit false

namespace Wiring

namespace World

def began (w : World) (i : InjectorId) (p : Place) (cached : Bool) (source? : Option Source) : World :=
  if cached then w.reserved i p source? else w.begun i p source?

def filled (w : World) (i : InjectorId) (p : Place) (cached : Bool) (a : Instance) : World :=
  if cached then (w.withCache i fun c => (c.fulfill p a).release p).record (.stored i p a) else w

def unfilled (w : World) (i : InjectorId) (p : Place) (cached : Bool) : World :=
  if cached then w.withCache i fun c => c.release p else w

def popped (w : World) : World := { w with frames := w.frames.tail }

def opened (w : World) (i : InjectorId) (key : Key) (e : Entry) : World :=
  ((w.requested i key).under i key).began i (.binding key.ident) e.scope.isCached e.source?

variable {w v m : World} {i j : InjectorId} {p q : Place} {cached : Bool} {source? : Option Source}
  {a : Instance} {key : Key} {e : Entry}

@[simp] theorem registry_began (w : World) (i : InjectorId) (p : Place) (cached : Bool)
    (source? : Option Source) : (w.began i p cached source?).registry = w.registry := by
  cases cached
  · cases source? <;> rfl
  · exact funext (registry_reserved w i p source?)

@[simp] theorem frames_began (w : World) (i : InjectorId) (p : Place) (cached : Bool)
    (source? : Option Source) : (w.began i p cached source?).frames = w.frames := by
  cases cached <;> cases source? <;> rfl

@[simp] theorem made_began (w : World) (i : InjectorId) (p : Place) (cached : Bool)
    (source? : Option Source) : (w.began i p cached source?).made = w.made := by
  cases cached <;> cases source? <;> rfl

@[simp] theorem made_filled (w : World) (i : InjectorId) (p : Place) (cached : Bool)
    (a : Instance) : (w.filled i p cached a).made = w.made := by
  cases cached <;> rfl

@[simp] theorem made_record (w : World) (e : Event) : (w.record e).made = w.made := rfl

@[simp] theorem made_popped (w : World) : w.popped.made = w.made := rfl

@[simp] theorem offers_began (w : World) (i : InjectorId) (p : Place) (cached : Bool)
    (source? : Option Source) : (w.began i p cached source?).offers = w.offers := by
  cases cached <;> cases source? <;> rfl

@[simp] theorem made_opened (w : World) (i : InjectorId) (key : Key) (e : Entry) :
    (w.opened i key e).made = w.made := made_began ..

@[simp] theorem offers_opened (w : World) (i : InjectorId) (key : Key) (e : Entry) :
    (w.opened i key e).offers = w.offers := offers_began ..

theorem events_began (w : World) (i : InjectorId) (p : Place) (cached : Bool)
    (source? : Option Source) : (w.began i p cached source?).events =
      (source?.map (.produced i p)).toList ++
        (if cached then [.acquired i p .vacant] else []) ++ w.events := by
  cases cached <;> cases source? <;> rfl

theorem events_filled (w : World) (i : InjectorId) (p : Place) (cached : Bool) (a : Instance) :
    (w.filled i p cached a).events = (if cached then [.stored i p a] else []) ++ w.events := by
  cases cached <;> rfl

@[simp] theorem events_unfilled (w : World) (i : InjectorId) (p : Place) (cached : Bool) :
    (w.unfilled i p cached).events = w.events := by
  cases cached <;> rfl

theorem slot_began (hi : i < w.injectors.length) (j : InjectorId) (q : Place) :
    (w.began i p cached source?).slot j q =
      if cached = true ∧ i = j ∧ p = q then some .pending else w.slot j q := by
  cases cached with
  | true => simpa [began] using slot_reserved hi p source? j q
  | false => cases source? <;> simp [began, begun]

theorem slot_filled (hp : cached = true → w.slot i p = some .pending) (j : InjectorId) (q : Place) :
    (w.filled i p cached a).slot j q =
      if cached = true ∧ i = j ∧ p = q then some (.ready a) else w.slot j q := by
  cases cached with
  | true => simpa [filled] using slot_fulfill (lt_of_slot (hp rfl)) p a j q
  | false => simp [filled]

theorem slot_unfilled (hp : cached = true → w.slot i p = some .pending) (j : InjectorId) (q : Place) :
    (w.unfilled i p cached).slot j q =
      if cached = true ∧ i = j ∧ p = q then none else w.slot j q := by
  cases cached with
  | true => simpa [unfilled] using slot_release (hp rfl) j q
  | false => simp [unfilled]

end World

namespace Resolution

open World

variable {self : Resolver} {w v : World} {i : InjectorId} {p : Place} {cached : Bool}
  {source? : Option Source} {key : Key} {e : Entry} {c : Contribution} {index : Nat}
  {x y : Act Instance}

theorem filling_eq (source? : Option Source) (hx : ∀ u : World, x u = y (u.begun i p source?))
    (hvacant : cached = true → w.slot i p = none) :
    (if cached then kept i p x else x) w = match y (w.began i p cached source?) with
      | .ok a v => .ok a (v.filled i p cached a)
      | .error stop v => .error stop (v.unfilled i p cached) := by
  cases cached with
  | true =>
    simp only [if_true, kept_of_vacant (hvacant rfl), hx]
    rfl
  | false =>
    simp only [Bool.false_eq_true, if_false, hx]
    change y (w.begun i p source?) = match y (w.begun i p source?) with
      | .ok a v => .ok a v
      | .error stop v => .error stop v
    cases y (w.begun i p source?) <;> rfl

theorem yielding_eq (i : InjectorId) (p : Place) (x : Act Instance) (w : World) :
    yielding i p x w = match x w with
      | .ok a v => .ok a (v.record (.yielded i p a))
      | .error stop v => .error stop v := by
  change EStateM.bind x _ w = _
  simp only [EStateM.bind]
  cases x w <;> rfl

theorem element_of_ready {a : Instance} (hc : c.binding.effectiveScope.isCached = true)
    (hready : w.slot i (.element key.ident index) = some (.ready a)) :
    element self i key index c w = .ok a
      ((w.record (.acquired i (.element key.ident index) (.ready a))).record
        (.yielded i (.element key.ident index) a)) := by
  simp only [element, yielding_eq, if_pos hc, kept_of_ready hready]

/-- An element that is not kept is produced, and kept if its scope says so. -/
theorem element_of_vacant (hvacant : c.binding.effectiveScope.isCached = true →
    w.slot i (.element key.ident index) = none) :
    element self i key index c w =
      match produce self i key c.binding.strategy (w.began i (.element key.ident index)
        c.binding.effectiveScope.isCached (some c.source)) with
      | .ok a v => .ok a ((v.filled i (.element key.ident index)
          c.binding.effectiveScope.isCached a).record (.yielded i (.element key.ident index) a))
      | .error stop v => .error stop (v.unfilled i (.element key.ident index)
          c.binding.effectiveScope.isCached) := by
  have hfilling := filling_eq (x := do
      Act.record (.produced i (.element key.ident index) c.source)
      produce self i key c.binding.strategy)
    (y := produce self i key c.binding.strategy) (some c.source) (fun _ => rfl) hvacant
  simp only [element, yielding_eq, hfilling]
  cases produce self i key c.binding.strategy (w.began i (.element key.ident index)
    c.binding.effectiveScope.isCached (some c.source)) <;> rfl

theorem withFrame_eq (i : InjectorId) (key : Key) (x : Act Instance) (w : World) :
    Act.withFrame ⟨i, key⟩ x w = match x (w.under i key) with
      | .ok a v => .ok a v.popped
      | .error stop v => .error stop v.popped := by
  have hunder : { w with frames := ⟨i, key⟩ :: w.frames } = w.under i key := rfl
  simp only [Act.withFrame, hunder]
  cases x (w.under i key) <;> rfl

theorem underConstruction_of_absent {limit : Nat} (habsent : Absent w.frames i key.ident)
    (hroom : (w.underConstruction i).length < limit) (x : Act Instance) :
    underConstruction i key limit x w = Act.withFrame ⟨i, key⟩ x w := by
  have hcycle := cycle_eq_nil_iff.mpr habsent
  simp only [underConstruction]
  rw [if_neg (not_not.mpr hcycle), if_neg (Nat.not_le.mpr hroom)]

/-- A key whose frame can be pushed, and which is not kept, has its entry made, which fills its place. -/
theorem request_of_vacant (hinj : key.isInjector = false) (hf : (w.registry i).find? key = some e)
    (habsent : Absent w.frames i key.ident)
    (hroom : (w.underConstruction i).length < (w.registry i).config.maxDepth)
    (hvacant : w.slot i (.binding key.ident) = none) :
    request self i key w = match fill self i key e (w.opened i key e) with
      | .ok a v => .ok a ((v.filled i (.binding key.ident) e.scope.isCached a).popped.record
          (.yielded i (.binding key.ident) a))
      | .error stop v => .error stop (v.unfilled i (.binding key.ident) e.scope.isCached).popped := by
  have hfilling := filling_eq (w := (w.requested i key).under i key) (p := .binding key.ident)
    e.source? (construct_eq_fill self i key e) (fun _ : e.scope.isCached = true => hvacant)
  rw [request_of_unkept hinj hf (by simp [hvacant]), yielding_eq,
    underConstruction_of_absent (w := w.requested i key) habsent hroom, withFrame_eq, hfilling]
  unfold opened
  cases fill self i key e (((w.requested i key).under i key).began i (.binding key.ident)
    e.scope.isCached e.source?) <;> rfl

end Resolution

namespace World

open Resolution

variable {w v m : World} {i : InjectorId} {key : Key} {e : Entry} {a : Instance}

theorem Moment.path_resolve (hm : m.Moment) (i : InjectorId) (key : Key) :
    Path m (m.after (resolve i key)) := (Good.after (resolve_good hm.inv i key)).path

theorem Moment.path_of_ok (hm : m.Moment) (h : resolve i key m = .ok a v) : Path m v := by
  simpa only [World.after, h] using hm.path_resolve i key

theorem Moment.path_of_error {stop : Stop} (hm : m.Moment) (h : resolve i key m = .error stop v) :
    Path m v := by
  simpa only [World.after, h] using hm.path_resolve i key

theorem Moment.after_resolve (hm : m.Moment) (h : resolve i key m = .ok a v) : v.Moment :=
  hm.path (hm.path_of_ok h)

theorem Moment.slot_cases (hm : m.Moment) (hf : (m.registry i).find? key = some e)
    (habsent : Absent m.frames i key.ident) :
    m.slot i (.binding key.ident) = none ∨
      e.scope.isCached = true ∧ ∃ a, m.slot i (.binding key.ident) = some (.ready a) := by
  cases hslot : m.slot i (.binding key.ident) with
  | none => exact .inl rfl
  | some s =>
    cases s with
    | pending => exact absurd hslot (hm.inv.vacant habsent rfl)
    | ready a =>
      obtain ⟨spot, hspot, hc⟩ := hm.recorded.singleton hslot
      cases (Registry.spot?_binding hf).symm.trans hspot
      exact .inr ⟨hc, a, rfl⟩

/-- If a bound key resolves, then its instance was kept, or its frame could be pushed and its entry was
made. -/
theorem Moment.resolve_eq_ok (hm : m.Moment) (hinj : key.isInjector = false)
    (hf : (m.registry i).find? key = some e) (h : resolve i key m = .ok a v) :
    e.scope.isCached = true ∧ m.slot i (.binding key.ident) = some (.ready a) ∧
        v = (m.requested i key).record (.yielded i (.binding key.ident) a) ∨
      Absent m.frames i key.ident ∧
        (m.underConstruction i).length < (m.registry i).config.maxDepth ∧
        m.slot i (.binding key.ident) = none ∧
        ∃ left, fill resolve i key e (m.opened i key e) = .ok a left ∧
          v = (left.filled i (.binding key.ident) e.scope.isCached a).popped.record
            (.yielded i (.binding key.ident) a) := by
  rw [hm.inv.resolve_eq_request] at h
  by_cases hkept : ∃ b, m.slot i (.binding key.ident) = some (.ready b)
  · obtain ⟨b, hb⟩ := hkept
    obtain ⟨spot, hspot, hc⟩ := hm.recorded.singleton hb
    cases (Registry.spot?_binding hf).symm.trans hspot
    rw [request_kept hinj hf hc, ready?_eq_some.mpr hb] at h
    cases h
    exact .inl ⟨hc, hb, rfl⟩
  · have hunkept : ∀ b, m.slot i (.binding key.ident) ≠ some (.ready b) :=
      fun b hb => hkept ⟨b, hb⟩
    have hstack := h
    rw [request_of_unkept hinj hf hunkept, yielding_eq] at hstack
    rcases underConstruction_cases i key (m.registry i).config.maxDepth
      (if e.scope.isCached then kept i (.binding key.ident) (construct resolve i key e)
        else construct resolve i key e) (m.requested i key) with ⟨_, he⟩ | ⟨habsent, ⟨_, he⟩ | ⟨hroom, _⟩⟩
    · rw [he] at hstack
      cases hstack
    · rw [he] at hstack
      cases hstack
    · have hvacant := (hm.slot_cases hf habsent).resolve_right fun hready => hkept hready.2
      rw [request_of_vacant hinj hf habsent hroom hvacant] at h
      cases hfill : fill resolve i key e (m.opened i key e) with
      | error stop left =>
        rw [hfill] at h
        cases h
      | ok b left =>
        rw [hfill] at h
        cases h
        exact .inr ⟨habsent, hroom, hvacant, left, rfl, rfl⟩

/-- The world that the request of a key opens is a moment, with the key on top of the stack and its place
reserved, if it is one that keeps its instance. -/
theorem Moment.opened (hm : m.Moment) (hinj : key.isInjector = false)
    (hf : (m.registry i).find? key = some e) (habsent : Absent m.frames i key.ident)
    (hroom : (m.underConstruction i).length < (m.registry i).config.maxDepth)
    (hvacant : m.slot i (.binding key.ident) = none) :
    (m.opened i key e).Moment ∧ Inside m.capacity i key (m.registry i)
      ((m.underConstruction i).length + 1) (m.opened i key e) := by
  have hrequested : (m.requested i key).Moment := hm.step (.observe ⟨rfl, rfl⟩)
  have hunder : ((m.requested i key).under i key).Moment :=
    hrequested.step (.push hf hinj habsent hroom)
  have hsite : Site (m.capacity + 1) i (m.registry i) (m.underConstruction i).length
      (m.requested i key) := ⟨rfl, rfl, by
    change m.capacity ≤ _
    omega⟩
  have hentered := hsite.under fun p hp => hrequested.inv.vacant habsent hp
  unfold World.opened World.began
  cases hc : e.scope.isCached with
  | true =>
    obtain ⟨hreserve, hinside⟩ := hentered.reserve hf hc hvacant
    exact ⟨hunder.step hreserve, hinside⟩
  | false =>
    have hbegun := settles_begun (w := (m.requested i key).under i key) hf hc rfl
    exact ⟨hunder.path hbegun.path, stable_inside _ _ hbegun (hentered.inside hf hc)⟩

end World

end Wiring
