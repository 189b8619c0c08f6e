import Wiring.Proofs.Resolution.Bound
import Wiring.Proofs.Resolution.Moment

set_option autoImplicit false

namespace Wiring

namespace Resolution

open World

variable {self : Resolver} {w v : World} {i : InjectorId} {key : Key} {p : Place}
  {x : Act Instance} {stop : Stop}
  {Q : Instance → World → Prop}

theorem kept_vacant {source? : Option Source} (hi : i < w.injectors.length)
    (hslot : w.slot i p = none)
    (hx : Good (w.reserved i p source?) Q
      (x ((w.record (.acquired i p .vacant)).withCache i fun c => c.reserve p)))
    (h : kept i p x w = .error stop v) : v.slot i p = none := by
  rcases kept_error h with ⟨hpending, _⟩ | ⟨_, left, hleft, rfl⟩
  · rw [hslot] at hpending
    contradiction
  · rw [hleft] at hx
    have hpending : left.slot i p = some .pending := by
      refine (hx.1.pending i p).mpr ?_
      rw [slot_reserved hi, if_pos ⟨rfl, rfl⟩]
    rw [slot_release hpending, if_pos ⟨rfl, rfl⟩]

theorem request_kept_error {d : Nat} (hs : Serves d self) (hw : w.Inv)
    (hfuel : w.capacity ≤ d + 1 + w.frames.length) (hinj : key.isInjector = false) {e : Entry}
    (hf : (w.registry i).find? key = some e) (hc : e.scope.isCached = true)
    (hslot : w.slot i (.binding key.ident) = none) (h : request self i key w = .error stop v) :
    v.slot i (.binding key.ident) = none := by
  have hready : (w.cache i).ready? (.binding key.ident) = none := by rw [cache_ready?, hslot]
  have hrequested := settles_requested w i key
  rw [request_kept hinj hf hc, hready] at h
  rcases underConstruction_error (yielding_eq_error.mp h) with
    ⟨rfl, _⟩ | ⟨rfl, _⟩ | ⟨hfree, _, left, hkept, rfl⟩
  · exact hslot
  · exact hslot
  · have hinv := hrequested.inv hw
    have hentered := (stable_site _ _ hrequested ⟨rfl, rfl, hfuel⟩).under fun q hq =>
      hinv.vacant hfree hq
    have hvacant : ((w.requested i key).under i key).slot i (.binding key.ident) = none := hslot
    have hmade : Good (((w.requested i key).under i key).reserved i (.binding key.ident) e.source?)
        (fun a _ => (w.registry i).Sustains (.binding key.ident) a)
        (construct self i key e
          ((((w.requested i key).under i key).record (.acquired i (.binding key.ident) .vacant)).withCache i
            fun c => c.reserve (.binding key.ident))) := by
      rw [construct_eq_fill]
      exact fill_reserved_good hs hf hc (hinv.push hf hfree) hentered hvacant
    change left.slot i (.binding key.ident) = none
    exact kept_vacant (w := (w.requested i key).under i key) (lt_of_bound hf) hvacant hmade hkept

/-- A request that does not succeed leaves the place of its key as it was. -/
theorem request_error {d : Nat} (hs : Serves d self) (hw : w.Inv) (hr : w.Recorded)
    (hfuel : w.capacity ≤ d + 1 + w.frames.length) (h : request self i key w = .error stop v) :
    v.slot i (.binding key.ident) = w.slot i (.binding key.ident) := by
  have hgood := serves_request hs i key _ _ w hw ⟨rfl, rfl, hfuel⟩
  rw [h] at hgood
  have hv := hgood.1
  cases hinj : key.isInjector with
  | true =>
    rw [request_injector hinj] at h
    cases h
  | false =>
    cases hf : (w.registry i).find? key with
    | none =>
      rw [request_unbound hinj hf] at h
      cases h
      rfl
    | some e =>
      cases hslot : w.slot i (.binding key.ident) with
      | some s =>
        cases s with
        | pending => exact (hv.pending i _).mpr hslot
        | ready a => exact hv.path.ready hslot
      | none =>
        cases hc : e.scope.isCached with
        | true => exact request_kept_error hs hw hfuel hinj hf hc hslot h
        | false =>
          cases hleft : v.slot i (.binding key.ident) with
          | none => rfl
          | some s =>
            -- Nothing is ever kept for a key that is made on every request.
            obtain ⟨spot, hspot, hcached⟩ := (hv.path.recorded hr).singleton hleft
            rw [hv.path.registry, Registry.spot?_binding hf] at hspot
            cases hspot
            rw [hc] at hcached
            contradiction

end Resolution

namespace World

variable {m : World}

theorem Next.settled {v : World} (hm : m.Reachable) (h : Next m v) :
    v.frames = [] ∧ ∀ i p, v.slot i p ≠ some .pending := by
  have hv := h.quiet hm.quiet
  exact ⟨hv.idle, fun i p => hv.inv.not_pending hv.idle⟩

/-- A resolution leaves things as it found them, but for instances that are kept. It may begin at any
moment of a run, and end with an instance, an error or a panic: the stack and the reservations are what
they were, what was kept is kept, and a resolution that does not succeed keeps nothing for its key. After
whatever is done from outside, nothing is on the stack and nothing reserved. All requests are made at such
moments, and what bounds them does not matter. -/
theorem resolve_restores (hm : m.Moment) (i : InjectorId) (key : Key) :
    (m.after (resolve i key)).frames = m.frames ∧
    (∀ j p, (m.after (resolve i key)).slot j p = some .pending ↔ m.slot j p = some .pending) ∧
    (∀ j p a, m.slot j p = some (.ready a) →
      (m.after (resolve i key)).slot j p = some (.ready a)) ∧
    (∀ stop v, resolve i key m = .error stop v →
      stop.IsProper ∧ v.slot i (.binding key.ident) = m.slot i (.binding key.ident)) ∧
    (m.Reachable → ∀ v, Next m v → v.frames = [] ∧ ∀ j p, v.slot j p ≠ some .pending) ∧
    Asked m.events ∧
    ∀ d, m.capacity ≤ d + m.frames.length → Resolution.resolveWithin d i key m = resolve i key m := by
  have hgood := resolve_good hm.inv i key
  have hsettles := Good.after hgood
  refine ⟨hsettles.frames, hsettles.pending, fun j p a ha => hsettles.path.ready ha,
    fun stop v h => ⟨?_, ?_⟩, fun hreach v h => h.settled hreach, hm.asked,
    fun d hd => resolveWithin_eq_resolve hm.inv hd i key⟩
  · rw [h] at hgood
    exact hgood.2
  · exact Resolution.request_error (Resolution.serves_resolveWithin
      ((m.injectors.map fun j => j.registry.size).foldr (· + ·) 0)) hm.inv hm.recorded
      (Nat.le_add_right _ _) h

/-- A constructor that asks for its own instance finds the stack as it was, and so does whoever comes
after. -/
theorem resolve_restores_echo :
    ∃ m : World, m.Moment ∧ (m.after (resolve 0 echoKey)).frames = [⟨0, echoKey⟩] ∧
      (m.after (resolve 0 echoKey)).slot 0 (.binding echoKey.ident) = some .pending ∧
      (echoed.after (fetch 0 (.of echoKey))).frames = [] := by
  obtain ⟨m, hm, hframes, hslot⟩ := echoed_moment
  obtain ⟨hrestored, hpending, _⟩ := resolve_restores hm 0 echoKey
  obtain ⟨_, _, _, _, hidle, _⟩ := resolve_restores reachable_echoed.moment 0 echoKey
  exact ⟨m, hm, hrestored.trans hframes, (hpending 0 _).mpr hslot,
    (hidle reachable_echoed _ (.fetch 0 _)).1⟩

end World

end Wiring
