import Wiring.Proofs.Resolution.History
import Wiring.Proofs.Resolution.Sound

set_option autoImplicit false

namespace Wiring

open Relation

namespace World

variable {α : Type} {w v : World} {i : InjectorId} {p : Place}

def after (w : World) (x : Act α) : World :=
  match x w with
  | .ok _ v => v
  | .error _ v => v

inductive Next : World → World → Prop where
  | inject {w : World} (name : String) {j : Injector} : j.registry.Frozen → j.cache = [] →
      Next w (w.addInjector name j)
  | offer {w : World} (b : Binding) : Next w (w.offer b)
  | fetch {w : World} (i : InjectorId) (req : Request) : Next w (w.after (fetch i req))
  | pull {w : World} (l : Lazy) : Next w (w.after (pull l))
  | resolvePoints {w : World} (i : InjectorId) (ps : List Point) :
      Next w (w.after (resolvePoints i ps))
  | arrange {w : World} (directory : Table String InjectorId) (holdings : Table String Instance)
      (notes : List Note) : Next w { w with directory, holdings, notes }

abbrev Later : World → World → Prop := ReflTransGen Next

def Reachable (w : World) : Prop := Later {} w

structure Quiet (w : World) : Prop where
  inv : w.Inv
  idle : w.frames = []
  recorded : w.Recorded

theorem quiet_empty : ({} : World).Quiet := by
  have hregistry : ∀ i, ({} : World).registry i = {} := fun i => by
    rw [registry, injector_of_le (Nat.zero_le i)]
  have hslot : ∀ i p s, ({} : World).slot i p ≠ some s := by
    intro i p s h
    have := lt_of_slot h
    simp at this
  refine ⟨⟨fun i => ?_, ?_, List.nodup_nil, by simp, fun i p h => absurd h (hslot i p _),
    fun i p a h => absurd h (hslot i p _)⟩, rfl, fun i p h => absurd h (hslot i p _),
    fun i p a => iff_of_false (hslot i p _) (by simp [stored?]), allJustified_nil, allPursued_nil⟩
  · rw [hregistry]
    exact Registry.wellTyped_empty
  · simp [Table.get?]

theorem serves_resolve (d : Nat) : Resolution.Serves d resolve := by
  intro i key r n w hw hsite
  exact Resolution.serves_resolveWithin w.capacity i key r n w hw
    ⟨hsite.registry, hsite.depth, Nat.le_add_right _ _⟩

theorem Good.after {Q : α → World → Prop} {x : Act α} (h : w.Good Q (x w)) :
    w.Settles (w.after x) := by
  unfold World.after
  generalize x w = r at h ⊢
  cases r with
  | ok a v => exact h.1
  | error stop v => exact h.1

theorem Settles.quiet (h : w.Settles v) (hw : w.Quiet) : v.Quiet :=
  ⟨h.inv hw.inv, h.frames.trans hw.idle, h.path.recorded hw.recorded⟩

theorem settles_fetch (hw : w.Inv) (i : InjectorId) (req : Request) :
    w.Settles (w.after (fetch i req)) :=
  Good.after (Resolution.sound_serve (serves_resolve w.capacity) i req w hw (w.site_self i))

theorem settles_pull (hw : w.Inv) (l : Lazy) : w.Settles (w.after (pull l)) :=
  Good.after (Resolution.sound_pull (serves_resolve w.capacity) l w hw (w.site_self l.injector))

theorem settles_resolvePoints (hw : w.Inv) (i : InjectorId) (ps : List Point) :
    w.Settles (w.after (resolvePoints i ps)) :=
  Good.after (Resolution.sound_points (serves_resolve w.capacity) ps w hw (w.site_self i))

theorem injector_addInjector (w : World) (name : String) (j : Injector) (i : InjectorId) :
    (w.addInjector name j).injector i = if i = w.injectors.length then j else w.injector i := by
  simp only [injector, addInjector, List.getD_eq_getElem?_getD]
  by_cases hi : i = w.injectors.length
  · simp [hi]
  · rcases Nat.lt_or_gt_of_ne hi with hlt | hgt
    · simp [hi, List.getElem?_append_left hlt]
    · rw [if_neg hi, List.getElem?_eq_none (by simp; omega), List.getElem?_eq_none (by omega)]

theorem slot_addInjector {name : String} {j : Injector} (hj : j.cache = []) (i : InjectorId)
    (p : Place) : (w.addInjector name j).slot i p = w.slot i p := by
  simp only [slot, cache, injector_addInjector]
  split
  · rename_i hi
    rw [hj, hi, injector_of_le (Nat.le_refl _)]
  · rfl

theorem registry_addInjector {name : String} {j : Injector} (hi : i < w.injectors.length) :
    (w.addInjector name j).registry i = w.registry i := by
  simp only [registry, injector_addInjector, if_neg (Nat.ne_of_lt hi)]

theorem spot_addInjector {name : String} {j : Injector} {spot : Spot}
    (h : (w.registry i).spot? p = some spot) :
    ((w.addInjector name j).registry i).spot? p = some spot := by
  rwa [registry_addInjector (lt_of_spot h)]

theorem Quiet.inject (hw : w.Quiet) (name : String) {j : Injector} (hf : j.registry.Frozen)
    (hj : j.cache = []) : (w.addInjector name j).Quiet := by
  have hslot : ∀ i p, (w.addInjector name j).slot i p = w.slot i p := slot_addInjector hj
  have hspots : ∀ i p spot, (w.registry i).spot? p = some spot →
      ((w.addInjector name j).registry i).spot? p = some spot := fun i p spot => spot_addInjector
  refine ⟨⟨fun i => ?_, hw.inv.offers, hw.inv.distinct, ?_, fun i p h => ?_, fun i p a h => ?_⟩,
    hw.idle, fun i p h => ?_, fun i p a => ?_, hw.recorded.justified.mono hspots,
    hw.recorded.pursued.mono hspots hw.recorded.justified⟩
  · simp only [registry, injector_addInjector]
    split
    · exact hf.wellTyped
    · exact hw.inv.typed i
  · intro f hm
    rw [show (w.addInjector name j).frames = w.frames from rfl, hw.idle] at hm
    contradiction
  · rw [hslot] at h
    exact hw.inv.pending i p h
  · rw [hslot] at h
    rw [registry_addInjector (lt_of_slot h)]
    exact hw.inv.ready i p a h
  · rw [hslot] at h
    obtain ⟨spot, hspot, hc⟩ := hw.recorded.reserved i p h
    exact ⟨spot, spot_addInjector hspot, hc⟩
  · rw [hslot]
    exact hw.recorded.kept i p a

theorem Quiet.offer (hw : w.Quiet) (b : Binding) : (w.offer b).Quiet := by
  have hsame : (w.offer b).injectors = w.injectors ∧ (w.offer b).frames = w.frames ∧
      (w.offer b).events = w.events := by
    unfold World.offer
    split <;> exact ⟨rfl, rfl, rfl⟩
  obtain ⟨hi, hf, he⟩ := hsame
  have hoffers : ∀ t name d, (w.offer b).offers.get? (t, name) = some d → d.type = t := by
    intro t name d h
    unfold World.offer at h
    split at h
    · rename_i name' d' _
      simp only [Table.offer] at h
      split at h
      · exact hw.inv.offers t name d h
      · by_cases heq : (d'.type, name') = (t, name)
        · rw [heq, Table.get?_put_self] at h
          cases heq
          cases h
          rfl
        · rw [Table.get?_put_ne _ _ heq] at h
          exact hw.inv.offers t name d h
    · exact hw.inv.offers t name d h
  have hregistry : (w.offer b).registry = w.registry := by
    funext i
    simp only [registry, injector, hi]
  have hslot : (w.offer b).slot = w.slot := by
    funext i p
    simp only [slot, cache, injector, hi]
  exact ⟨⟨by rw [hregistry]; exact hw.inv.typed, hoffers, by rw [hf]; exact hw.inv.distinct,
      by rw [hf, hregistry]; exact hw.inv.bound, by rw [hf, hslot]; exact hw.inv.pending,
      by rw [hregistry, hslot]; exact hw.inv.ready⟩, hf.trans hw.idle,
    by rw [hslot, hregistry]; exact hw.recorded.reserved,
    by rw [hslot, he]; exact hw.recorded.kept, by rw [hregistry, he]; exact hw.recorded.justified,
    by rw [hregistry, he]; exact hw.recorded.pursued⟩

theorem Next.quiet (h : Next w v) (hw : w.Quiet) : v.Quiet := by
  cases h with
  | inject name hf hj => exact hw.inject name hf hj
  | offer b => exact hw.offer b
  | fetch i req => exact (settles_fetch hw.inv i req).quiet hw
  | pull l => exact (settles_pull hw.inv l).quiet hw
  | resolvePoints i ps => exact (settles_resolvePoints hw.inv i ps).quiet hw
  | arrange directory holdings notes =>
    exact ⟨⟨hw.inv.typed, hw.inv.offers, hw.inv.distinct, hw.inv.bound, hw.inv.pending,
      hw.inv.ready⟩, hw.idle, hw.recorded.reserved, hw.recorded.kept, hw.recorded.justified,
      hw.recorded.pursued⟩

theorem Later.quiet (h : Later w v) (hw : w.Quiet) : v.Quiet := by
  induction h with
  | refl => exact hw
  | tail _ hs ih => exact hs.quiet ih

theorem Reachable.quiet (h : w.Reachable) : w.Quiet := Later.quiet h quiet_empty

/-- What an injector binds never changes once the injector is there. -/
theorem Next.registry (h : Next w v) (hw : w.Quiet) (hi : i < w.injectors.length) :
    i < v.injectors.length ∧ v.registry i = w.registry i := by
  have settled : ∀ {v : World}, w.Settles v →
      i < v.injectors.length ∧ v.registry i = w.registry i := by
    intro v hv
    have := congrArg List.length hv.path.injectors
    simp only [List.length_map] at this
    exact ⟨this ▸ hi, hv.path.registry i⟩
  cases h with
  | inject name hf hj =>
    exact ⟨Nat.lt_of_lt_of_le hi (by simp [addInjector]), registry_addInjector hi⟩
  | offer b =>
    unfold World.offer
    split <;> exact ⟨hi, rfl⟩
  | fetch i req => exact settled (settles_fetch hw.inv i req)
  | pull l => exact settled (settles_pull hw.inv l)
  | resolvePoints i ps => exact settled (settles_resolvePoints hw.inv i ps)
  | arrange => exact ⟨hi, rfl⟩

theorem Later.registry (h : Later w v) (hw : w.Quiet) (hi : i < w.injectors.length) :
    i < v.injectors.length ∧ v.registry i = w.registry i := by
  induction h with
  | refl => exact ⟨hi, rfl⟩
  | tail hwb hs ih =>
    obtain ⟨hb, hr⟩ := ih
    obtain ⟨hc, hr'⟩ := hs.registry (Later.quiet hwb hw) hb
    exact ⟨hc, hr'.trans hr⟩

end World

end Wiring
