import Wiring.Proofs.Resolution.Bound
import Wiring.Proofs.Resolution.Moment

set_option autoImplicit false

namespace Wiring

namespace Resolution

open World Act

/-- Requests are nested `n` deep at the most, and no deeper than there are keys. -/
def nestedWithin (n : Nat) : Resolver := fun i key w => resolveWithin (min n w.capacity) i key w

theorem serves_nestedWithin (n : Nat) : Serves n (nestedWithin n) := by
  intro i key r k w hw hsite
  have hfuel := hsite.fuel
  exact serves_resolveWithin (min n w.capacity) i key r k w hw
    ⟨hsite.registry, hsite.depth, by omega⟩

theorem bounded_nestedWithin (n : Nat) : Bounded (nestedWithin n) (resolveWithin n) :=
  fun i key w => bounded_of_le (Nat.min_le_left n w.capacity) i key w

theorem bounded_nestedWithin_resolve (n : Nat) : Bounded (nestedWithin n) resolve :=
  fun i key w => bounded_of_le (Nat.min_le_right n w.capacity) i key w

end Resolution

namespace World

open Resolution

variable {w v m : World} {i : InjectorId}

/-- Nested requests are resolved as requests from outside are. -/
theorem Inv.resolve_eq_request (hw : w.Inv) (i : InjectorId) (key : Key) :
    resolve i key w = request resolve i key w := by
  obtain ⟨n, hn⟩ : ∃ n, w.capacity = n + 1 := ⟨_, rfl⟩
  have hresolve : resolve i key w = request (resolveWithin n) i key w := by
    rw [resolve, hn]
    rfl
  -- Both sides are refined by a resolver that is not stopped by its bound here.
  have hgood := serves_request (serves_nestedWithin n) i key _ _ w hw ⟨rfl, rfl, by omega⟩
  have hproper : ∀ v, request (nestedWithin n) i key w ≠ .error .exhausted v := by
    intro v h
    rw [h] at hgood
    exact hgood.2
  rcases (bounded_nestedWithin n).request i key w with hleft | ⟨v, hv⟩
  · rcases (bounded_nestedWithin_resolve n).request i key w with hright | ⟨v, hv⟩
    · rw [hresolve, ← hleft, hright]
    · exact absurd hv (hproper v)
  · exact absurd hv (hproper v)

def Limited (w : World) : Prop :=
  ∀ i, (w.underConstruction i).length ≤ (w.registry i).config.maxDepth

theorem Limited.congr (hl : w.Limited) (hf : v.frames = w.frames)
    (hr : ∀ i, v.registry i = w.registry i) : v.Limited := by
  intro i
  rw [underConstruction, hf, hr]
  exact hl i

theorem Limited.push {key : Key} (hl : w.Limited)
    (hroom : (w.underConstruction i).length < (w.registry i).config.maxDepth) :
    (w.under i key).Limited := by
  intro j
  by_cases hij : i = j
  · subst hij
    rw [underConstruction_under, List.length_append, List.length_singleton]
    exact hroom
  · have hsame : (w.under i key).underConstruction j = w.underConstruction j := by
      simp [underConstruction, under, hij]
    rw [hsame]
    exact hl j

theorem Limited.pop {f : Frame} {rest : List Frame} (hl : w.Limited)
    (hframes : w.frames = f :: rest) : Limited { w with frames := rest } := by
  intro j
  refine Nat.le_trans ?_ (hl j)
  rw [underConstruction, underConstruction, hframes, List.length_reverse, List.length_reverse,
    List.length_map, List.length_map]
  exact ((List.sublist_cons_self f rest).filter _).length_le

theorem Step.limited (h : Step w v) (hl : w.Limited) : v.Limited := by
  have hreg := h.registry
  cases h with
  | plain _ hf _ _ => exact hl.congr hf hreg
  | observe => exact hl
  | push _ _ _ hroom => exact hl.push hroom
  | pop hframes _ => exact hl.pop hframes
  | reserve => exact hl.congr (frames_reserved ..) hreg
  | fulfill => exact hl.congr rfl hreg
  | release => exact hl.congr rfl hreg

theorem Moment.limited (hm : m.Moment) : m.Limited := by
  obtain ⟨w, hw, hp⟩ := hm
  induction hp with
  | refl =>
    intro i
    rw [underConstruction_of_idle hw.quiet.idle]
    exact Nat.zero_le _
  | tail _ hs ih => exact hs.limited ih

theorem Inv.bound_of_underConstruction (hw : w.Inv) {k : Key} (hk : k ∈ w.underConstruction i) :
    ∃ e, (w.registry i).find? k = some e := by
  rw [underConstruction, List.mem_reverse] at hk
  obtain ⟨f, hf, rfl⟩ := List.mem_map.mp hk
  obtain ⟨hmem, hi⟩ := List.mem_filter.mp hf
  obtain ⟨e, he⟩ := hw.bound f hmem
  rw [of_decide_eq_true hi] at he
  exact ⟨e, he⟩

theorem Inv.length_le_size (hw : w.Inv) (i : InjectorId) :
    (w.underConstruction i).length ≤ (w.registry i).size := by
  have hsub : (w.underConstruction i).map Key.ident ⊆
      (w.registry i).entries.entries.map fun e => e.1.ident := by
    intro a ha
    obtain ⟨k, hk, rfl⟩ := List.mem_map.mp ha
    obtain ⟨e, he⟩ := hw.bound_of_underConstruction hk
    obtain ⟨key, hmem, hkey⟩ := KeyMap.exists_mem_of_at? he
    exact List.mem_map.mpr ⟨(key, e), hmem, hkey⟩
  have hle := (List.subperm_of_subset (hw.distinct_stack i) hsub).length_le
  rw [List.length_map, List.length_map] at hle
  exact hle

/-- Resolution ends, whatever the limit is and however keys depend on each other. At every moment of a run
the recursion, its nested requests being resolved by itself, comes to an instance, an error or a panic, and
unfolding it any further makes no difference. The keys under construction by an injector are distinct and
bound, and there are no more of them than its limit allows and than it binds. -/
theorem resolve_terminates (hm : m.Moment) :
    (∀ i key, resolve i key m = request resolve i key m ∧
      (∀ stop v, resolve i key m = .error stop v → stop.IsProper) ∧
      ∀ d, m.capacity ≤ d + m.frames.length → resolveWithin d i key m = resolve i key m) ∧
    (∀ i, ((m.underConstruction i).map Key.ident).Nodup ∧
      (∀ k ∈ m.underConstruction i, ∃ e, (m.registry i).find? k = some e) ∧
      (m.underConstruction i).length ≤ min (m.registry i).config.maxDepth (m.registry i).size) ∧
    Asked m.events := by
  refine ⟨fun i key => ⟨hm.inv.resolve_eq_request i key, fun stop v h => ?_, fun d hd => ?_⟩,
    fun i => ⟨hm.inv.distinct_stack i, fun k hk => hm.inv.bound_of_underConstruction hk, ?_⟩,
    hm.asked⟩
  · have hgood := resolve_good hm.inv i key
    rw [h] at hgood
    exact hgood.2
  · exact resolveWithin_eq_resolve hm.inv hd i key
  · exact Nat.le_min.mpr ⟨hm.limited i, hm.inv.length_le_size i⟩

def westKey : Key := .of (.value .alpha)

def eastKey : Key := .named (.value .alpha) "east"

def circleOperations : List Operation :=
  [.register westKey ⟨.alias eastKey, none⟩ .direct,
    .register eastKey ⟨.alias westKey, some .singleton⟩ .direct, .finalize]

def circleConfig : Config := { maxDepth := 18446744073709551615 }

def circleInjector : Injector where
  registry := (Operation.runAll (.withConfig circleConfig) circleOperations).2.finalized.getD {}

/-- Names that lead to each other are followed once around, however high the limit is. -/
theorem resolve_terminates_circle :
    let w := ({} : World).addInjector "main" circleInjector
    (∃ v, resolve 0 westKey w = .error (.error (.circular [westKey, eastKey, westKey])) v) ∧
      ∀ d, 3 ≤ d → resolveWithin d 0 westKey w = resolve 0 westKey w := by
  have hfrozen : circleInjector.registry.Frozen :=
    ⟨circleConfig, circleOperations, by simp [circleOperations, Operation.Typed], rfl⟩
  have hreachable : (({} : World).addInjector "main" circleInjector).Reachable :=
    Relation.ReflTransGen.single (.inject "main" hfrozen rfl)
  obtain ⟨hends, _⟩ := resolve_terminates hreachable.moment
  exact ⟨⟨_, rfl⟩, fun d hd => (hends 0 westKey).2.2 d hd⟩

end World

end Wiring
