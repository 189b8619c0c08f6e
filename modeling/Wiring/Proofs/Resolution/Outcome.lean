import Mathlib.Data.List.TakeWhile
import Wiring.Proofs.Resolution.Step

set_option autoImplicit false

namespace Wiring

open Relation

/-- Ways to end that are the doing of what was bound, and not of resolution itself. -/
def Stop.IsProper : Stop → Prop
  | error _ => True
  | panic _ => True
  | blocked .. => False
  | exhausted => False

namespace World

/-- A path leads from the one world to the other, where the stack and the reservations are as before. -/
structure Settles (w v : World) : Prop where
  path : Path w v
  frames : v.frames = w.frames
  pending : ∀ i p, v.slot i p = some .pending ↔ w.slot i p = some .pending

variable {α β : Type} {w v u : World} {i : InjectorId} {p : Place}

theorem Settles.refl (w : World) : w.Settles w := ⟨.refl, rfl, fun _ _ => Iff.rfl⟩

theorem Settles.trans (h : w.Settles v) (h' : v.Settles u) : w.Settles u :=
  ⟨h.path.trans h'.path, h'.frames.trans h.frames, fun i p => (h'.pending i p).trans (h.pending i p)⟩

theorem Settles.inv (h : w.Settles v) (hw : w.Inv) : v.Inv := h.path.inv hw

theorem Settles.observe {e : Event} (h : w.Observes e) : w.Settles (w.record e) :=
  ⟨.single (.observe h), rfl, fun _ _ => Iff.rfl⟩

theorem settles_requested (w : World) (i : InjectorId) (key : Key) :
    w.Settles (w.requested i key) := Settles.observe ⟨rfl, rfl⟩

theorem Settles.plain (hi : v.injectors = w.injectors) (hf : v.frames = w.frames)
    (he : v.events = w.events) (ho : v.offers = w.offers) : w.Settles v :=
  ⟨.single (.plain hi hf he ho), hf, fun i p => by simp only [slot, cache, injector, hi]⟩

def Good (w : World) (Q : α → World → Prop) : EStateM.Result Stop World α → Prop
  | .ok a v => w.Settles v ∧ Q a v
  | .error stop v => w.Settles v ∧ stop.IsProper

theorem Good.imp {Q R : α → World → Prop} {r : EStateM.Result Stop World α} (h : w.Good Q r)
    (hq : ∀ a v, w.Settles v → Q a v → R a v) : w.Good R r := by
  cases r with
  | ok a v => exact ⟨h.1, hq a v h.1 h.2⟩
  | error stop v => exact h

theorem Good.of_settles {Q : α → World → Prop} {r : EStateM.Result Stop World α}
    (hv : w.Settles v) (h : v.Good Q r) : w.Good Q r := by
  cases r with
  | ok a u => exact ⟨hv.trans h.1, h.2⟩
  | error stop u => exact ⟨hv.trans h.1, h.2⟩

end World

namespace Act

open World

variable {α β : Type} {C D : World → Prop} {x : Act α} {Q R : α → World → Prop}

/-- From every world in its context, an action comes to a good outcome. -/
def Sound (C : World → Prop) (x : Act α) (Q : α → World → Prop) : Prop :=
  ∀ w : World, w.Inv → C w → w.Good Q (x w)

def Stable (C : World → Prop) : Prop := ∀ w v : World, w.Settles v → C w → C v

theorem Stable.and (hc : Stable C) (hd : Stable D) : Stable fun w => C w ∧ D w :=
  fun w v h hw => ⟨hc w v h hw.1, hd w v h hw.2⟩

theorem stable_const (P : Prop) : Stable fun _ => P := fun _ _ _ h => h

theorem Sound.of_imp (h : Sound C x Q) (hd : ∀ w, D w → C w) : Sound D x Q :=
  fun w hw hw' => h w hw (hd w hw')

theorem sound_pure {a : α} (h : ∀ w, C w → Q a w) : Sound C (pure a) Q :=
  fun w _ hc => ⟨Settles.refl w, h w hc⟩

theorem sound_refuse (e : ResolveError) : Sound C (refuse e) Q :=
  fun w _ _ => ⟨Settles.refl w, trivial⟩

theorem sound_panic (text : String) : Sound C (throw (.panic text)) Q :=
  fun w _ _ => ⟨Settles.refl w, trivial⟩

theorem Sound.bind {f : α → Act β} {R : β → World → Prop} (hc : Stable C) (hx : Sound C x Q)
    (hf : ∀ a, Sound (fun w => C w ∧ Q a w) (f a) R) : Sound C (x >>= f) R := by
  intro w hw hcw
  have h := hx w hw hcw
  change w.Good R (EStateM.bind x f w)
  simp only [EStateM.bind]
  generalize x w = r at h ⊢
  cases r with
  | error stop v => exact h
  | ok a v => exact (hf a v (h.1.inv hw) ⟨hc w v h.1 hcw, h.2⟩).of_settles h.1

theorem sound_record {e : Event} (h : ∀ w, C w → w.Observes e) :
    Sound C (record e) fun _ _ => True :=
  fun w _ hc => ⟨Settles.observe (h w hc), trivial⟩

theorem sound_note (n : Note) : Sound C (modify fun w => w.note n) fun _ _ => True :=
  fun _ _ _ => ⟨Settles.plain rfl rfl rfl rfl, trivial⟩

theorem sound_count (tally : Nat) : Sound C (count tally) fun _ _ => True :=
  fun _ _ _ => ⟨Settles.plain rfl rfl rfl rfl, trivial⟩

theorem sound_fresh : Sound C fresh fun _ _ => True :=
  fun _ _ _ => ⟨Settles.plain rfl rfl rfl rfl, trivial⟩

theorem bind_error {f : α → Act β} {w v : World} {stop : Stop} (h : (x >>= f) w = .error stop v) :
    x w = .error stop v ∨ ∃ a u, x w = .ok a u ∧ f a u = .error stop v := by
  change EStateM.bind x f w = _ at h
  simp only [EStateM.bind] at h
  generalize x w = r at h ⊢
  cases r with
  | ok a u => exact .inr ⟨a, u, rfl, h⟩
  | error stop' u =>
    cases h
    exact .inl rfl

theorem Sound.attempt (h : Sound C x Q) : Sound C (attempt x) fun _ _ => True := by
  intro w hw hc
  have h := h w hw hc
  simp only [Act.attempt]
  generalize x w = r at h ⊢
  cases r with
  | ok a v => exact ⟨h.1, trivial⟩
  | error stop v =>
    cases stop with
    | error e => exact ⟨h.1, trivial⟩
    | panic text => exact h
    | blocked => exact h
    | exhausted => exact h

end Act

namespace Resolution

open World

variable {i : InjectorId} {key : Key} {p : Place} {w : World} {x : Act Instance}
  {Q : Instance → World → Prop}

/-- There is no cycle to report for a key exactly if the key is not under construction. -/
theorem cycle_eq_nil_iff :
    (w.underConstruction i).dropWhile (fun k => k.ident ≠ key.ident) = [] ↔
      ∀ f ∈ w.frames, f.injector = i → f.key.ident ≠ key.ident := by
  simp only [List.dropWhile_eq_nil_iff, World.underConstruction, List.mem_reverse, List.mem_map,
    List.mem_filter, decide_eq_true_eq]
  constructor
  · exact fun h f hf hi => h f.key ⟨f, ⟨hf, hi⟩, rfl⟩
  · rintro h k ⟨f, ⟨hf, hi⟩, rfl⟩
    exact h f hf hi

/-- A construction is refused, or runs with the frame of the key on the stack. -/
theorem underConstruction_cases (i : InjectorId) (key : Key) (limit : Nat) (x : Act Instance) (w : World) :
    ((w.underConstruction i).dropWhile (fun k => k.ident ≠ key.ident) ≠ [] ∧
      underConstruction i key limit x w = .error (.error (.circular
        ((w.underConstruction i).dropWhile (fun k => k.ident ≠ key.ident) ++ [key]))) w) ∨
    (∀ f ∈ w.frames, f.injector = i → f.key.ident ≠ key.ident) ∧
      (limit ≤ (w.underConstruction i).length ∧
          underConstruction i key limit x w = .error (.error (.depthExceeded key limit)) w ∨
        (w.underConstruction i).length < limit ∧
          ((∃ a v, x (w.under i key) = .ok a v ∧
              underConstruction i key limit x w = .ok a { v with frames := v.frames.tail }) ∨
            ∃ stop v, x (w.under i key) = .error stop v ∧
              underConstruction i key limit x w = .error stop { v with frames := v.frames.tail })) := by
  simp only [underConstruction]
  by_cases hcycle : (w.underConstruction i).dropWhile (fun k => k.ident ≠ key.ident) = []
  · rw [if_neg (not_not.mpr hcycle)]
    refine .inr ⟨cycle_eq_nil_iff.mp hcycle, ?_⟩
    by_cases hlimit : limit ≤ (w.underConstruction i).length
    · rw [if_pos hlimit]
      exact .inl ⟨hlimit, rfl⟩
    · rw [if_neg hlimit]
      refine .inr ⟨Nat.lt_of_not_le hlimit, ?_⟩
      simp only [Act.withFrame, World.under]
      cases x { w with frames := ⟨i, key⟩ :: w.frames } with
      | ok a v => exact .inl ⟨a, v, rfl, rfl⟩
      | error stop v => exact .inr ⟨stop, v, rfl, rfl⟩
  · rw [if_pos hcycle]
    exact .inl ⟨hcycle, rfl⟩

/-- An instance is kept already, its place is reserved, or it is made now while the place is reserved. -/
theorem kept_cases (i : InjectorId) (p : Place) (x : Act Instance) (w : World) :
    (∃ a, w.slot i p = some (.ready a) ∧ kept i p x w = .ok a (w.record (.acquired i p (.ready a)))) ∨
    (w.slot i p = some .pending ∧ kept i p x w = .error (.blocked i p) (w.record (.acquired i p .busy))) ∨
    w.slot i p = none ∧
      ((∃ a v, x ((w.record (.acquired i p .vacant)).withCache i fun c => c.reserve p) = .ok a v ∧
          kept i p x w =
            .ok a ((v.withCache i fun c => (c.fulfill p a).release p).record (.stored i p a))) ∨
        ∃ stop v, x ((w.record (.acquired i p .vacant)).withCache i fun c => c.reserve p) = .error stop v ∧
          kept i p x w = .error stop (v.withCache i fun c => c.release p)) := by
  simp only [kept]
  rw [cache_find]
  cases w.slot i p with
  | some s =>
    cases s with
    | pending => exact .inr (.inl ⟨rfl, rfl⟩)
    | ready a => exact .inl ⟨a, rfl, rfl⟩
  | none =>
    refine .inr (.inr ⟨rfl, ?_⟩)
    dsimp only
    cases x ((w.record (.acquired i p .vacant)).withCache i fun c => c.reserve p) with
    | ok a v => exact .inl ⟨a, v, rfl, rfl⟩
    | error stop v => exact .inr ⟨stop, v, rfl, rfl⟩

theorem underConstruction_good {e : Entry} {limit : Nat} (hw : w.Inv)
    (hbound : (w.registry i).at? key.ident = some e) (hinj : key.isInjector = false)
    (hle : limit ≤ (w.registry i).config.maxDepth)
    (hq : ∀ a v fs, Q a v → Q a { v with frames := fs })
    (hx : (∀ q, q.key = key.ident → w.slot i q ≠ some .pending) →
      (w.underConstruction i).length < limit → (w.under i key).Inv →
      (w.under i key).Good Q (x (w.under i key))) :
    w.Good Q (underConstruction i key limit x w) := by
  rcases underConstruction_cases i key limit x w with ⟨_, h⟩ | ⟨hfree, ⟨_, h⟩ | ⟨hlt, hrun⟩⟩
  · rw [h]
    exact ⟨Settles.refl w, trivial⟩
  · rw [h]
    exact ⟨Settles.refl w, trivial⟩
  · have hvacant := fun (q : Place) (hq : q.key = key.ident) => hw.vacant hfree hq
    have hpush : Step w (w.under i key) :=
      .push hbound hinj hfree (Nat.lt_of_lt_of_le hlt hle)
    have hgood := hx hvacant hlt (hpush.inv hw)
    -- The frame is taken off again, and the key holds no reservation then.
    have finish : ∀ v, (w.under i key).Settles v →
        w.Settles { v with frames := v.frames.tail } := by
      intro v hv
      refine ⟨.tail (.head hpush hv.path) ?_, by rw [hv.frames]; rfl, hv.pending⟩
      rw [hv.frames]
      exact .pop hv.frames fun q hq => fun hp => hvacant q hq ((hv.pending i q).mp hp)
    rcases hrun with ⟨a, v, hrun, h⟩ | ⟨stop, v, hrun, h⟩ <;> rw [h] <;> rw [hrun] at hgood
    · exact ⟨finish v hgood.1, hq a v _ hgood.2⟩
    · exact ⟨finish v hgood.1, hgood.2⟩

/-- A making that runs while its place is reserved leaves it kept, or vacant if it does not succeed. -/
theorem kept_good {spot : Spot} {rest : List Frame} (hw : w.Inv)
    (hspot : (w.registry i).spot? p = some spot) (hcached : spot.scope.isCached = true)
    (hframes : w.frames = ⟨i, key⟩ :: rest) (hkey : key.ident = p.key)
    (hfree : w.slot i p ≠ some .pending) (hown : p = .binding p.key ∨ w.Holds i p.key)
    (halone : w.Alone i p)
    (hx : w.slot i p = none → Good (w.reserved i p spot.source?)
      (fun a _ => (w.registry i).Sustains p a)
      (x ((w.record (.acquired i p .vacant)).withCache i fun c => c.reserve p))) :
    w.Good (fun a v => v.slot i p = some (.ready a) ∧ (w.registry i).Sustains p a)
      (kept i p x w) := by
  rcases kept_cases i p x w with ⟨a, hslot, h⟩ | ⟨hslot, _⟩ | ⟨hslot, hrun⟩
  · rw [h]
    exact ⟨Settles.observe ⟨⟨spot, hspot, hcached⟩, a, rfl, hslot⟩, hslot, hw.ready i p a hslot⟩
  · exact absurd hslot hfree
  · have hi := lt_of_spot hspot
    have hreserve : Step w (w.reserved i p spot.source?) :=
      .reserve hspot hcached hframes hkey hslot hown
    have hgood := hx hslot
    -- Of the reservations, the one that was made here is the only one that ends.
    have hreserved : ∀ {v}, (w.reserved i p spot.source?).Settles v →
        v.slot i p = some .pending := by
      intro v hv
      refine (hv.pending i p).mpr ?_
      rw [slot_reserved hi, if_pos ⟨rfl, rfl⟩]
    have hother : ∀ {v} (j : InjectorId) (q : Place), (w.reserved i p spot.source?).Settles v →
        ¬ (i = j ∧ p = q) → (v.slot j q = some .pending ↔ w.slot j q = some .pending) := by
      intro v j q hv hne
      rw [hv.pending, slot_reserved hi, if_neg hne]
    have hlone : ∀ {v}, (w.reserved i p spot.source?).Settles v → v.Alone i p := by
      rintro v hv k n rfl hk
      exact halone k n rfl ((hother i _ hv (by simp)).mp hk)
    rcases hrun with ⟨a, v, hrun, h⟩ | ⟨stop, v, hrun, h⟩ <;> rw [h] <;> rw [hrun] at hgood
    · obtain ⟨hv, hsustains⟩ := hgood
      have hpending := hreserved hv
      have hslots := slot_fulfill (lt_of_slot hpending) p a
      have hreg : v.registry i = w.registry i := by rw [hv.path.registry, registry_reserved]
      refine ⟨⟨.tail (.head hreserve hv.path) (.fulfill hpending (hlone hv) (by rwa [hreg])),
        ?_, ?_⟩, ?_, ?_⟩
      · exact hv.frames.trans (frames_reserved ..)
      · intro j q
        rw [slot_record, hslots]
        split
        · rename_i heq
          obtain ⟨rfl, rfl⟩ := heq
          simp [hslot]
        · rename_i hne
          exact hother j q hv hne
      · rw [slot_record, hslots, if_pos ⟨rfl, rfl⟩]
      · exact hsustains
    · obtain ⟨hv, hproper⟩ := hgood
      have hpending := hreserved hv
      have hslots := slot_release hpending
      refine ⟨⟨.tail (.head hreserve hv.path) (.release hpending (hlone hv)), ?_, ?_⟩,
        hproper⟩
      · exact hv.frames.trans (frames_reserved ..)
      · intro j q
        rw [hslots]
        split
        · rename_i heq
          obtain ⟨rfl, rfl⟩ := heq
          simp [hslot]
        · rename_i hne
          exact hother j q hv hne

theorem underConstruction_error {limit : Nat} {stop : Stop} {v : World}
    (h : underConstruction i key limit x w = .error stop v) :
    (v = w ∧ (w.underConstruction i).dropWhile (fun k => k.ident ≠ key.ident) ≠ [] ∧
      stop = .error (.circular
        ((w.underConstruction i).dropWhile (fun k => k.ident ≠ key.ident) ++ [key]))) ∨
    (v = w ∧ (∀ f ∈ w.frames, f.injector = i → f.key.ident ≠ key.ident) ∧
      limit ≤ (w.underConstruction i).length ∧ stop = .error (.depthExceeded key limit)) ∨
    ((∀ f ∈ w.frames, f.injector = i → f.key.ident ≠ key.ident) ∧
      (w.underConstruction i).length < limit ∧
      ∃ left, x (w.under i key) = .error stop left ∧
        v = { left with frames := left.frames.tail }) := by
  rcases underConstruction_cases i key limit x w with
    ⟨hcycle, heq⟩ | ⟨hfree, ⟨hlimit, heq⟩ | ⟨hroom, ⟨a, u, _, heq⟩ | ⟨stop', u, hrun, heq⟩⟩⟩ <;>
    rw [heq] at h <;> cases h
  · exact .inl ⟨rfl, hcycle, rfl⟩
  · exact .inr (.inl ⟨rfl, hfree, hlimit, rfl⟩)
  · exact .inr (.inr ⟨hfree, hroom, u, hrun, rfl⟩)

theorem kept_of_ready {a : Instance} (h : w.slot i p = some (.ready a)) :
    kept i p x w = .ok a (w.record (.acquired i p (.ready a))) := by
  simp only [kept, cache_find, h]

theorem kept_of_vacant (h : w.slot i p = none) :
    kept i p x w = match x ((w.record (.acquired i p .vacant)).withCache i fun c => c.reserve p) with
      | .ok a left => .ok a ((left.withCache i fun c => (c.fulfill p a).release p).record (.stored i p a))
      | .error stop left => .error stop (left.withCache i fun c => c.release p) := by
  have hfind : (w.cache i).find p = .vacant := by rw [cache_find, h]
  generalize hs : x ((w.record (.acquired i p .vacant)).withCache i fun c => c.reserve p) = s
  cases s <;> simp only [kept, hfind, hs]

theorem kept_error {stop : Stop} {v : World} (h : kept i p x w = .error stop v) :
    (w.slot i p = some .pending ∧ stop = .blocked i p) ∨
    (w.slot i p = none ∧
      ∃ left, x ((w.record (.acquired i p .vacant)).withCache i fun c => c.reserve p) =
          .error stop left ∧ v = left.withCache i fun c => c.release p) := by
  rcases kept_cases i p x w with ⟨a, _, heq⟩ | ⟨hslot, heq⟩ | ⟨hslot, ⟨a, u, _, heq⟩ | ⟨stop', u, hrun, heq⟩⟩ <;>
    rw [heq] at h <;> cases h
  · exact .inl ⟨hslot, rfl⟩
  · exact .inr ⟨hslot, u, hrun, rfl⟩

theorem yielding_eq_error {stop : Stop} {v : World} :
    yielding i p x w = .error stop v ↔ x w = .error stop v := by
  constructor
  · intro h
    rcases Act.bind_error h with h | ⟨a, u, _, h⟩
    · exact h
    · rcases Act.bind_error h with h | ⟨_, _, _, h⟩ <;> cases h
  · intro h
    change EStateM.bind x _ w = _
    simp only [EStateM.bind, h]

end Resolution

end Wiring
