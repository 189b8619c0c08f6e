import Wiring.Proofs.Registry.Descent
import Wiring.Proofs.Resolution.Account
import Wiring.Proofs.Resolution.Law

/-!
What is kept along with a singleton.

Where constructors and providers do nothing but make their values, an injector keeps an instance only once it
keeps every singleton that was needed for it. This holds whether resolutions succeed or not, and whatever other
injectors do in between. A resolution adds nothing but what its key leads to, and all of that if it succeeds.
-/

set_option autoImplicit false

namespace Wiring

open Relation

namespace World

def Stocked (w : World) (i : InjectorId) (p : Place) : Prop := ∃ a, w.slot i p = some (.ready a)

/-- The injector, of the given registry, keeps with an instance every singleton that this is made of. -/
structure Complete (i : InjectorId) (r : Registry) (w : World) : Prop where
  registry : w.registry i = r
  parts : ∀ p q, w.Stocked i p → r.MadeOf p q → r.Singleton q → w.Stocked i q

/-- An injector has come to keep more, though nothing but singletons of a certain region. -/
structure Grown (i : InjectorId) (r : Registry) (R : Place → Prop) (w v : World) : Prop where
  complete : v.Complete i r
  frames : v.frames = w.frames
  stays : ∀ p, w.Stocked i p → v.Stocked i p
  within : ∀ p, v.Stocked i p → w.Stocked i p ∨ r.Singleton p ∧ R p
  pending : ∀ p, v.slot i p = some .pending ↔ w.slot i p = some .pending

structure Reserves (i : InjectorId) (p : Place) (w v : World) : Prop where
  registry : v.registry i = w.registry i
  frames : v.frames = w.frames
  vacant : w.slot i p = none
  slot : ∀ q, v.slot i q = if p = q then some .pending else w.slot i q

variable {i j : InjectorId} {r : Registry} {R T : Place → Prop} {w v u : World} {p : Place}

theorem Complete.congr (h : w.Complete i r) (hr : v.registry i = w.registry i) (hs : v.slot i = w.slot i) :
    v.Complete i r := by
  refine ⟨hr.trans h.registry, ?_⟩
  simp only [Stocked, hs]
  exact h.parts

theorem Complete.spans (h : w.Complete i r) (hp : w.Stocked i p) {q : Place} (hq : r.Spans p q)
    (hs : r.Singleton q) : w.Stocked i q := by
  rcases hq with rfl | hq
  · exact hp
  · exact h.parts p q hp hq hs

theorem complete_of_vacant (hr : w.registry i = r) (h : ∀ p, w.slot i p = none) : w.Complete i r := by
  refine ⟨hr, fun p q hp => ?_⟩
  obtain ⟨a, ha⟩ := hp
  rw [h] at ha
  contradiction

theorem Grown.still (hw : w.Complete i r) (hr : v.registry i = w.registry i) (hs : v.slot i = w.slot i)
    (hf : v.frames = w.frames) : Grown i r R w v := by
  refine ⟨hw.congr hr hs, hf, ?_, ?_, fun p => by rw [hs]⟩
  · simp only [Stocked, hs]
    exact fun _ h => h
  · simp only [Stocked, hs]
    exact fun _ h => .inl h

theorem Grown.trans (h : Grown i r R w v) (h' : Grown i r R v u) : Grown i r R w u := by
  refine ⟨h'.complete, h'.frames.trans h.frames, fun p hp => h'.stays p (h.stays p hp), fun p hp => ?_,
    fun p => (h'.pending p).trans (h.pending p)⟩
  rcases h'.within p hp with hv | hnew
  · exact h.within p hv
  · exact .inr hnew

theorem Grown.mono (h : Grown i r R w v) (hr : ∀ q, r.Singleton q → R q → T q) : Grown i r T w v :=
  ⟨h.complete, h.frames, h.stays,
    fun p hp => (h.within p hp).imp_right fun hnew => ⟨hnew.1, hr p hnew.1 hnew.2⟩, h.pending⟩

theorem Reserves.stocked (h : Reserves i p w v) (q : Place) : v.Stocked i q ↔ w.Stocked i q := by
  unfold Stocked
  rw [h.slot]
  by_cases hpq : p = q
  · subst hpq
    simp [h.vacant]
  · rw [if_neg hpq]

theorem Reserves.complete (h : Reserves i p w v) (hw : w.Complete i r) : v.Complete i r := by
  refine ⟨h.registry.trans hw.registry, fun q q' hq hmade hs => ?_⟩
  exact (h.stocked q').mpr (hw.parts q q' ((h.stocked q).mp hq) hmade hs)

theorem Grown.fulfill (hw : Reserves i p w v) (h : Grown i r (r.MadeOf p) v u) (hp : r.Singleton p)
    (hfull : ∀ q, r.MadeOf p q → r.Singleton q → u.Stocked i q) {t : World} {a : Instance}
    (hr : t.registry i = u.registry i) (hf : t.frames = u.frames)
    (ht : ∀ q, t.slot i q = if p = q then some (.ready a) else u.slot i q) :
    Grown i r (r.Spans p) w t := by
  have hstocked : ∀ q, t.Stocked i q ↔ q = p ∨ u.Stocked i q := by
    intro q
    unfold Stocked
    rw [ht]
    by_cases hpq : p = q
    · subst hpq
      simp
    · simp [hpq, Ne.symm hpq]
  refine ⟨⟨hr.trans h.complete.registry, fun q q' hq hmade hs => ?_⟩, (hf.trans h.frames).trans hw.frames,
    fun q hq => ?_, fun q hq => ?_, fun q => ?_⟩
  · rcases (hstocked q).mp hq with rfl | hq
    · exact (hstocked q').mpr (.inr (hfull q' hmade hs))
    · exact (hstocked q').mpr (.inr (h.complete.parts q q' hq hmade hs))
  · exact (hstocked q).mpr (.inr (h.stays q ((hw.stocked q).mpr hq)))
  · rcases (hstocked q).mp hq with rfl | hq
    · exact .inr ⟨hp, .inl rfl⟩
    · exact (h.within q hq).imp (hw.stocked q).mp fun hnew => ⟨hnew.1, .inr hnew.2⟩
  · rw [ht]
    by_cases hpq : p = q
    · subst hpq
      simp [hw.vacant]
    · rw [if_neg hpq, h.pending, hw.slot, if_neg hpq]

theorem Grown.release (hw : Reserves i p w v) (h : Grown i r (r.MadeOf p) v u) {t : World}
    (hr : t.registry i = u.registry i) (hf : t.frames = u.frames)
    (ht : ∀ q, t.slot i q = if p = q then none else u.slot i q) : Grown i r (r.Spans p) w t := by
  have hpending : u.slot i p = some .pending := (h.pending p).mpr (by rw [hw.slot, if_pos rfl])
  have hstocked : ∀ q, t.Stocked i q ↔ u.Stocked i q := by
    intro q
    unfold Stocked
    rw [ht]
    by_cases hpq : p = q
    · subst hpq
      simp [hpending]
    · rw [if_neg hpq]
  refine ⟨⟨hr.trans h.complete.registry, fun q q' hq hmade hs => ?_⟩, (hf.trans h.frames).trans hw.frames,
    fun q hq => ?_, fun q hq => ?_, fun q => ?_⟩
  · exact (hstocked q').mpr (h.complete.parts q q' ((hstocked q).mp hq) hmade hs)
  · exact (hstocked q).mpr (h.stays q ((hw.stocked q).mpr hq))
  · exact (h.within q ((hstocked q).mp hq)).imp (hw.stocked q).mp fun hnew => ⟨hnew.1, .inr hnew.2⟩
  · rw [ht]
    by_cases hpq : p = q
    · subst hpq
      simp [hw.vacant]
    · rw [if_neg hpq, h.pending, hw.slot, if_neg hpq]

theorem reserves_withCache (hi : i < w.injectors.length) (hp : w.slot i p = none) (e : Event) :
    Reserves i p w ((w.record e).withCache i fun c => c.reserve p) := by
  refine ⟨registry_withCache .., rfl, hp, fun q => ?_⟩
  have h := slot_reserve (w := w.record e) hi p i q
  simpa using h

theorem slot_withCache_ne (hj : j ≠ i) (w : World) (f : Cache → Cache) :
    (w.withCache j f).slot i = w.slot i := by
  funext q
  rw [slot_withCache, if_neg fun h => hj h.1]

end World

namespace Act

open World

variable {α β : Type} {i j k : InjectorId} {r : Registry} {R T : Place → Prop} {Q Q' : α → Prop}
  {x : Act α}

/-- What an action run by the injector `j` has come to, as far as the injector `i` is concerned. What this keeps
has grown; if the two are one, by nothing but singletons of a region, and by all of these if the action
succeeds. -/
def Stocking (i : InjectorId) (r : Registry) (j : InjectorId) (R : Place → Prop) (Q : α → Prop)
    (w : World) : EStateM.Result Stop World α → Prop
  | .ok a v => Grown i r (fun q => j = i → R q) w v ∧ Q a ∧
      (j = i → ∀ q, R q → r.Singleton q → v.Stocked i q)
  | .error _ v => Grown i r (fun q => j = i → R q) w v

def Stocks (i : InjectorId) (r : Registry) (j : InjectorId) (R : Place → Prop) (x : Act α)
    (Q : α → Prop) : Prop :=
  ∀ w : World, w.Complete i r → Stocking i r j R Q w (x w)

theorem Stocks.imp (h : Stocks i r j R x Q) (hr : j = i → ∀ q, r.Singleton q → (R q ↔ T q))
    (hq : ∀ a, Q a → Q' a) : Stocks i r j T x Q' := by
  have hregion : ∀ q, r.Singleton q → (j = i → R q) → j = i → T q :=
    fun q hs hR hj => (hr hj q hs).mp (hR hj)
  intro w hw
  have hx := h w hw
  generalize x w = s at hx ⊢
  cases s with
  | ok a v =>
    refine ⟨hx.1.mono hregion, hq a hx.2.1, fun hj q hR hs => ?_⟩
    exact hx.2.2 hj q ((hr hj q hs).mpr hR) hs
  | error stop v => exact Grown.mono hx hregion

theorem Stocks.abroad (h : Stocks i r k R x Q) (hj : j ≠ i) : Stocks i r j T x Q := by
  intro w hw
  have hx := h w hw
  generalize x w = s at hx ⊢
  cases s with
  | ok a v => exact ⟨hx.1.mono fun _ _ _ h => absurd h hj, hx.2.1, fun h => absurd h hj⟩
  | error stop v => exact Grown.mono hx fun _ _ _ h => absurd h hj

theorem Stocks.bind {f : α → Act β} {P : β → Prop} (hx : Stocks i r j R x Q)
    (hf : ∀ a, Q a → Stocks i r j T (f a) P) :
    Stocks i r j (fun q => R q ∨ T q) (x >>= f) P := by
  intro w hw
  have h := hx w hw
  change Stocking i r j _ P w (EStateM.bind x f w)
  simp only [EStateM.bind]
  generalize x w = s at h ⊢
  cases s with
  | error stop v => exact Grown.mono h fun _ _ hR hj => .inl (hR hj)
  | ok a v =>
    obtain ⟨hgrown, ha, hfull⟩ := h
    have hleft := hgrown.mono (T := fun q => j = i → R q ∨ T q) fun _ _ hR hj => .inl (hR hj)
    have h := hf a ha v hgrown.complete
    dsimp only
    generalize f a v = s at h ⊢
    cases s with
    | error stop u => exact hleft.trans (Grown.mono h fun _ _ hR hj => .inr (hR hj))
    | ok b u =>
      refine ⟨hleft.trans (h.1.mono fun _ _ hR hj => .inr (hR hj)), h.2.1, fun hj q hq hs => ?_⟩
      rcases hq with hq | hq
      · exact h.1.stays q (hfull hj q hq hs)
      · exact h.2.2 hj q hq hs

theorem Stocks.then {f : α → Act β} {P : β → Prop} (hx : Stocks i r j R x Q)
    (hf : ∀ a, Q a → Stocks i r j (fun _ => False) (f a) P) : Stocks i r j R (x >>= f) P :=
  (hx.bind hf).imp (fun _ _ _ => by simp) fun _ h => h

theorem Stocks.of_none (h : Stocks i r j (fun _ => False) x Q) (hr : ∀ q, ¬ R q) : Stocks i r j R x Q :=
  h.imp (fun _ q _ => iff_of_false id (hr q)) fun _ h => h

theorem stocks_pure {a : α} (h : Q a) : Stocks i r j (fun _ => False) (pure a) Q :=
  fun _ hw => ⟨.still hw rfl rfl rfl, h, fun _ _ h => h.elim⟩

theorem stocks_throw (stop : Stop) : Stocks i r j R (throw stop : Act α) Q :=
  fun _ hw => Grown.still hw rfl rfl rfl

theorem stocks_get {f : World → Act α} (hf : ∀ w, Stocks i r j R (f w) Q) :
    Stocks i r j R ((get : Act World) >>= f) Q := fun w hw => hf w w hw

theorem stocks_record (e : Event) : Stocks i r j (fun _ => False) (record e) fun _ => True :=
  fun _ hw => ⟨.still hw rfl rfl rfl, trivial, fun _ _ h => h.elim⟩

theorem stocks_note (n : Note) :
    Stocks i r j (fun _ => False) (modify fun w => w.note n) fun _ => True :=
  fun _ hw => ⟨.still hw rfl rfl rfl, trivial, fun _ _ h => h.elim⟩

theorem stocks_count (tally : Nat) : Stocks i r j (fun _ => False) (count tally) fun _ => True :=
  fun _ hw => ⟨.still hw rfl rfl rfl, trivial, fun _ _ h => h.elim⟩

theorem stocks_fresh : Stocks i r j (fun _ => False) fresh fun _ => True :=
  fun _ hw => ⟨.still hw rfl rfl rfl, trivial, fun _ _ h => h.elim⟩

theorem stocks_ofExcept (x : Except ResolveError α) :
    Stocks i r j (fun _ => False) (ofExcept x) fun _ => True := by
  cases x with
  | ok a => exact stocks_pure trivial
  | error e => exact stocks_throw _

theorem Stocks.attempt (h : Stocks i r k R x Q) (hj : j ≠ i) :
    Stocks i r j T (attempt x) fun _ => True := by
  intro w hw
  have hx := h.abroad (T := T) hj w hw
  simp only [Act.attempt]
  generalize x w = s at hx ⊢
  cases s with
  | ok a v => exact ⟨hx.1, trivial, fun h => absurd h hj⟩
  | error stop v =>
    cases stop with
    | error e => exact ⟨hx, trivial, fun h => absurd h hj⟩
    | _ => exact hx

end Act

namespace Resolution

open World Act

def Supplies (i : InjectorId) (r : Registry) (self : Resolver) : Prop :=
  ∀ j key, Stocks i r j (r.Draws [.direct key]) (self j key) fun _ => True

variable {i j : InjectorId} {r : Registry} {R : Place → Prop} {self : Resolver} {key : Key} {p : Place}
  {x : Act Instance}

-- The regions of consecutive actions add up, which a `Judgement` has no place for.
theorem stocks_serve (hs : Supplies i r self) (j : InjectorId) (req : Request) :
    Stocks i r j (r.Draws [.direct req.key]) (serve self j req) fun a => a.type = req.expected := by
  refine (hs j req.key).then fun a _ => ?_
  split
  · rename_i ht
    exact stocks_pure ht
  · exact stocks_throw _

theorem stocks_point (hs : Supplies i r self) (j : InjectorId) (p : Point) :
    Stocks i r j (r.Draws p.dependency?.toList) (point self j p) (Held.Fits j p) := by
  cases p with
  | inject key q => exact (stocks_serve hs j (.of key)).then fun a ha => stocks_pure ha
  | lazy key q => exact (stocks_pure (by rfl)).of_none fun _ => Registry.not_draws_lazy key
  | injector => exact (stocks_pure (by rfl)).of_none fun _ => Registry.not_draws_nil

theorem stocks_points (hs : Supplies i r self) (j : InjectorId) (ps : List Point) :
    Stocks i r j (r.Draws (ps.filterMap Point.dependency?)) (points self j ps)
      (List.Forall₂ (Held.Fits j) ps) := by
  induction ps with
  | nil => exact (stocks_pure .nil).of_none fun _ => Registry.not_draws_nil
  | cons p rest ih =>
    have hdeps : (p :: rest).filterMap Point.dependency? =
        p.dependency?.toList ++ rest.filterMap Point.dependency? := by
      cases hd : p.dependency? <;> simp [hd]
    rw [hdeps]
    refine ((stocks_point hs j p).bind fun h hh => ih.then fun held hheld =>
      stocks_pure (.cons hh hheld)).imp (fun _ _ _ => Registry.draws_append.symm) fun _ h => h

theorem stocks_pull (hs : Supplies i r self) (l : Lazy) :
    Stocks i r l.injector (r.Draws [.direct l.key]) (pull self l) fun _ => True := by
  refine stocks_get fun w => ?_
  split
  · exact (stocks_serve hs l.injector ⟨l.key, l.expected⟩).imp (fun _ _ _ => Iff.rfl) fun _ _ => trivial
  · exact stocks_throw _

theorem stocks_run (hs : Supplies i r self) {t : TypeId} (wrap : Cause → ResolveError) {body : Routine t}
    (h : j = i → body.Docile) : Stocks i r j (fun _ => False) (run self wrap body) fun _ => True := by
  induction body with
  | done draft fits => exact stocks_pure trivial
  | fail cause => exact stocks_throw _
  | panic text => exact stocks_throw _
  | count tally next ih => exact (stocks_count tally).then fun n _ => ih n fun hj => h hj n
  | note n next ih => exact (stocks_note n).then fun _ _ => ih h
  | find name next ih => exact stocks_get fun w => ih _ fun hj => h hj _
  | get k req next ih =>
    exact ((stocks_serve hs k req).attempt h).then fun answer _ => ih answer fun hj => absurd hj h
  | pull l next ih =>
    exact ((stocks_pull hs l).attempt h).then fun answer _ => ih answer fun hj => absurd hj h

theorem stocks_make (hs : Supplies i r self) {t : TypeId} (wrap : Cause → ResolveError) {body : Routine t}
    (h : j = i → body.Docile) :
    Stocks i r j (fun _ => False) (make self j key wrap body) fun _ => True :=
  (stocks_record _).then fun _ _ => (stocks_run hs wrap h).then fun _ _ =>
    stocks_fresh.then fun _ _ => stocks_pure trivial

theorem stocks_produce (hs : Supplies i r self) {s : Strategy} (h : j = i → s.Docile) :
    Stocks i r j (r.Draws s.dependencies) (produce self j key s) fun _ => True := by
  cases s with
  | construct t ps body =>
    exact (stocks_points hs j ps).then fun held hheld => stocks_make hs _ fun hj => h hj j held hheld
  | fixed o => exact (stocks_pure trivial).of_none fun _ => Registry.not_draws_nil
  | shared name d =>
    exact stocks_get fun w => (stocks_pure trivial).of_none fun _ => Registry.not_draws_nil
  | providerType t name ps body =>
    exact (stocks_points hs j ps).then fun held hheld => stocks_make hs _ fun hj => h hj j held hheld
  | provider t name body => exact (stocks_make hs _ h).of_none fun _ => Registry.not_draws_nil
  | «alias» target => exact hs j target

theorem stocks_kept_abroad (hj : j ≠ i) (hx : Stocks i r j R x fun _ => True) :
    Stocks i r j R (kept j p x) fun _ => True := by
  intro w hw
  have hreserve : Grown i r (fun q => j = i → R q) w
      ((w.record (.acquired j p .vacant)).withCache j fun c => c.reserve p) :=
    .still hw (registry_withCache ..) (slot_withCache_ne hj (w.record _) _) rfl
  have hmade := hx _ hreserve.complete
  rcases kept_cases j p x w with
    ⟨a, _, h⟩ | ⟨_, h⟩ | ⟨_, ⟨a, v, hrun, h⟩ | ⟨stop, v, hrun, h⟩⟩ <;> rw [h]
  · exact ⟨.still hw rfl rfl rfl, trivial, fun h => absurd h hj⟩
  · exact Grown.still hw rfl rfl rfl
  · rw [hrun] at hmade
    refine ⟨(hreserve.trans hmade.1).trans ?_, trivial, fun h => absurd h hj⟩
    exact .still hmade.1.complete (by simp) (slot_withCache_ne hj v fun c => (c.fulfill p a).release p) rfl
  · rw [hrun] at hmade
    have hmade : Grown i r (fun q => j = i → R q) _ v := hmade
    exact (hreserve.trans hmade).trans
      (.still hmade.complete (registry_withCache v j _ i) (slot_withCache_ne hj v _) rfl)

/-- An instance comes to be kept once all is that it is made of. -/
theorem stocks_kept (hp : r.Singleton p) (hx : Stocks i r i (r.MadeOf p) x fun _ => True) :
    Stocks i r i (r.Spans p) (kept i p x) fun _ => True := by
  intro w hw
  obtain ⟨spot, hspot, _⟩ := id hp
  have hlt : ∀ {v : World}, v.Complete i r → i < v.injectors.length :=
    fun hv => lt_of_spot (hv.registry ▸ hspot)
  rcases kept_cases i p x w with ⟨a, hslot, h⟩ | ⟨_, h⟩ | ⟨hslot, hrun⟩
  · rw [h]
    exact ⟨.still hw rfl rfl rfl, trivial, fun _ q => hw.spans ⟨a, hslot⟩⟩
  · rw [h]
    exact Grown.still hw rfl rfl rfl
  · have hreserves := reserves_withCache (hlt hw) hslot (.acquired i p .vacant)
    have hmade := hx _ (hreserves.complete hw)
    rcases hrun with ⟨a, v, hrun, h⟩ | ⟨stop, v, hrun, h⟩ <;> rw [h] <;> rw [hrun] at hmade
    · obtain ⟨hgrown, _, hfull⟩ := hmade
      have hslots : ∀ q, ((v.withCache i fun c => (c.fulfill p a).release p).record
          (.stored i p a)).slot i q = if p = q then some (.ready a) else v.slot i q :=
        fun q => by simpa using slot_fulfill (hlt hgrown.complete) p a i q
      have hall : Grown i r (r.Spans p) w
          ((v.withCache i fun c => (c.fulfill p a).release p).record (.stored i p a)) :=
        (hgrown.mono fun _ _ h => h rfl).fulfill hreserves hp (hfull rfl) (by simp) rfl hslots
      refine ⟨hall.mono fun _ _ h _ => h, trivial, fun _ q => hall.complete.spans ⟨a, ?_⟩⟩
      rw [hslots, if_pos rfl]
    · have hgrown := Grown.mono hmade fun _ _ h => h rfl
      have hpending := (hgrown.pending p).mpr (by rw [hreserves.slot, if_pos rfl])
      refine (hgrown.release hreserves (registry_withCache ..) rfl ?_).mono fun _ _ h _ => h
      simpa using slot_release hpending i

theorem stocks_unkept (hp : j = i → ¬ r.Singleton p) (hx : Stocks i r j (r.MadeOf p) x fun _ => True) :
    Stocks i r j (r.Spans p) x fun _ => True := by
  refine hx.imp (fun hj q hs => ⟨.inr, fun hq => ?_⟩) fun _ h => h
  rcases hq with rfl | hq
  · exact absurd hs (hp hj)
  · exact hq

theorem stocks_at {spot : Spot} (hspot : j = i → r.spot? p = some spot)
    (hx : Stocks i r j (r.MadeOf p) x fun _ => True) :
    Stocks i r j (r.Spans p) (if spot.scope.isCached then kept j p x else x) fun _ => True := by
  cases hc : spot.scope.isCached with
  | true =>
    by_cases hj : j = i
    · subst hj
      exact stocks_kept ⟨spot, hspot rfl, hc⟩ hx
    · exact (stocks_kept_abroad hj hx).abroad hj
  | false =>
    refine stocks_unkept (fun hj hsingle => ?_) hx
    obtain ⟨s, hs, hcached⟩ := hsingle
    cases (hspot hj).symm.trans hs
    rw [hc] at hcached
    contradiction

theorem stocks_yielding (hx : Stocks i r j R x fun _ => True) :
    Stocks i r j R (yielding j p x) fun _ => True :=
  hx.then fun _ _ => (stocks_record _).then fun _ _ => stocks_pure trivial

theorem stocks_underConstruction {limit : Nat} (hx : Stocks i r j R x fun _ => True) :
    Stocks i r j R (underConstruction j key limit x) fun _ => True := by
  intro w hw
  have hunder : (w.under j key).Complete i r := hw.congr rfl rfl
  -- The frames are the ones from before once the frame of the key is taken off.
  have finish : ∀ {v}, Grown i r (fun q => j = i → R q) (w.under j key) v →
      Grown i r (fun q => j = i → R q) w { v with frames := v.frames.tail } := by
    intro v h
    refine ⟨h.complete.congr rfl rfl, ?_, h.stays, h.within, h.pending⟩
    simp only [h.frames]
    rfl
  have hmade := hx _ hunder
  rcases underConstruction_cases j key limit x w with
    ⟨_, h⟩ | ⟨_, ⟨_, h⟩ | ⟨_, ⟨a, v, hrun, h⟩ | ⟨stop, v, hrun, h⟩⟩⟩ <;> rw [h]
  · exact Grown.still hw rfl rfl rfl
  · exact Grown.still hw rfl rfl rfl
  · rw [hrun] at hmade
    exact ⟨finish hmade.1, trivial, hmade.2.2⟩
  · rw [hrun] at hmade
    exact finish hmade

theorem stocks_contribution (hs : Supplies i r self) (hd : r.Docile) {g : Aggregate} {index : Nat}
    {c : Contribution} (hg : j = i → r.at? key.ident = some (.aggregate g))
    (hc : g.contributions[index]? = some c) :
    Stocks i r j (r.MadeOf (.element key.ident index)) (do
      Act.record (.produced j (.element key.ident index) c.source)
      produce self j key c.binding.strategy) fun _ => True := by
  have hdocile := fun hj => hd _ _ (hg hj) c (List.mem_of_getElem? hc)
  refine ((stocks_record _).bind fun _ _ => stocks_produce hs hdocile).imp (fun hj q _ => ?_) fun _ h => h
  rw [Registry.madeOf_element (Registry.spot?_element (hg hj) hc), false_or]
  rfl

theorem stocks_element (hs : Supplies i r self) (hd : r.Docile) {g : Aggregate} {index : Nat}
    {c : Contribution} (hg : j = i → r.at? key.ident = some (.aggregate g))
    (hc : g.contributions[index]? = some c) :
    Stocks i r j (r.Spans (.element key.ident index)) (element self j key index c) fun _ => True :=
  stocks_yielding (stocks_at (fun hj => Registry.spot?_element (hg hj) hc) (stocks_contribution hs hd hg hc))

theorem stocks_elements (hs : Supplies i r self) (hd : r.Docile) {g : Aggregate}
    (hg : j = i → r.at? key.ident = some (.aggregate g)) (cs : List Contribution) (index : Nat)
    (hcs : g.From index cs) : Stocks i r j (fun q => ∃ m, m < cs.length ∧
      r.Spans (.element key.ident (index + m)) q) (elements self j key index cs) fun _ => True := by
  induction cs generalizing index with
  | nil => exact (stocks_pure trivial).of_none fun q ⟨m, hm, _⟩ => absurd hm (Nat.not_lt_zero m)
  | cons c rest ih =>
    refine ((stocks_element hs hd hg hcs.head).bind fun a _ => (ih (index + 1) hcs.tail).then fun _ _ =>
      stocks_pure trivial).imp (fun _ q _ => ⟨?_, ?_⟩) fun _ h => h
    · rintro (hq | ⟨m, hm, hq⟩)
      · exact ⟨0, Nat.succ_pos _, hq⟩
      · exact ⟨m + 1, Nat.succ_lt_succ hm, by rwa [Nat.add_right_comm] at hq⟩
    · rintro ⟨m, hm, hq⟩
      cases m with
      | zero => exact .inl hq
      | succ m => exact .inr ⟨m, Nat.lt_of_succ_lt_succ hm, by rwa [Nat.add_right_comm]⟩

theorem stocks_construct (hs : Supplies i r self) (hd : r.Docile) {e : Entry}
    (he : j = i → r.at? key.ident = some e) :
    Stocks i r j (r.MadeOf (.binding key.ident)) (construct self j key e) fun _ => True := by
  have hspot := fun hj => Registry.spot?_binding (he hj)
  cases e with
  | binding c =>
    refine ((stocks_record _).bind fun _ _ => stocks_produce hs fun hj => hd _ _ (he hj)).imp
      (fun hj q hs => ?_) fun _ h => h
    rw [false_or]
    refine ⟨fun hq => .inr ⟨_, hspot hj, hq⟩, ?_⟩
    rintro (⟨a, n, ha, rfl⟩ | ⟨s, hs, hq⟩)
    · cases ha
      obtain ⟨g, _, hg, _⟩ := hs.contribution
      cases (he hj).symm.trans hg
    · cases (hspot hj).symm.trans hs
      exact hq
  | aggregate g =>
    refine ((stocks_elements hs hd he g.contributions 0 g.from_zero).then fun es _ =>
      (stocks_ofExcept _).then fun items _ => (stocks_record _).then fun _ _ =>
        stocks_fresh.then fun id _ => stocks_pure trivial).imp (fun hj q hs => ?_) fun _ h => h
    have hitem := fun n c => Registry.spot?_element (n := n) (c := c) (he hj)
    constructor
    · rintro ⟨m, hm, rfl | hq⟩
      · exact .inl ⟨_, _, rfl, rfl⟩
      · rw [Nat.zero_add, Registry.madeOf_element (hitem m _ (List.getElem?_eq_getElem hm))] at hq
        exact .inr ⟨_, hspot hj, Registry.draws_flatMap.mpr ⟨_, List.getElem_mem hm, hq⟩⟩
    · rintro (⟨a, n, ha, rfl⟩ | ⟨s, hs, hq⟩)
      · cases ha
        obtain ⟨g', c, hg', hc⟩ := hs.contribution
        cases (he hj).symm.trans hg'
        obtain ⟨hn, _⟩ := List.getElem?_eq_some_iff.mp hc
        exact ⟨n, hn, .inl (by rw [Nat.zero_add])⟩
      · cases (hspot hj).symm.trans hs
        obtain ⟨c, hc, hq⟩ := Registry.draws_flatMap.mp hq
        obtain ⟨m, hm, rfl⟩ := List.getElem_of_mem hc
        refine ⟨m, hm, .inr ?_⟩
        rw [Nat.zero_add, Registry.madeOf_element (hitem m _ (List.getElem?_eq_getElem hm))]
        exact hq

theorem supplies_request (hs : Supplies i r self) (hd : r.Docile) : Supplies i r (request self) := by
  intro j key w hw
  have hrequested : (w.requested j key).Complete i r := hw.congr rfl rfl
  have hrecord : ∀ {R : Place → Prop}, Grown i r R w (w.requested j key) :=
    Grown.still hw rfl rfl rfl
  have of_requested : ∀ {R : Place → Prop} {s : EStateM.Result Stop World Instance},
      Stocking i r j R (fun _ => True) (w.requested j key) s → Stocking i r j R (fun _ => True) w s := by
    intro R s h
    cases s with
    | ok a v => exact ⟨hrecord.trans h.1, h.2⟩
    | error stop v => exact hrecord.trans h
  rcases request_cases self j key w with
    ⟨hinj, h⟩ | ⟨_, _, h⟩ | ⟨e, hinj, hf, ⟨a, _, hslot, h⟩ | h⟩ <;> rw [h]
  · refine ⟨hrecord, trivial, fun _ q hq => ?_⟩
    obtain ⟨b, ⟨d, hd, _, hnot, _⟩, _⟩ := hq
    rw [List.mem_singleton.mp hd] at hnot
    change key.isInjector = false at hnot
    rw [hinj] at hnot
    contradiction
  · exact hrecord
  · refine ⟨.still hw rfl rfl rfl, trivial, fun hj q hq hsingle => ?_⟩
    subst hj
    refine hw.spans ⟨a, hslot⟩ ?_ hsingle
    exact (Registry.draws_direct hinj (hw.registry ▸ hf)).mp hq
  · have he : j = i → r.at? key.ident = some e := fun hj => by rw [← hw.registry, ← hj]; exact hf
    have hplace := stocks_at (fun hj => Registry.spot?_binding (he hj)) (stocks_construct hs hd he)
    have hregion : ∀ {x : Act Instance}, Stocks i r j (r.Spans (.binding key.ident)) x (fun _ => True) →
        Stocks i r j (r.Draws [.direct key]) x fun _ => True :=
      fun h => h.imp (fun hj _ _ => (Registry.draws_direct hinj (he hj)).symm) fun _ h => h
    exact of_requested (hregion (stocks_yielding (stocks_underConstruction hplace)) _ hrequested)

theorem supplies_resolveWithin (hd : r.Docile) (d : Nat) : Supplies i r (resolveWithin d) := by
  induction d with
  | zero => exact fun _ _ => stocks_throw _
  | succ d ih => exact supplies_request ih hd

end Resolution

namespace World

open Act

variable {i j : InjectorId} {r : Registry} {w v : World}

theorem supplies_resolve (hd : r.Docile) : Resolution.Supplies i r resolve :=
  fun j key w hw => Resolution.supplies_resolveWithin hd w.capacity j key w hw

theorem Complete.after {α : Type} {R : Place → Prop} {x : Act α} {Q : α → Prop} (hw : w.Complete i r)
    (h : Stocks i r j R x Q) : Grown i r (fun _ => True) w (w.after x) := by
  have hx := h w hw
  unfold World.after
  generalize x w = s at hx ⊢
  cases s with
  | ok a v => exact hx.1.mono fun _ _ _ => trivial
  | error stop v => exact Grown.mono hx fun _ _ _ => trivial

theorem Next.grown (h : Next w v) (hd : r.Docile) (hw : w.Complete i r) (hr : v.registry i = r) :
    Grown i r (fun _ => True) w v := by
  have hresolve : Resolution.Supplies i r resolve := supplies_resolve hd
  have hr := hr.trans hw.registry.symm
  cases h with
  | inject name hf hj => exact .still hw hr (funext (slot_addInjector hj i)) rfl
  | offer b =>
    unfold World.offer
    split <;> exact .still hw rfl rfl rfl
  | fetch j req => exact hw.after (Resolution.stocks_serve hresolve j req)
  | pull l => exact hw.after (Resolution.stocks_pull hresolve l)
  | resolvePoints j ps => exact hw.after (Resolution.stocks_points hresolve j ps)
  | arrange => exact .still hw rfl rfl rfl

theorem Later.grown (h : Later w v) (hq : w.Quiet) (hd : r.Docile) (hw : w.Complete i r)
    (hi : i < w.injectors.length) : Grown i r (fun _ => True) w v := by
  induction h with
  | refl => exact .still hw rfl rfl rfl
  | @tail u v hwu hs ih =>
    have hv := Later.registry (hwu.tail hs) hq hi
    exact ih.trans (hs.grown hd ih.complete (hv.2.trans hw.registry))

/-- In all worlds that come about, an injector of docile entries keeps with an instance every singleton that
this is made of. -/
theorem Reachable.complete (hw : w.Reachable) (hr : w.registry i = r) (hd : r.Docile) : w.Complete i r := by
  induction hw with
  | refl =>
    refine complete_of_vacant hr fun p => Option.eq_none_iff_forall_ne_some.mpr fun s h => ?_
    have := lt_of_slot h
    simp at this
  | @tail u v hreach hs ih =>
    rcases hs.registry_cases (Reachable.quiet hreach) i with hsame | ⟨name, j, hj, hi, rfl⟩
    · exact (hs.grown hd (ih (hsame.symm.trans hr)) hr).complete
    · refine complete_of_vacant hr fun p => Option.eq_none_iff_forall_ne_some.mpr fun s h => ?_
      rw [slot_addInjector hj] at h
      exact absurd (lt_of_slot h) (hi ▸ Nat.lt_irrefl _)

end World

end Wiring
