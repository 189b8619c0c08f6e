import Wiring.Proofs.Resolution.Confinement
import Wiring.Proofs.Resolution.Finality

/-!
Injectors on one stack.

The frames of all injectors stand on one stack, but a resolution looks at the frames of the injector it is a
request of. As long as nothing is requested of others on the way, it comes to the same whatever frames of others
stand between, and it leaves the frames and the caches of the others alone.
-/

set_option autoImplicit false

namespace Wiring

namespace World

structure Twin (S : InjectorId → Prop) (w u : World) : Prop where
  alike : Alike S w.registry w u
  offers : u.offers = w.offers

def Spares (S : InjectorId → Prop) (w v : World) : Prop := ∀ j, ¬ S j → v.injector j = w.injector j

structure Paired (S : InjectorId → Prop) (w u v t : World) : Prop where
  twin : Twin S v t
  left : w.Rests v
  right : u.Rests t
  spares : Spares S w v

variable {S : InjectorId → Prop} {r : InjectorId → Registry} {w u v t : World} {i : InjectorId}

theorem Alike.twin (h : Alike S r w u) (ho : u.offers = w.offers) : Twin S w u := by
  refine ⟨⟨fun _ => rfl, h.injectors, h.directory, h.holdings, h.tallies, h.made, h.notes, h.events,
    h.underway, fun _ _ _ _ _ _ _ _ => ?_⟩, ho⟩
  simp only [World.shared, ho]

theorem Twin.refl (S : InjectorId → Prop) (w : World) : Twin S w w :=
  ⟨⟨fun _ => rfl, rfl, rfl, rfl, rfl, rfl, rfl, rfl, fun _ _ => rfl, fun _ _ _ _ _ _ _ _ => rfl⟩, rfl⟩

theorem Twin.record (h : Twin S w u) {e f : Event} (he : f.bare = e.bare) :
    Twin S (w.record e) (u.record f) := (h.alike.record he).twin h.offers

theorem Twin.withCache (h : Twin S w u) (i : InjectorId) (f : Cache → Cache) :
    Twin S (w.withCache i f) (u.withCache i f) := (h.alike.withCache i f).twin h.offers

theorem Spares.refl (S : InjectorId → Prop) (w : World) : Spares S w w := fun _ _ => rfl

theorem Spares.trans {x : World} (h : Spares S w v) (h' : Spares S v x) : Spares S w x :=
  fun j hj => (h' j hj).trans (h j hj)

theorem Spares.withCache (hi : S i) (w : World) (f : Cache → Cache) : Spares S w (w.withCache i f) := by
  intro j hj
  have hij : i ≠ j := fun h => hj (h ▸ hi)
  rw [injector_withCache, if_neg fun h => hij h.1]

theorem Twin.paired (h : Twin S w u) : Paired S w u w u := ⟨h, .refl w, .refl u, .refl S w⟩

theorem Paired.trans {x y : World} (h : Paired S w u v t) (h' : Paired S v t x y) : Paired S w u x y :=
  ⟨h'.twin, h.left.trans h'.left, h.right.trans h'.right, h.spares.trans h'.spares⟩

theorem Paired.record (h : Twin S w u) {e f : Event} (he : f.bare = e.bare) :
    Paired S w u (w.record e) (u.record f) := ⟨h.record he, ⟨rfl, rfl⟩, ⟨rfl, rfl⟩, .refl S w⟩

theorem Paired.withCache (h : Twin S w u) (hi : S i) (f : Cache → Cache) :
    Paired S w u (w.withCache i f) (u.withCache i f) :=
  ⟨h.withCache i f, ⟨rfl, rfl⟩, ⟨rfl, rfl⟩, .withCache hi w f⟩

end World

namespace Act

open World

variable {α β : Type} {S : InjectorId → Prop} {w u v t : World} {x : Act α}

def final : EStateM.Result Stop World α → World
  | .ok _ v => v
  | .error _ v => v

def Pairs (S : InjectorId → Prop) (w u : World) :
    EStateM.Result Stop World α → EStateM.Result Stop World α → Prop
  | .ok a v, .ok b t => b = a ∧ Paired S w u v t
  | .error stop v, .error halt t => halt = stop ∧ Paired S w u v t
  | _, _ => False

/-- Events are added on the way, and unless one of them strays, the action does the same in both worlds. -/
def Secluded (S : InjectorId → Prop) (x : Act α) : Prop :=
  ∀ w u : World, Twin S w u → ∃ new, (final (x w)).events = new ++ w.events ∧
    ((∃ e ∈ new, e.Strays S) ∨ Pairs S w u (x w) (x u))

theorem Pairs.cases {s s' : EStateM.Result Stop World α} (h : Pairs S w u s s') :
    (∃ a v t, s = .ok a v ∧ s' = .ok a t ∧ Paired S w u v t) ∨
    ∃ stop v t, s = .error stop v ∧ s' = .error stop t ∧ Paired S w u v t := by
  cases s with
  | ok a v =>
    cases s' with
    | ok b t =>
      obtain ⟨rfl, h⟩ := h
      exact .inl ⟨b, v, t, rfl, rfl, h⟩
    | error stop t => exact h.elim
  | error stop v =>
    cases s' with
    | ok b t => exact h.elim
    | error halt t =>
      obtain ⟨rfl, h⟩ := h
      exact .inr ⟨halt, v, t, rfl, rfl, h⟩

theorem Pairs.of {s s' : EStateM.Result Stop World α} (hvt : Paired S w u v t) (h : Pairs S v t s s') :
    Pairs S w u s s' := by
  rcases h.cases with ⟨a, x, y, rfl, rfl, hxy⟩ | ⟨stop, x, y, rfl, rfl, hxy⟩
  · exact ⟨rfl, hvt.trans hxy⟩
  · exact ⟨rfl, hvt.trans hxy⟩

theorem secluded_of_blind (hx : ∀ r, Blind S r x fun _ => True)
    (he : ∀ w, (final (x w)).events = w.events) (hi : ∀ w, (final (x w)).injectors = w.injectors) :
    Secluded S x := by
  intro w u hwu
  refine ⟨[], he w, .inr ?_⟩
  have hinjectors := hi w
  have spares : ∀ {v : World}, v.injectors = w.injectors → Spares S w v := by
    intro v hv j _
    simp only [injector, hv]
  rcases (hx _ w u hwu.alike).cases with ⟨a, v, t, hv, ht, _, h⟩ | ⟨stop, v, t, hv, ht, h⟩ <;>
    rw [hv] at hinjectors <;> rw [hv, ht]
  all_goals
    refine ⟨rfl, h.alike.twin ?_, h.left, h.right, spares hinjectors⟩
    rw [h.left.offers, h.right.offers, hwu.offers]

theorem secluded_pure (a : α) : Secluded S (pure a) :=
  secluded_of_blind (fun _ => blind_pure trivial) (fun _ => rfl) fun _ => rfl

theorem secluded_throw (stop : Stop) : Secluded S (throw stop : Act α) :=
  secluded_of_blind (fun _ => blind_throw stop) (fun _ => rfl) fun _ => rfl

theorem Secluded.bind {f : α → Act β} {Q : α → Prop} (hx : Secluded S x) (hq : x.Ensures Q)
    (hf : ∀ a, Q a → Secluded S (f a)) : Secluded S (x >>= f) := by
  intro w u hwu
  change ∃ new, (final (EStateM.bind x f w)).events = new ++ w.events ∧
    (_ ∨ Pairs S w u (EStateM.bind x f w) (EStateM.bind x f u))
  simp only [EStateM.bind]
  obtain ⟨new, hnew, hends⟩ := hx w u hwu
  rcases hends with hstray | hpairs
  · cases hv : x w with
    | error stop v =>
      rw [hv] at hnew
      exact ⟨new, hnew, .inl hstray⟩
    | ok a v =>
      rw [hv] at hnew
      obtain ⟨more, hmore, _⟩ := hf a (hq w a v hv) v v (.refl S v)
      obtain ⟨e, he, hs⟩ := hstray
      have hall : (final (f a v)).events = (more ++ new) ++ w.events := by
        rw [hmore, List.append_assoc]
        exact congrArg _ hnew
      exact ⟨more ++ new, hall, .inl ⟨e, List.mem_append_right _ he, hs⟩⟩
  · rcases hpairs.cases with ⟨a, v, t, hv, ht, h⟩ | ⟨stop, v, t, hv, ht, h⟩ <;> rw [hv] at hnew <;> rw [hv, ht]
    · obtain ⟨more, hmore, hends⟩ := hf a (hq w a v hv) v t h.twin
      have hall : (final (f a v)).events = (more ++ new) ++ w.events := by
        rw [hmore, List.append_assoc]
        exact congrArg _ hnew
      refine ⟨more ++ new, hall, hends.imp ?_ fun hpairs => hpairs.of h⟩
      rintro ⟨e, he, hs⟩
      exact ⟨e, List.mem_append_left _ he, hs⟩
    · exact ⟨new, hnew, .inr ⟨rfl, h⟩⟩

theorem secluded_look {f : World → α} (h : ∀ w u, Twin S w u → f u = f w) : Secluded S (look f) :=
  fun w u hwu => ⟨[], rfl, .inr ⟨h w u hwu, hwu.paired⟩⟩

theorem secluded_record (e : Event) : Secluded S (record e) :=
  fun _ _ hwu => ⟨[e], rfl, .inr ⟨rfl, .record hwu rfl⟩⟩

theorem secluded_note (n : Note) : Secluded S (modify fun w => w.note n) :=
  secluded_of_blind (fun _ => blind_note n) (fun _ => rfl) fun _ => rfl

theorem secluded_count (tally : Nat) : Secluded S (count tally) :=
  secluded_of_blind (fun _ => blind_count tally) (fun _ => rfl) fun _ => rfl

theorem secluded_fresh : Secluded S fresh :=
  secluded_of_blind (fun _ => blind_fresh) (fun _ => rfl) fun _ => rfl

theorem final_attempt (x : Act α) (w : World) : final (attempt x w) = final (x w) := by
  simp only [Act.attempt]
  cases x w with
  | ok a v => rfl
  | error stop v => cases stop <;> rfl

theorem Secluded.attempt (h : Secluded S x) : Secluded S (attempt x) := by
  intro w u hwu
  obtain ⟨new, hnew, hends⟩ := h w u hwu
  refine ⟨new, by rw [final_attempt]; exact hnew, hends.imp id fun hpairs => ?_⟩
  simp only [Act.attempt]
  rcases hpairs.cases with ⟨a, v, t, hv, ht, h⟩ | ⟨stop, v, t, hv, ht, h⟩ <;> rw [hv, ht]
  · exact ⟨rfl, h⟩
  · cases stop with
    | error e => exact ⟨rfl, h⟩
    | _ => exact ⟨rfl, h⟩

end Act

namespace Resolution

open World Act

variable {S : InjectorId → Prop} {self : Resolver} {i : InjectorId} {key : Key} {p : Place}
  {x : Act Instance}

/-- The judgement that unless something is requested of other injectors, actions do the same in worlds that
agree. Whom a routine asks is not restricted. -/
def seclusion (S : InjectorId → Prop) : Judgement where
  Asks _ := True
  Law _ _ _ := True
  Shares _ _ := True
  Offers _ _ _ := True
  Notes _ := True
  Holds x _ Q := Secluded S x ∧ x.Ensures Q
  holds_pure h := ⟨secluded_pure _, ensures_pure h⟩
  holds_refuse _ := ⟨secluded_throw _, ensures_throw _⟩
  holds_panic _ := ⟨secluded_throw _, ensures_throw _⟩
  holds_bind h hf := ⟨h.1.bind h.2 fun a ha => (hf a ha).1, h.2.bind fun a ha => (hf a ha).2⟩
  holds_attempt h := ⟨h.1.attempt, ensures_trivial _⟩
  holds_live _ := ⟨secluded_look fun w u h => by simp only [isLive, h.alike.directory, h.alike.holdings],
    ensures_trivial _⟩
  holds_named _ := ⟨secluded_look fun w u h => by simp only [h.alike.directory], ensures_trivial _⟩
  holds_shared _ := ⟨secluded_look fun w u h => by simp only [World.shared, h.offers], ensures_trivial _⟩
  holds_count tally := ⟨secluded_count tally, ensures_trivial _⟩
  holds_note n := ⟨secluded_note n, ensures_trivial _⟩
  holds_fresh := ⟨secluded_fresh, ensures_trivial _⟩
  holds_record _ := ⟨secluded_record _, ensures_trivial _⟩

theorem secluded_kept (hi : S i) (p : Place) (hx : Secluded S x) : Secluded S (kept i p x) := by
  intro w u hwu
  simp only [kept, hwu.alike.cache_eq]
  generalize (w.cache i).find p = found
  have hacquired : Paired S w u (w.record (.acquired i p found)) (u.record (.acquired i p found)) :=
    .record hwu rfl
  cases found with
  | ready a => exact ⟨[.acquired i p (.ready a)], rfl, .inr ⟨rfl, hacquired⟩⟩
  | busy => exact ⟨[.acquired i p .busy], rfl, .inr ⟨rfl, hacquired⟩⟩
  | vacant =>
    dsimp only
    have hreserved := hacquired.trans (.withCache hacquired.twin hi fun c => c.reserve p)
    obtain ⟨new, hnew, hends⟩ := hx _ _ hreserved.twin
    generalize hs : x ((w.record (.acquired i p .vacant)).withCache i fun c => c.reserve p) = s at hnew hends ⊢
    have hevents : (final s).events = new ++ (.acquired i p .vacant :: w.events) := hnew
    cases s with
    | ok a v =>
      refine ⟨.stored i p a :: (new ++ [.acquired i p .vacant]), ?_, hends.imp ?_ fun hpairs => ?_⟩
      · simpa [final, World.record, World.withCache] using hevents
      · rintro ⟨e, he, hstray⟩
        exact ⟨e, List.mem_cons_of_mem _ (List.mem_append_left _ he), hstray⟩
      · obtain ⟨_, v', t, hv, ht, h⟩ | ⟨_, _, _, hv, _⟩ := hpairs.cases <;> cases hv
        rw [ht]
        have hfulfilled := h.trans (.withCache h.twin hi fun c => (c.fulfill p a).release p)
        exact ⟨rfl, hreserved.trans (hfulfilled.trans (.record hfulfilled.twin rfl))⟩
    | error stop v =>
      refine ⟨new ++ [.acquired i p .vacant], ?_, hends.imp ?_ fun hpairs => ?_⟩
      · simpa [final, World.withCache] using hevents
      · rintro ⟨e, he, hstray⟩
        exact ⟨e, List.mem_append_left _ he, hstray⟩
      · obtain ⟨_, _, _, hv, _⟩ | ⟨_, v', t, hv, ht, h⟩ := hpairs.cases <;> cases hv
        rw [ht]
        exact ⟨rfl, hreserved.trans (h.trans (.withCache h.twin hi fun c => c.release p))⟩

theorem secluded_underConstruction (hi : S i) (hx : Secluded S x) (key : Key) (limit : Nat) :
    Secluded S (underConstruction i key limit x) := by
  intro w u hwu
  simp only [underConstruction, hwu.alike.underway i hi]
  split
  · exact ⟨[], rfl, .inr ⟨rfl, hwu.paired⟩⟩
  · split
    · exact ⟨[], rfl, .inr ⟨rfl, hwu.paired⟩⟩
    · obtain ⟨new, hnew, hends⟩ := hx _ _ ((hwu.alike.under i key).twin hwu.offers)
      simp only [Act.withFrame]
      change (final (x { w with frames := ⟨i, key⟩ :: w.frames })).events = new ++ w.events at hnew
      change _ ∨ Pairs S (w.under i key) (u.under i key) (x { w with frames := ⟨i, key⟩ :: w.frames })
        (x { u with frames := ⟨i, key⟩ :: u.frames }) at hends
      -- The frames are the ones from before once the frame of the key is taken off.
      have finish : ∀ {v t}, Paired S (w.under i key) (u.under i key) v t →
          Paired S w u { v with frames := v.frames.tail } { t with frames := t.frames.tail } := by
        intro v t h
        have hl : v.frames.tail = w.frames := by rw [h.left.frames]; rfl
        have hr : t.frames.tail = u.frames := by rw [h.right.frames]; rfl
        refine ⟨(h.twin.alike.withFrames fun j hj => ?_).twin h.twin.offers, ⟨hl, h.left.offers⟩,
          ⟨hr, h.right.offers⟩, h.spares⟩
        simpa [World.underConstruction, hl, hr] using hwu.alike.underway j hj
      refine ⟨new, ?_, hends.imp id fun hpairs => ?_⟩
      · rw [← hnew]
        cases x { w with frames := ⟨i, key⟩ :: w.frames } <;> rfl
      · rcases hpairs.cases with ⟨a, v, t, hv, ht, h⟩ | ⟨stop, v, t, hv, ht, h⟩ <;> rw [hv, ht]
        · exact ⟨rfl, finish h⟩
        · exact ⟨rfl, finish h⟩

theorem surrounds_seclusion (hi : S i) : (seclusion S).Surrounds i where
  notes _ _ := trivial
  kept h := ⟨secluded_kept hi _ h.1, ensures_trivial _⟩
  underConstruction h := ⟨secluded_underConstruction hi h.1 _ _, ensures_trivial _⟩

theorem secluded_respond (hs : (seclusion S).Resolves self self) (hi : S i) (key : Key)
    (found : Option Entry) (asker : Option Key) (ready : Option Instance) (limit : Nat) :
    Secluded S (respond self i key found asker ready limit) :=
  (Judgement.holds_respond (surrounds_seclusion hi) hs trivial key
    (fun _ _ s _ => ⟨s.confined_univ, fun _ _ _ => trivial⟩) asker ready limit).1

/-- A request of one of the injectors is secluded, and one of any other strays. -/
theorem seclusion_request (hall : (seclusion fun _ => True).Resolves self self)
    (hs : (seclusion S).Resolves self self) : (seclusion S).Resolves (request self) (request self) := by
  refine fun i key _ => ⟨fun w u hwu => ?_, ensures_trivial _⟩
  by_cases hi : S i
  · have hrequested : Paired S w u (w.requested i key) (u.requested i key) := by
      refine .record hwu ?_
      simp only [Event.bare, caches, hwu.alike.injectors]
    rw [request_eq_respond, request_eq_respond, hwu.alike.registry_eq, hwu.alike.cache_eq,
      hwu.alike.requester_eq hi]
    obtain ⟨new, hnew, hends⟩ := secluded_respond hs hi key _ _ _ _ _ _ hrequested.twin
    refine ⟨new ++ [.requested i key w.frames w.caches], by rw [hnew]; simp [World.record], ?_⟩
    rcases hends with ⟨e, he, hstray⟩ | hpairs
    · exact .inl ⟨e, List.mem_append_left _ he, hstray⟩
    · exact .inr (hpairs.of hrequested)
  · obtain ⟨new, hnew, _⟩ := secluded_respond hall (i := i) trivial key ((w.registry i).find? key)
      (w.requester i) ((w.cache i).ready? (.binding key.ident)) (w.registry i).config.maxDepth _ _
      (.refl _ (w.requested i key))
    refine ⟨new ++ [.requested i key w.frames w.caches], ?_, .inl ?_⟩
    · rw [request_eq_respond, hnew]
      simp [World.record]
    · exact ⟨_, List.mem_append_right _ List.mem_cons_self, hi⟩

theorem seclusion_resolveWithin (S : InjectorId → Prop) (d : Nat) :
    (seclusion S).Resolves (resolveWithin d) (resolveWithin d) := by
  have hall : ∀ d, (seclusion fun _ => True).Resolves (resolveWithin d) (resolveWithin d) :=
    Judgement.resolves_resolveWithin (fun _ _ => ⟨secluded_throw _, ensures_throw _⟩)
      fun _ h => seclusion_request h h
  induction d with
  | zero => exact fun _ _ _ => ⟨secluded_throw _, ensures_throw _⟩
  | succ d ih => exact seclusion_request (hall d) ih

end Resolution

namespace World

open Act Resolution

/-- The world with the frames of one injector only. -/
def alone (w : World) (a : InjectorId) : World :=
  { w with frames := w.frames.filter fun f => f.injector = a }

/-- Nothing is requested of other injectors on the way. -/
def KeepsTo (w : World) (a : InjectorId) (x : Act Instance) : Prop :=
  ∃ new, (w.after x).events = new ++ w.events ∧ ∀ e ∈ new, ¬ e.Strays (· = a)

/-- The action does what it would do without the frames of other injectors: the same instance is handed out or
the same error, the same is noted, counted, run and kept. It leaves the stack and the other injectors alone. -/
structure Undisturbed (w : World) (a : InjectorId) (x : Act Instance) : Prop where
  result : w.result x = (w.alone a).result x
  world : (w.alone a).after x =
    { w.after x with frames := (w.alone a).frames, events := ((w.alone a).after x).events }
  events : ((w.alone a).after x).events.map Event.bare = (w.after x).events.map Event.bare
  frames : (w.after x).frames = w.frames
  others : ∀ j, j ≠ a → (w.after x).injector j = w.injector j

theorem twin_alone (w : World) (a : InjectorId) : Twin (· = a) w (w.alone a) := by
  refine ⟨⟨fun _ => rfl, rfl, rfl, rfl, rfl, rfl, rfl, rfl, ?_, fun _ _ _ _ _ _ _ _ => rfl⟩, rfl⟩
  rintro i rfl
  simp [underConstruction, alone, List.filter_filter]

theorem Twin.eq {S : InjectorId → Prop} {v t : World} (h : Twin S v t) :
    t = { v with frames := t.frames, events := t.events } := by
  obtain ⟨injectors, directory, holdings, offers, tallies, frames, made, notes, events⟩ := t
  obtain ⟨⟨_, hi, hd, hh, ht, hm, hn, _, _, _⟩, ho⟩ := h
  simp only at hi hd hh ht hm hn ho
  subst hi hd hh ht hm hn ho
  rfl

theorem undisturbed_of_pairs {w : World} {a : InjectorId} {x : Act Instance}
    (h : Pairs (· = a) w (w.alone a) (x w) (x (w.alone a))) : w.Undisturbed a x := by
  have paired : ∀ {v t}, w.after x = v → (w.alone a).after x = t → Paired (· = a) w (w.alone a) v t →
      w.result x = (w.alone a).result x → w.Undisturbed a x := by
    rintro v t rfl rfl hpaired hresult
    refine ⟨hresult, ?_, hpaired.twin.alike.events, hpaired.left.frames, hpaired.spares⟩
    rw [← hpaired.right.frames]
    exact hpaired.twin.eq
  rcases h.cases with ⟨b, v, t, hv, ht, h⟩ | ⟨stop, v, t, hv, ht, h⟩
  · exact paired (by rw [after, hv]) (by rw [after, ht]) h (by rw [result, result, hv, ht])
  · exact paired (by rw [after, hv]) (by rw [after, ht]) h (by rw [result, result, hv, ht])

theorem keepsTo_of_selfContained {w : World} {a : InjectorId} {key : Key} {x : Act Instance}
    (hx : x = resolve a key ∨ ∃ d, x = resolveWithin d a key) (hc : SelfContained (· = a) w.registry) :
    w.KeepsTo a x := by
  rcases hx with rfl | ⟨d, rfl⟩
  · exact resolveWithin_abstains hc w.capacity key
  · exact resolveWithin_abstains hc d key

/-- Injectors on one stack do not disturb each other. Whatever stands on the stack and is kept in the caches, a
request of an injector, be it from outside or nested in others, does what it would do without the frames of the
others, and their frames and caches are left as they were. The routines of the injector are to keep to it, or at
least nothing is to be requested of others on the way. -/
theorem resolve_undisturbed {w : World} {a : InjectorId} {key : Key} {x : Act Instance}
    (hx : x = resolve a key ∨ ∃ d, x = resolveWithin d a key)
    (h : SelfContained (· = a) w.registry ∨ w.KeepsTo a x) : w.Undisturbed a x := by
  have hseclude : ∃ new, (final (x w)).events = new ++ w.events ∧
      ((∃ e ∈ new, e.Strays (· = a)) ∨ Pairs (· = a) w (w.alone a) (x w) (x (w.alone a))) := by
    rcases hx with rfl | ⟨d, rfl⟩
    · exact (seclusion_resolveWithin _ w.capacity a key trivial).1 w _ (twin_alone w a)
    · exact (seclusion_resolveWithin _ d a key trivial).1 w _ (twin_alone w a)
  obtain ⟨new, hnew, hends⟩ := hseclude
  obtain ⟨kept, hkept, hkeeps⟩ := h.elim (keepsTo_of_selfContained hx) id
  have hfinal : w.after x = final (x w) := by
    rw [after]
    cases x w <;> rfl
  have hsame : new = kept := List.append_cancel_right (hnew.symm.trans (hfinal ▸ hkept))
  subst hsame
  refine undisturbed_of_pairs (hends.resolve_left ?_)
  rintro ⟨e, he, hstray⟩
  exact hkeeps e he hstray

def frontKey : Key := .of (.value .alpha)

def mirrorKey : Key := .of (.value .beta)

def frontBinding : Binding where
  strategy := .construct (.value .alpha) [.inject mirrorKey false] fun _ =>
    .done ⟨.alpha "front", []⟩ rfl

/-- Its constructor asks the first injector for what the second one may be making. -/
def mirrorBinding : Binding where
  strategy := .construct (.value .beta) [] fun _ => .get 0 (.of frontKey) fun
    | .ok _ => .done ⟨.beta "mirror", []⟩ rfl
    | .error e => .fail (.resolution e)

def mirrorOperations : List Operation :=
  [.register frontKey frontBinding .direct, .register mirrorKey mirrorBinding .direct, .finalize]

def mirrorInjector : Injector where
  registry := (Operation.runAll {} mirrorOperations).2.finalized.getD {}

def mirrored : World :=
  { (({} : World).addInjector "first" mirrorInjector).addInjector "second" mirrorInjector with
    frames := [⟨1, mirrorKey⟩, ⟨1, frontKey⟩] }

/-- The cycle that the first injector reports has nothing of the keys that the second one has under
construction, though they are the same. -/
theorem resolve_undisturbed_mirror : mirrored.KeepsTo 0 (resolve 0 frontKey) ∧
    mirrored.Undisturbed 0 (resolve 0 frontKey) ∧
    (mirrored.alone 0).result (resolve 0 frontKey) = .error (.error
      (.instantiate mirrorKey (.resolution (.circular [frontKey, mirrorKey, frontKey])))) := by
  have hkeeps : mirrored.KeepsTo 0 (resolve 0 frontKey) := by
    refine ⟨(mirrored.after (resolve 0 frontKey)).events, (List.append_nil _).symm, ?_⟩
    decide +kernel
  have h := resolve_undisturbed (.inl rfl) (.inr hkeeps)
  exact ⟨hkeeps, h, h.result.symm.trans rfl⟩

end World

end Wiring
