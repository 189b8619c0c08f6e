import Wiring.Proofs.Resolution.Reachable

/-!
Laws for the instances that an injector hands out.

A law says what may be yielded for a key. It is upheld by a registry if each of its entries makes only what the
law allows, given nothing but what the law allows. Such a law is never broken: not by what is kept from earlier
resolutions, not by what is handed out, and not by what other injectors do in between.
-/

set_option autoImplicit false

namespace Wiring

open Relation

/-- A law for the keys of one injector, and what is known of it: its registry, and values that were offered. -/
structure Regime where
  injector : InjectorId
  registry : Registry
  offers : Table (Base × String) Datum
  law : Ident → Instance → Prop

namespace Regime

def Gives (g : Regime) : Point → Held → Prop := Held.Given (fun key x => g.law key.ident x) g.injector

def Shares (g : Regime) (name : String) (d datum : Datum) : Prop :=
  datum.type = d.type ∧ ∀ offered, g.offers.get? (d.type, name) = some offered → datum = offered

def Makes (g : Regime) : Strategy → Instance → Prop :=
  Strategy.Makes (fun key x => g.law key.ident x) g.Shares g.injector

def Adds (g : Regime) (c : Contribution) (e : Option MapKey × Instance) : Prop :=
  e.1 = c.mapKey ∧ g.Makes c.binding.strategy e.2

def Builds (g : Regime) (key : Key) : Entry → Instance → Prop
  | .binding c, x => g.Makes c.binding.strategy x
  | .aggregate a, x => ∃ id es items, List.Forall₂ g.Adds a.contributions es ∧
      a.assemble key es = .ok items ∧ x = .collection id a.shape items

/-- What the registry makes obeys the law. -/
structure Upheld (g : Regime) : Prop where
  injector : ∀ key : Key, key.isInjector = true → g.law key.ident (.injector g.injector)
  entry : ∀ {key : Key} {e x}, key.isInjector = false → g.registry.find? key = some e →
    g.Builds key e x → g.law key.ident x

def Fills (g : Regime) : Place → Instance → Prop
  | .binding a, x => g.law a x
  | .element a n, x => ∀ agg c, g.registry.at? a = some (.aggregate agg) →
      agg.contributions[n]? = some c → g.Makes c.binding.strategy x

end Regime

namespace World

/-- The injector is as the regime has it, and all that it keeps or has yielded is allowed. -/
structure Obeys (g : Regime) (w : World) : Prop where
  registry : w.registry g.injector = g.registry
  offers : ∀ k d, g.offers.get? k = some d → w.offers.get? k = some d
  typed : ∀ t name d, w.offers.get? (t, name) = some d → d.type = t
  kept : ∀ p x, w.slot g.injector p = some (.ready x) → g.Fills p x
  yielded : ∀ p x, .yielded g.injector p x ∈ w.events → g.Fills p x

variable {g : Regime} {w v : World} {i : InjectorId} {p : Place} {x : Instance}

theorem Obeys.congr (hw : w.Obeys g) (hi : v.injectors = w.injectors) (ho : v.offers = w.offers)
    (he : v.events = w.events) : v.Obeys g := by
  have hregistry : v.registry g.injector = w.registry g.injector := by
    simp only [World.registry, World.injector, hi]
  have hslot : v.slot g.injector = w.slot g.injector := by
    funext p
    simp only [slot, cache, World.injector, hi]
  exact ⟨hregistry.trans hw.registry, ho ▸ hw.offers, ho ▸ hw.typed, hslot ▸ hw.kept, he ▸ hw.yielded⟩

theorem Obeys.record (hw : w.Obeys g) {e : Event}
    (he : ∀ p x, e = .yielded g.injector p x → g.Fills p x) : (w.record e).Obeys g := by
  refine ⟨hw.registry, hw.offers, hw.typed, hw.kept, fun p x h => ?_⟩
  rcases List.mem_cons.mp h with h | h
  · exact he p x h.symm
  · exact hw.yielded p x h

theorem Obeys.withCache (hw : w.Obeys g) {f : Cache → Cache}
    (hf : ∀ q y, (f (w.cache i)).get? q = some (.ready y) →
      (w.cache i).get? q = some (.ready y) ∨ (i = g.injector → g.Fills q y)) :
    (w.withCache i f).Obeys g := by
  refine ⟨by simpa using hw.registry, hw.offers, hw.typed, fun q y h => ?_, hw.yielded⟩
  rw [slot_withCache] at h
  split at h
  · rename_i heq
    rw [← heq.1] at h
    rcases hf q y h with hold | hnew
    · exact hw.kept q y (heq.1 ▸ hold)
    · exact hnew heq.1
  · exact hw.kept q y h

theorem Obeys.reserve (hw : w.Obeys g) (i : InjectorId) (p : Place) :
    (w.withCache i fun c => c.reserve p).Obeys g :=
  hw.withCache fun _ _ h => .inl (Cache.ready_of_reserve h)

theorem Obeys.release (hw : w.Obeys g) (i : InjectorId) (p : Place) :
    (w.withCache i fun c => c.release p).Obeys g :=
  hw.withCache fun _ _ h => .inl (Cache.ready_of_release h)

theorem Obeys.fulfill (hw : w.Obeys g) (hx : i = g.injector → g.Fills p x) :
    (w.withCache i fun c => (c.fulfill p x).release p).Obeys g := by
  refine hw.withCache fun q y h => ?_
  rcases Cache.ready_of_fulfill h with ⟨rfl, rfl⟩ | hold
  · exact .inr hx
  · exact .inl hold

end World

namespace Act

open World

variable {α β : Type} {g : Regime} {x : Act α} {Q R : α → Prop}

def Lawful (g : Regime) (Q : α → Prop) : EStateM.Result Stop World α → Prop
  | .ok a v => v.Obeys g ∧ Q a
  | .error _ v => v.Obeys g

def Keeps (g : Regime) (x : Act α) (Q : α → Prop) : Prop :=
  ∀ w : World, w.Obeys g → Lawful g Q (x w)

theorem Keeps.imp (h : Keeps g x Q) (hq : ∀ a, Q a → R a) : Keeps g x R := by
  intro w hw
  have hx := h w hw
  generalize x w = r at hx ⊢
  cases r with
  | ok a v => exact ⟨hx.1, hq a hx.2⟩
  | error stop v => exact hx

theorem Keeps.bind {f : α → Act β} {R : β → Prop} (h : Keeps g x Q)
    (hf : ∀ a, Q a → Keeps g (f a) R) : Keeps g (x >>= f) R := by
  intro w hw
  have hx := h w hw
  change Lawful g R (EStateM.bind x f w)
  simp only [EStateM.bind]
  generalize x w = r at hx ⊢
  cases r with
  | ok a v => exact hf a hx.2 v hx.1
  | error stop v => exact hx

theorem Keeps.after (h : Keeps g x Q) {w : World} (hw : w.Obeys g) : (w.after x).Obeys g := by
  have hx := h w hw
  unfold World.after
  generalize x w = r at hx ⊢
  cases r with
  | ok a v => exact hx.1
  | error stop v => exact hx

theorem keeps_pure {a : α} (h : Q a) : Keeps g (pure a) Q := fun _ hw => ⟨hw, h⟩

theorem keeps_throw (stop : Stop) : Keeps g (throw stop : Act α) Q := fun _ hw => hw

theorem keeps_record {e : Event} (h : ∀ p x, e = .yielded g.injector p x → g.Fills p x) :
    Keeps g (record e) fun _ => True := fun _ hw => ⟨hw.record h, trivial⟩

theorem keeps_note (n : Note) : Keeps g (modify fun w => w.note n) fun _ => True :=
  fun _ hw => ⟨hw.congr rfl rfl rfl, trivial⟩

theorem keeps_count (tally : Nat) : Keeps g (count tally) fun _ => True :=
  fun _ hw => ⟨hw.congr rfl rfl rfl, trivial⟩

theorem keeps_fresh : Keeps g fresh fun _ => True := fun _ hw => ⟨hw.congr rfl rfl rfl, trivial⟩

theorem Keeps.attempt (h : Keeps g x Q) : Keeps g (attempt x) fun _ => True := by
  intro w hw
  have hx := h w hw
  simp only [Act.attempt]
  generalize x w = r at hx ⊢
  cases r with
  | ok a v => exact ⟨hx.1, trivial⟩
  | error stop v =>
    cases stop with
    | error e => exact ⟨hx, trivial⟩
    | _ => exact hx

end Act

namespace Resolution

open World Act

def Abides (g : Regime) (self : Resolver) : Prop :=
  ∀ i key, Keeps g (self i key) fun x => i = g.injector → g.law key.ident x

variable {g : Regime} {self : Resolver} {i : InjectorId} {key : Key} {p : Place} {x : Act Instance}

def lawfulness (g : Regime) : Judgement where
  Asks _ := True
  Law i key x := i = g.injector → g.law key.ident x
  Shares _ _ := True
  Offers := g.Shares
  Notes e := ∀ p x, e = .yielded g.injector p x → g.Fills p x
  Holds x _ Q := Keeps g x Q
  holds_pure := keeps_pure
  holds_refuse _ := keeps_throw _
  holds_panic _ := keeps_throw _
  holds_bind := Keeps.bind
  holds_attempt := Keeps.attempt
  holds_live _ := fun _ hw => ⟨hw, trivial⟩
  holds_named _ := fun _ hw => ⟨hw, trivial⟩
  holds_shared _ := fun _ hw => ⟨hw, World.type_shared hw.typed _ _, fun _ h => World.shared_eq (hw.offers _ _ h)⟩
  holds_count := keeps_count
  holds_note := keeps_note
  holds_fresh := keeps_fresh
  holds_record := keeps_record

theorem Abides.resolves (ha : Abides g self) : (lawfulness g).Resolves self self := fun i key _ => ha i key

theorem gives_of_given {p : Point} {h : Held}
    (hg : h.Given (fun key x => i = g.injector → g.law key.ident x) i p) (hi : i = g.injector) : g.Gives p h := by
  subst hi
  exact hg.imp fun _ _ hlaw => hlaw rfl

theorem keeps_serve (ha : Abides g self) (i : InjectorId) (req : Request) :
    Keeps g (serve self i req) fun x =>
      x.type = req.expected ∧ (i = g.injector → g.law req.key.ident x) :=
  Judgement.holds_serve ha.resolves trivial req

theorem keeps_pull (ha : Abides g self) (l : Lazy) : Keeps g (pull self l) fun _ => True :=
  Judgement.holds_pull ha.resolves trivial

theorem keeps_point (ha : Abides g self) (i : InjectorId) (p : Point) :
    Keeps g (point self i p) fun h => i = g.injector → g.Gives p h :=
  Keeps.imp (Judgement.holds_point ha.resolves trivial p) fun _ => gives_of_given

theorem keeps_points (ha : Abides g self) (i : InjectorId) (ps : List Point) :
    Keeps g (points self i ps) fun held => i = g.injector → List.Forall₂ g.Gives ps held :=
  Keeps.imp (Judgement.holds_points ha.resolves trivial ps) fun _ hg hi =>
    hg.imp fun _ _ h => gives_of_given h hi

theorem keeps_produce (ha : Abides g self) (s : Strategy) :
    Keeps g (produce self i key s) fun x => i = g.injector → g.Makes s x := by
  have hs : (lawfulness g).Admits s := ⟨s.confined_univ, fun _ _ _ => trivial⟩
  refine Keeps.imp (Judgement.holds_produce ha.resolves trivial (fun _ _ h => by cases h) hs)
    fun x hx hi => ?_
  subst hi
  exact hx.imp fun _ _ hlaw => hlaw rfl

theorem keeps_yielding (hx : Keeps g x fun a => i = g.injector → g.Fills p a) :
    Keeps g (yielding i p x) fun a => i = g.injector → g.Fills p a := by
  refine hx.bind fun a ha => ?_
  refine (keeps_record fun q y h => ?_).bind fun _ _ => keeps_pure ha
  cases h
  exact ha rfl

theorem keeps_kept (hx : Keeps g x fun a => i = g.injector → g.Fills p a) :
    Keeps g (kept i p x) fun a => i = g.injector → g.Fills p a := by
  intro w hw
  have hacquired : ∀ found, (w.record (.acquired i p found)).Obeys g :=
    fun found => hw.record fun _ _ h => by cases h
  rcases kept_cases i p x w with
    ⟨a, hslot, h⟩ | ⟨_, h⟩ | ⟨_, ⟨a, v, hrun, h⟩ | ⟨stop, v, hrun, h⟩⟩ <;> rw [h]
  · refine ⟨hacquired _, fun hi => ?_⟩
    subst hi
    exact hw.kept p a hslot
  · exact hacquired _
  · have hkept := hx _ ((hacquired .vacant).reserve i p)
    rw [hrun] at hkept
    exact ⟨(hkept.1.fulfill hkept.2).record (fun _ _ heq => by cases heq), hkept.2⟩
  · have hkept := hx _ ((hacquired .vacant).reserve i p)
    rw [hrun] at hkept
    exact hkept.release i p

theorem keeps_underConstruction {Q : Instance → Prop} {limit : Nat} (hx : Keeps g x Q) :
    Keeps g (underConstruction i key limit x) Q := by
  intro w hw
  have hmade := hx (w.under i key) (hw.congr rfl rfl rfl)
  rcases underConstruction_cases i key limit x w with
    ⟨_, h⟩ | ⟨_, ⟨_, h⟩ | ⟨_, ⟨a, v, hrun, h⟩ | ⟨stop, v, hrun, h⟩⟩⟩ <;> rw [h]
  · exact hw
  · exact hw
  · rw [hrun] at hmade
    exact ⟨hmade.1.congr rfl rfl rfl, hmade.2⟩
  · rw [hrun] at hmade
    exact hmade.congr rfl rfl rfl

theorem keeps_element (ha : Abides g self) {a : Aggregate} {index : Nat} {c : Contribution}
    (hentry : i = g.injector → g.registry.at? key.ident = some (.aggregate a))
    (hc : a.contributions[index]? = some c) :
    Keeps g (element self i key index c) fun x => i = g.injector → g.Makes c.binding.strategy x := by
  -- What is made for the contribution is what may be at its place, and the other way round.
  have hfills : ∀ x, i = g.injector →
      (g.Fills (.element key.ident index) x ↔ g.Makes c.binding.strategy x) := by
    intro x hi
    refine ⟨fun h => h a c (hentry hi) hc, fun h agg d hagg hd => ?_⟩
    cases (hentry hi).symm.trans hagg
    cases hc.symm.trans hd
    exact h
  have hproduce : Keeps g (do
      Act.record (.produced i (.element key.ident index) c.source)
      produce self i key c.binding.strategy) fun x =>
        i = g.injector → g.Fills (.element key.ident index) x := by
    refine (keeps_record fun _ _ h => by cases h).bind fun _ _ => ?_
    exact (keeps_produce ha c.binding.strategy).imp fun x hx hi => (hfills x hi).mpr (hx hi)
  refine (keeps_yielding ?_).imp fun x hx hi => (hfills x hi).mp (hx hi)
  split
  · exact keeps_kept hproduce
  · exact hproduce

theorem keeps_elements (ha : Abides g self) {a : Aggregate}
    (hentry : i = g.injector → g.registry.at? key.ident = some (.aggregate a))
    (cs : List Contribution) (index : Nat) (hcs : a.From index cs) :
    Keeps g (elements self i key index cs) fun es => i = g.injector → List.Forall₂ g.Adds cs es := by
  have heach : (lawfulness g).Holds (elements self i key index cs) (elements self i key index cs) _ :=
    Judgement.holds_elements (P := fun c x => i = g.injector → g.Makes c.binding.strategy x)
      fun n c hc => keeps_element ha hentry (hcs n c hc)
  exact Keeps.imp heach fun es hes hi => hes.imp fun c e he => ⟨he.1, he.2 hi⟩

theorem keeps_construct (ha : Abides g self) {e : Entry}
    (hentry : i = g.injector → g.registry.find? key = some e) :
    Keeps g (construct self i key e) fun x => i = g.injector → g.Builds key e x := by
  cases e with
  | binding c =>
    refine (keeps_record fun _ _ h => by cases h).bind fun _ _ => ?_
    exact keeps_produce ha c.binding.strategy
  | aggregate a =>
    have hall : (lawfulness g).Holds (elements self i key 0 a.contributions)
        (elements self i key 0 a.contributions) _ := keeps_elements ha hentry a.contributions 0 a.from_zero
    refine Keeps.imp (Judgement.holds_aggregate (fun _ _ h => by cases h) hall) fun x hx hi => ?_
    obtain ⟨id, es, items, hes, hitems, rfl⟩ := hx
    exact ⟨id, es, items, hes hi, hitems, rfl⟩

theorem abides_request (hg : g.Upheld) (ha : Abides g self) : Abides g (request self) := by
  intro i key w hw
  have hrequested : (w.requested i key).Obeys g := hw.record fun _ _ h => by cases h
  rcases request_cases self i key w with
    ⟨hinj, h⟩ | ⟨_, _, h⟩ | ⟨e, hinj, hf, ⟨a, _, hslot, h⟩ | h⟩ <;> rw [h]
  · exact ⟨hrequested, fun hi => hi ▸ hg.injector key hinj⟩
  · exact hrequested
  · refine keeps_yielding (keeps_pure fun hi => ?_) _ hrequested
    subst hi
    exact hw.kept _ a hslot
  · have hentry : i = g.injector → g.registry.find? key = some e := by
      intro hi
      rw [← hw.registry, ← hi]
      exact hf
    have hconstruct : Keeps g (construct self i key e) fun x =>
        i = g.injector → g.Fills (.binding key.ident) x :=
      (keeps_construct ha hentry).imp fun x hx hi => hg.entry hinj (hentry hi) (hx hi)
    refine keeps_yielding (keeps_underConstruction ?_) _ hrequested
    split
    · exact keeps_kept hconstruct
    · exact hconstruct

theorem abides_resolveWithin (hg : g.Upheld) (d : Nat) : Abides g (resolveWithin d) := by
  induction d with
  | zero => exact fun _ _ => keeps_throw _
  | succ d ih => exact abides_request hg ih

end Resolution

namespace World

open Act

variable {g : Regime} {w v : World}

theorem abides_resolve (hg : g.Upheld) : Resolution.Abides g resolve :=
  fun i key w hw => Resolution.abides_resolveWithin hg w.capacity i key w hw

theorem Obeys.offer (hw : w.Obeys g) (b : Binding) (hv : (w.offer b).Inv) : (w.offer b).Obeys g := by
  have hsame : (w.offer b).injectors = w.injectors ∧ (w.offer b).events = w.events := by
    unfold World.offer
    split <;> exact ⟨rfl, rfl⟩
  have hoffers : ∀ k d, w.offers.get? k = some d → (w.offer b).offers.get? k = some d := by
    intro k d h
    unfold World.offer
    split
    · rename_i name d' _
      simp only [Table.offer]
      split
      · exact h
      · rename_i hnone
        rw [Table.get?_put_ne _ _ fun hk => by rw [hk, h] at hnone; contradiction]
        exact h
    · exact h
  have hobeys : Obeys g { w.offer b with offers := w.offers } := hw.congr hsame.1 rfl hsame.2
  exact ⟨hobeys.registry, fun k d h => hoffers k d (hw.offers k d h), hv.offers, hobeys.kept,
    hobeys.yielded⟩

theorem Next.obeys (hg : g.Upheld) (h : Next w v) (hw : w.Quiet) (ho : w.Obeys g)
    (hr : v.registry g.injector = g.registry) : v.Obeys g := by
  have hresolve := abides_resolve hg
  have hquiet := h.quiet hw
  cases h with
  | inject name hf hj =>
    refine ⟨hr, ho.offers, ho.typed, fun p x hslot => ?_, ho.yielded⟩
    rw [slot_addInjector hj] at hslot
    exact ho.kept p x hslot
  | offer b => exact ho.offer b hquiet.inv
  | fetch i req => exact (Resolution.keeps_serve hresolve i req).after ho
  | pull l => exact (Resolution.keeps_pull hresolve l).after ho
  | resolvePoints i ps => exact (Resolution.keeps_points hresolve i ps).after ho
  | arrange => exact ho.congr rfl rfl rfl

/-- What is handed out is handed out for a place that there is. -/
theorem Quiet.yielded_spot (hw : w.Quiet) {i : InjectorId} {p : Place} {x : Instance}
    (h : .yielded i p x ∈ w.events) : ∃ spot, (w.registry i).spot? p = some spot := by
  obtain ⟨later, earlier, hsplit⟩ := List.append_of_mem h
  obtain ⟨spot, hspot, _⟩ := hw.recorded.justified later _ earlier hsplit
  exact ⟨spot, hspot⟩

theorem Quiet.obeys_inject (hw : w.Quiet) {name : String} {j : Injector} (hj : j.cache = [])
    (hi : g.injector = w.injectors.length) (hr : j.registry = g.registry)
    (hoffers : ∀ k d, g.offers.get? k = some d → w.offers.get? k = some d) :
    (w.addInjector name j).Obeys g := by
  refine ⟨?_, hoffers, hw.inv.offers, fun p x h => ?_, fun p x h => ?_⟩
  · rw [registry, injector_addInjector, if_pos hi]
    exact hr
  · rw [slot_addInjector hj] at h
    exact absurd (lt_of_slot h) (hi ▸ Nat.lt_irrefl _)
  · obtain ⟨spot, hspot⟩ := hw.yielded_spot h
    exact absurd (lt_of_spot hspot) (hi ▸ Nat.lt_irrefl _)

theorem Next.registry_cases (h : Next w v) (hw : w.Quiet) (i : InjectorId) :
    v.registry i = w.registry i ∨
      ∃ name j, j.cache = [] ∧ i = w.injectors.length ∧ v = w.addInjector name j := by
  cases h with
  | @inject name j hf hj =>
    by_cases hi : i = w.injectors.length
    · exact .inr ⟨name, j, hj, hi, rfl⟩
    · left
      rw [World.registry, injector_addInjector, if_neg hi]
      rfl
  | offer b =>
    left
    unfold World.offer
    split <;> rfl
  | fetch i req => exact .inl ((settles_fetch hw.inv i req).path.registry _)
  | pull l => exact .inl ((settles_pull hw.inv l).path.registry _)
  | resolvePoints i ps => exact .inl ((settles_resolvePoints hw.inv i ps).path.registry _)
  | arrange => exact .inl rfl

theorem Later.obeys (hg : g.Upheld) (h : Later w v) (hw : w.Quiet) (ho : w.Obeys g)
    (hi : g.injector < w.injectors.length) : v.Obeys g := by
  induction h with
  | refl => exact ho
  | @tail u v hwu hs ih =>
    have hu := Later.quiet hwu hw
    have hv := Later.registry (hwu.tail hs) hw hi
    exact hs.obeys hg hu ih (hv.2.trans ho.registry)

/-- A law that a registry upholds by itself is obeyed wherever the registry is that of the injector. -/
theorem Reachable.obeys (hg : g.Upheld) (hw : w.Reachable) (hr : w.registry g.injector = g.registry)
    (hoffers : g.offers = []) : w.Obeys g := by
  have hnone : ∀ (w : World) k d, g.offers.get? k = some d → w.offers.get? k = some d := by
    intro w k d h
    rw [hoffers] at h
    contradiction
  induction hw with
  | refl =>
    refine ⟨hr, hnone _, fun t name d h => ?_, fun p x h => ?_, fun p x h => ?_⟩
    · contradiction
    · have := lt_of_slot h
      simp at this
    · contradiction
  | @tail u v hreach hs ih =>
    have hu := Reachable.quiet hreach
    rcases hs.registry_cases hu g.injector with hsame | ⟨name, j, hj, hi, rfl⟩
    · exact hs.obeys hg hu (ih (hsame.symm.trans hr)) hr
    · refine hu.obeys_inject hj hi ?_ (hnone u)
      rw [registry, injector_addInjector, if_pos hi] at hr
      exact hr

end World

end Wiring
