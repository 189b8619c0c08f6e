import Wiring.Proofs.Resolution.Reachable

/-!
How an action conducts itself while keys are under construction.

A resolution in the middle of others makes nothing for the keys on the stack: it does not run what makes
them, does not enter their routines, and leaves what is kept for them as it is. Requests it makes stand
above the stack that it found. What it makes is numbered on from what was made before. All of this is so of
every action and from every world, whatever constructors and providers do.
-/

set_option autoImplicit false

namespace Wiring

def Absent (fs : List Frame) (i : InjectorId) (k : Ident) : Prop :=
  ∀ f ∈ fs, f.injector = i → f.key.ident ≠ k

theorem Absent.mono {fs gs : List Frame} {i : InjectorId} {k : Ident} (h : Absent gs i k)
    (hs : fs ⊆ gs) : Absent fs i k := fun f hf => h f (hs hf)

theorem not_absent {fs : List Frame} {i : InjectorId} {key : Key} (h : ⟨i, key⟩ ∈ fs) :
    ¬ Absent fs i key.ident := fun habsent => habsent _ h rfl rfl

/-- The instance was made before the one of the given number, if it was made by a resolution at all. -/
def Instance.Before (n : Nat) (x : Instance) : Prop := ∀ k, x.id? = some (.made k) → k < n

theorem Instance.Before.mono {m n : Nat} {x : Instance} (h : x.Before m) (hmn : m ≤ n) : x.Before n :=
  fun k hk => Nat.lt_of_lt_of_le (h k hk) hmn

def Registry.Fixes (r : Registry) (o : Object) : Prop :=
  ∃ a e, r.at? a = some e ∧ Strategy.fixed o ∈ e.strategies

theorem Registry.fixes_of_contribution {r : Registry} {a : Ident} {g : Aggregate} {n : Nat}
    {c : Contribution} (hg : r.at? a = some (.aggregate g)) (hc : g.contributions[n]? = some c) :
    ∀ o, c.binding.strategy = .fixed o → r.Fixes o := fun _ ho =>
  ⟨a, _, hg, List.mem_map.mpr ⟨c, List.mem_of_getElem? hc, ho⟩⟩

/-- What actions are kept to: what is bound, keys that nothing is made for, keys whose routines are not
entered, and whether instances are numbered on. -/
structure Guard where
  registry : InjectorId → Registry
  made : List Frame
  entered : List Frame
  counts : Prop

namespace Event

/-- Nothing was done that the guard forbids. What is kept may be handed out. -/
def Respects (g : Guard) : Event → Prop
  | requested .. => True
  | produced i p _ | acquired i p _ | stored i p _ => Absent g.made i p.key
  | entered i key => Absent g.entered i key.ident
  | assembled i k => Absent g.made i k
  | yielded i (.element k _) _ => Absent g.made i k
  | yielded _ (.binding _) _ => True

def Above (fs : List Frame) : Event → Prop
  | requested _ _ frames _ => fs <:+ frames
  | _ => True

theorem Above.mono {fs gs : List Frame} {e : Event} (h : e.Above gs) (hs : fs <:+ gs) : e.Above fs := by
  cases e with
  | requested i key frames caches => exact hs.trans h
  | _ => trivial

end Event

namespace World

variable {w v u : World} {i j : InjectorId} {p q : Place} {x y : Instance} {g : Guard}
  {fs : List Frame}

inductive Knows (w : World) : Instance → Prop where
  | yielded {i : InjectorId} {p : Place} {x : Instance} : .yielded i p x ∈ w.events → Knows w x
  | kept {i : InjectorId} {p : Place} {x : Instance} : w.slot i p = some (.ready x) → Knows w x

def Binds (w : World) (x : Instance) : Prop := ∃ i o, (w.registry i).Fixes o ∧ x = .object o

theorem Binds.congr (h : w.Binds x) (hr : v.registry = w.registry) : v.Binds x := by
  obtain ⟨i, o, ho, hx⟩ := h
  exact ⟨i, o, by rwa [hr], hx⟩

/-- All instances that there are, apart from those that are bound, were made before the next one. -/
def Numbered (w : World) : Prop := ∀ x, w.Knows x → x.Before w.made ∨ w.Binds x

theorem Numbered.of_knows (hw : w.Numbered) (hr : v.registry = w.registry) (hm : w.made ≤ v.made)
    (h : ∀ x, v.Knows x → w.Knows x ∨ (x.Before v.made ∨ v.Binds x)) : v.Numbered := by
  intro x hx
  rcases h x hx with hold | hnew
  · exact (hw x hold).imp (·.mono hm) (·.congr hr)
  · exact hnew

theorem Knows.congr (h : v.Knows x) (hs : v.slot = w.slot)
    (he : ∀ i p x, .yielded i p x ∈ v.events → .yielded i p x ∈ w.events) : w.Knows x := by
  cases h with
  | yielded h => exact .yielded (he _ _ _ h)
  | kept h => exact .kept (hs ▸ h)

theorem Knows.of_record {e : Event} (h : (w.record e).Knows x) :
    w.Knows x ∨ ∃ i p, e = .yielded i p x := by
  cases h with
  | yielded h =>
    rcases List.mem_cons.mp h with h | h
    · exact .inr ⟨_, _, h.symm⟩
    · exact .inl (.yielded h)
  | kept h => exact .inl (.kept h)

theorem slot_withCache_of_ne {f : Cache → Cache}
    (hf : ∀ (c : Cache) (q : Place), p ≠ q → (f c).get? q = c.get? q) (hne : ¬ (i = j ∧ p = q)) :
    (w.withCache i f).slot j q = w.slot j q := by
  rw [slot_withCache]
  split
  · rename_i h
    rw [hf _ _ fun hpq => hne ⟨h.1, hpq⟩]
    rfl
  · rfl

/-- The one world comes of the other in the way that a guarded action goes about it, with all requests made
from the stack or from above it. -/
structure Conduct (g : Guard) (fs : List Frame) (w v : World) : Prop where
  registry : v.registry = w.registry
  frames : v.frames = w.frames
  made : w.made ≤ v.made
  slots : ∀ j q, ¬ Absent g.made j q.key → v.slot j q = w.slot j q
  events : ∃ new, v.events = new ++ w.events ∧ ∀ e ∈ new, e.Respects g ∧ e.Above fs
  numbered : g.counts → w.Numbered → v.Numbered

structure Guarded (w : World) (g : Guard) : Prop where
  registry : w.registry = g.registry
  made : g.made ⊆ w.frames
  entered : g.entered ⊆ w.frames
  counts : g.counts → w.Numbered

theorem Conduct.refl (g : Guard) (fs : List Frame) (w : World) : Conduct g fs w w :=
  ⟨rfl, rfl, Nat.le_refl _, fun _ _ _ => rfl, ⟨[], rfl, by simp⟩, fun _ => id⟩

theorem Conduct.trans (h : Conduct g fs w v) (h' : Conduct g fs v u) : Conduct g fs w u := by
  obtain ⟨old, hold, hpast⟩ := h.events
  obtain ⟨new, hnew, hrecent⟩ := h'.events
  refine ⟨h'.registry.trans h.registry, h'.frames.trans h.frames, Nat.le_trans h.made h'.made,
    fun j q hq => (h'.slots j q hq).trans (h.slots j q hq), ⟨new ++ old, ?_, ?_⟩,
    fun hc hw => h'.numbered hc (h.numbered hc hw)⟩
  · rw [hnew, hold, List.append_assoc]
  · exact fun e he => (List.mem_append.mp he).elim (hrecent e) (hpast e)

theorem Conduct.lower {gs : List Frame} (h : Conduct g gs w v) (hs : fs <:+ gs) : Conduct g fs w v := by
  obtain ⟨new, hnew, hall⟩ := h.events
  exact ⟨h.registry, h.frames, h.made, h.slots, ⟨new, hnew, fun e he =>
    ⟨(hall e he).1, (hall e he).2.mono hs⟩⟩, h.numbered⟩

theorem Conduct.guarded (h : Conduct g fs w v) (hw : w.Guarded g) : v.Guarded g :=
  ⟨h.registry.trans hw.registry, h.frames ▸ hw.made, h.frames ▸ hw.entered,
    fun hc => h.numbered hc (hw.counts hc)⟩

theorem Conduct.record {e : Event} (hg : e.Respects g) (ha : e.Above fs)
    (hx : ∀ i p x, e = .yielded i p x → g.counts → x.Before w.made ∨ w.Binds x) :
    Conduct g fs w (w.record e) := by
  refine ⟨rfl, rfl, Nat.le_refl _, fun _ _ _ => rfl, ⟨[e], rfl, by simp [hg, ha]⟩,
    fun hc hw => ?_⟩
  refine hw.of_knows rfl (Nat.le_refl _) fun x hk => ?_
  refine hk.of_record.imp_right ?_
  rintro ⟨i, p, rfl⟩
  exact hx i p x rfl hc

theorem Conduct.withCache {f : Cache → Cache} (hp : Absent g.made i p.key)
    (hf : ∀ (c : Cache) (q : Place), p ≠ q → (f c).get? q = c.get? q)
    (hready : ∀ y, (f (w.cache i)).get? p = some (.ready y) →
      w.slot i p = some (.ready y) ∨ (g.counts → y.Before w.made ∨ w.Binds y)) :
    Conduct g fs w (w.withCache i f) := by
  have hother : ∀ j q, ¬ (i = j ∧ p = q) → (w.withCache i f).slot j q = w.slot j q :=
    fun j q hne => slot_withCache_of_ne hf hne
  have hreg : (w.withCache i f).registry = w.registry := funext (registry_withCache w i f)
  refine ⟨hreg, rfl, Nat.le_refl _, fun j q hq => ?_, ⟨[], rfl, by simp⟩, fun hc hw => ?_⟩
  · refine hother j q ?_
    rintro ⟨rfl, rfl⟩
    exact hq hp
  · refine hw.of_knows hreg (Nat.le_refl _) fun x hk => ?_
    cases hk with
    | yielded h => exact .inl (.yielded h)
    | @kept j q _ h =>
      by_cases heq : i = j ∧ p = q
      · obtain ⟨rfl, rfl⟩ := heq
        rw [slot_withCache] at h
        split at h
        · exact (hready x h).imp .kept fun hx => (hx hc).imp_right (·.congr hreg)
        · exact .inl (.kept h)
      · rw [hother j q heq] at h
        exact .inl (.kept h)

def guard (w : World) : Guard := ⟨w.registry, w.frames, w.frames, w.Numbered⟩

theorem guarded_self (w : World) : w.Guarded w.guard :=
  ⟨rfl, List.Subset.refl _, List.Subset.refl _, id⟩

def unguarded (w : World) : Guard := ⟨w.registry, [], [], w.Numbered⟩

theorem guarded_unguarded (w : World) : w.Guarded w.unguarded :=
  ⟨rfl, List.nil_subset _, List.nil_subset _, id⟩

theorem absent_unguarded (w : World) (i : InjectorId) (k : Ident) :
    Absent w.unguarded.made i k ∧ Absent w.unguarded.entered i k :=
  ⟨fun _ hf => absurd hf List.not_mem_nil, fun _ hf => absurd hf List.not_mem_nil⟩

end World

namespace Act

open World

variable {α β : Type} {g : Guard} {fs gs : List Frame} {w v : World} {x : Act α}
  {Q : α → World → Prop}

def Conducted (g : Guard) (fs : List Frame) (w : World) (Q : α → World → Prop) :
    EStateM.Result Stop World α → Prop
  | .ok a v => Conduct g fs w v ∧ Q a v
  | .error _ v => Conduct g fs w v

/-- An action that keeps to what it is guarded by, from every world. -/
def Conducts (g : Guard) (x : Act α) (Q : α → World → Prop) : Prop :=
  ∀ w : World, w.Guarded g → Conducted g w.frames w Q (x w)

theorem Conducted.of_conduct {r : EStateM.Result Stop World α} (h : Conduct g fs w v)
    (hr : Conducted g fs v Q r) : Conducted g fs w Q r := by
  cases r with
  | ok a u => exact ⟨h.trans hr.1, hr.2⟩
  | error stop u => exact h.trans hr

theorem Conducted.lower {r : EStateM.Result Stop World α} (h : Conducted g gs w Q r)
    (hs : fs <:+ gs) : Conducted g fs w Q r := by
  cases r with
  | ok a u => exact ⟨h.1.lower hs, h.2⟩
  | error stop u => exact World.Conduct.lower h hs

theorem Conducted.left_behind (h : Conducted g fs w Q (x v)) : Conduct g fs w (v.after x) := by
  unfold World.after
  generalize x v = r at h
  cases r with
  | ok a u => exact h.1
  | error stop u => exact h

theorem Conducts.bind {f : α → Act β} {R : β → World → Prop} (h : Conducts g x Q)
    (hf : ∀ a v, Q a v → Conducts g (f a) R) : Conducts g (x >>= f) R := by
  intro w hw
  have hx := h w hw
  change Conducted g w.frames w R (EStateM.bind x f w)
  simp only [EStateM.bind]
  generalize x w = r at hx ⊢
  cases r with
  | error stop v => exact hx
  | ok a v =>
    have hrest := hf a v hx.2 v (hx.1.guarded hw)
    rw [hx.1.frames] at hrest
    exact hrest.of_conduct hx.1

theorem conducts_pure {a : α} (h : ∀ w : World, w.Guarded g → Q a w) : Conducts g (pure a) Q :=
  fun w hw => ⟨.refl g _ w, h w hw⟩

theorem conducts_throw (stop : Stop) : Conducts g (throw stop : Act α) Q :=
  fun w _ => World.Conduct.refl g _ w

theorem conducts_record {e : Event} (hg : e.Respects g) (ha : ∀ fs, e.Above fs)
    (hx : ∀ i p x, e ≠ .yielded i p x) : Conducts g (record e) fun _ _ => True :=
  fun _ _ => ⟨.record hg (ha _) fun i p x h => absurd h (hx i p x), trivial⟩

theorem conducts_note (n : Note) : Conducts g (modify fun w => w.note n) fun _ _ => True :=
  fun w _ => ⟨⟨rfl, rfl, Nat.le_refl _, fun _ _ _ => rfl, ⟨[], rfl, by simp⟩, fun _ hw =>
    hw.of_knows rfl (Nat.le_refl _) fun _ hk => .inl (hk.congr rfl fun _ _ _ h => h)⟩, trivial⟩

theorem conducts_count (tally : Nat) : Conducts g (count tally) fun _ _ => True :=
  fun w _ => ⟨⟨rfl, rfl, Nat.le_refl _, fun _ _ _ => rfl, ⟨[], rfl, by simp⟩, fun _ hw =>
    hw.of_knows rfl (Nat.le_refl _) fun _ hk => .inl (hk.congr rfl fun _ _ _ h => h)⟩, trivial⟩

theorem conducts_fresh : Conducts g fresh fun a v => ∃ n, a = .made n ∧ n < v.made :=
  fun w _ => ⟨⟨rfl, rfl, Nat.le_succ _, fun _ _ _ => rfl, ⟨[], rfl, by simp⟩, fun _ hw =>
    hw.of_knows rfl (Nat.le_succ _) fun _ hk => .inl (hk.congr rfl fun _ _ _ h => h)⟩,
    w.made, rfl, Nat.lt_succ_self _⟩

theorem conducts_look (f : World → α) : Conducts g (look f) fun _ _ => True :=
  fun w _ => ⟨.refl g _ w, trivial⟩

theorem Conducts.imp {R : α → World → Prop} (h : Conducts g x Q) (hq : ∀ a v, Q a v → R a v) :
    Conducts g x R := by
  intro w hw
  have hx := h w hw
  generalize x w = r at hx ⊢
  cases r with
  | ok a v => exact ⟨hx.1, hq a v hx.2⟩
  | error stop v => exact hx

theorem Conducts.attempt (h : Conducts g x Q) : Conducts g (attempt x) fun _ _ => True := by
  intro w hw
  have hx := h w hw
  simp only [Act.attempt]
  generalize x w = r at hx ⊢
  cases r with
  | ok a v => exact ⟨hx.1, trivial⟩
  | error stop v =>
    cases stop with
    | error e => exact ⟨hx, trivial⟩
    | _ => exact hx

end Act

namespace Resolution

open World Act

def Dated (g : Guard) (x : Instance) (v : World) : Prop := g.counts → x.Before v.made ∨ v.Binds x

def Discreet (registry : InjectorId → Registry) (self : Resolver) : Prop :=
  ∀ g : Guard, g.registry = registry → ∀ i key, Conducts g (self i key) (Dated g)

variable {g : Guard} {self : Resolver} {i : InjectorId} {key : Key} {p : Place} {x : Act Instance}
  {fs : List Frame} {w : World}

theorem dated_of_knows {a : Instance} (hw : w.Guarded g) (h : w.Knows a) : Dated g a w :=
  fun hc => hw.counts hc a h

def discretion (g : Guard) : Judgement where
  Asks _ := True
  Law _ _ _ := True
  Shares _ _ := True
  Offers _ _ _ := True
  Notes e := e.Respects g ∧ (∀ fs, e.Above fs) ∧ ∀ i p x, e ≠ .yielded i p x
  Holds x _ Q := Conducts g x fun a _ => Q a
  holds_pure h := conducts_pure fun _ _ => h
  holds_refuse _ := conducts_throw _
  holds_panic _ := conducts_throw _
  holds_bind h hf := h.bind fun a _ ha => hf a ha
  holds_attempt := Conducts.attempt
  holds_live _ := conducts_look _
  holds_named _ := conducts_look _
  holds_shared _ := conducts_look _
  holds_count := conducts_count
  holds_note := conducts_note
  holds_fresh := conducts_fresh.imp fun _ _ _ => trivial
  holds_record h := conducts_record h.1 h.2.1 h.2.2

theorem Discreet.resolves (hs : Discreet g.registry self) : (discretion g).Resolves self self :=
  fun i key _ => (hs g rfl i key).imp fun _ _ _ => trivial

theorem conducts_points (hs : Discreet g.registry self) (i : InjectorId) (ps : List Point) :
    Conducts g (points self i ps) fun _ _ => True :=
  Conducts.imp (Judgement.holds_points hs.resolves trivial ps) fun _ _ _ => trivial

theorem conducts_run (hs : Discreet g.registry self) {t : TypeId} (wrap : Cause → ResolveError)
    (body : Routine t) : Conducts g (run self wrap body) fun _ _ => True :=
  Conducts.imp (Judgement.holds_run hs.resolves wrap body.confined_univ) fun _ _ _ => trivial

theorem conducts_make (hs : Discreet g.registry self) (hentered : Absent g.entered i key.ident)
    {t : TypeId} (wrap : Cause → ResolveError) (body : Routine t) :
    Conducts g (make self i key wrap body) (Dated g) := by
  refine (conducts_record (e := .entered i key) hentered (fun _ => trivial)
    fun _ _ _ h => by cases h).bind fun _ _ _ => ?_
  refine (conducts_run hs wrap body).bind fun draft _ _ => ?_
  intro w hw
  refine ⟨(conducts_fresh w hw).1, fun _ => .inl fun k hk => ?_⟩
  cases hk
  exact Nat.lt_succ_self _

theorem conducts_produce (hs : Discreet g.registry self) (hentered : Absent g.entered i key.ident)
    {s : Strategy} (hfixed : ∀ o, s = .fixed o → (g.registry i).Fixes o) :
    Conducts g (produce self i key s) (Dated g) := by
  cases s with
  | construct t ps body =>
    exact (conducts_points hs i ps).bind fun held _ _ => conducts_make hs hentered _ (body held)
  | fixed o =>
    exact conducts_pure fun w hw _ => .inr ⟨i, o, hw.registry ▸ hfixed o rfl, rfl⟩
  | shared name d =>
    refine fun w _ => ⟨.refl g _ w, fun _ => .inl fun k hk => ?_⟩
    simp [Instance.id?] at hk
  | providerType t name ps body =>
    exact (conducts_points hs i ps).bind fun held _ _ => conducts_make hs hentered _ (body held)
  | provider t name body => exact conducts_make hs hentered _ body
  | «alias» target => exact hs g rfl i target

theorem yielding_conducted (hp : ∀ a, (Event.yielded i p a).Respects g)
    (hx : Conducted g fs w (Dated g) (x w)) : Conducted g fs w (Dated g) (yielding i p x w) := by
  change Conducted g fs w (Dated g) (EStateM.bind x _ w)
  simp only [EStateM.bind]
  generalize x w = r at hx ⊢
  cases r with
  | error stop v => exact hx
  | ok a v =>
    refine ⟨hx.1.trans (.record (hp a) trivial ?_), hx.2⟩
    rintro j q b heq
    cases heq
    exact hx.2

theorem conducts_kept (hp : Absent g.made i p.key) (hx : Conducts g x (Dated g)) :
    Conducts g (kept i p x) (Dated g) := by
  intro w hw
  have hacquired : ∀ found, Conduct g w.frames w (w.record (.acquired i p found)) :=
    fun found => .record hp trivial fun _ _ _ h => by cases h
  have hreserve : Conduct g w.frames w
      ((w.record (.acquired i p .vacant)).withCache i fun c => c.reserve p) := by
    refine (hacquired .vacant).trans (.withCache hp (fun c q hpq => ?_) fun y hy => ?_)
    · rw [Cache.get?_reserve, if_neg hpq]
    · exact .inl (Cache.ready_of_reserve hy)
  have hmade := hx _ (hreserve.guarded hw)
  rcases kept_cases i p x w with
    ⟨a, hslot, h⟩ | ⟨_, h⟩ | ⟨_, ⟨a, v, hrun, h⟩ | ⟨stop, v, hrun, h⟩⟩ <;> rw [h]
  · exact ⟨hacquired _, fun hc => hw.counts hc a (.kept hslot)⟩
  · exact hacquired _
  · rw [hrun] at hmade
    have hfulfill : Conduct g w.frames v (v.withCache i fun c => (c.fulfill p a).release p) := by
      refine .withCache hp (fun c q hpq => ?_) fun y hy => ?_
      · rw [Cache.get?_release, if_neg fun h => hpq h.1, Cache.get?_fulfill, if_neg hpq]
      · rcases Cache.ready_of_fulfill hy with ⟨_, rfl⟩ | hold
        · exact .inr hmade.2
        · exact .inl hold
    have hstored : Conduct g w.frames v
        ((v.withCache i fun c => (c.fulfill p a).release p).record (.stored i p a)) :=
      hfulfill.trans (.record hp trivial fun _ _ _ h => by cases h)
    exact ⟨hreserve.trans (hmade.1.trans hstored),
      fun hc => (hmade.2 hc).imp_right (·.congr hstored.registry)⟩
  · rw [hrun] at hmade
    refine hreserve.trans (World.Conduct.trans hmade (.withCache hp (fun c q hpq => ?_) fun y hy => ?_))
    · rw [Cache.get?_release, if_neg fun h => hpq h.1]
    · exact .inl (Cache.ready_of_release hy)

/-- Whatever is requested in a construction is requested from above the frame of its key. -/
theorem underConstruction_conducted {limit : Nat} (hw : w.Guarded g)
    (hx : Absent g.made i key.ident → Absent g.entered i key.ident → Conducts g x (Dated g)) :
    Conducted g (⟨i, key⟩ :: w.frames) w (Dated g) (underConstruction i key limit x w) := by
  rcases underConstruction_cases i key limit x w with ⟨_, h⟩ | ⟨habsent, ⟨_, h⟩ | ⟨_, hrun⟩⟩
  · rw [h]
    exact World.Conduct.refl g _ w
  · rw [h]
    exact World.Conduct.refl g _ w
  · have hknows : ∀ {fs : List Frame} {u : World} {a : Instance},
        World.Knows { u with frames := fs } a → u.Knows a :=
      fun hk => hk.congr rfl fun _ _ _ h => h
    have hunder : (w.under i key).Guarded g :=
      ⟨hw.registry, fun f hf => List.mem_cons_of_mem _ (hw.made hf),
        fun f hf => List.mem_cons_of_mem _ (hw.entered hf),
        fun hc => (hw.counts hc).of_knows rfl (Nat.le_refl _) fun _ hk => .inl (hknows hk)⟩
    have habsent : Absent w.frames i key.ident := habsent
    have hmade := hx (habsent.mono hw.made) (habsent.mono hw.entered) _ hunder
    have finish : ∀ {v : World}, Conduct g (⟨i, key⟩ :: w.frames) (w.under i key) v →
        Conduct g (⟨i, key⟩ :: w.frames) w { v with frames := v.frames.tail } := by
      intro v hv
      refine ⟨hv.registry, by rw [hv.frames]; rfl, hv.made, hv.slots, hv.events, fun hc hn => ?_⟩
      have hv' := hv.numbered hc (hunder.counts hc)
      exact hv'.of_knows rfl (Nat.le_refl _) fun _ hk => .inl (hknows hk)
    rcases hrun with ⟨a, v, hrun, h⟩ | ⟨stop, v, hrun, h⟩ <;> rw [h] <;> rw [hrun] at hmade
    · exact ⟨finish hmade.1, hmade.2⟩
    · exact finish hmade

theorem conducts_element (hs : Discreet g.registry self) (hmade : Absent g.made i key.ident)
    (hentered : Absent g.entered i key.ident) {c : Contribution}
    (hfixed : ∀ o, c.binding.strategy = .fixed o → (g.registry i).Fixes o) (index : Nat) :
    Conducts g (element self i key index c) (Dated g) := by
  have hproduce : Conducts g (do
      Act.record (.produced i (.element key.ident index) c.source)
      produce self i key c.binding.strategy) (Dated g) :=
    (conducts_record (e := .produced i (.element key.ident index) c.source) hmade
      (fun _ => trivial) fun _ _ _ h => by cases h).bind fun _ _ _ => conducts_produce hs hentered hfixed
  intro w hw
  refine yielding_conducted (fun a => hmade) ?_
  split
  · exact conducts_kept hmade hproduce w hw
  · exact hproduce w hw

theorem conducts_construct (hs : Discreet g.registry self) (hmade : Absent g.made i key.ident)
    (hentered : Absent g.entered i key.ident) {e : Entry}
    (he : (g.registry i).at? key.ident = some e) :
    Conducts g (construct self i key e) (Dated g) := by
  cases e with
  | binding c =>
    refine (conducts_record (e := .produced i (.binding key.ident) c.source) hmade (fun _ => trivial)
      fun _ _ _ h => by cases h).bind fun _ _ _ => conducts_produce hs hentered fun o ho => ?_
    exact ⟨key.ident, _, he, ho ▸ List.mem_singleton_self _⟩
  | aggregate a =>
    have hall : (discretion g).Holds (elements self i key 0 a.contributions)
        (elements self i key 0 a.contributions) _ :=
      Judgement.holds_elements (P := fun _ _ => True) fun n c hc =>
        (conducts_element hs hmade hentered (Registry.fixes_of_contribution he hc) (0 + n)).imp
          fun _ _ _ => trivial
    refine Conducts.bind hall fun es _ _ => ?_
    refine Conducts.bind ((discretion g).holds_ofExcept (a.assemble key es)) fun items _ _ => ?_
    refine (conducts_record (e := .assembled i key.ident) hmade (fun _ => trivial)
      fun _ _ _ h => by cases h).bind fun _ _ _ w hw => ?_
    refine ⟨(conducts_fresh w hw).1, fun _ => .inl fun k hk => ?_⟩
    cases hk
    exact Nat.lt_succ_self _

/-- After a request is noted, whatever else is requested on its behalf is requested from above its key. -/
theorem request_conducted (hs : Discreet g.registry self) (hw : w.Guarded g) (i : InjectorId)
    (key : Key) : Conducted g (⟨i, key⟩ :: w.frames) (w.requested i key) (Dated g)
      (request self i key w) := by
  have hrequested : (w.requested i key).Guarded g := ⟨hw.registry, hw.made, hw.entered, fun hc =>
    (hw.counts hc).of_knows rfl (Nat.le_refl _) fun _ hk =>
      hk.of_record.imp_right fun ⟨_, _, h⟩ => by cases h⟩
  rcases request_cases self i key w with
    ⟨_, h⟩ | ⟨_, _, h⟩ | ⟨e, _, hf, ⟨a, _, hslot, h⟩ | h⟩ <;> rw [h]
  · exact ⟨.refl .., fun _ => .inl fun k hk => by cases hk⟩
  · exact World.Conduct.refl ..
  · exact yielding_conducted (fun _ => trivial) ⟨.refl .., dated_of_knows hrequested (.kept hslot)⟩
  · refine yielding_conducted (fun _ => trivial)
      (underConstruction_conducted hrequested fun hmade hentered => ?_)
    have hconstruct : Conducts g (construct self i key e) (Dated g) :=
      conducts_construct hs hmade hentered (hw.registry ▸ hf)
    split
    · exact conducts_kept hmade hconstruct
    · exact hconstruct

theorem discreet_request {registry : InjectorId → Registry} (hs : Discreet registry self) :
    Discreet registry (request self) := by
  rintro g rfl i key w hw
  have hrequested : Conduct g w.frames w (w.requested i key) :=
    .record trivial (List.suffix_refl _) fun _ _ _ h => by cases h
  exact ((request_conducted hs hw i key).lower (List.suffix_cons _ _)).of_conduct hrequested

theorem discreet_resolveWithin (registry : InjectorId → Registry) (d : Nat) :
    Discreet registry (resolveWithin d) := by
  induction d with
  | zero => exact fun g _ i key => conducts_throw _
  | succ d ih => exact discreet_request ih

end Resolution

namespace World

open Act Resolution

theorem discreet_resolve (registry : InjectorId → Registry) : Discreet registry resolve :=
  fun g hg i key w hw => discreet_resolveWithin registry w.capacity g hg i key w hw

theorem resolve_conducted {g : Guard} {w : World} (hw : w.Guarded g) (i : InjectorId) (key : Key) :
    Conducted g (⟨i, key⟩ :: w.frames) (w.requested i key) (Dated g) (resolve i key w) :=
  request_conducted (discreet_resolveWithin g.registry
    ((w.injectors.map fun j => j.registry.size).foldr (· + ·) 0)) hw i key

theorem Numbered.after {α : Type} {w : World} {x : Act α} {Q : α → World → Prop} (hw : w.Numbered)
    (hx : Conducts w.unguarded x Q) : (w.after x).Numbered :=
  (hx w w.guarded_unguarded).left_behind.numbered hw hw

theorem made_le_of_conducts {α : Type} {w v : World} {x : Act α} {a : α} {Q : α → World → Prop}
    (hx : Conducts w.unguarded x Q) (h : x w = .ok a v) : w.made ≤ v.made := by
  simpa only [World.after, h] using (hx w w.guarded_unguarded).left_behind.made

theorem Next.numbered {w v : World} (h : Next w v) (hw : w.Numbered) : v.Numbered := by
  have hresolve : (discretion w.unguarded).Resolves resolve resolve := (discreet_resolve _).resolves
  cases h with
  | @inject name j hf hj =>
    intro x hx
    have hold : w.Knows x := hx.congr (funext fun i => funext fun p => slot_addInjector hj i p)
      fun _ _ _ h => h
    refine (hw x hold).imp_right fun ⟨i, o, ho, hxo⟩ => ⟨i, o, ?_, hxo⟩
    obtain ⟨a, e, he, hm⟩ := ho
    rw [registry_addInjector (lt_of_bound he)]
    exact ⟨a, e, he, hm⟩
  | offer b =>
    unfold World.offer
    split <;> exact fun x hx => hw x (hx.congr rfl fun _ _ _ h => h)
  | fetch i req => exact hw.after (Judgement.holds_serve hresolve trivial req)
  | pull l => exact hw.after (Judgement.holds_pull hresolve trivial)
  | resolvePoints i ps => exact hw.after (Judgement.holds_points hresolve trivial ps)
  | arrange => exact fun x hx => hw x (hx.congr rfl fun _ _ _ h => h)

theorem Reachable.numbered {w : World} (hw : w.Reachable) : w.Numbered := by
  induction hw with
  | refl =>
    intro x hx
    cases hx with
    | yielded h => contradiction
    | kept h => exact absurd (lt_of_slot h) (Nat.not_lt_zero _)
  | tail _ hs ih => exact hs.numbered ih

end World

end Wiring
