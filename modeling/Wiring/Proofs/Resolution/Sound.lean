import Wiring.Proofs.Registry.Collections
import Wiring.Proofs.Resolution.Outcome
import Wiring.Proofs.Resolution.Traversal

/-!
Resolution is sound.

Every resolution comes to a good outcome, however requests nest, fail or panic. What it yields is of the
type of its key, all that the key depends on was resolved before, and the bound on nested requests is
never reached.
-/

set_option autoImplicit false

namespace Wiring

open Relation

namespace Registry

/-- A key that was resolved under `n` others: it is grounded and, if nothing is kept, no chain of
dependencies from it is longer than what the limit leaves. -/
def Reached (r : Registry) (n : Nat) (b : Ident) : Prop :=
  r.Grounded b ∧ (r.Unscoped → r.Within (r.config.maxDepth - n) b)

def Met (r : Registry) (n : Nat) (ds : List Dependency) : Prop :=
  ∀ b, Demands ds b → r.Reached n b

/-- An instance that a key may yield when it is requested under `n` others. -/
def Yields (r : Registry) (n : Nat) (key : Key) (a : Instance) : Prop :=
  a.type = key.type.id ∧ (key.isInjector = false → r.Reached n key.ident)

variable {r : Registry} {n : Nat} {ds es : List Dependency}

theorem met_nil : r.Met n [] := by
  rintro b ⟨d, hd, _⟩
  contradiction

theorem Met.append (h : r.Met n ds) (h' : r.Met n es) : r.Met n (ds ++ es) := by
  rintro b ⟨d, hd, hdb⟩
  rcases List.mem_append.mp hd with hd | hd
  · exact h b ⟨d, hd, hdb⟩
  · exact h' b ⟨d, hd, hdb⟩

theorem met_direct {key : Key} {a : Instance} (h : r.Yields n key a) :
    r.Met n [Dependency.direct key] := by
  rintro b ⟨d, hd, _, hinj, rfl⟩
  rw [List.mem_singleton.mp hd] at hinj ⊢
  exact h.2 hinj

theorem met_lazy (key : Key) : r.Met n [Dependency.lazy key] := by
  rintro b ⟨d, hd, hkind, _⟩
  rw [List.mem_singleton.mp hd] at hkind
  contradiction

theorem reached_of_met {a : Ident} {e : Entry} (ha : r.at? a = some e)
    (h : r.Met (n + 1) e.dependencies) (hn : n < r.config.maxDepth) : r.Reached n a := by
  refine ⟨.intro ha fun b hb => (h b hb).1, fun hu => ?_⟩
  obtain ⟨m, hm⟩ : ∃ m, r.config.maxDepth - n = m + 1 := ⟨r.config.maxDepth - n - 1, by omega⟩
  rw [hm]
  rintro b ⟨e', he', hb⟩
  cases ha.symm.trans he'
  have := (h b hb).2 hu
  rwa [show r.config.maxDepth - (n + 1) = m by omega] at this

theorem yields_of_met {key : Key} {e : Entry} {a : Instance} (he : r.at? key.ident = some e)
    (ht : a.type = key.type.id) (hmet : r.Met (n + 1) e.dependencies)
    (hn : n < r.config.maxDepth) : r.Yields n key a :=
  ⟨ht, fun _ => reached_of_met he hmet hn⟩

theorem Sustains.met {p : Place} {s : Spot} {a : Instance} (h : r.Sustains p a)
    (hs : r.spot? p = some s) (hcached : s.scope.isCached = true) :
    a.type = s.type ∧ r.Met n s.dependencies := by
  obtain ⟨s', hs', ht, hd⟩ := h
  cases hs.symm.trans hs'
  exact ⟨ht, fun b hb => ⟨hd b hb, fun hu => absurd ⟨s, hs, hcached⟩ (hu p)⟩⟩

theorem Sustains.yields {key : Key} {e : Entry} {a : Instance} (he : r.at? key.ident = some e)
    (hc : e.scope.isCached = true) (h : r.Sustains (.binding key.ident) a) : r.Yields n key a := by
  have hspot := spot?_binding he
  obtain ⟨ht, hmet⟩ := h.met (n := n) hspot hc
  exact ⟨ht, fun _ => ⟨.intro he fun b hb => (hmet b hb).1,
    fun hu => absurd ⟨_, hspot, hc⟩ (hu _)⟩⟩

theorem Met.sustains {p : Place} {s : Spot} {a : Instance} (h : r.Met n s.dependencies)
    (hs : r.spot? p = some s) (ht : a.type = s.type) : r.Sustains p a :=
  ⟨s, hs, ht, fun b hb => (h b hb).1⟩

end Registry

namespace World

variable {w v : World} {i : InjectorId}

/-- Where a request of an injector is made: under `n` keys, with `d` more to be nested at the most. -/
structure Site (d : Nat) (i : InjectorId) (r : Registry) (n : Nat) (w : World) : Prop where
  registry : w.registry i = r
  depth : (w.underConstruction i).length = n
  fuel : w.capacity ≤ d + w.frames.length

/-- Where the entry of a key is about to be made: with the key on top of the stack. -/
structure Entered (d : Nat) (i : InjectorId) (key : Key) (r : Registry) (n : Nat) (w : World) :
    Prop where
  site : w.Site d i r n
  top : ∃ rest, w.frames = ⟨i, key⟩ :: rest
  free : ∀ m, w.slot i (.element key.ident m) ≠ some .pending

/-- Where the entry of a key is made: its own place is reserved, if it is one that is kept. -/
structure Inside (d : Nat) (i : InjectorId) (key : Key) (r : Registry) (n : Nat) (w : World) : Prop
    extends Entered d i key r n w where
  own : w.Holds i key.ident

theorem capacity_congr (h : v.injectors.map (·.registry) = w.injectors.map (·.registry)) :
    v.capacity = w.capacity := by
  have := congrArg (List.map Registry.size) h
  simp only [List.map_map] at this
  exact congrArg (·.foldr (· + ·) 0 + 1) this

theorem site_self (w : World) (i : InjectorId) :
    w.Site w.capacity i (w.registry i) (w.underConstruction i).length :=
  ⟨rfl, rfl, Nat.le_add_right _ _⟩

theorem Site.congr {d : Nat} {r : Registry} {n : Nat} (hw : w.Site d i r n)
    (hi : v.injectors.map (·.registry) = w.injectors.map (·.registry))
    (hf : v.frames = w.frames) : v.Site d i r n := by
  refine ⟨(registry_congr hi i).trans hw.registry, ?_, ?_⟩
  · rw [underConstruction, hf]
    exact hw.depth
  · rw [hf, capacity_congr hi]
    exact hw.fuel

theorem stable_site {d : Nat} {r : Registry} {n : Nat} : Act.Stable (Site d i r n) :=
  fun _ _ h hw => hw.congr h.path.injectors h.frames

theorem Holds.settles {k : Ident} (hw : w.Holds i k) (h : w.Settles v) : v.Holds i k := by
  intro hk
  rw [h.path.registry] at hk
  exact (h.pending _ _).mpr (hw hk)

theorem stable_inside {d : Nat} {key : Key} {r : Registry} {n : Nat} :
    Act.Stable (Inside d i key r n) := by
  intro w v h hw
  refine ⟨⟨stable_site w v h hw.site, ?_, fun m hm => hw.free m ((h.pending _ _).mp hm)⟩,
    hw.own.settles h⟩
  rw [h.frames]
  exact hw.top

theorem Site.under {d : Nat} {key : Key} {r : Registry} {n : Nat} (hw : w.Site (d + 1) i r n)
    (hfree : ∀ p, p.key = key.ident → w.slot i p ≠ some .pending) :
    Entered d i key r (n + 1) (w.under i key) := by
  refine ⟨⟨hw.registry, ?_, ?_⟩, ⟨_, rfl⟩, fun m => hfree _ rfl⟩
  · simpa [underConstruction, World.under] using hw.depth
  · have := hw.fuel
    simp only [World.under, List.length_cons, capacity] at this ⊢
    omega

theorem Entered.reserve {d : Nat} {key : Key} {r : Registry} {n : Nat} {e : Entry}
    (hw : w.Entered d i key r n) (he : r.at? key.ident = some e) (hc : e.scope.isCached = true)
    (hvacant : w.slot i (.binding key.ident) = none) :
    Step w (w.reserved i (.binding key.ident) e.source?) ∧
      Inside d i key r n (w.reserved i (.binding key.ident) e.source?) := by
  have hspot := Registry.spot?_binding he
  rw [← hw.site.registry] at hspot
  obtain ⟨rest, htop⟩ := hw.top
  have hs : Step w (w.reserved i (.binding key.ident) e.source?) :=
    .reserve hspot hc htop rfl hvacant (.inl rfl)
  have hslots := slot_reserved (lt_of_spot hspot) (.binding key.ident) e.source?
  refine ⟨hs, ⟨hw.site.congr hs.injectors (frames_reserved ..), ?_, fun m hm => ?_⟩, fun _ => ?_⟩
  · rw [frames_reserved]
    exact hw.top
  · rw [hslots, if_neg (by simp)] at hm
    exact hw.free m hm
  · rw [hslots, if_pos ⟨rfl, rfl⟩]

theorem Entered.inside {d : Nat} {key : Key} {r : Registry} {n : Nat} {e : Entry}
    (hw : w.Entered d i key r n) (he : r.at? key.ident = some e) (hc : e.scope.isCached = false) :
    Inside d i key r n w := by
  refine ⟨hw, fun ⟨spot, hspot, hcached⟩ => ?_⟩
  rw [hw.site.registry, Registry.spot?_binding he] at hspot
  cases hspot
  rw [hc] at hcached
  contradiction

theorem Inside.reserve {d : Nat} {key : Key} {r : Registry} {n m : Nat} {spot : Spot}
    (hw : w.Inside d i key r n) (hspot : (w.registry i).spot? (.element key.ident m) = some spot)
    (hc : spot.scope.isCached = true) (hvacant : w.slot i (.element key.ident m) = none) :
    Step w (w.reserved i (.element key.ident m) spot.source?) ∧
      Site d i r n (w.reserved i (.element key.ident m) spot.source?) := by
  obtain ⟨rest, htop⟩ := hw.top
  have hs : Step w (w.reserved i (.element key.ident m) spot.source?) :=
    .reserve hspot hc htop rfl hvacant (.inr hw.own)
  exact ⟨hs, hw.site.congr hs.injectors (frames_reserved ..)⟩

def bindings (w : World) : List (InjectorId × Ident) :=
  w.injectors.zipIdx.flatMap fun (j, i) => j.registry.entries.entries.map fun e => (i, e.1.ident)

theorem length_bindings (w : World) : w.bindings.length + 1 = w.capacity := by
  have := congrArg (List.map fun j : Injector => j.registry.size) (List.zipIdx_map_fst 0 w.injectors)
  rw [List.map_map] at this
  simp only [bindings, List.length_flatMap, List.length_map, capacity, ← List.sum_eq_foldr]
  exact congrArg (·.sum + 1) this

theorem mem_bindings {k : Ident} {e : Entry} (h : (w.registry i).at? k = some e) :
    (i, k) ∈ w.bindings := by
  obtain ⟨key, hkey, rfl⟩ := KeyMap.exists_mem_of_at? h
  refine List.mem_flatMap.mpr ⟨(w.injector i, i), ?_, List.mem_map.mpr ⟨(key, e), hkey, rfl⟩⟩
  refine List.mem_zipIdx_iff_getElem?.mpr ?_
  simp [injector, List.getD_eq_getElem?_getD, lt_of_bound h]

/-- There are fewer keys under construction than there is room for. -/
theorem Inv.length_lt (hw : w.Inv) : w.frames.length < w.capacity := by
  have hsub : (w.frames.map fun f => (f.injector, f.key.ident)) ⊆ w.bindings := by
    intro x hx
    obtain ⟨f, hf, rfl⟩ := List.mem_map.mp hx
    obtain ⟨e, he⟩ := hw.bound f hf
    exact mem_bindings he
  have hle := (List.subperm_of_subset hw.distinct hsub).length_le
  rw [List.length_map] at hle
  rw [← length_bindings]
  exact Nat.lt_succ_of_le hle

end World

def Held.Fits (i : InjectorId) : Point → Held → Prop
  | .inject key _, .resolved a => a.type = key.type.id
  | .lazy key _, .lazy l => l = ⟨i, key, key.type.id⟩
  | .injector, .injector j => j = i
  | _, _ => False

namespace Resolution

open World

/-- A resolver that can be asked for nested requests, `d` deep at the most. -/
def Serves (d : Nat) (self : Resolver) : Prop :=
  ∀ i key r n, Act.Sound (Site d i r n) (self i key) fun a _ => r.Yields n key a

variable {d : Nat} {self : Resolver} {i : InjectorId} {r : Registry} {n : Nat}

def soundness (C : World → Prop) (hc : Act.Stable C) (law : InjectorId → Key → Instance → Prop) :
    Judgement where
  Asks _ := True
  Law := law
  Shares _ _ := True
  Offers _ d datum := datum.type = d.type
  Notes e := ∀ w : World, C w → w.Observes e
  Holds x _ Q := Act.Sound C x fun a _ => Q a
  holds_pure h := Act.sound_pure fun _ _ => h
  holds_refuse e := Act.sound_refuse e
  holds_panic text := Act.sound_panic text
  holds_bind h hf := Act.Sound.bind hc h fun a w hw hq => hf a hq.2 w hw hq.1
  holds_attempt h := h.attempt
  holds_live _ := fun w _ _ => ⟨Settles.refl w, trivial⟩
  holds_named _ := fun w _ _ => ⟨Settles.refl w, trivial⟩
  holds_shared _ := fun w hw _ => ⟨Settles.refl w, World.type_shared hw.offers _ _⟩
  holds_count tally := Act.sound_count tally
  holds_note n := Act.sound_note n
  holds_fresh := Act.sound_fresh
  holds_record h := Act.sound_record h

/-- The judgement of what an injector does under `n` keys. -/
def soundAt (d : Nat) (i : InjectorId) (r : Registry) (n : Nat) : Judgement :=
  soundness (Site d i r n) stable_site fun j key a => j = i → r.Yields n key a

def soundInside (d : Nat) (i : InjectorId) (key : Key) (r : Registry) (n : Nat) : Judgement :=
  soundness (Inside d i key r n) stable_inside fun _ _ _ => True

theorem resolves_soundAt (hs : Serves d self) : (soundAt d i r n).Resolves self self := by
  intro j key _ w hw hsite
  refine (hs j key _ _ w hw ⟨rfl, rfl, hsite.fuel⟩).imp fun a _ _ ha hj => ?_
  subst hj
  rw [hsite.registry, hsite.depth] at ha
  exact ha

theorem admits_soundAt (s : Strategy) : (soundAt d i r n).Admits s :=
  ⟨s.confined_univ, fun _ _ _ => trivial⟩

theorem sound_serve (hs : Serves d self) (j : InjectorId) (req : Request) :
    Act.Sound (Site d i r n) (serve self j req) fun a _ =>
      a.type = req.expected ∧ (j = i → r.Yields n req.key a) :=
  Judgement.holds_serve (resolves_soundAt hs) trivial req

theorem sound_pull (hs : Serves d self) (l : Lazy) :
    Act.Sound (Site d i r n) (pull self l) fun _ _ => True :=
  Judgement.holds_pull (resolves_soundAt hs) trivial

theorem fits_of_given {p : Point} {h : Held}
    (hg : h.Given (fun key a => i = i → r.Yields n key a) i p) :
    h.Fits i p ∧ r.Met n p.dependency?.toList := by
  cases p <;> cases h <;> first | exact hg.elim | skip
  · exact ⟨hg.1, Registry.met_direct (hg.2 rfl)⟩
  · exact ⟨hg, Registry.met_lazy _⟩
  · exact ⟨hg, Registry.met_nil⟩

theorem forall_fits_of_given {ps : List Point} {held : List Held}
    (hg : List.Forall₂ (Held.Given (fun key a => i = i → r.Yields n key a) i) ps held) :
    List.Forall₂ (Held.Fits i) ps held ∧ r.Met n (ps.filterMap Point.dependency?) := by
  induction hg with
  | nil => exact ⟨.nil, Registry.met_nil⟩
  | @cons p h rest held hh _ ih =>
    obtain ⟨hfits, hmet⟩ := fits_of_given hh
    have hdeps : (p :: rest).filterMap Point.dependency? =
        p.dependency?.toList ++ rest.filterMap Point.dependency? := by
      cases hd : p.dependency? <;> simp [hd]
    rw [hdeps]
    exact ⟨.cons hfits ih.1, hmet.append ih.2⟩

theorem sound_point (hs : Serves d self) (p : Point) :
    Act.Sound (Site d i r n) (point self i p) fun h _ =>
      Held.Fits i p h ∧ r.Met n p.dependency?.toList :=
  Judgement.holds_imp (Judgement.holds_point (resolves_soundAt hs) trivial p) fun _ => fits_of_given

theorem sound_points (hs : Serves d self) (ps : List Point) :
    Act.Sound (Site d i r n) (points self i ps) fun held _ =>
      List.Forall₂ (Held.Fits i) ps held ∧ r.Met n (ps.filterMap Point.dependency?) :=
  Judgement.holds_imp (Judgement.holds_points (resolves_soundAt hs) trivial ps) fun _ => forall_fits_of_given

theorem sound_run (hs : Serves d self) {t : TypeId} (wrap : Cause → ResolveError) (body : Routine t) :
    Act.Sound (Site d i r n) (run self wrap body) fun draft _ => body.MayMake draft :=
  Judgement.holds_run (resolves_soundAt hs) wrap body.confined_univ

theorem sound_produce (hs : Serves d self) (key : Key) (s : Strategy) :
    Act.Sound (Site d i r n) (produce self i key s) fun a _ =>
      a.type = s.provides.id ∧ r.Met n s.dependencies := by
  refine Judgement.holds_imp (Judgement.holds_produce (resolves_soundAt hs) trivial
    (fun _ _ => trivial) (admits_soundAt s)) fun a ha => ?_
  cases s with
  | construct t ps body =>
    obtain ⟨held, hheld, hdrafts⟩ := ha
    exact ⟨hdrafts.type, (forall_fits_of_given hheld).2⟩
  | fixed o =>
    cases ha
    exact ⟨rfl, Registry.met_nil⟩
  | shared name datum =>
    obtain ⟨found, hfound, rfl⟩ := ha
    exact ⟨congrArg TypeId.value hfound, Registry.met_nil⟩
  | providerType t name ps body =>
    obtain ⟨held, hheld, hdrafts⟩ := ha
    exact ⟨hdrafts.type, (forall_fits_of_given hheld).2⟩
  | provider t name body => exact ⟨Routine.Drafts.type ha, Registry.met_nil⟩
  | «alias» target => exact ⟨(ha rfl).1, Registry.met_direct (ha rfl)⟩

theorem yielding_good {w : World} {x : Act Instance} {p : Place} {spot : Spot} {Q : Instance → Prop}
    (hspot : (w.registry i).spot? p = some spot)
    (hx : w.Good (fun a v => Q a ∧ (spot.scope.isCached = true → v.slot i p = some (.ready a)))
      (x w)) : w.Good (fun a _ => Q a) (yielding i p x w) := by
  change w.Good _ (EStateM.bind x _ w)
  simp only [EStateM.bind]
  generalize x w = r at hx ⊢
  cases r with
  | error stop v => exact hx
  | ok a v =>
    obtain ⟨hv, hq, hready⟩ := hx
    rw [← hv.path.registry] at hspot
    exact ⟨hv.trans (Settles.observe ⟨spot, hspot, hready⟩), hq⟩

variable {key : Key} {g : Aggregate}

theorem sound_element (hs : Serves d self) (hg : r.at? key.ident = some (.aggregate g))
    {index : Nat} {c : Contribution} (hc : g.contributions[index]? = some c) :
    Act.Sound (Inside d i key r n) (element self i key index c) fun a _ =>
      Aggregate.Suits g.shape (c.mapKey, a) ∧ r.Met n c.binding.dependencies := by
  have hspot := Registry.spot?_element hg hc
  have hmem := List.mem_of_getElem? hc
  intro w hw hin
  have hr := hin.site.registry
  subst hr
  have htyped := hw.typed i
  have hkeyed := htyped.keyed hg c hmem
  have hproduce : Act.Sound (Site d i (w.registry i) n) (produce self i key c.binding.strategy)
      fun a _ => a.type = .value g.shape.element ∧ (w.registry i).Met n c.binding.dependencies :=
    fun v hv hsite => (sound_produce hs key c.binding.strategy v hv hsite).imp fun a _ _ ha =>
      ⟨ha.1.trans ((htyped.aggregate hg).2 c hmem), ha.2⟩
  refine yielding_good hspot ?_
  cases hscope : c.binding.effectiveScope.isCached with
  | true =>
    obtain ⟨rest, htop⟩ := hin.top
    refine (kept_good hw hspot hscope htop rfl (hin.free index) (.inr hin.own)
      (fun _ _ h => by cases h) fun hvacant => ?_).imp fun a v _ h => ?_
    · obtain ⟨hreserve, hsite⟩ := hin.reserve hspot hscope hvacant
      refine (hproduce _ (hreserve.inv hw) hsite).imp fun a _ _ ha => ?_
      exact ha.2.sustains hspot ha.1
    · obtain ⟨htype, hmet⟩ := h.2.met hspot hscope
      exact ⟨⟨⟨htype, hkeyed⟩, hmet⟩, fun _ => h.1⟩
  | false =>
    have hbegun : w.Settles (w.record (.produced i (.element key.ident index) c.source)) :=
      Settles.observe ⟨_, hspot, rfl, hscope⟩
    refine Good.of_settles hbegun ?_
    exact (hproduce _ (hbegun.inv hw) (hin.site.congr rfl rfl)).imp fun a _ _ ha =>
      ⟨⟨⟨ha.1, hkeyed⟩, ha.2⟩, by simp⟩

theorem sound_elements (hs : Serves d self) (hg : r.at? key.ident = some (.aggregate g))
    (cs : List Contribution) (index : Nat) (hcs : g.From index cs) :
    Act.Sound (Inside d i key r n) (elements self i key index cs) fun es _ =>
      (∀ x ∈ es, Aggregate.Suits g.shape x) ∧
        r.Met n (cs.flatMap fun c => c.binding.dependencies) := by
  have heach : (soundInside d i key r n).Holds (elements self i key index cs) (elements self i key index cs) _ :=
    Judgement.holds_elements (P := fun c a => Aggregate.Suits g.shape (c.mapKey, a) ∧
      r.Met n c.binding.dependencies) fun m c hc => sound_element hs hg (hcs m c hc)
  refine Judgement.holds_imp heach fun es hes => ?_
  clear hcs heach
  induction hes with
  | nil => exact ⟨by simp, Registry.met_nil⟩
  | @cons c e _ _ he _ ih =>
    obtain ⟨k, a⟩ := e
    obtain ⟨hkey, hsuits, hmet⟩ := he
    cases hkey
    exact ⟨List.forall_mem_cons.mpr ⟨hsuits, ih.1⟩, hmet.append ih.2⟩

/-- An aggregate that is kept is put together while its place is reserved. -/
theorem sound_aggregate (hs : Serves d self) (hg : r.at? key.ident = some (.aggregate g)) :
    Act.Sound (Inside d i key r n) (construct self i key (.aggregate g)) fun a _ =>
      a.type = .collection g.shape ∧ r.Met n g.dependencies := by
  have hassembled : ∀ w : World, Inside d i key r n w → w.Observes (.assembled i key.ident) := by
    intro w hw
    have hspot := Registry.spot?_binding hg
    rw [← hw.site.registry] at hspot
    exact ⟨_, hspot, fun hc => hw.own ⟨_, hspot, hc⟩⟩
  have hall : (soundInside d i key r n).Holds (elements self i key 0 g.contributions)
      (elements self i key 0 g.contributions) _ := sound_elements hs hg g.contributions 0 g.from_zero
  refine Judgement.holds_imp (Judgement.holds_aggregate hassembled hall) fun a ha => ?_
  obtain ⟨id, es, items, hes, _, rfl⟩ := ha
  exact ⟨rfl, hes.2⟩

section Request

variable {w : World}

theorem request_injector (h : key.isInjector = true) : request self i key w =
    .ok (.injector i) (w.requested i key) := by
  change (ite _ _ _ : Act Instance) _ = _
  rw [if_pos h]
  rfl

theorem request_unbound (h : key.isInjector = false) (hf : (w.registry i).find? key = none) :
    request self i key w = .error (.error (.unsatisfied key (w.requester i)))
      (w.requested i key) := by
  change (ite _ _ _ : Act Instance) _ = _
  rw [if_neg (by simp [h]), hf]
  rfl

theorem request_kept {e : Entry} (h : key.isInjector = false)
    (hf : (w.registry i).find? key = some e) (hc : e.scope.isCached = true) :
    request self i key w = yielding i (.binding key.ident)
      (match (w.cache i).ready? (.binding key.ident) with
        | some a => pure a
        | none => underConstruction i key (w.registry i).config.maxDepth
            (kept i (.binding key.ident) (construct self i key e)))
      (w.requested i key) := by
  change (ite _ _ _ : Act Instance) _ = _
  rw [if_neg (by simp [h]), hf]
  exact congrFun (congrArg (yielding i (.binding key.ident)) (if_pos hc)) _

theorem request_made {e : Entry} (h : key.isInjector = false)
    (hf : (w.registry i).find? key = some e) (hc : e.scope.isCached = false) :
    request self i key w = yielding i (.binding key.ident)
      (underConstruction i key (w.registry i).config.maxDepth (construct self i key e))
      (w.requested i key) := by
  change (ite _ _ _ : Act Instance) _ = _
  rw [if_neg (by simp [h]), hf]
  exact congrFun (congrArg (yielding i (.binding key.ident)) (if_neg (by simp [hc]))) _

theorem request_of_unkept {e : Entry} (h : key.isInjector = false)
    (hf : (w.registry i).find? key = some e)
    (hunkept : ∀ a, w.slot i (.binding key.ident) ≠ some (.ready a)) :
    request self i key w = yielding i (.binding key.ident)
      (underConstruction i key (w.registry i).config.maxDepth
        (if e.scope.isCached then kept i (.binding key.ident) (construct self i key e)
          else construct self i key e)) (w.requested i key) := by
  cases hc : e.scope.isCached with
  | true =>
    have hready : (w.cache i).ready? (.binding key.ident) = none :=
      Option.eq_none_iff_forall_ne_some.mpr fun a ha => hunkept a (ready?_eq_some.mp ha)
    rw [request_kept h hf hc, hready]
    rfl
  | false =>
    rw [request_made h hf hc]
    rfl

/-- How a request is dealt with: it is for the injector, nothing is bound, an instance is kept, or one is made. -/
theorem request_cases (self : Resolver) (i : InjectorId) (key : Key) (w : World) :
    (key.isInjector = true ∧ request self i key w = .ok (.injector i) (w.requested i key)) ∨
    (key.isInjector = false ∧ (w.registry i).find? key = none ∧
      request self i key w = .error (.error (.unsatisfied key (w.requester i))) (w.requested i key)) ∨
    ∃ e, key.isInjector = false ∧ (w.registry i).find? key = some e ∧
      ((∃ a, e.scope.isCached = true ∧ w.slot i (.binding key.ident) = some (.ready a) ∧
        request self i key w = yielding i (.binding key.ident) (pure a) (w.requested i key)) ∨
      request self i key w = yielding i (.binding key.ident)
        (underConstruction i key (w.registry i).config.maxDepth
          (if e.scope.isCached then kept i (.binding key.ident) (construct self i key e)
            else construct self i key e)) (w.requested i key)) := by
  cases hinj : key.isInjector with
  | true => exact .inl ⟨rfl, request_injector hinj⟩
  | false =>
    cases hf : (w.registry i).find? key with
    | none => exact .inr (.inl ⟨rfl, rfl, request_unbound hinj hf⟩)
    | some e =>
      refine .inr (.inr ⟨e, rfl, rfl, ?_⟩)
      cases hready : (w.cache i).ready? (.binding key.ident) with
      | none =>
        refine .inr (request_of_unkept hinj hf fun a ha => ?_)
        rw [ready?_eq_some.mpr ha] at hready
        contradiction
      | some a =>
        cases hc : e.scope.isCached with
        | true =>
          refine .inl ⟨a, rfl, ready?_eq_some.mp hready, ?_⟩
          rw [request_kept hinj hf hc, hready]
        | false =>
          rw [request_made hinj hf hc]
          exact .inr rfl

end Request

def fill (self : Resolver) (i : InjectorId) (key : Key) : Entry → Act Instance
  | .binding c => produce self i key c.binding.strategy
  | .aggregate g => construct self i key (.aggregate g)

theorem construct_eq_fill (self : Resolver) (i : InjectorId) (key : Key) (e : Entry) (w : World) :
    construct self i key e w =
      fill self i key e (w.begun i (.binding key.ident) e.source?) := by
  cases e <;> rfl

theorem sound_fill (hs : Serves d self) {e : Entry} (he : r.at? key.ident = some e) :
    Act.Sound (Inside d i key r n) (fill self i key e) fun a _ =>
      a.type = key.type.id ∧ r.Met n e.dependencies := by
  intro w hw hin
  have htyped := hw.typed i
  rw [hin.site.registry] at htyped
  cases e with
  | binding c =>
    refine (sound_produce hs key c.binding.strategy w hw hin.site).imp fun a _ _ ha => ?_
    exact ⟨ha.1.trans (htyped.binding he), ha.2⟩
  | aggregate g =>
    refine (sound_aggregate hs he w hw hin).imp fun a _ _ ha => ?_
    exact ⟨ha.1.trans (htyped.aggregate he).1.symm, ha.2⟩

theorem fill_reserved_good (hs : Serves d self) {e : Entry} (he : r.at? key.ident = some e)
    (hc : e.scope.isCached = true) {w : World} (hw : w.Inv) (hin : w.Entered d i key r n)
    (hvacant : w.slot i (.binding key.ident) = none) :
    Good (w.reserved i (.binding key.ident) e.source?)
      (fun a _ => r.Sustains (.binding key.ident) a)
      (fill self i key e (w.reserved i (.binding key.ident) e.source?)) := by
  obtain ⟨hreserve, hin'⟩ := hin.reserve he hc hvacant
  exact (sound_fill hs he _ (hreserve.inv hw) hin').imp
    fun a _ _ ha => ha.2.sustains (Registry.spot?_binding he) ha.1

theorem settles_begun {e : Entry} (he : r.at? key.ident = some e) (hc : e.scope.isCached = false)
    {w : World} (hr : w.registry i = r) :
    w.Settles (w.begun i (.binding key.ident) e.source?) := by
  have hspot := Registry.spot?_binding he
  rw [← hr] at hspot
  cases hsource : e.source? with
  | none => exact Settles.refl _
  | some s => exact Settles.observe ⟨_, hspot, hsource, hc⟩

theorem construct_good (hs : Serves d self) {e : Entry} (he : r.at? key.ident = some e)
    (hc : e.scope.isCached = false) {w : World} (hw : w.Inv) (hin : w.Entered d i key r n) :
    w.Good (fun a _ => a.type = key.type.id ∧ r.Met n e.dependencies)
      (construct self i key e w) := by
  have hbegun := settles_begun he hc hin.site.registry
  rw [construct_eq_fill]
  refine Good.of_settles hbegun ?_
  exact sound_fill hs he _ (hbegun.inv hw) (stable_inside _ _ hbegun (hin.inside he hc))

theorem serves_request (hs : Serves d self) : Serves (d + 1) (request self) := by
  intro i key r n w hw hsite
  have hr := hsite.registry
  subst hr
  have hrequested := settles_requested w i key
  have hrequestedSite := stable_site _ _ hrequested hsite
  rcases request_cases self i key w with
    ⟨hinj, h⟩ | ⟨hinj, hf, h⟩ | ⟨e, hinj, hf, ⟨a, hc, hslot, h⟩ | h⟩ <;> rw [h]
  · have ht : key.type.id = .injector := by simpa [Key.isInjector] using hinj
    exact ⟨hrequested, ht.symm, by simp [hinj]⟩
  · exact ⟨hrequested, trivial⟩
  · refine Good.of_settles hrequested (yielding_good (Registry.spot?_binding hf) ?_)
    exact ⟨Settles.refl _, (hw.ready i _ a hslot).yields hf hc, fun _ => hslot⟩
  · have hspot := Registry.spot?_binding hf
    refine Good.of_settles hrequested (yielding_good hspot ?_)
    refine underConstruction_good (hrequested.inv hw) hf hinj (Nat.le_refl _)
      (fun a v fs h => h) fun hvacant hn hinv => ?_
    cases hc : e.scope.isCached with
    | true =>
      refine (kept_good hinv hspot hc rfl rfl (hvacant _ rfl) (.inl rfl)
        (fun k m hk => hvacant _ (Place.binding.inj hk).symm) fun hslot => ?_).imp
          fun a v _ h => ⟨h.2.yields hf hc, fun _ => h.1⟩
      rw [construct_eq_fill]
      exact fill_reserved_good hs hf hc hinv (hrequestedSite.under hvacant) hslot
    | false =>
      refine (construct_good hs hf hc hinv (hrequestedSite.under hvacant)).imp fun a _ _ ha => ?_
      refine ⟨Registry.yields_of_met hf ha.1 ha.2 ?_, by simp⟩
      rw [← hsite.depth]
      exact hn

theorem serves_resolveWithin (d : Nat) : Serves d (resolveWithin d) := by
  induction d with
  | zero =>
    intro i key r n w hw hsite
    have := hw.length_lt
    have := hsite.fuel
    omega
  | succ d ih => exact serves_request ih

end Resolution

/-- A resolution from any world comes to a good outcome. -/
theorem World.resolve_good {w : World} (hw : w.Inv) (i : InjectorId) (key : Key) :
    w.Good (fun a _ => (w.registry i).Yields (w.underConstruction i).length key a)
      (resolve i key w) :=
  Resolution.serves_resolveWithin w.capacity i key _ _ w hw (w.site_self i)

end Wiring
