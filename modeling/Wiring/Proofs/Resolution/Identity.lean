import Wiring.Proofs.Resolution.Assembly
import Wiring.Proofs.Resolution.Requests

/-!
Which instance a key yields.

An alias that is made on every request hands on what its target yields. So which instance is yielded for a key
is told by the last key that such aliases lead to: by its scope, and by its strategy if nothing is kept for it.
-/

set_option autoImplicit false

namespace Wiring

open Relation

namespace Registry

variable {r : Registry} {k t u last : Key}

/-- The key is bound to another one, whose instance is asked for on every request. -/
def Renames (r : Registry) (k t : Key) : Prop :=
  ∃ c, r.find? k = some (.binding c) ∧ c.binding.strategy = .alias t ∧
    c.binding.effectiveScope.isCached = false

/-- Aliases that are not kept lead from the one key to the other, and no further. -/
structure LeadsTo (r : Registry) (k last : Key) : Prop where
  chain : ReflTransGen r.Renames k last
  ends : ∀ t, ¬ r.Renames last t

theorem Renames.isInjector_eq (hr : r.WellTyped) (h : r.Renames k t) :
    t.isInjector = k.isInjector := by
  obtain ⟨c, hc, hs, _⟩ := h
  have htype := hr.binding hc
  rw [Binding.provides, hs] at htype
  exact congrArg (fun id : TypeId => decide (id = .injector)) htype

theorem Grounded.leadsTo (hr : r.WellTyped) (h : r.Grounded k.ident) (hinj : k.isInjector = false) :
    ∃ last, r.LeadsTo k last := by
  generalize ha : k.ident = a at h
  induction h generalizing k with
  | @intro a e he _ ih =>
    subst ha
    by_cases hk : ∃ t, r.Renames k t
    · obtain ⟨t, ht⟩ := hk
      have hinj' : t.isInjector = false := (ht.isInjector_eq hr).trans hinj
      obtain ⟨c, hc, hs, _⟩ := id ht
      cases he.symm.trans hc
      have hdemands : Demands (Entry.binding c).dependencies t.ident := by
        refine ⟨.direct t, ?_, rfl, hinj', rfl⟩
        rw [Entry.dependencies, Binding.dependencies, hs]
        exact List.mem_singleton_self _
      obtain ⟨last, hlast⟩ := ih _ hdemands hinj' rfl
      exact ⟨last, .head ht hlast.chain, hlast.ends⟩
    · exact ⟨k, .refl, fun t ht => hk ⟨t, ht⟩⟩

end Registry

namespace World

variable {m w v u left : World} {i : InjectorId} {p : Place} {x : Instance}

/-- The instance is the one of a place: the one that is kept there before, if one is, and forever after. -/
def Pins (m v : World) (i : InjectorId) (p : Place) (x : Instance) : Prop :=
  (∀ y, m.slot i p = some (.ready y) → y = x) ∧ v.Keeps i p x

theorem Keeps.pins (h : v.Keeps i p x) (hp : Path m v) : m.Pins v i p x :=
  ⟨fun y hy => by cases h.slot.symm.trans (hp.ready hy); rfl, h⟩

theorem Pins.handed_on (h : w.Pins left i p x) (hv : v.Moment) (hpath : Path m v)
    (hslot : v.slot i p = left.slot i p) : m.Pins v i p x :=
  (hv.keeps (hslot.trans h.2.slot)).pins hpath

/-- The number was given out in between, and not before. -/
def Mints (m v : World) (n : Nat) : Prop := m.made ≤ n ∧ n < v.made

end World

open World

/-- Which instance comes of a strategy that is run on every request: the one that is bound, or a new one. At the
end of a chain there is no alias. -/
def Strategy.Identifies (m v : World) (x : Instance) : Strategy → Prop
  | .fixed o => x = .object o
  | .shared name d => x = .object ⟨.shared d.type name, (m.offers.get? (d.type, name)).getD d, []⟩
  | .construct .. | .providerType .. | .provider .. =>
    ∃ n o, m.Mints v n ∧ o.id = .made n ∧ x = .object o
  | .alias _ => False

/-- Which instance a key yields by its entry. If one is kept for the key, it is this one. A collection that is
not kept is new, but the elements that are kept for it are the same for every collection. -/
def Entry.Identifies (m v : World) (i : InjectorId) (key : Key) (x : Instance) (e : Entry) : Prop :=
  if e.scope.isCached then m.Pins v i (.binding key.ident) x
  else match e with
    | .binding c => c.binding.strategy.Identifies m v x
    | .aggregate g => ∃ n os, m.Mints v n ∧
        x = .collection (.made n) g.shape (Aggregate.gather g.shape os) ∧
        List.Forall₂ (fun c o => o.1 = c.1.mapKey ∧ (c.1.binding.effectiveScope.isCached = true →
          m.Pins v i (.element key.ident c.2) (.object o.2))) g.contributions.zipIdx os

theorem Strategy.Identifies.congr {m w v u : World} {x : Instance} {s : Strategy}
    (h : s.Identifies w u x) (hm : w.made = m.made) (ho : w.offers = m.offers) (hv : v.made = u.made) :
    s.Identifies m v x := by
  have hnew : (∃ n o, w.Mints u n ∧ o.id = .made n ∧ x = .object o) →
      ∃ n o, m.Mints v n ∧ o.id = .made n ∧ x = .object o := by
    rintro ⟨n, o, ⟨hle, hlt⟩, ho, hx⟩
    exact ⟨n, o, ⟨hm ▸ hle, hv ▸ hlt⟩, ho, hx⟩
  cases s with
  | construct => exact hnew h
  | fixed => exact h
  | shared name d =>
    have hx : x = .object ⟨.shared d.type name, (w.offers.get? (d.type, name)).getD d, []⟩ := h
    rw [ho] at hx
    exact hx
  | providerType => exact hnew h
  | provider => exact hnew h
  | «alias» => exact h

theorem Entry.Identifies.handed_on {m w v left : World} {i : InjectorId} {last : Key} {x : Instance}
    {e : Entry} (h : e.Identifies w left i last x) (hv : v.Moment) (hpath : Path m v)
    (hmade : w.made = m.made) (hoffers : w.offers = m.offers) (hgiven : v.made = left.made)
    (hslot : ∀ p, v.slot i p = left.slot i p) : e.Identifies m v i last x := by
  unfold Entry.Identifies at h ⊢
  split
  · rename_i hc
    rw [if_pos hc] at h
    exact h.handed_on hv hpath (hslot _)
  · rename_i hc
    rw [if_neg hc] at h
    cases e with
    | binding c => exact Strategy.Identifies.congr h hmade hoffers hgiven
    | aggregate g =>
      obtain ⟨n, os, ⟨hnew, hold⟩, hx, hos⟩ := h
      refine ⟨n, os, ⟨hmade ▸ hnew, hgiven ▸ hold⟩, hx, hos.imp fun c o ho => ⟨ho.1, fun hc => ?_⟩⟩
      exact (ho.2 hc).handed_on hv hpath (hslot _)

theorem keyed_of_map {cs : List Contribution} {n : Nat} {os : List (Option MapKey × Object)}
    {R : Contribution × Nat → Option MapKey × Object → Prop} (h : List.Forall₂ R (cs.zipIdx n) os)
    (hkeys : os.map Prod.fst = cs.map Contribution.mapKey) :
    List.Forall₂ (fun c o => o.1 = c.1.mapKey ∧ R c o) (cs.zipIdx n) os := by
  induction cs generalizing n os with
  | nil =>
    cases h
    exact .nil
  | cons c rest ih =>
    cases h with
    | cons hc hrest =>
      obtain ⟨hkey, hkeys⟩ := List.cons.inj hkeys
      exact .cons ⟨hkey, hc⟩ (ih hrest hkeys)

namespace Resolution

variable {m w v u left : World} {i : InjectorId} {key : Key} {x : Instance}

theorem make_identifies {t : TypeId} {wrap : Cause → ResolveError} {body : Routine t}
    (h : make resolve i key wrap body w = .ok x v) :
    ∃ n o, w.Mints v n ∧ o.id = .made n ∧ x = .object o := by
  rw [make_eq] at h
  cases hrun : run resolve wrap body (w.record (.entered i key)) with
  | error stop u =>
    rw [hrun] at h
    cases h
  | ok d u =>
    rw [hrun] at h
    cases h
    have hmade := made_le_of_conducts (conducts_run (discreet_resolve _) wrap body) hrun
    exact ⟨u.made, _, ⟨hmade, Nat.lt_succ_self _⟩, rfl, rfl⟩

theorem points_identifies {t : TypeId} {ps : List Point} {wrap : Cause → ResolveError}
    {body : List Held → Routine t}
    (h : (points resolve i ps >>= fun held => make resolve i key wrap (body held)) w = .ok x v) :
    ∃ n o, w.Mints v n ∧ o.id = .made n ∧ x = .object o := by
  change EStateM.bind (points resolve i ps) _ w = .ok x v at h
  simp only [EStateM.bind] at h
  cases hpoints : points resolve i ps w with
  | error stop u =>
    rw [hpoints] at h
    cases h
  | ok held u =>
    rw [hpoints] at h
    have hmade := made_le_of_conducts (conducts_points (discreet_resolve _) i ps) hpoints
    obtain ⟨n, o, ⟨hnew, hgiven⟩, ho, hx⟩ := make_identifies h
    exact ⟨n, o, ⟨hmade.trans hnew, hgiven⟩, ho, hx⟩

theorem produce_identifies {s : Strategy} (hs : ∀ t, s ≠ .alias t)
    (h : produce resolve i key s w = .ok x v) : s.Identifies w v x := by
  cases s with
  | construct t ps body => exact points_identifies h
  | fixed o =>
    cases h
    rfl
  | shared name d =>
    cases h
    rfl
  | providerType t name ps body => exact points_identifies h
  | provider t name body => exact make_identifies h
  | «alias» target => exact absurd rfl (hs target)

end Resolution

namespace World

open Resolution

variable {m w v u left : World} {i : InjectorId} {key last : Key} {x : Instance} {e : Entry}

/-- What a key yields is what its entry says, if the entry is no alias or one that is kept. -/
theorem Moment.identifies (hm : m.Moment) (hinj : key.isInjector = false)
    (hf : (m.registry i).find? key = some e) (hends : ∀ t, ¬ (m.registry i).Renames key t)
    (h : resolve i key m = .ok x v) : e.Identifies m v i key x := by
  have hv := hm.after_resolve h
  have hpath := hm.path_of_ok h
  have hcases := hm.resolve_eq_ok hinj hf h
  unfold Entry.Identifies
  split
  · rename_i hc
    have hsingleton : (v.registry i).Singleton (.binding key.ident) := by
      rw [hpath.registry]
      exact ⟨_, Registry.spot?_binding hf, hc⟩
    have hyielded : .yielded i (.binding key.ident) x ∈ v.events := by
      rcases hcases with ⟨_, _, rfl⟩ | ⟨_, _, _, left, _, rfl⟩ <;> exact List.mem_cons_self
    exact (hv.keeps (hv.recorded.ready_of_yielded hsingleton hyielded)).pins hpath
  · rename_i hc
    obtain ⟨habsent, hroom, hvacant, left, hfill, hleft⟩ :=
      hcases.resolve_left fun hkept => hc hkept.1
    cases e with
    | binding c =>
      have hs : ∀ t, c.binding.strategy ≠ .alias t :=
        fun t ht => hends t ⟨c, hf, ht, Bool.eq_false_of_not_eq_true hc⟩
      subst hleft
      exact (produce_identifies hs hfill).congr (made_opened ..) (offers_opened ..) (made_filled ..)
    | aggregate g =>
      obtain ⟨hopened, hinside⟩ := hm.opened hinj hf habsent hroom hvacant
      rcases construct_cases hopened hinside hf with
        ⟨os, u, _, hgathered, hkeys, hconstruct⟩ | ⟨_, _, _, _, _, _, _, _, _, _, hconstruct⟩
      · cases hfill.symm.trans hconstruct
        subst hleft
        have hlast := runs_assembled (.collection (.made u.made) g.shape (Aggregate.gather g.shape os))
          (hgathered.inside.pending hf)
        have hmade := hgathered.made
        rw [made_opened] at hmade
        refine ⟨u.made, os, ⟨hmade, ?_⟩, rfl, keyed_of_map ?_ hkeys⟩
        · simp
        · refine (List.forall₂_map_right_iff.mp hgathered.kept).imp fun c o hready hcached => ?_
          exact (hv.keeps ((hlast.slots c.2 (by simp)).trans (hready hcached))).pins hpath
      · cases hfill.symm.trans hconstruct

/-- Along a chain of aliases that are not kept, the instance is the one of the last key. -/
theorem Moment.identifies_of_leadsTo (hm : m.Moment) (hinj : key.isInjector = false)
    (h : resolve i key m = .ok x v) (hlast : (m.registry i).LeadsTo key last) :
    ∃ e, (m.registry i).find? last = some e ∧ e.Identifies m v i last x := by
  obtain ⟨hchain, hends⟩ := hlast
  generalize hr : m.registry i = r at hchain hends
  induction hchain using ReflTransGen.head_induction_on generalizing m v with
  | refl =>
    subst hr
    cases hf : (m.registry i).find? last with
    | none =>
      rw [hm.inv.resolve_eq_request, request_unbound hinj hf] at h
      cases h
    | some e => exact ⟨e, rfl, hm.identifies hinj hf hends h⟩
  | @head k t hk _ ih =>
    subst hr
    have hinj' : t.isInjector = false := (hk.isInjector_eq (hm.inv.typed i)).trans hinj
    obtain ⟨c, hf, hs, hc⟩ := hk
    rcases hm.resolve_eq_ok hinj hf h with ⟨hcached, _⟩ | ⟨habsent, hroom, hvacant, left, hfill, hleft⟩
    · exact absurd (hc.symm.trans hcached) (by simp)
    · obtain ⟨hopened, hinside⟩ := hm.opened hinj hf habsent hroom hvacant
      rw [fill, hs] at hfill
      obtain ⟨e, he, hidentifies⟩ := ih hopened hinj' hfill hinside.site.registry
      rw [show (Entry.binding c).scope.isCached = false from hc] at hleft
      subst hleft
      exact ⟨e, he, hidentifies.handed_on (hm.after_resolve h) (hm.path_of_ok h) (made_opened ..)
        (offers_opened ..) rfl fun _ => rfl⟩

/-- Which instance a key yields follows from scopes, through aliases. At every moment, aliases that are not kept
lead from every key that resolves to a last one, and what is yielded is what this one's entry says: the instance
that is kept for it, before and forever after; or the one that is bound; or a new one; or a new collection, of
which those elements that are kept are the same in every other resolution. What is new has a number that was
not given out before: between two resolutions no instance has it that was ever handed out or is kept, unless
it is bound and brings it along. -/
theorem resolve_identity (hm : m.Moment) (hinj : key.isInjector = false)
    (h : resolve i key m = .ok x v) :
    (∃ last, (m.registry i).LeadsTo key last) ∧
    (∀ last, (m.registry i).LeadsTo key last →
      ∃ e, (m.registry i).find? last = some e ∧ e.Identifies m v i last x) ∧
    (m.Reachable → ∀ n, m.made ≤ n → ∀ y, m.Knows y → y.id? = some (.made n) → m.Binds y) := by
  refine ⟨?_, fun last hlast => hm.identifies_of_leadsTo hinj h hlast, fun hw n hn y hy hid => ?_⟩
  · have hgood := resolve_good hm.inv i key
    rw [h] at hgood
    exact (hgood.2.2 hinj).1.leadsTo (hm.inv.typed i) hinj
  · exact (hw.numbered y hy).resolve_left fun hbefore => Nat.not_lt.mpr hn (hbefore n hid)

def captainKey : Key := .named (.value .alpha) "captain"

def masterKey : Key := .named (.value .alpha) "master"

def pilotKey : Key := .named (.value .alpha) "pilot"

def pilotOperations : List Operation :=
  [.register captainKey
      ⟨.construct (.value .alpha) [] fun _ => .done ⟨.alpha "captain", []⟩ rfl, some .singleton⟩ .direct,
    .register masterKey ⟨.alias captainKey, some .unscoped⟩ .direct,
    .register pilotKey ⟨.alias masterKey, some .unscoped⟩ .direct,
    .finalize]

def pilotWorld : World := ({} : World).addInjector "main"
  { registry := (Operation.runAll {} pilotOperations).2.finalized.getD {} }

theorem resolve_identity_pilot : ∃ x v, resolve 0 pilotKey pilotWorld = .ok x v ∧
    v.Keeps 0 (.binding captainKey.ident) x := by
  have hfrozen : Registry.Frozen ((Operation.runAll {} pilotOperations).2.finalized.getD {}) :=
    ⟨{}, pilotOperations, by simp [pilotOperations, Operation.Typed], rfl⟩
  have hmoment : pilotWorld.Moment :=
    Reachable.moment (ReflTransGen.single (.inject "main" hfrozen rfl))
  obtain ⟨x, v, hx⟩ : ∃ x v, resolve 0 pilotKey pilotWorld = .ok x v := ⟨_, _, rfl⟩
  obtain ⟨c, hcaptain, hcached, hstrategy⟩ : ∃ c,
      (pilotWorld.registry 0).find? captainKey = some (.binding c) ∧
      (Entry.binding c).scope.isCached = true ∧ c.binding.strategy.name = "constructor" :=
    ⟨_, rfl, rfl, rfl⟩
  have hchain : (pilotWorld.registry 0).LeadsTo pilotKey captainKey := by
    refine ⟨.head ⟨_, rfl, rfl, rfl⟩ (.single ⟨_, rfl, rfl, rfl⟩), ?_⟩
    rintro t ⟨c', hc', halias, _⟩
    cases hcaptain.symm.trans hc'
    rw [halias] at hstrategy
    exact absurd hstrategy (by simp [Strategy.name])
  obtain ⟨_, hidentified, _⟩ := resolve_identity hmoment rfl hx
  obtain ⟨e, he, hidentifies⟩ := hidentified captainKey hchain
  cases hcaptain.symm.trans he
  rw [Entry.Identifies, if_pos hcached] at hidentifies
  exact ⟨x, v, hx, hidentifies.2⟩

end World

end Wiring
