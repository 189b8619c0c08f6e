import Wiring.Proofs.Resolution.Account
import Wiring.Proofs.Resolution.Law
import Wiring.Proofs.Resolution.Moment

set_option autoImplicit false

namespace Wiring

/-- The instance is of the type. The items of a collection are of its element type, and so are map keys. -/
structure Instance.Belongs (t : TypeId) (x : Instance) : Prop where
  type : x.type = t
  items : ∀ id shape items, x = .collection id shape items → ∀ e ∈ items,
    e.2.datum.type = shape.element ∧ e.1.map MapKey.type = shape.keyType?

namespace Instance

variable {t : TypeId}

theorem belongs_object {o : Object} (h : .value o.datum.type = t) : (object o).Belongs t :=
  ⟨h, fun _ _ _ he => by cases he⟩

theorem belongs_injector (i : InjectorId) : (injector i).Belongs .injector :=
  ⟨rfl, fun _ _ _ he => by cases he⟩

end Instance

namespace Regime

def typing (i : InjectorId) (r : Registry) : Regime := ⟨i, r, [], fun a x => x.Belongs a.type⟩

variable {i : InjectorId} {r : Registry} {x : Instance}

theorem belongs_of_drafts {t : TypeId} {body : Routine t} (h : body.Drafts x) : x.Belongs t := by
  obtain ⟨id, draft, hmake, rfl⟩ := h
  exact Instance.belongs_object (Routine.type_of_mayMake hmake)

theorem belongs_of_makes {s : Strategy} (h : (typing i r).Makes s x) : x.Belongs s.provides.id := by
  cases s with
  | construct t ps body => exact h.elim fun _ h => belongs_of_drafts h.2
  | fixed o =>
    cases h
    exact Instance.belongs_object rfl
  | shared name d =>
    obtain ⟨datum, ⟨ht, _⟩, rfl⟩ := h
    exact Instance.belongs_object (congrArg TypeId.value ht)
  | providerType t name ps body => exact h.elim fun _ h => belongs_of_drafts h.2
  | provider t name body => exact belongs_of_drafts h
  | «alias» target => exact h

/-- A collection has items of its types, if its contributions come with map keys of its key type. -/
theorem belongs_of_assemble {key : Key} {a : Aggregate} (hkeyed : a.Keyed)
    {es : List (Option MapKey × Instance)} (hadds : List.Forall₂ (typing i r).Adds a.contributions es)
    {items : List (Option MapKey × Object)} (h : a.assemble key es = .ok items) (id : InstanceId) :
    (Instance.collection id a.shape items).Belongs (.collection a.shape) := by
  obtain ⟨os, hos, rfl⟩ := Aggregate.assemble_eq_ok.mp h
  obtain ⟨_, hobjects⟩ := Aggregate.objects_eq_ok.mp hos
  have hvalues : ∀ o ∈ os, o.2.datum.type = a.shape.element ∧
      o.1.map MapKey.type = a.shape.keyType? := by
    intro o ho
    obtain ⟨n, hn, rfl⟩ := List.getElem_of_mem ho
    have hes : n < es.length := by rw [hobjects.length_eq]; exact hn
    have hcs : n < a.contributions.length := by rw [hadds.length_eq]; exact hes
    obtain ⟨hk, _, ht⟩ := hobjects.get hes hn
    obtain ⟨hkey, _⟩ := hadds.get hcs hes
    simp only [List.get_eq_getElem] at hk ht hkey
    exact ⟨ht, by rw [hk, hkey]; exact hkeyed _ (List.getElem_mem hcs)⟩
  refine ⟨rfl, fun id' shape' items' heq e he => ?_⟩
  cases heq
  obtain ⟨o, ho, hvalue, hkey⟩ := Aggregate.mem_gather he
  obtain ⟨ht, hk⟩ := hvalues o ho
  refine ⟨by rw [hvalue]; exact ht, ?_⟩
  rw [hkey]
  cases hshape : a.shape.keyType? with
  | none => rfl
  | some k => exact hk.trans hshape

theorem upheld_typing (ht : r.WellTyped) : (typing i r).Upheld := by
  refine ⟨fun key hinj => ?_, fun {key e x} _ he hx => ?_⟩
  · have hkey : key.type.id = .injector := by simpa [Key.isInjector] using hinj
    change Instance.Belongs key.type.id _
    rw [hkey]
    exact Instance.belongs_injector i
  · change x.Belongs key.ident.type
    cases e with
    | binding c =>
      rw [← ht.binding he]
      exact belongs_of_makes hx
    | aggregate a =>
      obtain ⟨id, es, items, hadds, hitems, rfl⟩ := hx
      rw [(ht.aggregate he).1]
      exact belongs_of_assemble (ht.keyed he) hadds hitems id

theorem belongs_of_fills (ht : r.WellTyped) {p : Place} {spot : Spot} (hspot : r.spot? p = some spot)
    (h : (typing i r).Fills p x) : x.Belongs spot.type := by
  cases p with
  | binding a =>
    obtain ⟨e, _, rfl⟩ := Option.map_eq_some_iff.mp hspot
    exact h
  | element a n =>
    simp only [Registry.spot?] at hspot
    split at hspot
    · rename_i g hg
      obtain ⟨c, hc, rfl⟩ := Option.map_eq_some_iff.mp hspot
      rw [← (ht.aggregate hg).2 c (List.mem_of_getElem? hc)]
      exact belongs_of_makes (h g c hg hc)
    · contradiction

end Regime

namespace Resolution

/-- A request ends as its key does, unless that yields an instance of another type than expected. -/
theorem serve_eq (self : Resolver) (i : InjectorId) (key : Key) (expected : TypeId) (w : World) :
    serve self i ⟨key, expected⟩ w = match self i key w with
      | .ok x v => if x.type = expected then .ok x v
          else .error (.error (.incorrectType key (TypeInfo.of expected))) v
      | .error stop v => .error stop v := by
  change EStateM.bind (self i key) _ w = _
  simp only [EStateM.bind]
  cases self i key w with
  | error stop v => rfl
  | ok x v =>
    dsimp only
    split <;> rfl

end Resolution

namespace World

variable {w m : World} {i : InjectorId} {r : Registry}

def anyAccount (m : World) (i : InjectorId) : Account (m.registry i) i m.events :=
  Account.among _ _ _ (fun _ => True) fun _ _ _ _ _ => trivial

theorem Inv.resolve_not_incorrectType (hm : m.Inv) (i : InjectorId) (key k : Key) (info : TypeInfo)
    (v : World) : resolve i key m ≠ .error (.error (.incorrectType k info)) v := by
  intro h
  have hleads : (m.anyAccount i).leads (m.underConstruction i) key := trivial
  exact hm.resolve_ends hleads h

theorem Inv.points_not_incorrectType (hm : m.Inv) (i : InjectorId) (ps : List Point) (k : Key)
    (info : TypeInfo) (v : World) : resolvePoints i ps m ≠ .error (.error (.incorrectType k info)) v := by
  intro h
  have hleads : ∀ b, Dependency.direct b ∈ ps.filterMap Point.dependency? →
      (m.anyAccount i).leads (m.underConstruction i) b := fun _ _ => trivial
  exact Resolution.fails_points (serves_resolve m.capacity) (accounts_resolve m.capacity) hleads m hm
    ⟨m.site_self i, rfl, List.suffix_refl _⟩ _ v h

theorem Inv.type_of_resolve (hm : m.Inv) {key : Key} {x : Instance} {v : World}
    (h : resolve i key m = .ok x v) : x.type = key.type.id := by
  have hgood := resolve_good hm i key
  rw [h] at hgood
  exact hgood.2.1

/-- An instance of another type is reported if there is one, and the key is not of the type expected. -/
theorem Inv.fetch_incorrectType_iff (hm : m.Inv) {key k : Key} {expected : TypeId} {info : TypeInfo}
    {v : World} : fetch i ⟨key, expected⟩ m = .error (.error (.incorrectType k info)) v ↔
      k = key ∧ info = TypeInfo.of expected ∧ expected ≠ key.type.id ∧
        ∃ x, resolve i key m = .ok x v := by
  rw [fetch, Resolution.serve_eq]
  cases h : resolve i key m with
  | error stop u =>
    refine iff_of_false (fun heq => ?_) (by simp)
    simp only [EStateM.Result.error.injEq] at heq
    obtain ⟨rfl, rfl⟩ := heq
    exact hm.resolve_not_incorrectType i key k info u h
  | ok x u =>
    have htype := hm.type_of_resolve h
    dsimp only
    by_cases hx : x.type = expected
    · rw [if_pos hx]
      refine iff_of_false (by simp) fun hne => hne.2.2.1 (hx ▸ htype)
    · rw [if_neg hx]
      simp only [EStateM.Result.error.injEq, Stop.error.injEq, ResolveError.incorrectType.injEq,
        EStateM.Result.ok.injEq]
      constructor
      · rintro ⟨⟨rfl, rfl⟩, rfl⟩
        exact ⟨rfl, rfl, fun heq => hx (htype.trans heq.symm), x, rfl, rfl⟩
      · rintro ⟨rfl, rfl, _, _, _, rfl⟩
        exact ⟨⟨rfl, rfl⟩, rfl⟩

/-- Types are sound. Whatever is yielded for a key or for an element, at whatever nesting, is of its type. At
every moment an instance of another type is reported exactly if the key resolves and another type was
expected than that of the key; this never happens where a key is asked for by its own type. -/
theorem resolve_typed {config : Config} {ops : List Operation} (ht : ∀ op ∈ ops, op.Typed)
    (hr : (Operation.runAll (.withConfig config) ops).2.finalized = some r)
    (hw : w.Reachable) (hi : w.registry i = r) :
    (∀ p x, .yielded i p x ∈ w.events → ∃ spot, r.spot? p = some spot ∧ x.Belongs spot.type) ∧
    (∀ key x v, resolve i key w = .ok x v → x.Belongs key.type.id) ∧
    ∀ m : World, m.Moment →
      (∀ key x v, resolve i key m = .ok x v → x.type = key.type.id) ∧
      (∀ key expected k info v,
        fetch i ⟨key, expected⟩ m = .error (.error (.incorrectType k info)) v ↔
          k = key ∧ info = TypeInfo.of expected ∧ expected ≠ key.type.id ∧
            ∃ x, resolve i key m = .ok x v) ∧
      (∀ key k info v, fetch i (.of key) m ≠ .error (.error (.incorrectType k info)) v) ∧
      ∀ ps k info v, resolvePoints i ps m ≠ .error (.error (.incorrectType k info)) v := by
  have htyped : r.WellTyped := Registry.Frozen.wellTyped ⟨config, ops, ht, hr⟩
  have hupheld : (Regime.typing i r).Upheld := Regime.upheld_typing htyped
  have hobeys : w.Obeys (Regime.typing i r) := hw.obeys hupheld hi rfl
  refine ⟨fun p x h => ?_, fun key x v h => ?_, fun m hm => ⟨fun key x v h => hm.inv.type_of_resolve h,
    fun key expected k info v => hm.inv.fetch_incorrectType_iff, fun key k info v h => ?_,
    hm.inv.points_not_incorrectType i⟩⟩
  · obtain ⟨spot, hspot⟩ := hw.quiet.yielded_spot h
    rw [hi] at hspot
    exact ⟨spot, hspot, Regime.belongs_of_fills htyped hspot (hobeys.yielded p x h)⟩
  · have hkept := abides_resolve hupheld i key w hobeys
    rw [h] at hkept
    exact hkept.2 rfl
  · exact (hm.inv.fetch_incorrectType_iff.mp h).2.2.1 rfl

def shelfKey : Key := .of (.collection (.map .str .alpha))

def bookKey : Key := .of (.value .alpha)

/-- A map with one item, which is another name of a value that is made anew each time. -/
def shelfOperations : List Operation :=
  [.register bookKey ⟨.construct (.value .alpha) [] fun _ => .done ⟨.alpha "book", []⟩ rfl, none⟩
      .direct,
    .declareAggregate shelfKey (.map .str .alpha),
    .contribute shelfKey ⟨.alias bookKey, some .singleton⟩ .direct (some (.str "first")),
    .finalize]

def shelfInjector : Injector where
  registry := (Operation.runAll {} shelfOperations).2.finalized.getD {}

/-- The map is of its type, and asking for it as for a value is an error. -/
theorem resolve_typed_shelf :
    let w := ({} : World).addInjector "main" shelfInjector
    (∃ x v, resolve 0 shelfKey w = .ok x v ∧ x.Belongs (.collection (.map .str .alpha))) ∧
      ∃ v, fetch 0 ⟨shelfKey, .value .alpha⟩ w =
        .error (.error (.incorrectType shelfKey (TypeInfo.of (.value .alpha)))) v := by
  have htyped : ∀ op ∈ shelfOperations, op.Typed := by
    simp [shelfOperations, Operation.Typed, shelfKey, Key.of, TypeInfo.of, Collection.keyType?, MapKey.type]
  have hfinal : (Operation.runAll (.withConfig {}) shelfOperations).2.finalized =
      some shelfInjector.registry := rfl
  have hreachable : (({} : World).addInjector "main" shelfInjector).Reachable :=
    Relation.ReflTransGen.single (.inject "main" ⟨{}, shelfOperations, htyped, hfinal⟩ rfl)
  obtain ⟨_, hbelongs, hmoments⟩ := resolve_typed htyped hfinal hreachable (i := 0) rfl
  obtain ⟨_, hmismatch, _⟩ := hmoments _ hreachable.moment
  have hresolve : ∃ x v, resolve 0 shelfKey (({} : World).addInjector "main" shelfInjector) =
      .ok x v := ⟨_, _, rfl⟩
  obtain ⟨x, v, hx⟩ := hresolve
  refine ⟨⟨x, v, hx, hbelongs shelfKey x v hx⟩, v, ?_⟩
  exact (hmismatch _ _ _ _ v).mpr ⟨rfl, rfl, by simp [shelfKey, Key.of, TypeInfo.of], x, hx⟩

end World

end Wiring
