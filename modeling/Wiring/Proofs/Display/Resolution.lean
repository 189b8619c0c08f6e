import Wiring.Proofs.Display.Registration
import Wiring.Proofs.Registry.Origin
import Wiring.Proofs.Resolution.Step

set_option autoImplicit false

namespace Wiring

namespace Table

variable {α β γ : Type} [DecidableEq α] (f : β → γ)

theorem get?_map (t : Table α β) (a : α) :
    get? (t.map fun e => (e.1, f e.2)) a = (get? t a).map f := by
  induction t with
  | nil => rfl
  | cons e rest ih => by_cases h : e.1 = a <;> simp [get?, h, ih]

theorem put_map (t : Table α β) (a : α) (b : β) :
    (put t a b).map (fun e => (e.1, f e.2)) = put (t.map fun e => (e.1, f e.2)) a (f b) := by
  induction t with
  | nil => rfl
  | cons e rest ih => by_cases h : e.1 = a <;> simp [put, h, ih]

theorem erase_map (t : Table α β) (a : α) :
    (erase t a).map (fun e => (e.1, f e.2)) = erase (t.map fun e => (e.1, f e.2)) a := by
  induction t with
  | nil => rfl
  | cons e rest ih => by_cases h : e.1 = a <;> simp [erase, h, ih]

end Table

namespace Cache

variable (c : Cache) (p : Place)

theorem get?_erased : Table.get? c.erased p = (Table.get? c p).map Slot.erased := Table.get?_map _ c p

theorem ready?_erased : c.erased.ready? p = (c.ready? p).map Instance.erased := by
  simp only [ready?, get?_erased]
  cases c.get? p with
  | none => rfl
  | some s => cases s <;> rfl

theorem find_erased : c.erased.find p = (c.find p).erased := by
  simp only [find, get?_erased]
  cases c.get? p with
  | none => rfl
  | some s => cases s <;> rfl

theorem reserve_erased : (c.reserve p).erased = c.erased.reserve p := Table.put_map _ c p _

theorem fulfill_erased (a : Instance) : (c.fulfill p a).erased = c.erased.fulfill p a.erased :=
  Table.put_map _ c p _

theorem release_erased : (c.release p).erased = c.erased.release p := by
  simp only [release, get?_erased]
  cases c.get? p with
  | none => rfl
  | some s =>
    cases s with
    | pending => exact Table.erase_map _ c p
    | ready a => rfl

end Cache

variable (read : Reading)

def Injector.erased (j : Injector) : Injector :=
  { j with registry := j.registry.erased read, cache := j.cache.erased }

def World.erased (w : World) : World :=
  { w with
    injectors := w.injectors.map (Injector.erased read)
    holdings := w.holdings.map fun e => (e.1, e.2.erased)
    frames := w.frames.map Frame.erased
    notes := w.notes.map (Note.erased read)
    events := w.events.map Event.erased }

namespace World

variable (w : World) (i : InjectorId)

theorem injector_erased : (w.erased read).injector i = (w.injector i).erased read := by
  simp only [injector, erased, List.getD_eq_getElem?_getD, List.getElem?_map]
  cases w.injectors[i]? <;> rfl

theorem registry_erased : (w.erased read).registry i = (w.registry i).erased read :=
  congrArg Injector.registry (w.injector_erased read i)

theorem cache_erased : (w.erased read).cache i = (w.cache i).erased :=
  congrArg Injector.cache (w.injector_erased read i)

theorem caches_erased : (w.erased read).caches = w.caches.map Cache.erased := by
  simp only [caches, erased, List.map_map]
  rfl

theorem withCache_erased {f g : Cache → Cache} (h : ∀ c : Cache, (f c).erased = g c.erased) :
    (w.withCache i f).erased read = (w.erased read).withCache i g := by
  simp only [withCache, erased, World.mk.injEq, and_true]
  refine List.ext_getElem? fun n => ?_
  simp only [List.getElem?_map, List.getElem?_modify]
  cases w.injectors[n]? with
  | none => rfl
  | some j =>
    by_cases hn : i = n
    · simp [hn, Injector.erased, h]
    · simp [hn, Injector.erased]

theorem registry_withCache_eq (f : Cache → Cache) : (w.withCache i f).registry = w.registry :=
  funext fun j => w.registry_withCache i f j

theorem underConstruction_erased :
    (w.erased read).underConstruction i = (w.underConstruction i).map Key.erased := by
  simp only [underConstruction, erased, List.filter_map, List.map_map, List.map_reverse]
  rfl

theorem requester_erased : (w.erased read).requester i = (w.requester i).map Key.erased := by
  simp only [requester, erased, List.find?_map, Option.map_map]
  rfl

theorem isLive_erased : (w.erased read).isLive i = w.isLive i := by
  simp [isLive, erased, Function.comp_def]

theorem capacity_erased : (w.erased read).capacity = w.capacity := by
  simp only [capacity, erased, List.map_map]
  refine congrArg (fun sizes : List Nat => sizes.foldr (· + ·) 0 + 1) (List.map_congr_left fun j _ => ?_)
  exact j.registry.entries.size_erased _

end World

namespace Act

variable {α β γ δ : Type} {r : InjectorId → Registry}

/-- In erased worlds the second action does what the first one does, and erases it. -/
def Erases (r : InjectorId → Registry) (g : α → β) (x : Act α) (y : Act β) : Prop :=
  ∀ w : World, w.registry = r →
    (∃ a v, x w = .ok a v ∧ y (w.erased read) = .ok (g a) (v.erased read) ∧ v.registry = r) ∨
    ∃ stop v, x w = .error stop v ∧ y (w.erased read) = .error (stop.erased read) (v.erased read) ∧
      v.registry = r

variable {read} {g : α → β} {k : γ → δ} {x : Act α} {y : Act β}

theorem erases_pure {a : α} {b : β} (h : b = g a) : Erases read r g (pure a) (pure b) := by
  intro w hw
  exact .inl ⟨a, w, rfl, by rw [h]; rfl, hw⟩

theorem erases_throw (stop : Stop) : Erases read r g (throw stop) (throw (stop.erased read)) :=
  fun w hw => .inr ⟨stop, w, rfl, rfl, hw⟩

theorem Erases.bind {f : α → Act γ} {f' : β → Act δ} (hx : Erases read r g x y)
    (hf : ∀ a, Erases read r k (f a) (f' (g a))) : Erases read r k (x >>= f) (y >>= f') := by
  intro w hw
  change (∃ a v, EStateM.bind x f w = _ ∧ EStateM.bind y f' _ = _ ∧ _) ∨
    ∃ stop v, EStateM.bind x f w = _ ∧ EStateM.bind y f' _ = _ ∧ _
  simp only [EStateM.bind]
  rcases hx w hw with ⟨a, v, hv, ht, hr⟩ | ⟨stop, v, hv, ht, hr⟩ <;> rw [hv, ht]
  · exact hf a v hr
  · exact .inr ⟨stop, v, rfl, rfl, hr⟩

theorem erases_get {f : World → Act γ} {f' : World → Act δ}
    (hf : ∀ w : World, w.registry = r → Erases read r k (f w) (f' (w.erased read))) :
    Erases read r k ((get : Act World) >>= f) ((get : Act World) >>= f') :=
  fun w hw => hf w hw w hw

theorem erases_record (e : Event) : Erases read r id (record e) (record e.erased) :=
  fun w hw => .inl ⟨(), w.record e, rfl, rfl, hw⟩

theorem Erases.recorded (h : Erases read r g x y) (e : Event) :
    Erases read r g (record e >>= fun _ => x) (record e.erased >>= fun _ => y) :=
  (erases_record e).bind fun _ => h

theorem erases_note (n : Note) :
    Erases read r id (modify fun w => w.note n) (modify fun w => w.note (n.erased read)) :=
  fun w hw => .inl ⟨(), w.note n, rfl, rfl, hw⟩

theorem erases_count (tally : Nat) : Erases read r id (count tally) (count tally) :=
  fun _ hw => .inl ⟨_, _, rfl, rfl, hw⟩

theorem erases_fresh : Erases read r id fresh fresh :=
  fun _ hw => .inl ⟨_, _, rfl, rfl, hw⟩

theorem erases_ofExcept (e : Except ResolveError α) :
    Erases read r g (ofExcept e) (ofExcept (translated (ResolveError.erased read) g e)) := by
  cases e with
  | ok a => exact erases_pure rfl
  | error e => exact erases_throw (.error e)

theorem Erases.attempt (h : Erases read r g x y) :
    Erases read r (translated (ResolveError.erased read) g) (attempt x) (attempt y) := by
  intro w hw
  simp only [Act.attempt]
  rcases h w hw with ⟨a, v, hv, ht, hr⟩ | ⟨stop, v, hv, ht, hr⟩ <;> rw [hv, ht]
  · exact .inl ⟨_, v, rfl, rfl, hr⟩
  · cases stop with
    | error e => exact .inl ⟨_, v, rfl, rfl, hr⟩
    | _ => exact .inr ⟨_, v, rfl, rfl, hr⟩

end Act

namespace Resolution

open World Act

def Erasing (r : InjectorId → Registry) (self : Resolver) : Prop :=
  ∀ i key, Erases read r Instance.erased (self i key) (self i key.erased)

variable {read} {r : InjectorId → Registry} {self : Resolver} {i : InjectorId} {key : Key} {p : Place}
  {x y : Act Instance}

-- The two resolvers run on different registries and answer with different data. A `Judgement` is of the same
-- points and routines on both sides.
theorem erases_serve (hs : Erasing read r self) (req : Request) :
    Erases read r Instance.erased (serve self i req) (serve self i req.erased) := by
  refine (hs i req.key).bind fun a => ?_
  simp only [Instance.type_erased]
  change Erases read r Instance.erased _ (if a.type = req.expected then _ else _)
  split
  · exact erases_pure rfl
  · exact erases_throw (.error (.incorrectType req.key (TypeInfo.of req.expected)))

theorem erases_pull (hs : Erasing read r self) (l : Lazy) :
    Erases read r Instance.erased (pull self l) (pull self l.erased) := by
  refine erases_get fun w _ => ?_
  simp only [isLive_erased]
  change Erases read r Instance.erased _ (if w.isLive l.injector = true then _ else _)
  split
  · exact erases_serve hs ⟨l.key, l.expected⟩
  · exact erases_throw (.error (.injectorDropped l.key))

theorem erases_points (hs : Erasing read r self) (ps : List Point) :
    Erases read r (List.map Held.erased) (points self i ps) (points self i (ps.map Point.erased)) := by
  induction ps with
  | nil => exact erases_pure rfl
  | cons p rest ih =>
    have hpoint : Erases read r Held.erased (point self i p) (point self i p.erased) := by
      cases p with
      | inject key q => exact (erases_serve hs (.of key)).bind fun a => erases_pure rfl
      | lazy key q => exact erases_pure rfl
      | injector => exact erases_pure rfl
    exact hpoint.bind fun h => ih.bind fun held => erases_pure rfl

theorem erases_run (hs : Erasing read r self) {t : TypeId} {wrap wrap' : Cause → ResolveError}
    (hwrap : ∀ c : Cause, wrap' (c.erased read) = (wrap c).erased read) {body : Routine t}
    (h : body.IgnoresNames read) :
    Erases read r Draft.erased (run self wrap body) (run self wrap' (body.erased read)) := by
  induction body with
  | done draft fits => exact erases_pure rfl
  | fail cause =>
    have hfail : Erases read r Draft.erased (throw (.error (wrap cause)))
        (throw (Stop.erased read (.error (wrap cause)))) := erases_throw _
    simp only [Stop.erased, ← hwrap] at hfail
    exact hfail
  | panic text => exact erases_throw (.panic text)
  | count tally next ih => exact (erases_count tally).bind fun n => ih n (h n)
  | note n next ih => exact (erases_note n).bind fun _ => ih h
  | find name next ih => exact erases_get fun w _ => ih _ (h _)
  | get j req next ih =>
    refine (erases_serve hs req).attempt.bind fun answer => ?_
    obtain ⟨hnext, hother⟩ := h answer
    have hsame := hother (erasedAnswer read answer) (erasedAnswer_twice read answer)
    simp only [hsame]
    exact ih answer hnext
  | pull l next ih =>
    refine (erases_pull hs l).attempt.bind fun answer => ?_
    obtain ⟨hnext, hother⟩ := h answer
    have hsame := hother (erasedAnswer read answer) (erasedAnswer_twice read answer)
    simp only [hsame]
    exact ih answer hnext

theorem erases_make (hs : Erasing read r self) {t : TypeId} {wrap wrap' : Cause → ResolveError}
    (hwrap : ∀ c : Cause, wrap' (c.erased read) = (wrap c).erased read) {body : Routine t}
    (h : body.IgnoresNames read) :
    Erases read r Instance.erased (make self i key wrap body)
      (make self i key.erased wrap' (body.erased read)) := by
  refine Erases.recorded ?_ (.entered i key)
  exact (erases_run hs hwrap h).bind fun d => erases_fresh.bind fun id => erases_pure rfl

theorem erases_produce (hs : Erasing read r self) {s : Strategy} (h : s.IgnoresNames read) :
    Erases read r Instance.erased (produce self i key s) (produce self i key.erased (s.erased read)) := by
  cases s with
  | construct t ps body =>
    refine (erases_points hs ps).bind fun held => ?_
    obtain ⟨hbody, hother⟩ := h held
    have hsame := hother (held.map Held.erased) (by simp [Function.comp_def])
    simp only [hsame]
    exact erases_make hs (fun _ => rfl) hbody
  | fixed o => exact erases_pure rfl
  | shared name d => exact erases_get fun w _ => erases_pure rfl
  | providerType t name ps body =>
    refine (erases_points hs ps).bind fun held => ?_
    obtain ⟨hbody, hother⟩ := h held
    have hsame := hother (held.map Held.erased) (by simp [Function.comp_def])
    simp only [hsame]
    exact erases_make hs (fun _ => rfl) hbody
  | provider t name body => exact erases_make hs (fun _ => rfl) h
  | «alias» target => exact hs i target

theorem erases_kept (hx : Erases read r Instance.erased x y) (i : InjectorId) (p : Place) :
    Erases read r Instance.erased (kept i p x) (kept i p y) := by
  intro w hw
  simp only [kept, cache_erased, Cache.find_erased]
  cases (w.cache i).find p with
  | ready a => exact .inl ⟨a, _, rfl, rfl, hw⟩
  | busy => exact .inr ⟨_, _, rfl, rfl, hw⟩
  | vacant =>
    have hreserve : ∀ v : World, (v.withCache i fun c => c.reserve p).erased read =
        (v.erased read).withCache i fun c => c.reserve p :=
      fun v => v.withCache_erased read i fun c => c.reserve_erased p
    have hfulfill : ∀ (v : World) (a : Instance),
        (v.withCache i fun c => (c.fulfill p a).release p).erased read =
          (v.erased read).withCache i fun c => (c.fulfill p a.erased).release p :=
      fun v a => v.withCache_erased read i fun c => by rw [Cache.release_erased, Cache.fulfill_erased]
    have hrelease : ∀ v : World, (v.withCache i fun c => c.release p).erased read =
        (v.erased read).withCache i fun c => c.release p :=
      fun v => v.withCache_erased read i fun c => c.release_erased p
    have hx := hx ((w.record (.acquired i p .vacant)).withCache i fun c => c.reserve p)
      ((registry_withCache_eq _ _ _).trans hw)
    rw [hreserve] at hx
    change (∃ a v, x _ = _ ∧ y (((w.erased read).record (.acquired i p .vacant)).withCache i _) = _ ∧ _) ∨
      ∃ stop v, x _ = _ ∧ y (((w.erased read).record (.acquired i p .vacant)).withCache i _) = _ ∧ _ at hx
    simp only [Cache.Found.erased]
    rcases hx with ⟨a, v, hv, ht, hr⟩ | ⟨stop, v, hv, ht, hr⟩ <;> rw [hv, ht]
    · refine .inl ⟨a, _, rfl, ?_, (registry_withCache_eq v i fun c => (c.fulfill p a).release p).trans hr⟩
      exact congrArg (fun u : World => EStateM.Result.ok a.erased (u.record (.stored i p a.erased)))
        (hfulfill v a).symm
    · refine .inr ⟨stop, _, rfl, ?_, (registry_withCache_eq _ _ _).trans hr⟩
      exact congrArg (EStateM.Result.error (stop.erased read)) (hrelease v).symm

theorem erases_yielding (hx : Erases read r Instance.erased x y) (i : InjectorId) (p : Place) :
    Erases read r Instance.erased (yielding i p x) (yielding i p y) :=
  hx.bind fun a => (erases_record (.yielded i p a)).bind fun _ => erases_pure rfl

theorem erases_underConstruction (hx : Erases read r Instance.erased x y) (limit : Nat) :
    Erases read r Instance.erased (underConstruction i key limit x)
      (underConstruction i key.erased limit y) := by
  intro w hw
  have hcycle : ((w.underConstruction i).map Key.erased).dropWhile (fun k => k.ident ≠ key.erased.ident) =
      ((w.underConstruction i).dropWhile fun k => k.ident ≠ key.ident).map Key.erased := by
    rw [List.dropWhile_map]
    simp [Function.comp_def]
  simp only [underConstruction, underConstruction_erased, hcycle, ne_eq, List.map_eq_nil_iff, List.length_map]
  split
  · refine .inr ⟨_, w, rfl, ?_, hw⟩
    simp [Stop.erased, ResolveError.erased]
  · split
    · exact .inr ⟨_, w, rfl, rfl, hw⟩
    · simp only [withFrame]
      have hx := hx { w with frames := ⟨i, key⟩ :: w.frames } hw
      have hpopped : ∀ v : World, ({ v with frames := v.frames.tail } : World).erased read =
          { v.erased read with frames := (v.erased read).frames.tail } := by
        intro v
        simp [World.erased, List.map_tail]
      change (∃ a v, x _ = _ ∧ y { w.erased read with frames := ⟨i, key.erased⟩ :: (w.erased read).frames } = _ ∧
          _) ∨ ∃ stop v, x _ = _ ∧
          y { w.erased read with frames := ⟨i, key.erased⟩ :: (w.erased read).frames } = _ ∧ _ at hx
      rcases hx with ⟨a, v, hv, ht, hr⟩ | ⟨stop, v, hv, ht, hr⟩ <;> rw [hv, ht]
      · exact .inl ⟨a, _, rfl, by rw [hpopped], hr⟩
      · exact .inr ⟨stop, _, rfl, by rw [hpopped], hr⟩

theorem erases_element (hs : Erasing read r self) {c : Contribution}
    (h : c.binding.strategy.IgnoresNames read) (index : Nat) :
    Erases read r Instance.erased (element self i key index c)
      (element self i key.erased index (c.erased read)) := by
  have hproduced : Erases read r Instance.erased (produce self i key c.binding.strategy) _ :=
    erases_produce hs h
  have hmade := hproduced.recorded (.produced i (.element key.ident index) c.source)
  simp only [element, Key.ident_erased]
  refine erases_yielding ?_ i _
  change Erases read r Instance.erased _ (if c.binding.effectiveScope.isCached = true then _ else _)
  split
  · exact erases_kept hmade i _
  · exact hmade

theorem erases_elements (hs : Erasing read r self) {cs : List Contribution}
    (h : ∀ c ∈ cs, c.binding.strategy.IgnoresNames read) (index : Nat) :
    Erases read r (List.map fun e => (e.1, e.2.erased)) (elements self i key index cs)
      (elements self i key.erased index (cs.map (Contribution.erased read))) := by
  induction cs generalizing index with
  | nil => exact erases_pure rfl
  | cons c rest ih =>
    refine (erases_element hs (h c List.mem_cons_self) index).bind fun a => ?_
    refine (ih (fun d hd => h d (List.mem_cons_of_mem _ hd)) (index + 1)).bind fun others => ?_
    exact erases_pure rfl

theorem erases_construct (hs : Erasing read r self) {e : Entry}
    (h : ∀ s ∈ e.strategies, s.IgnoresNames read) :
    Erases read r Instance.erased (construct self i key e) (construct self i key.erased (e.erased read)) := by
  cases e with
  | binding c =>
    have hproduced : Erases read r Instance.erased (produce self i key c.binding.strategy) _ :=
      erases_produce hs (h c.binding.strategy List.mem_cons_self)
    simp only [construct, Entry.erased, Key.ident_erased]
    exact hproduced.recorded (.produced i (.binding key.ident) c.source)
  | aggregate a =>
    have hcs : ∀ c ∈ a.contributions, c.binding.strategy.IgnoresNames read :=
      fun c hc => h _ (List.mem_map.mpr ⟨c, hc, rfl⟩)
    simp only [construct, Entry.erased, Key.ident_erased]
    refine (erases_elements hs hcs 0).bind fun es => ?_
    rw [Aggregate.assemble_erased]
    refine (erases_ofExcept _).bind fun items => Erases.recorded ?_ (.assembled i key.ident)
    exact erases_fresh.bind fun id => erases_pure rfl

theorem erasing_request (hs : Erasing read r self) (hr : ∀ i, (r i).Runs (Strategy.IgnoresNames read)) :
    Erasing read r (request self) := by
  intro i key
  refine erases_get fun w hw => ?_
  simp only [registry_erased, cache_erased, caches_erased, requester_erased, Key.isInjector_erased,
    Key.ident_erased, Cache.ready?_erased]
  refine Erases.recorded ?_ (.requested i key w.frames w.caches)
  split
  · exact erases_pure rfl
  · have hfind : ((w.registry i).erased read).find? key.erased =
        ((w.registry i).find? key).map (Entry.erased read) := by
      simp [Registry.find?, Registry.erased]
    simp only [hfind]
    cases he : (w.registry i).find? key with
    | none => exact erases_throw (.error (.unsatisfied key (w.requester i)))
    | some e =>
      have hruns : ∀ s ∈ e.strategies, s.IgnoresNames read := by
        rw [hw] at he
        exact hr i key.ident e he
      have hmade : Erases read r Instance.erased (construct self i key e) _ := erases_construct hs hruns
      simp only [Option.map_some, Entry.scope_erased]
      refine erases_yielding ?_ i _
      split
      · cases (w.cache i).ready? (.binding key.ident) with
        | some a => exact erases_pure rfl
        | none => exact erases_underConstruction (erases_kept hmade i _) _
      · exact erases_underConstruction hmade _

theorem erasing_resolveWithin (hr : ∀ i, (r i).Runs (Strategy.IgnoresNames read)) (d : Nat) :
    Erasing read r (resolveWithin d) := by
  induction d with
  | zero => exact fun _ _ => erases_throw .exhausted
  | succ d ih => exact erasing_request ih hr

theorem erasing_resolve (hr : ∀ i, (r i).Runs (Strategy.IgnoresNames read)) :
    Erasing read r resolve := by
  intro i key w hw
  simp only [resolve, capacity_erased]
  exact erasing_resolveWithin hr w.capacity i key w hw

end Resolution

end Wiring
