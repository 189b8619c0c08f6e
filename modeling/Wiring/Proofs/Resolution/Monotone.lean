import Wiring.Proofs.Registry.Origin
import Wiring.Proofs.Resolution.Bound
import Wiring.Proofs.Resolution.Stock
import Wiring.Proofs.Resolution.Success
import Wiring.Proofs.Resolution.Typing

/-!
What resolved once keeps resolving.

The same request is made in two worlds, in one of which an injector keeps more than in the other. The run
in that world trails the other run: it does the same, or skips what is kept already, and so never gets
deeper. Nothing is missing after a skip, since with an instance everything is kept that this is made of.
-/

set_option autoImplicit false

namespace Wiring

open Relation

namespace Regime

def kinds (i : InjectorId) (r : Registry) : Regime := ⟨i, r, [], fun a x => x.type = a.type⟩

variable {i : InjectorId} {r : Registry} {x : Instance}

theorem type_of_makes {s : Strategy} (h : (kinds i r).Makes s x) : x.type = s.provides.id := by
  cases s with
  | construct t ps body => exact h.elim fun _ h => h.2.type
  | fixed o =>
    cases h
    rfl
  | shared name d =>
    obtain ⟨datum, ⟨ht, _⟩, rfl⟩ := h
    exact congrArg TypeId.value ht
  | providerType t name ps body => exact h.elim fun _ h => h.2.type
  | provider t name body => exact Routine.Drafts.type h
  | «alias» target => exact h

theorem suits_of_adds {shape : Collection} {cs : List Contribution} {es : List (Option MapKey × Instance)}
    (h : List.Forall₂ (kinds i r).Adds cs es) (hcs : ∀ c ∈ cs, c.binding.provides.id = .value shape.element ∧
      c.mapKey.map MapKey.type = shape.keyType?) : ∀ e ∈ es, Aggregate.Suits shape e := by
  induction h with
  | nil => simp
  | @cons c e _ _ hadds _ ih =>
    obtain ⟨⟨hc, hkey⟩, hrest⟩ := List.forall_mem_cons.mp hcs
    exact List.forall_mem_cons.mpr ⟨⟨(type_of_makes hadds.2).trans hc, hadds.1 ▸ hkey⟩, ih hrest⟩

theorem upheld_kinds (ht : r.WellTyped) : (kinds i r).Upheld := by
  refine ⟨fun key hinj => ?_, fun {key e x} _ he hx => ?_⟩
  · have hkey : key.type.id = .injector := by simpa [Key.isInjector] using hinj
    exact hkey.symm
  · change x.type = key.ident.type
    cases e with
    | binding c => exact (type_of_makes hx).trans (ht.binding he)
    | aggregate a =>
      obtain ⟨id, es, items, _, _, rfl⟩ := hx
      exact (ht.aggregate he).1.symm

end Regime

theorem Registry.docile_of_operations {config : Config} {ops : List Operation} {r : Registry}
    (hr : (Operation.runAll (.withConfig config) ops).2.finalized = some r)
    (h : ∀ op ∈ ops, ∀ b, op.binding? = some b → b.strategy.Docile) : r.Docile := by
  intro a e he
  refine Entry.docile_iff.mpr fun s hs => ?_
  obtain ⟨op, ho, b, hb, rfl⟩ := Operation.handed_in hr he hs
  exact h op ho b hb

namespace World

/-- The same is under construction in both worlds, and in the second one an injector keeps all that it keeps
in the first. It keeps nothing without what this is made of, and nothing of a wrong type. -/
structure Ahead (i : InjectorId) (r : Registry) (w u : World) : Prop where
  left : w.Complete i r
  right : u.Complete i r
  obeys : u.Obeys (.kinds i r)
  frames : u.frames = w.frames
  stocked : ∀ p, w.Stocked i p → u.Stocked i p
  pending : ∀ p, u.slot i p = some .pending → w.slot i p = some .pending

variable {i : InjectorId} {r : Registry} {w u v t : World} {p : Place} {R T : Place → Prop}

theorem Ahead.grown (h : Ahead i r w u) (hv : Grown i r R w v) (ht : Grown i r T u t)
    (ho : t.Obeys (.kinds i r)) (hs : ∀ p, v.Stocked i p → t.Stocked i p) : Ahead i r v t :=
  ⟨hv.complete, ht.complete, ho, ht.frames.trans (h.frames.trans hv.frames.symm), hs,
    fun p hp => (hv.pending p).mpr (h.pending p ((ht.pending p).mp hp))⟩

theorem Ahead.record (h : Ahead i r w u) (e : Event) {e' : Event}
    (he : ∀ p x, e' = .yielded i p x → (Regime.kinds i r).Fills p x) :
    Ahead i r (w.record e) (u.record e') :=
  ⟨h.left.congr rfl rfl, h.right.congr rfl rfl, h.obeys.record he, h.frames, h.stocked, h.pending⟩

theorem Ahead.under (h : Ahead i r w u) (key : Key) : Ahead i r (w.under i key) (u.under i key) :=
  ⟨h.left.congr rfl rfl, h.right.congr rfl rfl, h.obeys.congr rfl rfl rfl,
    by simp only [World.under, h.frames], h.stocked, h.pending⟩

theorem Ahead.reserve (h : Ahead i r w u) (hv : Reserves i p w v) (ht : Reserves i p u t)
    (ho : t.Obeys (.kinds i r)) : Ahead i r v t := by
  refine ⟨hv.complete h.left, ht.complete h.right, ho, ht.frames.trans (h.frames.trans hv.frames.symm),
    fun q hq => (ht.stocked q).mpr (h.stocked q ((hv.stocked q).mp hq)), fun q hq => ?_⟩
  rw [hv.slot]
  rw [ht.slot] at hq
  by_cases hpq : p = q
  · rw [if_pos hpq]
  · rw [if_neg hpq] at hq ⊢
    exact h.pending q hq

end World

namespace Act

open World

variable {α β : Type} {i : InjectorId} {r : Registry} {R T : Place → Prop} {P P' Q : α → Prop}
  {x y : Act α}

/-- If the one action succeeds, then so does the other where the injector keeps more, and it keeps more
still. -/
def Trails (i : InjectorId) (r : Registry) (x y : Act α) : Prop :=
  ∀ w u : World, Ahead i r w u → ∀ a v, x w = .ok a v →
    ∃ b t, y u = .ok b t ∧ ∀ p, v.Stocked i p → t.Stocked i p

theorem trails_pure (a b : α) : Trails i r (pure a) (pure b) := by
  intro w u h a' v hv
  cases hv
  exact ⟨b, u, rfl, h.stocked⟩

theorem trails_throw (stop : Stop) (y : Act α) : Trails i r (throw stop) y := by
  intro w u h a v hv
  cases hv

/-- Actions that add nothing do not get out of step if the second one always succeeds. -/
theorem trails_still (hx : Stocks i r i (fun _ => False) x P) (hy : Stocks i r i (fun _ => False) y P')
    (hall : ∀ u, y.Answers u) : Trails i r x y := by
  intro w u h a v hv
  obtain ⟨b, t, ht⟩ := hall u
  have hw := hx w h.left
  have hu := hy u h.right
  rw [hv] at hw
  rw [ht] at hu
  refine ⟨b, t, ht, fun p hp => hu.1.stays p (h.stocked p ?_)⟩
  exact (hw.1.within p hp).resolve_right fun hnew => hnew.2 rfl

theorem Trails.bind {f f' : α → Act β} (hx : Trails i r x x) (hs : Stocks i r i R x P)
    (hk : Keeps (.kinds i r) x Q) (hf : ∀ a b, P a → P b → Q b → Trails i r (f a) (f' b)) :
    Trails i r (x >>= f) (x >>= f') := by
  intro w u h c v hv
  change EStateM.bind x f w = _ at hv
  simp only [EStateM.bind] at hv
  cases hxw : x w with
  | error stop m =>
    rw [hxw] at hv
    cases hv
  | ok a m =>
    rw [hxw] at hv
    obtain ⟨b, n, hn, hstocked⟩ := hx w u h a m hxw
    have hw := hs w h.left
    have hu := hs u h.right
    have ho := hk u h.obeys
    rw [hxw] at hw
    rw [hn] at hu ho
    have hnext : Ahead i r m n := h.grown hw.1 hu.1 ho.1 hstocked
    obtain ⟨d, t, ht, hlast⟩ := hf a b hw.2.1 hu.2.1 ho.2 m n hnext c v hv
    refine ⟨d, t, ?_, hlast⟩
    change EStateM.bind x f' u = _
    simp only [EStateM.bind, hn, ht]

theorem trails_record (e : Event) : Trails i r (record e) (record e) :=
  trails_still (stocks_record e) (stocks_record e) fun _ => ⟨(), _, rfl⟩

end Act

namespace Resolution

open World Act

structure Steady (i : InjectorId) (r : Registry) (resolver : Resolver) : Prop where
  supplies : Supplies i r resolver
  abides : Abides (.kinds i r) resolver
  trails : ∀ key, Trails i r (resolver i key) (resolver i key)

variable {i : InjectorId} {r : Registry} {self : Resolver} {key : Key} {p : Place} {x : Act Instance}

-- The two runs are answered with different instances, so no `Judgement` of one routine covers them.
theorem trails_serve (hs : Steady i r self) (key : Key) :
    Trails i r (serve self i (.of key)) (serve self i (.of key)) := by
  refine (hs.trails key).bind (hs.supplies i key) (hs.abides i key) fun a b _ _ hb => ?_
  have ht : b.type = (Request.of key).expected := hb rfl
  rw [if_pos ht]
  split
  · exact trails_pure a b
  · exact trails_throw _ _

theorem trails_points (hs : Steady i r self) (ps : List Point) :
    Trails i r (points self i ps) (points self i ps) := by
  induction ps with
  | nil => exact trails_pure _ _
  | cons p rest ih =>
    have hall := stocks_points hs.supplies i
    have hpoint : Trails i r (point self i p) (point self i p) := by
      cases p with
      | inject key q =>
        exact (trails_serve hs key).bind (stocks_serve hs.supplies i _) (keeps_serve hs.abides i _)
          fun _ _ _ _ _ => trails_pure _ _
      | lazy => exact trails_pure _ _
      | injector => exact trails_pure _ _
    refine hpoint.bind (stocks_point hs.supplies i p) (keeps_point hs.abides i p) fun h h' _ _ _ => ?_
    exact ih.bind (hall rest) (keeps_points hs.abides i rest) fun _ _ _ _ _ => trails_pure _ _

theorem trails_make (hs : Steady i r self) {t : TypeId} (wrap : Cause → ResolveError)
    {body body' : Routine t} (h : body.Docile) (h' : body'.Docile) :
    Trails i r (make self i key wrap body) (make self i key wrap body') :=
  trails_still (stocks_make hs.supplies wrap fun _ => h) (stocks_make hs.supplies wrap fun _ => h')
    (answers_make self i key wrap h')

theorem trails_produce (hs : Steady i r self) {s : Strategy} (h : s.Docile) :
    Trails i r (produce self i key s) (produce self i key s) := by
  cases s with
  | construct t ps body =>
    exact (trails_points hs ps).bind (stocks_points hs.supplies i ps) (keeps_points hs.abides i ps)
      fun held held' hfits hfits' _ => trails_make hs _ (h i held hfits) (h i held' hfits')
  | fixed o => exact trails_pure _ _
  | shared name d =>
    intro w u hwu a v hv
    cases hv
    exact ⟨_, u, rfl, hwu.stocked⟩
  | providerType t name ps body =>
    exact (trails_points hs ps).bind (stocks_points hs.supplies i ps) (keeps_points hs.abides i ps)
      fun held held' hfits hfits' _ => trails_make hs _ (h i held hfits) (h i held' hfits')
  | provider t name body => exact trails_make hs _ h h
  | «alias» target => exact hs.trails target

theorem trails_yielding (hx : Trails i r x x) : Trails i r (yielding i p x) (yielding i p x) := by
  intro w u h a v hv
  change EStateM.bind x _ w = _ at hv
  simp only [EStateM.bind] at hv
  cases hxw : x w with
  | error stop m =>
    rw [hxw] at hv
    cases hv
  | ok c m =>
    rw [hxw] at hv
    cases hv
    obtain ⟨b, n, hn, hstocked⟩ := hx w u h _ m hxw
    refine ⟨b, n.record (.yielded i p b), ?_, hstocked⟩
    change EStateM.bind x _ u = _
    simp only [EStateM.bind, hn]
    rfl

/-- What is kept already in the second world is not made there once more. -/
theorem trails_kept (hp : r.Singleton p) (hs : Stocks i r i (r.MadeOf p) x fun _ => True)
    (hx : Trails i r x x) : Trails i r (kept i p x) (kept i p x) := by
  intro w u h a v hv
  obtain ⟨spot, hspot, _⟩ := id hp
  have hlt : ∀ {v : World}, v.Complete i r → i < v.injectors.length :=
    fun hv => lt_of_spot (hv.registry ▸ hspot)
  have hleft := stocks_kept hp hs w h.left
  rw [hv] at hleft
  cases hu : u.slot i p with
  | some s =>
    cases s with
    | ready b =>
      -- Whatever the run in the first world adds is below a place that is filled in the second one.
      refine ⟨b, _, kept_of_ready hu, fun q hq => ?_⟩
      rcases hleft.1.within q hq with hq | ⟨hsingle, hspans⟩
      · exact h.stocked q hq
      · exact h.right.spans ⟨b, hu⟩ (hspans rfl) hsingle
    | pending =>
      have hpending := h.pending p hu
      simp [kept, cache_find, hpending] at hv
  | none =>
    cases hw : w.slot i p with
    | some s =>
      cases s with
      | ready a' =>
        obtain ⟨b, hb⟩ := h.stocked p ⟨a', hw⟩
        rw [hu] at hb
        contradiction
      | pending => simp [kept, cache_find, hw] at hv
    | none =>
      have hnext := h.reserve (reserves_withCache (hlt h.left) hw (.acquired i p .vacant))
        (reserves_withCache (hlt h.right) hu (.acquired i p .vacant))
        ((h.obeys.record fun _ _ heq => by cases heq).reserve i p)
      have hm := hs _ hnext.left
      have hn := hs _ hnext.right
      have hstep := hx _ _ hnext
      rw [kept_of_vacant hw] at hv
      generalize x ((w.record _).withCache i _) = s at hv hm hstep
      cases s with
      | error stop m => cases hv
      | ok c m =>
        cases hv
        obtain ⟨b, n, hxn, hstocked⟩ := hstep a m rfl
        rw [hxn] at hn
        refine ⟨b, _, by rw [kept_of_vacant hu, hxn], fun q hq => ?_⟩
        obtain ⟨y, hy⟩ := hq
        rw [slot_record, slot_fulfill (hlt hm.1.complete)] at hy
        unfold Stocked
        rw [slot_record, slot_fulfill (hlt hn.1.complete)]
        by_cases hpq : i = i ∧ p = q
        · exact ⟨b, by rw [if_pos hpq]⟩
        · rw [if_neg hpq] at hy ⊢
          exact hstocked q ⟨y, hy⟩

theorem trails_underConstruction (hx : Trails i r x x) (key : Key) (limit : Nat) :
    Trails i r (underConstruction i key limit x) (underConstruction i key limit x) := by
  intro w u h a v hv
  have hsame : u.underConstruction i = w.underConstruction i := by
    simp only [World.underConstruction, h.frames]
  simp only [underConstruction, hsame] at hv ⊢
  split at hv
  · cases hv
  · rename_i hcycle
    rw [if_neg hcycle]
    split at hv
    · cases hv
    · rename_i hlimit
      rw [if_neg hlimit]
      simp only [Act.withFrame] at hv ⊢
      have hstep := hx (w.under i key) (u.under i key) (h.under key)
      change ∀ c m, x { w with frames := ⟨i, key⟩ :: w.frames } = .ok c m →
        ∃ b t, x { u with frames := ⟨i, key⟩ :: u.frames } = .ok b t ∧ _ at hstep
      generalize x { w with frames := ⟨i, key⟩ :: w.frames } = s at hv hstep
      cases s with
      | error stop m => cases hv
      | ok c m =>
        cases hv
        obtain ⟨b, t, ht, hstocked⟩ := hstep a m rfl
        exact ⟨b, { t with frames := t.frames.tail }, by rw [ht], hstocked⟩

theorem trails_at {spot : Spot} (hspot : r.spot? p = some spot)
    (hs : Stocks i r i (r.MadeOf p) x fun _ => True) (hx : Trails i r x x) :
    Trails i r (if spot.scope.isCached then kept i p x else x)
      (if spot.scope.isCached then kept i p x else x) := by
  split
  · rename_i hc
    exact trails_kept ⟨spot, hspot, hc⟩ hs hx
  · exact hx

theorem trails_element (hs : Steady i r self) (hd : r.Docile) {g : Aggregate} {index : Nat}
    {c : Contribution} (hg : r.at? key.ident = some (.aggregate g)) (hc : g.contributions[index]? = some c) :
    Trails i r (element self i key index c) (element self i key index c) := by
  refine trails_yielding (trails_at (Registry.spot?_element hg hc)
    (stocks_contribution hs.supplies hd (fun _ => hg) hc) ?_)
  exact (trails_record _).bind (stocks_record _) (keeps_record fun _ _ heq => by cases heq)
    fun _ _ _ _ _ => trails_produce hs (hd _ _ hg c (List.mem_of_getElem? hc))

theorem trails_elements (hs : Steady i r self) (hd : r.Docile) {g : Aggregate}
    (hg : r.at? key.ident = some (.aggregate g)) (cs : List Contribution) (index : Nat)
    (hcs : g.From index cs) : Trails i r (elements self i key index cs) (elements self i key index cs) := by
  induction cs generalizing index with
  | nil => exact trails_pure _ _
  | cons c rest ih =>
    refine (trails_element hs hd hg hcs.head).bind (stocks_element hs.supplies hd (fun _ => hg) hcs.head)
      (keeps_element hs.abides (fun _ => hg) hcs.head) fun a b _ _ _ => ?_
    exact (ih (index + 1) hcs.tail).bind
      (stocks_elements hs.supplies hd (fun _ => hg) rest (index + 1) hcs.tail)
      (keeps_elements hs.abides (fun _ => hg) rest (index + 1) hcs.tail) fun _ _ _ _ _ => trails_pure _ _

theorem trails_construct (hs : Steady i r self) (hd : r.Docile) (ht : r.WellTyped) {e : Entry}
    (he : r.at? key.ident = some e) : Trails i r (construct self i key e) (construct self i key e) := by
  cases e with
  | binding c =>
    exact (trails_record _).bind (stocks_record _) (keeps_record fun _ _ heq => by cases heq)
      fun _ _ _ _ _ => trails_produce hs (hd _ _ he)
  | aggregate g =>
    have hrest : ∀ es, Stocks i r i (fun _ => False) (do
        let items ← Act.ofExcept (g.assemble key es)
        Act.record (.assembled i key.ident)
        let id ← Act.fresh
        pure (Instance.collection id g.shape items)) fun _ => True := fun es =>
      (stocks_ofExcept _).then fun _ _ => (stocks_record _).then fun _ _ =>
        stocks_fresh.then fun _ _ => stocks_pure trivial
    refine (trails_elements hs hd he g.contributions 0 g.from_zero).bind
      (stocks_elements hs.supplies hd (fun _ => he) g.contributions 0 g.from_zero)
      (keeps_elements hs.abides (fun _ => he) g.contributions 0 g.from_zero) fun es es' _ _ hes => ?_
    refine trails_still (hrest es) (hrest es') fun u => ?_
    obtain ⟨items, hitems⟩ := g.exists_assemble key
      (Regime.suits_of_adds (hes rfl) fun c hc => ⟨(ht.aggregate he).2 c hc, ht.keyed he c hc⟩)
    rw [hitems]
    exact ⟨_, _, rfl⟩

theorem trails_request (hs : Steady i r self) (hd : r.Docile) (ht : r.WellTyped) (key : Key) :
    Trails i r (request self i key) (request self i key) := by
  intro w u h a v hv
  have hrequested : Ahead i r (w.requested i key) (u.requested i key) :=
    h.record _ fun _ _ heq => by cases heq
  cases hinj : key.isInjector with
  | true =>
    rw [request_injector hinj] at hv
    cases hv
    exact ⟨_, _, request_injector hinj, h.stocked⟩
  | false =>
    cases hf : r.find? key with
    | none =>
      rw [request_unbound hinj (by rw [h.left.registry, hf])] at hv
      cases hv
    | some e =>
      have hw : (w.registry i).find? key = some e := by rw [h.left.registry, hf]
      have hu : (u.registry i).find? key = some e := by rw [h.right.registry, hf]
      have hspot := Registry.spot?_binding hf
      have hmade := trails_at hspot (stocks_construct hs.supplies hd fun _ => hf)
        (trails_construct hs hd ht hf)
      have hdone := trails_yielding (p := .binding key.ident)
        (trails_underConstruction hmade key r.config.maxDepth)
      cases hc : e.scope.isCached with
      | false =>
        simp only [hc] at hdone
        rw [request_made hinj hw hc, h.left.registry] at hv
        rw [request_made hinj hu hc, h.right.registry]
        exact hdone _ _ hrequested a v hv
      | true =>
        simp only [hc] at hdone
        have hleft := supplies_request hs.supplies hd i key w h.left
        rw [hv] at hleft
        rw [request_kept hinj hw hc, h.left.registry] at hv
        rw [request_kept hinj hu hc, h.right.registry]
        cases hready : (u.cache i).ready? (.binding key.ident) with
        | some b =>
          -- Whatever the run in the first world adds is below a key that is kept in the second one.
          refine ⟨b, _, rfl, fun q hq => ?_⟩
          rcases hleft.1.within q hq with hq | ⟨hsingle, hdraws⟩
          · exact h.stocked q hq
          · have hspans := (Registry.draws_direct hinj hf).mp (hdraws rfl)
            exact h.right.spans ⟨b, ready?_eq_some.mp hready⟩ hspans hsingle
        | none =>
          cases hready' : (w.cache i).ready? (.binding key.ident) with
          | some a' =>
            obtain ⟨b, hb⟩ := h.stocked _ ⟨a', ready?_eq_some.mp hready'⟩
            rw [ready?_eq_some.mpr hb] at hready
            contradiction
          | none =>
            rw [hready'] at hv
            exact hdone _ _ hrequested a v hv

theorem steady_resolveWithin (hd : r.Docile) (ht : r.WellTyped) (d : Nat) : Steady i r (resolveWithin d) := by
  induction d with
  | zero => exact ⟨supplies_resolveWithin hd 0, abides_resolveWithin (Regime.upheld_kinds ht) 0,
      fun key => trails_throw _ _⟩
  | succ d ih =>
    exact ⟨supplies_resolveWithin hd (d + 1), abides_resolveWithin (Regime.upheld_kinds ht) (d + 1),
      trails_request ih hd ht⟩

end Resolution

instance Act.decidableAnswers {α : Type} (x : Act α) (w : World) : Decidable (x.Answers w) :=
  match h : x w with
  | .ok a v => isTrue ⟨a, v, h⟩
  | .error _ _ => isFalse fun ⟨_, _, ha⟩ => nomatch h.symm.trans ha

instance Act.decidableFails {α : Type} (x : Act α) (w : World) (stop : Stop) :
    Decidable (∃ v, x w = .error stop v) :=
  match h : x w with
  | .ok _ _ => isFalse fun ⟨_, hv⟩ => nomatch hv
  | .error found v =>
    if hs : found = stop then isTrue ⟨v, by rw [hs]⟩
    else isFalse fun ⟨_, hv⟩ => hs (by cases hv; rfl)

instance World.decidableStocked (w : World) (i : InjectorId) (p : Place) : Decidable (w.Stocked i p) :=
  decidable_of_iff (((w.cache i).ready? p).isSome = true)
    (Option.isSome_iff_exists.trans (exists_congr fun _ => World.ready?_eq_some))

namespace World

open Act

variable {i : InjectorId} {w u : World} {key : Key}

theorem Reachable.ahead (hw : w.Reachable) (hd : (w.registry i).Docile) (hi : i < w.injectors.length)
    (h : Later w u) : Ahead i (w.registry i) w u := by
  have hcomplete := hw.complete (i := i) rfl hd
  have hgrown := h.grown hw.quiet hd hcomplete hi
  have hreach : u.Reachable := ReflTransGen.trans hw h
  have hupheld := Regime.upheld_kinds (i := i) (hw.quiet.inv.typed i)
  exact ⟨hcomplete, hgrown.complete, hreach.obeys hupheld hgrown.complete.registry rfl, hgrown.frames,
    hgrown.stays, fun p => (hgrown.pending p).mp⟩

theorem Inv.serve_eq_fetch {d : Nat} (hw : w.Inv) (hd : w.capacity ≤ d) (i : InjectorId) (key : Key) :
    Resolution.serve (Resolution.resolveWithin d) i (.of key) w = fetch i (.of key) w := by
  have hsame := resolveWithin_eq_resolve hw (Nat.le_add_right_of_le hd) i key
  unfold fetch Request.of
  rw [Resolution.serve_eq, Resolution.serve_eq, hsame]

/-- What resolved once keeps resolving. If a key of an injector resolves whose constructors and providers do
nothing but make their values, then it resolves ever after, whatever is resolved in between and however that
ends. -/
theorem resolves_again (hw : w.Reachable) (hd : (w.registry i).Docile)
    (h : (fetch i (.of key)).Answers w) (hu : Later w u) : (fetch i (.of key)).Answers u := by
  have hquiet := Later.quiet hu hw.quiet
  cases hinj : key.isInjector with
  | true =>
    have hresolve : resolve i key u = .ok (.injector i) (u.requested i key) :=
      Resolution.request_injector hinj
    have htype : key.type.id = .injector := by simpa [Key.isInjector] using hinj
    refine ⟨.injector i, u.requested i key, ?_⟩
    unfold fetch Request.of
    rw [Resolution.serve_eq, hresolve]
    exact if_pos htype.symm
  | false =>
    obtain ⟨⟨e, he⟩, _⟩ := (founded_resolve hw hinj).1 h key.ident .refl
    have hahead := hw.ahead hd (lt_of_bound he) hu
    have hsteady := Resolution.steady_resolveWithin (i := i) hd (hw.quiet.inv.typed i)
      (max w.capacity u.capacity)
    obtain ⟨a, v, hv⟩ := h
    rw [← hw.quiet.inv.serve_eq_fetch (Nat.le_max_left _ u.capacity)] at hv
    obtain ⟨b, t, ht, _⟩ := Resolution.trails_serve hsteady key w u hahead a v hv
    rw [hquiet.inv.serve_eq_fetch (Nat.le_max_right _ _)] at ht
    exact ⟨b, t, ht⟩

def wellKey : Key := .of (.value .str)

def footKey : Key := .of (.value .int)

def slopeKey : Key := .of (.value .beta)

def hillKey : Key := .of (.value .alpha)

/-- A key that is too deep if it is reached from above, and a singleton that is made on the way to it. -/
def hillOperations : List Operation :=
  [.register wellKey ⟨.construct (.value .str) [] fun _ => .done ⟨.str "well", []⟩ rfl, some .singleton⟩
      .direct,
    .register footKey ⟨.construct (.value .int) [] fun _ => .done ⟨.int 1, []⟩ rfl, none⟩ .direct,
    .register slopeKey ⟨.construct (.value .beta) [.inject wellKey false, .inject footKey false] fun _ =>
      .done ⟨.beta "slope", []⟩ rfl, none⟩ .direct,
    .register hillKey ⟨.construct (.value .alpha) [.inject wellKey false, .inject slopeKey false] fun _ =>
      .done ⟨.alpha "hill", []⟩ rfl, none⟩ .direct,
    .finalize]

def hillConfig : Config := { maxDepth := 2 }

def hillInjector : Injector where
  registry := (Operation.runAll (.withConfig hillConfig) hillOperations).2.finalized.getD {}

/-- Reached from above the slope is too deep, and the well is left behind. By itself the slope still
resolves. -/
theorem resolves_again_slope :
    let w := ({} : World).addInjector "main" hillInjector
    (fetch 0 (.of slopeKey)).Answers w ∧
      (∃ v, fetch 0 (.of hillKey) w = .error (.error (.depthExceeded footKey 2)) v) ∧
      (w.after (fetch 0 (.of hillKey))).Stocked 0 (.binding wellKey.ident) ∧
      (fetch 0 (.of slopeKey)).Answers (w.after (fetch 0 (.of hillKey))) := by
  have hfinal : (Operation.runAll (.withConfig hillConfig) hillOperations).2.finalized =
      some hillInjector.registry := rfl
  have hfrozen : hillInjector.registry.Frozen :=
    ⟨hillConfig, hillOperations, by simp [hillOperations, Operation.Typed], hfinal⟩
  have hreachable : (({} : World).addInjector "main" hillInjector).Reachable :=
    ReflTransGen.single (.inject "main" hfrozen rfl)
  have hdocile : hillInjector.registry.Docile :=
    Registry.docile_of_operations hfinal (by
      simp [hillOperations, Operation.binding?, Strategy.Docile, Routine.Docile])
  have hanswers : (fetch 0 (.of slopeKey)).Answers (({} : World).addInjector "main" hillInjector) := by
    decide +kernel
  refine ⟨hanswers, by decide +kernel, by decide +kernel, ?_⟩
  exact resolves_again (i := 0) hreachable hdocile hanswers (.single (.fetch 0 (.of hillKey)))

end World

end Wiring
