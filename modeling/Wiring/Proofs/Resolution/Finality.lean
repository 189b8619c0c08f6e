import Wiring.Proofs.Registry.Origin
import Wiring.Proofs.Resolution.Alike
import Wiring.Proofs.Resolution.Reachable

set_option autoImplicit false

namespace Wiring

namespace Builder

variable {b : Builder} {r : Registry}

theorem lookup_eq_view (hopen : b.finalized = none) (key : Key) :
    b.lookup key = match b.view key.ident with
      | some (.binding c) => some c.binding
      | _ => none := by
  have hat : b.entries.find? key = b.at? key.ident := rfl
  simp only [lookup, hopen, hat, view]
  cases b.at? key.ident with
  | none => rfl
  | some p =>
    cases p with
    | aggregate g => rfl
    | candidates cs =>
      simp only [Option.bind_some, Pending.frozen?]
      cases effective? b.overrides cs <;> rfl

theorem answers_of_freeze (hs : b.entries.Sorted) (hopen : b.finalized = none) (h : b.freeze = .ok r)
    (key : Key) : b.lookup key = r.lookup key ∧ b.contains key = r.contains key := by
  have hspec := freeze_spec hs
  rw [h] at hspec
  obtain ⟨_, _, hview, hcounts, _⟩ := hspec
  constructor
  · rw [lookup_eq_view hopen, ← hview]
    rfl
  · have hr : r.contains key = (b.view key.ident).isSome := by
      rw [← hview]
      exact KeyMap.contains_eq_isSome _ _
    have hb : b.contains key = (b.at? key.ident).isSome := by
      simp only [contains, hopen]
      exact KeyMap.contains_eq_isSome _ _
    rw [hr, hb, view]
    cases hp : b.at? key.ident with
    | none => rfl
    | some p =>
      obtain ⟨e, he⟩ := hcounts _ _ hp
      simp [he]

theorem answers_of_finalize (hs : b.entries.Sorted) {frozen : Builder}
    (h : b.finalize = (.ok r, frozen)) : frozen.finalized = some r ∧
      ∀ key, b.lookup key = r.lookup key ∧ b.contains key = r.contains key := by
  unfold finalize at h
  cases hf : b.finalized with
  | some s =>
    rw [hf] at h
    cases h
    exact ⟨hf, fun key => by simp [lookup, contains, hf]⟩
  | none =>
    rw [hf] at h
    cases hr : b.freeze with
    | error e => simp [hr] at h
    | ok s =>
      rw [hr] at h
      cases h
      exact ⟨rfl, answers_of_freeze hs hf hr⟩

end Builder

namespace Operation

/-- What an operation comes to after the registry is frozen. -/
def late : Operation → Except BindError Unit
  | register key _ _ => .error (.finalized key)
  | declareAggregate key _ => .error (.finalized key)
  | contribute key _ _ _ => .error (.finalized key)
  | setAggregateScope key _ => .error (.finalized key)
  | declareOverride overriding overridden => .error (.finalizedOverride overriding overridden)
  | finalize => .ok ()

theorem apply_late {b : Builder} {r : Registry} (h : b.finalized = some r) (op : Operation) :
    op.apply b = (op.late, b) := by
  have hf : b.isFinalized = true := by simp [Builder.isFinalized, h]
  cases op with
  | declareOverride x y => simp [apply, Builder.declareOverride, hf, late]
  | finalize => simp [apply, Builder.finalize, h, Except.map, late]
  | _ => exact apply_frozen hf rfl

theorem runAll_late {b : Builder} {r : Registry} (h : b.finalized = some r) (ops : List Operation) :
    runAll b ops = (ops.map late, b) := by
  induction ops with
  | nil => rfl
  | cons op rest ih => simp only [runAll, apply_late h, ih, List.map_cons]

end Operation

inductive Quest where
  | fetch (i : InjectorId) (req : Request)
  | pull (l : Lazy)
  | points (i : InjectorId) (ps : List Point)

def Quest.act : Quest → Act (List Held)
  | fetch i req => do
    let a ← World.fetch i req
    pure [.resolved a]
  | pull l => do
    let a ← World.pull l
    pure [.resolved a]
  | points i ps => World.resolvePoints i ps

/-- What is done once a registry is there: an operation is tried on its builder, an injector is made from it, or
something is resolved. -/
inductive Move where
  | operate (op : Operation)
  | inject (name : String)
  | resolve (q : Quest)

def Move.isOperation : Move → Bool
  | operate _ => true
  | _ => false

namespace World

def result {α : Type} (w : World) (x : Act α) : Except Stop α :=
  match x w with
  | .ok a _ => .ok a
  | .error stop _ => .error stop

/-- What is resolved one after another, and the world that this leads to. Of an operation nothing reaches the
world but the value that it offers. -/
def play (r : Registry) (w : World) : List Move → List (Except Stop (List Held)) × World
  | [] => ([], w)
  | .operate op :: rest => play r (w.offerAll [op]) rest
  | .inject name :: rest => play r (w.addInjector name { registry := r }) rest
  | .resolve q :: rest =>
    let (results, final) := play r (w.after q.act) rest
    (w.result q.act :: results, final)

def Offered (w u : World) (r : Registry) : Prop :=
  ∀ a e, r.at? a = some e → ∀ name d, .shared name d ∈ e.strategies →
    ∃ v, w.offers.get? (d.type, name) = some v ∧ u.offers.get? (d.type, name) = some v

/-- The worlds differ in what is on offer only, and in nothing that is bound or that the registry binds. -/
structure Abreast (r : Registry) (w u : World) : Prop where
  alike : Alike (fun _ => True) w.registry w u
  frames : u.frames = w.frames
  offered : ∀ i, Offered w u (w.registry i)
  fresh : Offered w u r

variable {r : Registry} {w u v t : World}

theorem get?_offer {b : Binding} {k : Base × String} {d : Datum} (h : w.offers.get? k = some d) :
    (w.offer b).offers.get? k = some d := by
  unfold offer
  split
  · rename_i name d' _
    simp only [Table.offer]
    split
    · exact h
    · rename_i hnone
      rw [Table.get?_put_ne _ _ fun hk => by rw [hk, h] at hnone; contradiction]
      exact h
  · exact h

theorem get?_offerAll {ops : List Operation} {k : Base × String} {d : Datum}
    (h : w.offers.get? k = some d) : (w.offerAll ops).offers.get? k = some d := by
  unfold offerAll
  induction ops.filterMap Operation.binding? generalizing w with
  | nil => exact h
  | cons b rest ih => exact ih (get?_offer h)

theorem offerAll_eq (w : World) (ops : List Operation) :
    w.offerAll ops = { w with offers := (w.offerAll ops).offers } := by
  unfold offerAll
  induction ops.filterMap Operation.binding? generalizing w with
  | nil => rfl
  | cons b rest ih =>
    rw [List.foldl_cons, ih]
    unfold offer
    split <;> rfl

theorem Offered.shared_eq (h : Offered w u r) {a : Ident} {e : Entry} (he : r.at? a = some e)
    {name : String} {d : Datum} (hd : .shared name d ∈ e.strategies) :
    u.shared name d = w.shared name d := by
  obtain ⟨v, hw, hu⟩ := h a e he name d hd
  simp only [World.shared, hw, hu]

theorem Abreast.offer (h : Abreast r w u) {offers : Table (Base × String) Datum}
    (hkept : ∀ k d, w.offers.get? k = some d → offers.get? k = some d) :
    Abreast r { w with offers } u := by
  have hoffered : ∀ {s}, Offered w u s → Offered { w with offers } u s := by
    intro s hs a e he name d hd
    obtain ⟨v, hw, hu⟩ := hs a e he name d hd
    exact ⟨v, hkept _ _ hw, hu⟩
  exact ⟨⟨fun _ => rfl, h.alike.injectors, h.alike.directory, h.alike.holdings, h.alike.tallies,
    h.alike.made, h.alike.notes, h.alike.events, h.alike.underway,
    fun i _ _ _ he _ _ hd => (hoffered (h.offered i)).shared_eq he hd⟩, h.frames,
    fun i => hoffered (h.offered i), hoffered h.fresh⟩

theorem registry_addInjector_eq (w : World) (name : String) (j : Injector) (i : InjectorId) :
    (w.addInjector name j).registry i = if i = w.injectors.length then j.registry else w.registry i := by
  simp only [World.registry, injector_addInjector]
  split <;> rfl

theorem Abreast.inject (h : Abreast r w u) (name : String) :
    Abreast r (w.addInjector name { registry := r }) (u.addInjector name { registry := r }) := by
  have hall : ∀ i, Offered (w.addInjector name { registry := r })
      (u.addInjector name { registry := r }) ((w.addInjector name { registry := r }).registry i) := by
    intro i
    rw [registry_addInjector_eq]
    split
    · exact h.fresh
    · exact h.offered i
  refine ⟨⟨fun _ => rfl, ?_, ?_, h.alike.holdings, h.alike.tallies, h.alike.made, h.alike.notes,
    h.alike.events, h.alike.underway, fun i _ _ _ he _ _ hd => (hall i).shared_eq he hd⟩, h.frames, hall,
    h.fresh⟩
  · simp only [addInjector, h.alike.injectors]
  · simp only [addInjector, h.alike.injectors, h.alike.directory]

theorem blind_quest (rs : InjectorId → Registry) (q : Quest) :
    Act.Blind (fun _ => True) rs q.act fun _ => True := by
  have hresolve : (Resolution.blindness (fun _ => True) rs).Resolves resolve resolve :=
    Resolution.blindness_resolve fun _ _ _ _ _ s _ => s.confined_univ
  cases q with
  | fetch i req =>
    exact Act.Blind.bind (Resolution.Judgement.holds_serve hresolve trivial req) fun _ _ =>
      Act.blind_pure trivial
  | pull l =>
    exact Act.Blind.bind (Resolution.Judgement.holds_pull hresolve trivial) fun _ _ => Act.blind_pure trivial
  | points i ps =>
    exact Act.Blind.imp (Resolution.Judgement.holds_points hresolve trivial ps) fun _ _ => trivial

theorem Abreast.resolve (h : Abreast r w u) (q : Quest) :
    u.result q.act = w.result q.act ∧ Abreast r (w.after q.act) (u.after q.act) := by
  have advance : ∀ {v t}, Onward (fun _ => True) w.registry w u v t → Abreast r v t := by
    intro v t hvt
    have hregistry : v.registry = w.registry := funext hvt.alike.registry
    have hoffered : ∀ {s}, Offered w u s → Offered v t s := by
      intro s hs
      unfold Offered
      rw [hvt.left.offers, hvt.right.offers]
      exact hs
    refine ⟨by rw [hregistry]; exact hvt.alike, ?_, fun i => ?_, hoffered h.fresh⟩
    · rw [hvt.left.frames, hvt.right.frames, h.frames]
    · rw [hregistry]
      exact hoffered (h.offered i)
  unfold result World.after
  rcases (blind_quest w.registry q w u h.alike).cases with
    ⟨a, v, t, hv, ht, _, hvt⟩ | ⟨stop, v, t, hv, ht, hvt⟩ <;>
    rw [hv, ht] <;> exact ⟨rfl, advance hvt⟩

/-- With the operations left out, everything that is resolved comes to the same. -/
theorem play_abreast (h : Abreast r w u) (moves : List Move) :
    (play r w moves).1 = (play r u (moves.filter fun m => !m.isOperation)).1 ∧
      Abreast r (play r w moves).2 (play r u (moves.filter fun m => !m.isOperation)).2 := by
  induction moves generalizing w u with
  | nil => exact ⟨rfl, h⟩
  | cons m rest ih =>
    cases m with
    | operate op =>
      refine ih ?_
      rw [offerAll_eq]
      exact h.offer fun _ _ => get?_offerAll
    | inject name => exact ih (h.inject name)
    | resolve q =>
      obtain ⟨hsame, hnext⟩ := h.resolve q
      obtain ⟨hrest, hfinal⟩ := ih hnext
      exact ⟨by simp [play, Move.isOperation, hsame, hrest], hfinal⟩

theorem offered_of_mem {ops : List Operation} {op : Operation} (ho : op ∈ ops) {b : Binding}
    (hb : op.binding? = some b) {name : String} {d : Datum} (hs : b.strategy = .shared name d) :
    ∃ v, (w.offerAll ops).offers.get? (d.type, name) = some v := by
  obtain ⟨before, later, rfl⟩ := List.append_of_mem ho
  have hsplit : w.offerAll (before ++ op :: later) = ((w.offerAll before).offer b).offerAll later := by
    simp [offerAll, hb]
  have hoffered : ∃ v, ((w.offerAll before).offer b).offers.get? (d.type, name) = some v := by
    simp only [offer, hs, Table.offer]
    split
    · exact ⟨_, ‹_›⟩
    · exact ⟨d, Table.get?_put_self _ _ _⟩
  obtain ⟨v, hv⟩ := hoffered
  exact ⟨v, hsplit ▸ get?_offerAll hv⟩

theorem abreast_self (hw : ∀ i, w.Offered w (w.registry i)) (hr : w.Offered w r) : Abreast r w w :=
  ⟨⟨fun _ => rfl, rfl, rfl, rfl, rfl, rfl, rfl, rfl, fun _ _ => rfl, fun _ _ _ _ _ _ _ _ => rfl⟩, rfl,
    hw, hr⟩

end World

/-- What is settled once a registry is frozen. The builder answers what it answered before, and what the
registry answers. Every later operation is refused as late, whatever else is wrong with it, and freezing gives
the same registry again. With the operations left out that are tried in between, whatever is resolved comes to
the same, if to begin with all shared values that are bound are on offer. -/
theorem Operation.freezing_settles {config : Config} {ops : List Operation} {r : Registry} {frozen : Builder}
    (h : (runAll (.withConfig config) ops).2.finalize = (.ok r, frozen)) :
    (∀ key, (runAll (.withConfig config) ops).2.lookup key = r.lookup key ∧
      frozen.lookup key = r.lookup key ∧
      (runAll (.withConfig config) ops).2.contains key = r.contains key ∧
      frozen.contains key = r.contains key) ∧
    (∀ more, runAll frozen more = (more.map late, frozen)) ∧
    frozen.finalize = (.ok r, frozen) ∧
    ∀ w : World, (∀ i, w.Offered w (w.registry i)) → ∀ moves,
      (World.play r (w.offerAll ops) moves).1 =
        (World.play r (w.offerAll ops) (moves.filter fun m => !m.isOperation)).1 ∧
      World.Alike (fun _ => True) (World.play r (w.offerAll ops) moves).2.registry
        (World.play r (w.offerAll ops) moves).2
        (World.play r (w.offerAll ops) (moves.filter fun m => !m.isOperation)).2 := by
  have hsorted := (coherent_runAll (Builder.coherent_withConfig config) ops).sorted
  obtain ⟨hfrozen, hanswers⟩ := Builder.answers_of_finalize hsorted h
  have hrun : (runAll (.withConfig config) (ops ++ [.finalize])).2.finalized = some r := by
    rw [runAll_append]
    simpa [runAll, apply, h] using hfrozen
  refine ⟨fun key => ?_, runAll_late hfrozen, by simp [Builder.finalize, hfrozen], fun w hw moves => ?_⟩
  · obtain ⟨hlookup, hcontains⟩ := hanswers key
    exact ⟨hlookup, by simp [Builder.lookup, hfrozen], hcontains, by simp [Builder.contains, hfrozen]⟩
  · have hbound : ∀ i, (w.offerAll ops).Offered (w.offerAll ops) ((w.offerAll ops).registry i) := by
      intro i a e he name d hd
      rw [World.offerAll_eq] at he
      obtain ⟨v, hv, _⟩ := hw i a e he name d hd
      exact ⟨v, World.get?_offerAll hv, World.get?_offerAll hv⟩
    have hfresh : (w.offerAll ops).Offered (w.offerAll ops) r := by
      intro a e he name d hd
      obtain ⟨op, ho, b, hb, hs⟩ := handed_in hrun he hd
      rcases List.mem_append.mp ho with ho | ho
      · obtain ⟨v, hv⟩ := World.offered_of_mem (w := w) ho hb hs
        exact ⟨v, hv, hv⟩
      · rw [List.mem_singleton.mp ho] at hb
        contradiction
    obtain ⟨hresults, hfinal⟩ := World.play_abreast (World.abreast_self hbound hfresh) moves
    exact ⟨hresults, hfinal.alike⟩

namespace World

def badgeKey : Key := .of (.value .alpha)

def badge (text : String) : Operation := .register badgeKey ⟨.shared "badge" (.alpha text), none⟩ .direct

/-- A second registration, of another value under the same name, comes too late in every respect. -/
theorem freezing_settles_badge :
    ∃ r frozen, (Operation.runAll (.withConfig {}) [badge "first"]).2.finalize = (.ok r, frozen) ∧
      Operation.runAll frozen [badge "second"] = ([.error (.finalized badgeKey)], frozen) ∧
      (play r (({} : World).offerAll [badge "first"])
        [.inject "main", .operate (badge "second"), .resolve (.fetch 0 (.of badgeKey))]).1 =
          [.ok [.resolved (.object ⟨.shared .alpha "badge", .alpha "first", []⟩)]] := by
  refine ⟨_, _, rfl, ?_⟩
  obtain ⟨_, hlate, _, hplay⟩ := @Operation.freezing_settles {} [badge "first"] _ _ rfl
  refine ⟨hlate [badge "second"], ?_⟩
  have hbound : ∀ i, ({} : World).Offered {} (({} : World).registry i) := by
    intro i a e he
    rw [registry, injector_of_le (Nat.zero_le i)] at he
    contradiction
  rw [(hplay {} hbound _).1]
  rfl

end World

end Wiring
