import Mathlib.Data.List.Forall2
import Wiring.Resolution
import Wiring.Proofs.Registry.Graph

/-!
What holds of all that resolution consists of.

A judgement is of two actions side by side, and of what they answer. If it is kept up by the steps that actions
are put together from, and holds of nested requests, then it holds of injection points, of routines and of
strategies, whatever these are. A judgement of one action alone takes no notice of the other.
-/

set_option autoImplicit false

namespace Wiring

/-- All that the routine requests is requested of certain injectors. -/
def Routine.Confined (S : InjectorId → Prop) {t : TypeId} : Routine t → Prop
  | .count _ next => ∀ n, (next n).Confined S
  | .note _ next => next.Confined S
  | .find _ next => ∀ found, (next found).Confined S
  | .get i _ next => S i ∧ ∀ answer, (next answer).Confined S
  | .pull l next => S l.injector ∧ ∀ answer, (next answer).Confined S
  | _ => True

def Held.Within (S : InjectorId → Prop) : Held → Prop
  | .lazy l => S l.injector
  | .injector i => S i
  | .resolved _ => True

/-- The routine of the strategy keeps to certain injectors if it is given no others. -/
def Strategy.Confined (S : InjectorId → Prop) : Strategy → Prop
  | .construct _ _ body => ∀ held, (∀ h ∈ held, h.Within S) → (body held).Confined S
  | .providerType _ _ _ body => ∀ held, (∀ h ∈ held, h.Within S) → (body held).Confined S
  | .provider _ _ body => body.Confined S
  | _ => True

theorem Routine.confined_univ {t : TypeId} (body : Routine t) : body.Confined fun _ => True := by
  induction body with
  | count _ _ ih => exact ih
  | note _ _ ih => exact ih
  | find _ _ ih => exact ih
  | get _ _ _ ih => exact ⟨trivial, ih⟩
  | pull _ _ ih => exact ⟨trivial, ih⟩
  | _ => trivial

theorem Strategy.confined_univ (s : Strategy) : s.Confined fun _ => True := by
  cases s with
  | construct => exact fun _ _ => Routine.confined_univ _
  | providerType => exact fun _ _ => Routine.confined_univ _
  | provider => exact Routine.confined_univ _
  | _ => trivial

/-- The routine hands over the draft, if its requests are answered in some way. -/
def Routine.MayMake {t : TypeId} (draft : Draft) : Routine t → Prop
  | .done d _ => d = draft
  | .count _ next => ∃ n, (next n).MayMake draft
  | .note _ next => next.MayMake draft
  | .find _ next => ∃ found, (next found).MayMake draft
  | .get _ _ next => ∃ answer, (next answer).MayMake draft
  | .pull _ next => ∃ answer, (next answer).MayMake draft
  | _ => False

def Routine.Drafts {t : TypeId} (body : Routine t) (x : Instance) : Prop :=
  ∃ id draft, body.MayMake draft ∧ x = .object ⟨id, draft.datum, draft.marks⟩

theorem Routine.type_of_mayMake {t : TypeId} {body : Routine t} {draft : Draft}
    (h : body.MayMake draft) : .value draft.datum.type = t := by
  induction body with
  | done d fits => exact h ▸ fits
  | fail => exact h.elim
  | panic => exact h.elim
  | count tally next ih => exact h.elim fun n hn => ih n hn
  | note n next ih => exact ih h
  | find name next ih => exact h.elim fun found hn => ih found hn
  | get j req next ih => exact h.elim fun answer hn => ih answer hn
  | pull l next ih => exact h.elim fun answer hn => ih answer hn

theorem Routine.Drafts.type {t : TypeId} {body : Routine t} {x : Instance} (h : body.Drafts x) : x.type = t := by
  obtain ⟨id, draft, hmake, rfl⟩ := h
  exact Routine.type_of_mayMake hmake

/-- What an injection point may be given, if the law says what keys may yield. -/
def Held.Given (law : Key → Instance → Prop) (i : InjectorId) : Point → Held → Prop
  | .inject key _, .resolved x => x.type = key.type.id ∧ law key x
  | .lazy key _, .lazy l => l = ⟨i, key, key.type.id⟩
  | .injector, .injector j => j = i
  | _, _ => False

theorem Held.Given.imp {law law' : Key → Instance → Prop} {i : InjectorId} {p : Point} {h : Held}
    (hg : h.Given law i p) (hl : ∀ key x, law key x → law' key x) : h.Given law' i p := by
  cases p <;> cases h <;> first | exact ⟨hg.1, hl _ _ hg.2⟩ | exact hg

theorem Held.Given.within {law : Key → Instance → Prop} {S : InjectorId → Prop} {i : InjectorId}
    (hi : S i) {p : Point} {h : Held} (hg : h.Given law i p) : h.Within S := by
  cases p <;> cases h <;> first | trivial | exact hg.elim | (cases hg; exact hi)

theorem within_of_given {law : Key → Instance → Prop} {S : InjectorId → Prop} {i : InjectorId}
    (hi : S i) {ps : List Point} {held : List Held} (hg : List.Forall₂ (Held.Given law i) ps held) :
    ∀ h ∈ held, h.Within S := by
  induction hg with
  | nil => simp
  | cons h _ ih => exact List.forall_mem_cons.mpr ⟨h.within hi, ih⟩

/-- What a strategy may make, if the laws say what keys may yield and what is given for shared values. -/
def Strategy.Makes (law : Key → Instance → Prop) (offers : String → Datum → Datum → Prop) (i : InjectorId) :
    Strategy → Instance → Prop
  | .construct _ ps body, x => ∃ held, List.Forall₂ (Held.Given law i) ps held ∧ (body held).Drafts x
  | .fixed o, x => x = .object o
  | .shared name d, x => ∃ datum, offers name d datum ∧ x = .object ⟨.shared d.type name, datum, []⟩
  | .providerType _ _ ps body, x => ∃ held, List.Forall₂ (Held.Given law i) ps held ∧ (body held).Drafts x
  | .provider _ _ body, x => body.Drafts x
  | .alias target, x => law target x

theorem Strategy.Makes.imp {law law' : Key → Instance → Prop} {offers : String → Datum → Datum → Prop}
    {i : InjectorId} {s : Strategy} {x : Instance} (h : s.Makes law offers i x)
    (hl : ∀ key x, law key x → law' key x) : s.Makes law' offers i x := by
  cases s with
  | construct t ps body =>
    obtain ⟨held, hgiven, hx⟩ := h
    exact ⟨held, hgiven.imp fun _ _ hg => hg.imp hl, hx⟩
  | providerType t name ps body =>
    obtain ⟨held, hgiven, hx⟩ := h
    exact ⟨held, hgiven.imp fun _ _ hg => hg.imp hl, hx⟩
  | «alias» target => exact hl target x h
  | _ => exact h

def World.shared (w : World) (name : String) (d : Datum) : Datum :=
  (w.offers.get? (d.type, name)).getD d

theorem World.shared_eq {w : World} {name : String} {d offered : Datum}
    (h : w.offers.get? (d.type, name) = some offered) : w.shared name d = offered := by
  rw [World.shared, h, Option.getD_some]

theorem World.type_shared {w : World} (h : ∀ t name d, w.offers.get? (t, name) = some d → d.type = t)
    (name : String) (d : Datum) : (w.shared name d).type = d.type := by
  cases ho : w.offers.get? (d.type, name) with
  | none => rw [World.shared, ho, Option.getD_none]
  | some offered => rw [World.shared_eq ho, h _ _ _ ho]

namespace Act

variable {α β : Type} {x : Act α} {Q : α → Prop} {R : β → Prop}

def look (f : World → α) : Act α := do pure (f (← get))

def Ensures (x : Act α) (Q : α → Prop) : Prop := ∀ w a v, x w = .ok a v → Q a

theorem ensures_trivial (x : Act α) : x.Ensures fun _ => True := fun _ _ _ _ => trivial

theorem ensures_pure {a : α} (h : Q a) : Ensures (pure a) Q := by
  intro w b v hb
  cases hb
  exact h

theorem ensures_throw (stop : Stop) : Ensures (throw stop : Act α) Q := by
  intro w a v ha
  cases ha

theorem Ensures.bind {f : α → Act β} (hx : x.Ensures Q) (hf : ∀ a, Q a → (f a).Ensures R) :
    (x >>= f).Ensures R := by
  intro w b v hb
  change EStateM.bind x f w = _ at hb
  simp only [EStateM.bind] at hb
  cases hw : x w with
  | ok a u =>
    rw [hw] at hb
    exact hf a (hx w a u hw) u b v hb
  | error stop u =>
    rw [hw] at hb
    cases hb

end Act

namespace Resolution

open Act

/-- A judgement that goes for what is done in certain steps. -/
structure Judgement where
  /-- The injectors that may be asked. -/
  Asks : InjectorId → Prop
  /-- What is known of an instance that a key of an injector yields. -/
  Law : InjectorId → Key → Instance → Prop
  /-- The shared values that may be looked up, and what is known of what is found. -/
  Shares : String → Datum → Prop
  Offers : String → Datum → Datum → Prop
  /-- The events that may be noted. -/
  Notes : Event → Prop
  Holds : {α : Type} → Act α → Act α → (α → Prop) → Prop
  holds_pure : ∀ {α : Type} {Q : α → Prop} {a : α}, Q a → Holds (pure a) (pure a) Q
  holds_refuse : ∀ {α : Type} {Q : α → Prop} (e : ResolveError), Holds (refuse e) (refuse e) Q
  holds_panic : ∀ {α : Type} {Q : α → Prop} (text : String), Holds (throw (.panic text)) (throw (.panic text)) Q
  holds_bind : ∀ {α β : Type} {x y : Act α} {f g : α → Act β} {Q : α → Prop} {R : β → Prop},
    Holds x y Q → (∀ a, Q a → Holds (f a) (g a) R) → Holds (x >>= f) (y >>= g) R
  holds_attempt : ∀ {α : Type} {x y : Act α} {Q : α → Prop}, Holds x y Q →
    Holds (attempt x) (attempt y) fun _ => True
  holds_live : ∀ i, Holds (look fun w => w.isLive i) (look fun w => w.isLive i) fun _ => True
  holds_named : ∀ name, Holds (look fun w => w.directory.get? name) (look fun w => w.directory.get? name)
    fun _ => True
  holds_shared : ∀ {name d}, Shares name d →
    Holds (look fun w => w.shared name d) (look fun w => w.shared name d) (Offers name d)
  holds_count : ∀ tally, Holds (count tally) (count tally) fun _ => True
  holds_note : ∀ n, Holds (modify fun w => w.note n) (modify fun w => w.note n) fun _ => True
  holds_fresh : Holds fresh fresh fun _ => True
  holds_record : ∀ {e}, Notes e → Holds (record e) (record e) fun _ => True

namespace Judgement

def Resolves (J : Judgement) (self other : Resolver) : Prop :=
  ∀ i key, J.Asks i → J.Holds (self i key) (other i key) (J.Law i key)

structure Admits (J : Judgement) (s : Strategy) : Prop where
  confined : s.Confined J.Asks
  shares : ∀ name d, s = .shared name d → J.Shares name d

variable {J : Judgement} {self other : Resolver} {i : InjectorId} {key : Key}

theorem holds_imp {α : Type} {x y : Act α} {Q R : α → Prop} (h : J.Holds x y Q) (hq : ∀ a, Q a → R a) :
    J.Holds x y R := by
  simpa using J.holds_bind h fun a ha => J.holds_pure (hq a ha)

theorem holds_seen {α β : Type} {f : World → α} {k l : α → Act β} {Q : α → Prop} {R : β → Prop}
    (h : J.Holds (look f) (look f) Q) (hk : ∀ a, Q a → J.Holds (k a) (l a) R) :
    J.Holds (do k (f (← get))) (do l (f (← get))) R := by
  change J.Holds (look f >>= k) (look f >>= l) R
  exact J.holds_bind h hk

theorem holds_ofExcept {α : Type} (x : Except ResolveError α) :
    J.Holds (ofExcept x) (ofExcept x) fun a => x = .ok a := by
  cases x with
  | ok a => exact J.holds_pure rfl
  | error e => exact J.holds_refuse _

theorem holds_serve (hs : J.Resolves self other) (hi : J.Asks i) (req : Request) :
    J.Holds (serve self i req) (serve other i req) fun x => x.type = req.expected ∧ J.Law i req.key x := by
  refine J.holds_bind (hs i req.key hi) fun x hx => ?_
  split
  · rename_i ht
    exact J.holds_pure ⟨ht, hx⟩
  · exact J.holds_refuse _

theorem holds_pull (hs : J.Resolves self other) {l : Lazy} (hl : J.Asks l.injector) :
    J.Holds (pull self l) (pull other l) fun _ => True := by
  have hlive : ∀ live : Bool, J.Holds
      (if live then serve self l.injector ⟨l.key, l.expected⟩ else refuse (.injectorDropped l.key))
      (if live then serve other l.injector ⟨l.key, l.expected⟩ else refuse (.injectorDropped l.key))
      fun _ => True := by
    intro live
    split
    · exact holds_imp (holds_serve hs hl _) fun _ _ => trivial
    · exact J.holds_refuse _
  exact holds_seen (J.holds_live l.injector) fun live _ => hlive live

theorem holds_point (hs : J.Resolves self other) (hi : J.Asks i) (p : Point) :
    J.Holds (point self i p) (point other i p) (Held.Given (J.Law i) i p) := by
  cases p with
  | inject key q => exact J.holds_bind (holds_serve hs hi (.of key)) fun x hx => J.holds_pure hx
  | lazy key q => exact J.holds_pure rfl
  | injector => exact J.holds_pure rfl

theorem holds_points (hs : J.Resolves self other) (hi : J.Asks i) (ps : List Point) :
    J.Holds (points self i ps) (points other i ps) (List.Forall₂ (Held.Given (J.Law i) i) ps) := by
  induction ps with
  | nil => exact J.holds_pure .nil
  | cons p rest ih =>
    refine J.holds_bind (holds_point hs hi p) fun h hh => ?_
    exact J.holds_bind ih fun held hheld => J.holds_pure (.cons hh hheld)

theorem holds_run (hs : J.Resolves self other) {t : TypeId} (wrap : Cause → ResolveError)
    {body : Routine t} (h : body.Confined J.Asks) :
    J.Holds (run self wrap body) (run other wrap body) fun draft => body.MayMake draft := by
  induction body with
  | done draft fits => exact J.holds_pure rfl
  | fail cause => exact J.holds_refuse _
  | panic text => exact J.holds_panic text
  | count tally next ih =>
    exact J.holds_bind (J.holds_count tally) fun n _ => holds_imp (ih n (h n)) fun _ hd => ⟨n, hd⟩
  | note n next ih => exact J.holds_bind (J.holds_note n) fun _ _ => ih h
  | find name next ih =>
    refine holds_seen (k := fun found => run self wrap (next found))
      (l := fun found => run other wrap (next found)) (J.holds_named name) fun found _ => ?_
    exact holds_imp (ih found (h found)) fun _ hd => ⟨found, hd⟩
  | get j req next ih =>
    exact J.holds_bind (J.holds_attempt (holds_serve hs h.1 req)) fun answer _ =>
      holds_imp (ih answer (h.2 answer)) fun _ hd => ⟨answer, hd⟩
  | pull l next ih =>
    exact J.holds_bind (J.holds_attempt (holds_pull hs h.1)) fun answer _ =>
      holds_imp (ih answer (h.2 answer)) fun _ hd => ⟨answer, hd⟩

theorem holds_make (hs : J.Resolves self other) (he : J.Notes (.entered i key)) {t : TypeId}
    (wrap : Cause → ResolveError) {body : Routine t} (h : body.Confined J.Asks) :
    J.Holds (make self i key wrap body) (make other i key wrap body) body.Drafts := by
  refine J.holds_bind (J.holds_record he) fun _ _ => ?_
  refine J.holds_bind (holds_run hs wrap h) fun draft hdraft => ?_
  exact J.holds_bind J.holds_fresh fun id _ => J.holds_pure ⟨id, draft, hdraft, rfl⟩

theorem holds_produce (hs : J.Resolves self other) (hi : J.Asks i) (he : J.Notes (.entered i key))
    {s : Strategy} (h : J.Admits s) :
    J.Holds (produce self i key s) (produce other i key s) (s.Makes (J.Law i) J.Offers i) := by
  cases s with
  | construct t ps body =>
    refine J.holds_bind (holds_points hs hi ps) fun held hheld => ?_
    refine holds_imp (holds_make hs he _ (h.confined held ?_)) fun _ hx => ⟨held, hheld, hx⟩
    exact within_of_given hi hheld
  | fixed o => exact J.holds_pure rfl
  | shared name d =>
    let given := fun datum => (pure (.object ⟨.shared d.type name, datum, []⟩) : Act Instance)
    exact holds_seen (k := given) (l := given) (J.holds_shared (h.shares name d rfl)) fun datum hd =>
      J.holds_pure ⟨datum, hd, rfl⟩
  | providerType t name ps body =>
    refine J.holds_bind (holds_points hs hi ps) fun held hheld => ?_
    refine holds_imp (holds_make hs he _ (h.confined held ?_)) fun _ hx => ⟨held, hheld, hx⟩
    exact within_of_given hi hheld
  | provider t name body => exact holds_make hs he _ h.confined
  | «alias» target => exact hs i target hi

theorem holds_elements {P : Contribution → Instance → Prop} {cs : List Contribution} {index : Nat}
    (h : ∀ n c, cs[n]? = some c →
      J.Holds (element self i key (index + n) c) (element other i key (index + n) c) (P c)) :
    J.Holds (elements self i key index cs) (elements other i key index cs)
      (List.Forall₂ (fun c e => e.1 = c.mapKey ∧ P c e.2) cs) := by
  induction cs generalizing index with
  | nil => exact J.holds_pure .nil
  | cons c rest ih =>
    refine J.holds_bind (h 0 c rfl) fun x hx => ?_
    refine J.holds_bind (ih fun n d hd => ?_) fun es hes => J.holds_pure (.cons ⟨rfl, hx⟩ hes)
    rw [Nat.add_right_comm]
    exact h (n + 1) d hd

theorem holds_aggregate {R : List (Option MapKey × Instance) → Prop} {g : Aggregate}
    (ha : J.Notes (.assembled i key.ident))
    (h : J.Holds (elements self i key 0 g.contributions) (elements other i key 0 g.contributions) R) :
    J.Holds (construct self i key (.aggregate g)) (construct other i key (.aggregate g)) fun x =>
      ∃ id es items, R es ∧ g.assemble key es = .ok items ∧ x = .collection id g.shape items := by
  refine J.holds_bind h fun es hes => ?_
  refine J.holds_bind (holds_ofExcept _) fun items hitems => ?_
  refine J.holds_bind (J.holds_record ha) fun _ _ => ?_
  exact J.holds_bind J.holds_fresh fun id _ => J.holds_pure ⟨id, es, items, hes, hitems, rfl⟩

/-- The judgement goes for what an injector does around a construction, whatever is made in it. -/
structure Surrounds (J : Judgement) (i : InjectorId) : Prop where
  notes : ∀ e : Event, (∀ i key frames caches, e ≠ .requested i key frames caches) → J.Notes e
  kept : ∀ {p} {x y : Act Instance}, J.Holds x y (fun _ => True) →
    J.Holds (kept i p x) (kept i p y) fun _ => True
  underConstruction : ∀ {key limit} {x y : Act Instance}, J.Holds x y (fun _ => True) →
    J.Holds (underConstruction i key limit x) (underConstruction i key limit y) fun _ => True

variable {x y : Act Instance}

theorem holds_yielding (hj : J.Surrounds i) (h : J.Holds x y fun _ => True) (p : Place) :
    J.Holds (yielding i p x) (yielding i p y) fun _ => True := by
  refine J.holds_bind h fun a _ => J.holds_bind (J.holds_record (hj.notes _ ?_)) fun _ _ => J.holds_pure trivial
  simp

theorem holds_element (hj : J.Surrounds i) (hs : J.Resolves self other) (hi : J.Asks i) {c : Contribution}
    (h : J.Admits c.binding.strategy) (index : Nat) :
    J.Holds (element self i key index c) (element other i key index c) fun _ => True := by
  have hmade : J.Holds
      (do record (.produced i (.element key.ident index) c.source)
          produce self i key c.binding.strategy)
      (do record (.produced i (.element key.ident index) c.source)
          produce other i key c.binding.strategy) fun _ => True :=
    J.holds_bind (J.holds_record (hj.notes _ (by simp))) fun _ _ =>
      holds_imp (holds_produce hs hi (hj.notes _ (by simp)) h) fun _ _ => trivial
  refine holds_yielding hj ?_ _
  split
  · exact hj.kept hmade
  · exact hmade

theorem holds_construct (hj : J.Surrounds i) (hs : J.Resolves self other) (hi : J.Asks i) {e : Entry}
    (h : ∀ s ∈ e.strategies, J.Admits s) :
    J.Holds (construct self i key e) (construct other i key e) fun _ => True := by
  cases e with
  | binding c =>
    exact J.holds_bind (J.holds_record (hj.notes _ (by simp))) fun _ _ =>
      holds_imp (holds_produce hs hi (hj.notes _ (by simp)) (h _ List.mem_cons_self)) fun _ _ => trivial
  | aggregate g =>
    refine holds_imp (holds_aggregate (hj.notes _ (by simp)) (holds_elements (P := fun _ _ => True)
      fun n c hc => ?_)) fun _ _ => trivial
    exact holds_element hj hs hi (h _ (List.mem_map.mpr ⟨c, List.mem_of_getElem? hc, rfl⟩)) _

end Judgement

/-- What is done once a request is noted, given what was found in the registry and in the cache. -/
def respond (self : Resolver) (i : InjectorId) (key : Key) (found : Option Entry) (asker : Option Key)
    (ready : Option Instance) (limit : Nat) : Act Instance :=
  if key.isInjector then pure (.injector i)
  else
    match found with
    | none => refuse (.unsatisfied key asker)
    | some entry =>
      yielding i (.binding key.ident) <|
        if entry.scope.isCached then
          match ready with
          | some a => pure a
          | none => underConstruction i key limit (kept i (.binding key.ident) (construct self i key entry))
        else underConstruction i key limit (construct self i key entry)

theorem request_eq_respond (self : Resolver) (i : InjectorId) (key : Key) (w : World) :
    request self i key w = respond self i key ((w.registry i).find? key) (w.requester i)
      ((w.cache i).ready? (.binding key.ident)) (w.registry i).config.maxDepth
      (w.record (.requested i key w.frames w.caches)) := rfl

namespace Judgement

variable {J : Judgement}

theorem holds_respond {self other : Resolver} {i : InjectorId} (hj : J.Surrounds i)
    (hs : J.Resolves self other) (hi : J.Asks i) (key : Key) {found : Option Entry}
    (h : ∀ e, found = some e → ∀ s ∈ e.strategies, J.Admits s) (asker : Option Key)
    (ready : Option Instance) (limit : Nat) :
    J.Holds (respond self i key found asker ready limit) (respond other i key found asker ready limit)
      fun _ => True := by
  unfold respond
  split
  · exact J.holds_pure trivial
  · cases found with
    | none => exact J.holds_refuse _
    | some e =>
      have hmade : J.Holds (construct self i key e) (construct other i key e) fun _ => True :=
        holds_construct hj hs hi (h e rfl)
      refine holds_yielding hj ?_ _
      split
      · cases ready with
        | some a => exact J.holds_pure trivial
        | none => exact hj.underConstruction (hj.kept hmade)
      · exact hj.underConstruction hmade

/-- What goes for requests if it goes for those nested in them goes for resolution at any depth. -/
theorem resolves_resolveWithin (hstop : ∀ i key, J.Holds (throw .exhausted) (throw .exhausted) (J.Law i key))
    (hstep : ∀ self, J.Resolves self self → J.Resolves (request self) (request self)) (d : Nat) :
    J.Resolves (resolveWithin d) (resolveWithin d) := by
  induction d with
  | zero => exact fun i key _ => hstop i key
  | succ d ih => exact hstep _ ih

end Judgement

end Resolution

end Wiring
