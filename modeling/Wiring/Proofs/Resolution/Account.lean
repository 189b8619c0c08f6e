import Wiring.Proofs.Resolution.Reachable

/-!
Accounts of errors and panics.

What is known of the keys under construction when a key is requested decides what can be told of how the
request may fail. An account says both, and that what is known is carried along from each key to those it
depends on directly. Then every failure of every resolution is as told, whatever constructors and providers do.
-/

set_option autoImplicit false

namespace Wiring

/-- The routine fails with the cause, if its requests are answered in some way. -/
def Routine.MayFail {t : TypeId} (cause : Cause) : Routine t → Prop
  | .fail c => c = cause
  | .count _ next => ∃ n, (next n).MayFail cause
  | .note _ next => next.MayFail cause
  | .find _ next => ∃ found, (next found).MayFail cause
  | .get _ _ next => ∃ answer, (next answer).MayFail cause
  | .pull _ next => ∃ answer, (next answer).MayFail cause
  | _ => False

/-- The error is that the routine of the strategy failed, given what its injection points may yield. -/
def Strategy.Reports (i : InjectorId) (key : Key) : Strategy → ResolveError → Prop
  | .construct _ ps body, .instantiate k cause => k = key ∧
      ∃ held, List.Forall₂ (Held.Fits i) ps held ∧ (body held).MayFail cause
  | .providerType _ name ps body, .provider k n cause => k = key ∧ n = name ∧
      ∃ held, List.Forall₂ (Held.Fits i) ps held ∧ (body held).MayFail cause
  | .provider _ name body, .provider k n cause => k = key ∧ n = name ∧ body.MayFail cause
  | _, _ => False

/-- The routine ends with a value, and resolves nothing on the way. -/
def Routine.Docile {t : TypeId} : Routine t → Prop
  | .done .. => True
  | .count _ next => ∀ n, (next n).Docile
  | .note _ next => next.Docile
  | .find _ next => ∀ found, (next found).Docile
  | _ => False

def Strategy.Docile : Strategy → Prop
  | .construct _ ps body => ∀ i held, List.Forall₂ (Held.Fits i) ps held → (body held).Docile
  | .providerType _ _ ps body => ∀ i held, List.Forall₂ (Held.Fits i) ps held → (body held).Docile
  | .provider _ _ body => body.Docile
  | _ => True

def Entry.Docile : Entry → Prop
  | .binding c => c.binding.strategy.Docile
  | .aggregate g => ∀ c ∈ g.contributions, c.binding.strategy.Docile

theorem Entry.docile_iff {e : Entry} : e.Docile ↔ ∀ s ∈ e.strategies, s.Docile := by
  cases e with
  | binding c => simp [Docile, strategies]
  | aggregate g => simp [Docile, strategies]

theorem Routine.Docile.not_mayFail {t : TypeId} {body : Routine t} (h : body.Docile) (cause : Cause) :
    ¬ body.MayFail cause := by
  induction body with
  | done => exact id
  | count _ _ ih => exact fun hf => hf.elim fun n hn => ih n (h n) hn
  | note _ _ ih => exact ih h
  | find _ _ ih => exact fun hf => hf.elim fun found hn => ih found (h found) hn
  | _ => exact h.elim

theorem Strategy.Docile.not_reports {s : Strategy} (h : s.Docile) {i : InjectorId} {key : Key}
    {error : ResolveError} : ¬ s.Reports i key error := by
  intro hr
  cases s with
  | construct t ps body =>
    cases error with
    | instantiate k cause =>
      obtain ⟨_, held, hfits, hf⟩ := hr
      exact (h i held hfits).not_mayFail cause hf
    | _ => exact hr.elim
  | providerType t name ps body =>
    cases error with
    | provider k n cause =>
      obtain ⟨_, _, held, hfits, hf⟩ := hr
      exact (h i held hfits).not_mayFail cause hf
    | _ => exact hr.elim
  | provider t name body =>
    cases error with
    | provider k n cause => exact Routine.Docile.not_mayFail h cause hr.2.2
    | _ => exact hr.elim
  | _ => exact hr.elim

namespace Registry

def Docile (r : Registry) : Prop := ∀ a e, r.at? a = some e → e.Docile

def Lacks (r : Registry) (key : Key) : Prop := key.isInjector = false ∧ r.find? key = none

end Registry

/-- Which keys are requested while which others are under construction, what an error of such a request tells,
given what was noted before it and by its end, and whether it may end with a panic. -/
structure Account (r : Registry) (i : InjectorId) (before : List Event) where
  leads : List Key → Key → Prop
  tells : ResolveError → List Event → Prop
  panics : Prop
  next : ∀ {path key e target}, leads path key → key.isInjector = false → r.find? key = some e →
    path.length < r.config.maxDepth → Dependency.direct target ∈ e.dependencies →
    leads (path ++ [key]) target
  unsatisfied : ∀ {path key after}, leads path key → r.Lacks key →
    tells (.unsatisfied key path.getLast?) after
  circular : ∀ {path key after}, leads path key → key.isInjector = false → (path.map Key.ident).Nodup →
    path.dropWhile (fun k => k.ident ≠ key.ident) ≠ [] →
    tells (.circular (path.dropWhile (fun k => k.ident ≠ key.ident) ++ [key])) after
  depthExceeded : ∀ {path key after}, leads path key → key.isInjector = false →
    ((path ++ [key]).map Key.ident).Nodup → r.config.maxDepth ≤ path.length →
    tells (.depthExceeded key r.config.maxDepth) after
  reports : ∀ {path key e s error after}, leads path key → r.find? key = some e →
    s ∈ e.strategies → s.Reports i key error →
    (∃ new, after = new ++ before ∧ .entered i key ∈ new) → tells error after
  panicked : ∀ {path key e s}, leads path key → r.find? key = some e → s ∈ e.strategies → ¬ s.Docile → panics

namespace Account

variable {r : Registry} {i : InjectorId} {before : List Event} {acc : Account r i before}
  {path : List Key} {key target : Key} {e : Entry}

structure Makes (acc : Account r i before) (path : List Key) (key : Key) (e : Entry) : Prop where
  leads : acc.leads path key
  made : key.isInjector = false
  bound : r.find? key = some e
  room : path.length < r.config.maxDepth

theorem Makes.next (h : acc.Makes path key e) (hd : Dependency.direct target ∈ e.dependencies) :
    acc.leads (path ++ [key]) target :=
  acc.next h.leads h.made h.bound h.room hd

def Ends (acc : Account r i before) : Stop → List Event → Prop
  | .error e, after => acc.tells e after
  | .panic _, _ => acc.panics
  | _, _ => True

/-- The account that knows of a requested key no more than that it is one of those of `P`, to which all
direct dependencies of what is bound belong. It rules out the errors that no resolution ends with. -/
def among (r : Registry) (i : InjectorId) (before : List Event) (P : Key → Prop)
    (hp : ∀ key e target, r.find? key = some e → Dependency.direct target ∈ e.dependencies → P target) :
    Account r i before where
  leads _ key := P key
  tells e _ := match e with
    | .unsatisfied key _ => P key ∧ r.Lacks key
    | .incorrectType .. => False
    | .injectorDropped .. => False
    | _ => True
  panics := True
  next _ _ he _ hd := hp _ _ _ he hd
  unsatisfied h hlacks := ⟨h, hlacks⟩
  circular _ _ _ _ := trivial
  depthExceeded _ _ _ _ := trivial
  reports {_ _ _ s error _} _ _ _ hr _ := by
    cases error with
    | instantiate key cause => trivial
    | provider key name cause => trivial
    | _ => cases s <;> exact hr.elim
  panicked _ _ _ _ := trivial

end Account

namespace World

variable {w v : World} {i : InjectorId} {path : List Key} {before : List Event}

structure Posted (i : InjectorId) (path : List Key) (before : List Event) (w : World) : Prop where
  stack : w.underConstruction i = path
  since : before <:+ w.events

theorem Posted.congr (hw : w.Posted i path before) (h : Path w v) (hf : v.frames = w.frames) :
    v.Posted i path before := by
  refine ⟨?_, ?_⟩
  · rw [underConstruction, hf]
    exact hw.stack
  · obtain ⟨new, hnew⟩ := h.events
    rw [hnew]
    exact hw.since.trans (List.suffix_append new w.events)

theorem stable_posted : Act.Stable (Posted i path before) :=
  fun _ _ h hw => hw.congr h.path h.frames

theorem Posted.under (hw : w.Posted i path before) (key : Key) :
    (w.under i key).Posted i (path ++ [key]) before := by
  refine ⟨?_, hw.since⟩
  rw [underConstruction_under, hw.stack]

end World

namespace Act

open World

variable {α β : Type} {C D : World → Prop} {x : Act α} {Q : α → World → Prop}
  {E : Stop → List Event → Prop}

def Answers (x : Act α) (w : World) : Prop := ∃ a v, x w = .ok a v

theorem Answers.bind {f : α → Act β} {w v : World} {a : α} (hx : x w = .ok a v)
    (hf : (f a).Answers v) : (x >>= f).Answers w := by
  obtain ⟨b, u, hb⟩ := hf
  refine ⟨b, u, ?_⟩
  change EStateM.bind x f w = _
  simp only [EStateM.bind, hx, hb]

/-- From every world in its context, how an action may end without an answer is as described, given what is
noted by then. -/
def Fails (C : World → Prop) (x : Act α) (E : Stop → List Event → Prop) : Prop :=
  ∀ w : World, w.Inv → C w → ∀ stop v, x w = .error stop v → E stop v.events

theorem Fails.of_imp (h : Fails C x E) (hd : ∀ w, D w → C w) : Fails D x E :=
  fun w hw hw' => h w hw (hd w hw')

theorem fails_pure {a : α} : Fails C (pure a) E := by
  intro w _ _ stop v h
  cases h

theorem Fails.bind {f : α → Act β} (hc : Stable C) (hs : Sound C x Q) (hx : Fails C x E)
    (hf : ∀ a, Fails (fun w => C w ∧ Q a w) (f a) E) : Fails C (x >>= f) E := by
  intro w hw hcw stop v h
  rcases bind_error h with h | ⟨a, u, ha, h⟩
  · exact hx w hw hcw stop v h
  · have hgood := hs w hw hcw
    rw [ha] at hgood
    exact hf a u (hgood.1.inv hw) ⟨hc w u hgood.1 hcw, hgood.2⟩ stop v h

theorem attempt_ne_error {w v : World} {e : ResolveError} : attempt x w ≠ .error (.error e) v := by
  intro h
  simp only [attempt] at h
  cases hx : x w with
  | ok a u =>
    rw [hx] at h
    cases h
  | error stop u =>
    rw [hx] at h
    cases stop <;> cases h

end Act

namespace Resolution

open World Act

/-- A resolver that fails, in requests nested at most `d` deep, as any account tells. -/
def Accounts (d : Nat) (self : Resolver) : Prop :=
  ∀ i key r n before (acc : Account r i before) path, acc.leads path key →
    Fails (fun w => Site d i r n w ∧ w.Posted i path before) (self i key) acc.Ends

variable {d n : Nat} {self : Resolver} {i : InjectorId} {r : Registry} {key : Key}
  {before : List Event} {acc : Account r i before} {path : List Key} {e : Entry}

theorem fails_serve (hs : Serves d self) (ha : Accounts d self) (hl : acc.leads path key) :
    Fails (fun w => Site d i r n w ∧ w.Posted i path before) (serve self i (.of key))
      acc.Ends := by
  refine Fails.bind (stable_site.and stable_posted) ((hs i key r n).of_imp fun _ h => h.1)
    (ha i key r n before acc path hl) fun a w _ h e v he => ?_
  have ht : a.type = (Request.of key).expected := h.2.1
  rw [if_pos ht] at he
  cases he

theorem fails_point (hs : Serves d self) (ha : Accounts d self) {p : Point}
    (hl : ∀ b, Dependency.direct b ∈ p.dependency?.toList → acc.leads path b) :
    Fails (fun w => Site d i r n w ∧ w.Posted i path before) (point self i p)
      acc.Ends := by
  cases p with
  | inject key q =>
    exact Fails.bind (stable_site.and stable_posted)
      ((sound_serve hs i (.of key)).of_imp fun _ h => h.1)
      (fails_serve hs ha (hl key (List.mem_singleton_self _))) fun a => fails_pure
  | lazy key q => exact fails_pure
  | injector => exact fails_pure

theorem fails_points (hs : Serves d self) (ha : Accounts d self) {ps : List Point}
    (hl : ∀ b, Dependency.direct b ∈ ps.filterMap Point.dependency? → acc.leads path b) :
    Fails (fun w => Site d i r n w ∧ w.Posted i path before) (points self i ps)
      acc.Ends := by
  induction ps with
  | nil => exact fails_pure
  | cons p rest ih =>
    refine Fails.bind (stable_site.and stable_posted) ((sound_point hs p).of_imp fun _ h => h.1)
      (fails_point hs ha fun b hb => hl b ?_) fun held => ?_
    · exact List.mem_filterMap.mpr ⟨p, List.mem_cons_self, Option.mem_toList.mp hb⟩
    · refine Fails.bind ((stable_site.and stable_posted).and (stable_const _))
        ((sound_points hs rest).of_imp fun _ h => h.1.1)
        ((ih fun b hb => hl b ?_).of_imp fun w h => h.1) fun _ => fails_pure
      obtain ⟨q, hq, hb⟩ := List.mem_filterMap.mp hb
      exact List.mem_filterMap.mpr ⟨q, List.mem_cons_of_mem _ hq, hb⟩

/-- Whatever the requests of a routine are answered, its error is a failure of its own. -/
theorem run_error {t : TypeId} {wrap : Cause → ResolveError} {body : Routine t} {w v : World}
    {error : ResolveError} (h : run self wrap body w = .error (.error error) v) :
    ∃ cause, error = wrap cause ∧ body.MayFail cause := by
  induction body generalizing w with
  | done draft fits => cases h
  | fail cause =>
    cases h
    exact ⟨cause, rfl, rfl⟩
  | panic text => cases h
  | count tally next ih =>
    rcases bind_error h with h | ⟨k, u, _, h⟩
    · cases h
    · obtain ⟨cause, he, hf⟩ := ih k h
      exact ⟨cause, he, k, hf⟩
  | note m next ih =>
    rcases bind_error h with h | ⟨_, u, _, h⟩
    · cases h
    · exact ih h
  | find name next ih =>
    rcases bind_error h with h | ⟨s, u, _, h⟩
    · cases h
    · obtain ⟨cause, he, hf⟩ := ih _ h
      exact ⟨cause, he, _, hf⟩
  | get j req next ih =>
    rcases bind_error h with h | ⟨answer, u, _, h⟩
    · exact absurd h attempt_ne_error
    · obtain ⟨cause, he, hf⟩ := ih answer h
      exact ⟨cause, he, answer, hf⟩
  | pull l next ih =>
    rcases bind_error h with h | ⟨answer, u, _, h⟩
    · exact absurd h attempt_ne_error
    · obtain ⟨cause, he, hf⟩ := ih answer h
      exact ⟨cause, he, answer, hf⟩

theorem answers_run {t : TypeId} (self : Resolver) (wrap : Cause → ResolveError)
    {body : Routine t} (h : body.Docile) (w : World) : (run self wrap body).Answers w := by
  induction body generalizing w with
  | done draft fits => exact ⟨draft, w, rfl⟩
  | count tally next ih => exact .bind rfl (ih _ (h _) _)
  | note n next ih => exact .bind rfl (ih h _)
  | find name next ih => exact .bind rfl (ih _ (h _) _)
  | fail => exact h.elim
  | panic => exact h.elim
  | get => exact h.elim
  | pull => exact h.elim

theorem answers_make {t : TypeId} (self : Resolver) (i : InjectorId) (key : Key)
    (wrap : Cause → ResolveError) {body : Routine t} (h : body.Docile) (w : World) :
    (make self i key wrap body).Answers w := by
  obtain ⟨draft, v, hv⟩ := answers_run self wrap h (w.record (.entered i key))
  exact .bind rfl (.bind hv (.bind rfl ⟨_, _, rfl⟩))

theorem fails_call (hs : Serves d self) (hm : acc.Makes path key e) {s : Strategy} (hse : s ∈ e.strategies)
    {t : TypeId} (wrap : Cause → ResolveError) {body : Routine t}
    (hreports : ∀ cause, body.MayFail cause → s.Reports i key (wrap cause)) (hdocile : s.Docile → body.Docile) :
    Fails (fun w => Site d i r n w ∧ w.Posted i (path ++ [key]) before) (make self i key wrap body)
      acc.Ends := by
  rintro w hw ⟨hsite, hposted⟩ stop v h
  have hentered : w.Settles (w.record (.entered i key)) := Settles.observe trivial
  rcases bind_error h with h | ⟨_, _, hu, h⟩
  · cases h
  · cases hu
    rcases bind_error h with h | ⟨draft, u, _, h⟩
    · cases stop with
      | error error =>
        obtain ⟨cause, rfl, hfail⟩ := run_error h
        have hgood := sound_run hs wrap body _ (hentered.inv hw) (stable_site _ _ hentered hsite)
        rw [h] at hgood
        obtain ⟨new, hnew⟩ := hgood.1.path.events
        obtain ⟨old, hold⟩ := hposted.since
        refine acc.reports hm.leads hm.bound hse (hreports cause hfail) ⟨new ++ .entered i key :: old, ?_, by simp⟩
        rw [hnew, List.append_assoc]
        exact congrArg (new ++ .entered i key :: ·) hold.symm
      | panic text =>
        refine acc.panicked hm.leads hm.bound hse fun hs => ?_
        obtain ⟨draft, u, hu⟩ := answers_run self wrap (hdocile hs) (w.record (.entered i key))
        rw [hu] at h
        cases h
      | _ => trivial
    · rcases bind_error h with h | ⟨_, _, _, h⟩ <;> cases h

theorem fails_produce (hs : Serves d self) (ha : Accounts d self) (hm : acc.Makes path key e)
    {s : Strategy} (hse : s ∈ e.strategies) :
    Fails (fun w => Site d i r n w ∧ w.Posted i (path ++ [key]) before) (produce self i key s)
      acc.Ends := by
  have hl : ∀ b, Dependency.direct b ∈ s.dependencies → acc.leads (path ++ [key]) b :=
    fun b hb => hm.next (Entry.dependencies_subset hse hb)
  cases s with
  | construct t ps body =>
    refine Fails.bind (stable_site.and stable_posted) ((sound_points hs ps).of_imp fun _ h => h.1)
      (fails_points hs ha hl) fun held w hw hc => ?_
    exact fails_call hs hm hse (.instantiate key) (fun cause hf => ⟨rfl, held, hc.2.1, hf⟩)
      (fun hd => hd i held hc.2.1) w hw hc.1
  | fixed o => exact fails_pure
  | shared name datum =>
    intro w _ _ stop v h
    cases h
  | providerType t name ps body =>
    refine Fails.bind (stable_site.and stable_posted) ((sound_points hs ps).of_imp fun _ h => h.1)
      (fails_points hs ha hl) fun held w hw hc => ?_
    exact fails_call hs hm hse (.provider key name) (fun cause hf => ⟨rfl, rfl, held, hc.2.1, hf⟩)
      (fun hd => hd i held hc.2.1) w hw hc.1
  | provider t name body => exact fails_call hs hm hse (.provider key name) (fun cause hf => ⟨rfl, rfl, hf⟩) id
  | «alias» target => exact ha i target r n before acc _ (hl target (List.mem_singleton_self _))

variable {w v : World} {p : Place} {x : Act Instance} {g : Aggregate} {stop : Stop}

theorem kept_error_making (h : kept i p x w = .error stop v) (hfree : w.slot i p ≠ some .pending) :
    w.slot i p = none ∧
      ∃ left, x ((w.record (.acquired i p .vacant)).withCache i fun c => c.reserve p) =
        .error stop left ∧ v = left.withCache i fun c => c.release p :=
  (kept_error h).resolve_left fun hbusy => hfree hbusy.1

theorem fails_element (hs : Serves d self) (ha : Accounts d self)
    (hm : acc.Makes path key (.aggregate g)) {index : Nat} {c : Contribution}
    (hc : g.contributions[index]? = some c) :
    Fails (fun w => Inside d i key r n w ∧ w.Posted i (path ++ [key]) before)
      (element self i key index c) acc.Ends := by
  have hproduce : Fails (fun w => Site d i r n w ∧ w.Posted i (path ++ [key]) before)
      (produce self i key c.binding.strategy) acc.Ends :=
    fails_produce hs ha hm (List.mem_map.mpr ⟨c, List.mem_of_getElem? hc, rfl⟩)
  have hspot := Registry.spot?_element hm.bound hc
  rintro w hw ⟨hin, hposted⟩ stop v h
  rw [← hin.site.registry] at hspot
  have h := yielding_eq_error.mp h
  cases hscope : c.binding.effectiveScope.isCached with
  | true =>
    rw [hscope, if_pos rfl] at h
    obtain ⟨hvacant, left, hleft, rfl⟩ := kept_error_making h (hin.free index)
    obtain ⟨hreserve, hsite⟩ := hin.reserve hspot hscope hvacant
    have hreserved := hposted.congr (.single hreserve) (frames_reserved ..)
    exact hproduce _ (hreserve.inv hw) ⟨hsite, hreserved⟩ stop left hleft
  | false =>
    rw [hscope, if_neg (by simp)] at h
    have hbegun : w.Settles (w.record (.produced i (.element key.ident index) c.source)) :=
      Settles.observe ⟨_, hspot, rfl, hscope⟩
    exact hproduce _ (hbegun.inv hw)
      ⟨stable_site _ _ hbegun hin.site, stable_posted _ _ hbegun hposted⟩ stop v h

theorem fails_elements (hs : Serves d self) (ha : Accounts d self)
    (hm : acc.Makes path key (.aggregate g)) (cs : List Contribution) (index : Nat)
    (hcs : g.From index cs) :
    Fails (fun w => Inside d i key r n w ∧ w.Posted i (path ++ [key]) before)
      (elements self i key index cs) acc.Ends := by
  induction cs generalizing index with
  | nil => exact fails_pure
  | cons c rest ih =>
    refine Fails.bind (stable_inside.and stable_posted)
      ((sound_element hs hm.bound hcs.head).of_imp fun _ h => h.1)
      (fails_element hs ha hm hcs.head) fun a => ?_
    exact Fails.bind ((stable_inside.and stable_posted).and (stable_const _))
      ((sound_elements hs hm.bound rest (index + 1) hcs.tail).of_imp fun _ h => h.1.1)
      ((ih (index + 1) hcs.tail).of_imp fun _ h => h.1) fun _ => fails_pure

theorem fails_fill (hs : Serves d self) (ha : Accounts d self) (hm : acc.Makes path key e) :
    Fails (fun w => Inside d i key r n w ∧ w.Posted i (path ++ [key]) before)
      (fill self i key e) acc.Ends := by
  cases e with
  | binding c =>
    exact (fails_produce hs ha hm (List.mem_singleton_self _)).of_imp fun w h => ⟨h.1.site, h.2⟩
  | aggregate g =>
    refine Fails.bind (stable_inside.and stable_posted)
      ((sound_elements hs hm.bound g.contributions 0 g.from_zero).of_imp fun _ h => h.1)
      (fails_elements hs ha hm g.contributions 0 g.from_zero) fun es w _ h stop v he => ?_
    obtain ⟨items, hitems⟩ := g.exists_assemble key h.2.1
    rw [hitems] at he
    cases he

theorem fails_underConstruction (hw : w.Inv) (hbound : (w.registry i).at? key.ident = some e)
    (hl : acc.leads path key) (hinj : key.isInjector = false) (hstack : w.underConstruction i = path)
    (hx : ∀ left, (∀ q, q.key = key.ident → w.slot i q ≠ some .pending) → (w.under i key).Inv →
      path.length < r.config.maxDepth → x (w.under i key) = .error stop left → acc.Ends stop left.events)
    (h : underConstruction i key r.config.maxDepth x w = .error stop v) : acc.Ends stop v.events := by
  rcases underConstruction_error h with
    ⟨_, hcycle, rfl⟩ | ⟨_, hfree, hlimit, rfl⟩ | ⟨hfree, hroom, left, hleft, rfl⟩
  · have hdistinct := hw.distinct_stack i
    rw [hstack] at hdistinct hcycle ⊢
    exact acc.circular hl hinj hdistinct hcycle
  · have hdistinct := (hw.push hbound hfree).distinct_stack i
    rw [underConstruction_under, hstack] at hdistinct
    rw [hstack] at hlimit
    exact acc.depthExceeded hl hinj hdistinct hlimit
  · rw [hstack] at hroom
    exact hx left (fun q hq => hw.vacant hfree hq) (hw.push hbound hfree) hroom hleft

theorem accounts_request (hs : Serves d self) (ha : Accounts d self) :
    Accounts (d + 1) (request self) := by
  rintro i key r n before acc path hl w hw ⟨hsite, hposted⟩ stop v h
  have hr := hsite.registry
  subst hr
  rcases request_cases self i key w with
    ⟨_, heq⟩ | ⟨hinj, hf, heq⟩ | ⟨e, hinj, hf, ⟨a, _, _, heq⟩ | heq⟩ <;> rw [heq] at h
  · cases h
  · cases h
    rw [requester_eq_getLast?, hposted.stack]
    exact acc.unsatisfied hl ⟨hinj, hf⟩
  · cases h
  · have hrequested := settles_requested w i key
    have hnoted := stable_site _ _ hrequested hsite
    -- What is made is made with the key on top of the stack.
    have hunder := (stable_posted _ _ hrequested hposted).under key
    refine fails_underConstruction (hrequested.inv hw) hf hl hinj hposted.stack
      (fun left hfree hpushed hroom hleft => ?_) (yielding_eq_error.mp h)
    have hentered := hnoted.under hfree
    have hm : acc.Makes path key e := ⟨hl, hinj, hf, hroom⟩
    cases hc : e.scope.isCached with
    | true =>
      rw [hc, if_pos rfl] at hleft
      obtain ⟨hvacant, made, hmade, rfl⟩ := kept_error_making hleft (hfree _ rfl)
      obtain ⟨hreserve, hin⟩ := hentered.reserve hf hc hvacant
      rw [construct_eq_fill] at hmade
      exact fails_fill hs ha hm _ (hreserve.inv hpushed)
        ⟨hin, hunder.congr (.single hreserve) (frames_reserved ..)⟩ stop made hmade
    | false =>
      rw [hc, if_neg (by simp), construct_eq_fill] at hleft
      have hbegun := settles_begun hf hc hentered.site.registry
      exact fails_fill hs ha hm _ (hbegun.inv hpushed)
        ⟨stable_inside _ _ hbegun (hentered.inside hf hc), stable_posted _ _ hbegun hunder⟩ stop left hleft

theorem accounts_resolveWithin (d : Nat) : Accounts d (resolveWithin d) := by
  induction d with
  | zero =>
    intro i key r n before acc path _ w hw _ stop v h
    cases h
    trivial
  | succ d ih => exact accounts_request (serves_resolveWithin d) ih

end Resolution

namespace World

variable {w v : World} {i : InjectorId} {key : Key}

theorem accounts_resolve (d : Nat) : Resolution.Accounts d resolve := by
  rintro i key r n before acc path hl w hw ⟨hsite, hposted⟩
  exact Resolution.accounts_resolveWithin w.capacity i key r n before acc path hl w hw
    ⟨⟨hsite.registry, hsite.depth, Nat.le_add_right _ _⟩, hposted⟩

theorem Inv.resolve_ends (hw : w.Inv) {acc : Account (w.registry i) i w.events}
    (hl : acc.leads (w.underConstruction i) key) {stop : Stop} (h : resolve i key w = .error stop v) :
    acc.Ends stop v.events :=
  accounts_resolve w.capacity i key (w.registry i) _ w.events acc _ hl w hw
    ⟨w.site_self i, rfl, List.suffix_refl _⟩ stop v h

end World

end Wiring
