import Wiring.Proofs.Resolution.Making
import Wiring.Proofs.Resolution.Typing

/-!
What is declared is what is requested.

The dependencies of a strategy are read off its injection points, and apart from that its points are
resolved. The two agree: before a constructor or provider runs, the keys of the direct dependencies are
requested, in their order, up to the first that cannot be resolved, and nothing else is.
-/

set_option autoImplicit false

namespace Wiring

namespace Dependency

def keys (kind : DependencyKind) (ds : List Dependency) : List Key :=
  ds.filterMap fun d => if d.kind = kind then some d.key else none

end Dependency

namespace Point

def injected? : Point → Option Key
  | inject key _ => some key
  | _ => none

def deferred? : Point → Option Key
  | lazy key _ => some key
  | _ => none

/-- What is handed in for points, given the instances that were resolved for them. -/
def supply (i : InjectorId) : List Point → List Instance → List Held
  | inject _ _ :: ps, x :: xs => .resolved x :: supply i ps xs
  | lazy key _ :: ps, xs => .lazy ⟨i, key, key.type.id⟩ :: supply i ps xs
  | injector :: ps, xs => .injector i :: supply i ps xs
  | _, _ => []

end Point

namespace Strategy

def points : Strategy → List Point
  | construct _ ps _ => ps
  | providerType _ _ ps _ => ps
  | _ => []

def target? : Strategy → Option Key
  | .alias target => some target
  | _ => none

theorem dependencies_eq (s : Strategy) : s.dependencies =
    s.points.filterMap Point.dependency? ++ s.target?.toList.map Dependency.direct := by
  cases s <;> simp [dependencies, points, target?]

theorem keys_direct (s : Strategy) : Dependency.keys .direct s.dependencies =
    s.points.filterMap Point.injected? ++ s.target?.toList := by
  rw [dependencies_eq, Dependency.keys, List.filterMap_append, List.filterMap_filterMap]
  congr 1
  · exact List.filterMap_congr fun p _ => by cases p <;> rfl
  · cases s.target? <;> rfl

theorem keys_lazy (s : Strategy) : Dependency.keys .lazy s.dependencies =
    s.points.filterMap Point.deferred? := by
  rw [dependencies_eq, Dependency.keys, List.filterMap_append, List.filterMap_filterMap]
  have htarget : (s.target?.toList.map Dependency.direct).filterMap
      (fun d => if d.kind = .lazy then some d.key else none) = [] := by
    cases s.target? <;> rfl
  rw [htarget, List.append_nil]
  exact List.filterMap_congr fun p _ => by cases p <;> rfl

end Strategy

def Event.askedFrom? (frames : List Frame) : Event → Option (InjectorId × Key)
  | requested i key fs _ => if fs = frames then some (i, key) else none
  | _ => none

def asked (frames : List Frame) (events : List Event) : List (InjectorId × Key) :=
  (events.filterMap (Event.askedFrom? frames)).reverse

theorem asked_append (frames : List Frame) (new old : List Event) :
    asked frames (new ++ old) = asked frames old ++ asked frames new := by
  simp [asked]

/-- What is requested from above a stack is not requested from the stack itself. -/
theorem asked_above {f : Frame} {frames : List Frame} {events : List Event}
    (h : ∀ e ∈ events, e.Above (f :: frames)) : asked frames events = [] := by
  refine List.reverse_eq_nil_iff.mpr (List.filterMap_eq_nil_iff.mpr fun e he => ?_)
  have habove := h e he
  cases e with
  | requested i key fs caches =>
    refine if_neg ?_
    rintro rfl
    have hle := habove.length_le
    rw [List.length_cons] at hle
    omega
  | _ => rfl

namespace World

variable {m w v u : World} {i : InjectorId} {key k : Key} {ks ls : List Key} {x : Instance}
  {xs : List Instance} {stop : Stop}

inductive Resolves (i : InjectorId) : List Key → World → List Instance → World → Prop where
  | nil (w : World) : Resolves i [] w [] w
  | cons {k : Key} {ks : List Key} {w u v : World} {x : Instance} {xs : List Instance} :
      resolve i k w = .ok x u → Resolves i ks u xs v → Resolves i (k :: ks) w (x :: xs) v

/-- Of the keys, resolved one after another, the one of the given index is the first that does not resolve. -/
def StopsAt (m : World) (i : InjectorId) (ks : List Key) (n : Nat) (stop : Stop) (v : World) : Prop :=
  ∃ k xs u, ks[n]? = some k ∧ Resolves i (ks.take n) m xs u ∧ resolve i k u = .error stop v

theorem StopsAt.cons {m u v : World} {i : InjectorId} {k : Key} {ks : List Key} {n : Nat} {stop : Stop}
    {x : Instance} (hk : resolve i k m = .ok x u) (h : u.StopsAt i ks n stop v) :
    m.StopsAt i (k :: ks) (n + 1) stop v := by
  obtain ⟨l, xs, t, hl, hxs, hstop⟩ := h
  exact ⟨l, x :: xs, t, hl, .cons hk hxs, hstop⟩

/-- In between, the keys were requested from the stack as it was and is, and nothing else was, nor was the
routine of any key on it entered. -/
structure Requests (i : InjectorId) (ks : List Key) (w v : World) : Prop where
  frames : v.frames = w.frames
  asked : ∃ new, v.events = new ++ w.events ∧ Wiring.asked w.frames new = ks.map (i, ·) ∧
    ∀ j k, .entered j k ∈ new → Absent w.frames j k.ident

theorem Requests.refl (i : InjectorId) (w : World) : w.Requests i [] w :=
  ⟨rfl, [], rfl, rfl, by simp⟩

theorem Requests.trans (h : w.Requests i ks u) (h' : u.Requests i ls v) :
    w.Requests i (ks ++ ls) v := by
  obtain ⟨hframes, old, hold, hks, hpast⟩ := h
  obtain ⟨hframes', new, hnew, hls, hrecent⟩ := h'
  rw [hframes] at hls hrecent
  refine ⟨hframes'.trans hframes, new ++ old, by rw [hnew, hold, List.append_assoc], ?_,
    fun j k hk => (List.mem_append.mp hk).elim (hrecent j k) (hpast j k)⟩
  rw [asked_append, hks, hls, List.map_append]

/-- In between, the routine of the key was entered, and after that no routine of any key on the stack. -/
def Enters (w : World) (i : InjectorId) (key : Key) (v : World) : Prop :=
  v.frames = w.frames ∧ ∃ new, v.events = new ++ .entered i key :: w.events ∧
    ∀ j k, .entered j k ∈ new → Absent w.frames j k.ident

/-- Resolving a key is one request from the stack, and whatever else is requested from above. -/
theorem requests_resolve (i : InjectorId) (k : Key) (w : World) :
    w.Requests i [k] (w.after (resolve i k)) := by
  have hconduct := resolve_conducted w.guarded_self i k
  have hafter := hconduct.left_behind
  obtain ⟨new, hnew, hall⟩ := hafter.events
  refine ⟨hafter.frames, new ++ [.requested i k w.frames w.caches], ?_, ?_, fun j l hl => ?_⟩
  · rw [hnew, List.append_assoc]
    rfl
  · rw [asked_append, asked_above fun e he => (hall e he).2]
    simp [Wiring.asked, Event.askedFrom?]
  · rcases List.mem_append.mp hl with hl | hl
    · exact (hall _ hl).1
    · simp at hl

theorem requests_of_ok (h : resolve i k w = .ok x v) : w.Requests i [k] v := by
  simpa [World.after, h] using requests_resolve i k w

theorem requests_of_error (h : resolve i k w = .error stop v) : w.Requests i [k] v := by
  simpa [World.after, h] using requests_resolve i k w

theorem Resolves.requests (h : Resolves i ks w xs v) : w.Requests i ks v := by
  induction h with
  | nil w => exact .refl i w
  | cons hk _ ih => exact (requests_of_ok hk).trans ih

theorem StopsAt.requests {n : Nat} (h : m.StopsAt i ks n stop v) : m.Requests i (ks.take (n + 1)) v := by
  obtain ⟨k, xs, u, hk, hxs, hstop⟩ := h
  rw [List.take_add_one, hk]
  exact hxs.requests.trans (requests_of_error hstop)

theorem Resolves.moment (hm : w.Moment) (h : Resolves i ks w xs v) : v.Moment := by
  induction h with
  | nil w => exact hm
  | cons hk _ ih => exact ih (hm.after_resolve hk)

theorem Inv.serve_eq_resolve (hm : m.Inv) (i : InjectorId) (k : Key) :
    Resolution.serve resolve i (.of k) m = resolve i k m := by
  rw [Request.of, Resolution.serve_eq]
  cases h : resolve i k m with
  | ok x v => exact if_pos (hm.type_of_resolve h)
  | error stop v => rfl

end World

namespace Resolution

open World

variable {m u : World} {i : InjectorId} {key : Key}

theorem points_cons (self : Resolver) (i : InjectorId) (p : Point) (ps : List Point) (w : World) :
    points self i (p :: ps) w = match point self i p w with
      | .ok h u => match points self i ps u with
        | .ok hs v => .ok (h :: hs) v
        | .error stop v => .error stop v
      | .error stop u => .error stop u := by
  change EStateM.bind (point self i p) _ w = _
  simp only [EStateM.bind]
  cases point self i p w with
  | error stop u => rfl
  | ok h u =>
    change EStateM.bind (points self i ps) _ u = _
    simp only [EStateM.bind]
    cases points self i ps u <;> rfl

theorem point_inject_eq (hm : m.Inv) (i : InjectorId) (k : Key) (q : Bool) :
    point resolve i (.inject k q) m = match resolve i k m with
      | .ok x u => .ok (.resolved x) u
      | .error stop u => .error stop u := by
  rw [← hm.serve_eq_resolve]
  change EStateM.bind (serve resolve i (.of k)) _ m = _
  simp only [EStateM.bind]
  cases serve resolve i (.of k) m <;> rfl

/-- Injection points are resolved up to the first whose key does not resolve. -/
theorem points_cases (hm : m.Moment) (i : InjectorId) (ps : List Point) :
    (∃ n stop v, m.StopsAt i (ps.filterMap Point.injected?) n stop v ∧
      points resolve i ps m = .error stop v) ∨
    ∃ xs u, Resolves i (ps.filterMap Point.injected?) m xs u ∧
      points resolve i ps m = .ok (Point.supply i ps xs) u := by
  induction ps generalizing m with
  | nil => exact .inr ⟨[], m, .nil m, rfl⟩
  | cons p rest ih =>
    rw [points_cons]
    cases p with
    | inject k q =>
      have hpoint := point_inject_eq hm.inv i k q
      cases hk : resolve i k m with
      | error stop v =>
        refine .inl ⟨0, stop, v, ⟨k, [], m, rfl, .nil m, hk⟩, ?_⟩
        simp only [hpoint, hk]
      | ok x u =>
        simp only [hpoint, hk]
        rcases ih (hm.after_resolve hk) with ⟨n, stop, v, hstop, hpoints⟩ | ⟨xs, t, hxs, hpoints⟩
        · exact .inl ⟨n + 1, stop, v, hstop.cons hk, by simp only [hpoints]⟩
        · exact .inr ⟨x :: xs, t, .cons hk hxs, by simp only [hpoints]; rfl⟩
    | lazy k q =>
      have hpoint : point resolve i (.lazy k q) m = .ok (.lazy ⟨i, k, k.type.id⟩) m := rfl
      simp only [hpoint]
      rcases ih hm with ⟨n, stop, v, hstop, hpoints⟩ | ⟨xs, t, hxs, hpoints⟩
      · exact .inl ⟨n, stop, v, hstop, by simp only [hpoints]⟩
      · exact .inr ⟨xs, t, hxs, by simp only [hpoints]; rfl⟩
    | injector =>
      have hpoint : point resolve i .injector m = .ok (.injector i) m := rfl
      simp only [hpoint]
      rcases ih hm with ⟨n, stop, v, hstop, hpoints⟩ | ⟨xs, t, hxs, hpoints⟩
      · exact .inl ⟨n, stop, v, hstop, by simp only [hpoints]⟩
      · exact .inr ⟨xs, t, hxs, by simp only [hpoints]; rfl⟩

/-- What a routine comes to when it is run once, from the given world on: what it makes gets the next number,
its failure is reported through `wrap`, and a panic goes on. It is entered at the beginning, and no routine of
a key on the stack after that. -/
inductive Ran (i : InjectorId) (key : Key) (wrap : Cause → ResolveError) {t : TypeId} (body : Routine t)
    (u : World) : EStateM.Result Stop World Instance → Prop where
  | made {d : Draft} {v : World} : run resolve wrap body (u.record (.entered i key)) = .ok d v →
      u.Enters i key v → Ran i key wrap body u
        (.ok (.object ⟨.made v.made, d.datum, d.marks⟩) { v with made := v.made + 1 })
  | failed {cause : Cause} {v : World} :
      run resolve wrap body (u.record (.entered i key)) = .error (.error (wrap cause)) v →
      body.MayFail cause → u.Enters i key v → Ran i key wrap body u (.error (.error (wrap cause)) v)
  | panicked {text : String} {v : World} :
      run resolve wrap body (u.record (.entered i key)) = .error (.panic text) v →
      u.Enters i key v → Ran i key wrap body u (.error (.panic text) v)

theorem make_eq (self : Resolver) {t : TypeId} (i : InjectorId) (key : Key)
    (wrap : Cause → ResolveError) (body : Routine t) (w : World) :
    make self i key wrap body w = match run self wrap body (w.record (.entered i key)) with
      | .ok d v => .ok (.object ⟨.made v.made, d.datum, d.marks⟩) { v with made := v.made + 1 }
      | .error stop v => .error stop v := by
  change EStateM.bind (run self wrap body) _ (w.record (.entered i key)) = _
  simp only [EStateM.bind]
  cases run self wrap body (w.record (.entered i key)) <;> rfl

theorem ran_make (hm : m.Moment) (i : InjectorId) (key : Key) (wrap : Cause → ResolveError)
    {t : TypeId} (body : Routine t) : Ran i key wrap body m (make resolve i key wrap body m) := by
  have hentered : m.Settles (m.record (.entered i key)) := Settles.observe trivial
  have hgood := sound_run (serves_resolve m.capacity) wrap body _ (hentered.inv hm.inv)
    (stable_site _ _ hentered (m.site_self i))
  have hconduct := conducts_run (discreet_resolve _) wrap body _
    (m.record (.entered i key)).guarded_self
  have enters : ∀ {v : World}, Conduct (m.record (.entered i key)).guard m.frames
      (m.record (.entered i key)) v → m.Enters i key v := by
    intro v hv
    obtain ⟨new, hnew, hall⟩ := hv.events
    exact ⟨hv.frames, new, hnew, fun j k hk => (hall _ hk).1⟩
  rw [make_eq]
  cases hrun : run resolve wrap body (m.record (.entered i key)) with
  | ok d v =>
    rw [hrun] at hconduct
    exact .made hrun (enters hconduct.1)
  | error stop v =>
    rw [hrun] at hgood hconduct
    cases stop with
    | error e =>
      obtain ⟨cause, rfl, hfail⟩ := run_error hrun
      exact .failed hrun hfail (enters hconduct)
    | panic text => exact .panicked hrun (enters hconduct)
    | blocked => exact hgood.2.elim
    | exhausted => exact hgood.2.elim

/-- What a strategy comes to once its direct dependencies are resolved, from the world on that this left. -/
def Concludes (i : InjectorId) (key : Key) (xs : List Instance) (u : World)
    (r : EStateM.Result Stop World Instance) : Strategy → Prop
  | .construct _ ps body => Ran i key (.instantiate key) (body (Point.supply i ps xs)) u r
  | .providerType _ name ps body =>
    Ran i key (.provider key name) (body (Point.supply i ps xs)) u r
  | .provider _ name body => Ran i key (.provider key name) body u r
  | .alias _ => ∃ x, xs = [x] ∧ r = .ok x u
  | .fixed o => r = .ok (.object o) u
  | .shared name d =>
    r = .ok (.object ⟨.shared d.type name, (u.offers.get? (d.type, name)).getD d, []⟩) u

theorem bind_points_cases (hm : m.Moment) (i : InjectorId) (ps : List Point)
    (f : List Held → Act Instance) :
    (∃ n stop v, m.StopsAt i (ps.filterMap Point.injected?) n stop v ∧
      (points resolve i ps >>= f) m = .error stop v) ∨
    ∃ xs u, Resolves i (ps.filterMap Point.injected?) m xs u ∧
      (points resolve i ps >>= f) m = f (Point.supply i ps xs) u := by
  change (∃ n stop v, _ ∧ EStateM.bind (points resolve i ps) f m = _) ∨
    ∃ xs u, _ ∧ EStateM.bind (points resolve i ps) f m = _
  simp only [EStateM.bind]
  rcases points_cases hm i ps with ⟨n, stop, v, hstop, hpoints⟩ | ⟨xs, u, hxs, hpoints⟩
  · exact .inl ⟨n, stop, v, hstop, by rw [hpoints]⟩
  · exact .inr ⟨xs, u, hxs, by rw [hpoints]⟩

theorem produce_cases (hm : m.Moment) (i : InjectorId) (key : Key) (s : Strategy) :
    (∃ n stop v, m.StopsAt i (Dependency.keys .direct s.dependencies) n stop v ∧
      produce resolve i key s m = .error stop v) ∨
    ∃ xs u, Resolves i (Dependency.keys .direct s.dependencies) m xs u ∧
      Concludes i key xs u (produce resolve i key s m) s := by
  have hkeys := s.keys_direct
  cases s with
  | construct t ps body =>
    rw [hkeys.trans (List.append_nil _)]
    refine (bind_points_cases hm i ps _).imp_right ?_
    rintro ⟨xs, u, hxs, hproduce⟩
    refine ⟨xs, u, hxs, ?_⟩
    change Ran _ _ _ _ _ ((points resolve i ps >>= _) m)
    rw [hproduce]
    exact ran_make (hxs.moment hm) i key _ _
  | providerType t name ps body =>
    rw [hkeys.trans (List.append_nil _)]
    refine (bind_points_cases hm i ps _).imp_right ?_
    rintro ⟨xs, u, hxs, hproduce⟩
    refine ⟨xs, u, hxs, ?_⟩
    change Ran _ _ _ _ _ ((points resolve i ps >>= _) m)
    rw [hproduce]
    exact ran_make (hxs.moment hm) i key _ _
  | provider t name body => exact .inr ⟨[], m, .nil m, ran_make hm i key _ body⟩
  | fixed o => exact .inr ⟨[], m, .nil m, rfl⟩
  | shared name d => exact .inr ⟨[], m, .nil m, rfl⟩
  | «alias» target =>
    cases h : resolve i target m with
    | error stop v => exact .inl ⟨0, stop, v, ⟨target, [], m, rfl, .nil m, h⟩, h⟩
    | ok x v => exact .inr ⟨[x], v, .cons h (.nil v), x, rfl, h⟩

end Resolution

namespace World

open Resolution

variable {m : World}

/-- The declared dependencies of a strategy are what it requests. At every moment, producing an instance by it
resolves the keys of the direct dependencies in their order, each requested once and nothing else requested
besides, up to the first that does not resolve: the error of that one is the error then, and no constructor
or provider is run. If all of them resolve, it is run, once; what it makes is the instance, and its failure
is reported for the key. An alias yields the instance of its target. Of the dependencies the direct ones are
those of points that are injected, the lazy ones those of points that are given handles; a point for the
injector declares none. -/
theorem produce_requests (hm : m.Moment) (i : InjectorId) (key : Key) (s : Strategy) :
    ((∃ n stop v, m.StopsAt i (Dependency.keys .direct s.dependencies) n stop v ∧
        produce resolve i key s m = .error stop v ∧
        m.Requests i ((Dependency.keys .direct s.dependencies).take (n + 1)) v) ∨
      ∃ xs u, Resolves i (Dependency.keys .direct s.dependencies) m xs u ∧
        m.Requests i (Dependency.keys .direct s.dependencies) u ∧
        Concludes i key xs u (produce resolve i key s m) s) ∧
    Dependency.keys .direct s.dependencies =
      s.points.filterMap Point.injected? ++ s.target?.toList ∧
    Dependency.keys .lazy s.dependencies = s.points.filterMap Point.deferred? ∧
    ∀ p ∈ s.points, p.dependency? = none ↔ p = .injector := by
  refine ⟨?_, s.keys_direct, s.keys_lazy, fun p _ => by cases p <;> simp [Point.dependency?]⟩
  rcases produce_cases hm i key s with ⟨n, stop, v, hstop, hproduce⟩ | ⟨xs, u, hxs, hconcludes⟩
  · exact .inl ⟨n, stop, v, hstop, hproduce, hstop.requests⟩
  · exact .inr ⟨xs, u, hxs, hxs.requests, hconcludes⟩

def sailKey : Key := .of (.value .alpha)

def mastKey : Key := .of (.value .beta)

def ropeKey : Key := .of (.value .gen)

def sailStrategy : Strategy :=
  .construct (.value .alpha) [.lazy ropeKey false, .inject mastKey false, .injector, .inject ropeKey false]
    fun _ => .done ⟨.alpha "sail", []⟩ rfl

def sailOperations : List Operation :=
  [.register sailKey ⟨sailStrategy, none⟩ .direct,
    .register mastKey ⟨.construct (.value .beta) [] fun _ => .fail (.message "split"), none⟩ .direct,
    .register ropeKey ⟨.fixed ⟨.fixed 0, .gen "rope", []⟩, none⟩ .direct,
    .finalize]

def sailWorld : World := ({} : World).addInjector "main"
  { registry := (Operation.runAll {} sailOperations).2.finalized.getD {} }

def sailMoment : World := sailWorld.opened 0 sailKey (.binding ⟨⟨sailStrategy, some .unscoped⟩, .direct⟩)

theorem moment_sailMoment : sailMoment.Moment := by
  have hfrozen : Registry.Frozen ((Operation.runAll {} sailOperations).2.finalized.getD {}) :=
    ⟨{}, sailOperations, by simp [sailOperations, Operation.Typed], rfl⟩
  have hreachable : sailWorld.Reachable :=
    Relation.ReflTransGen.single (.inject "main" hfrozen rfl)
  exact (hreachable.moment.opened rfl rfl (by intro f hf; cases hf) (by decide) rfl).1

/-- The first key that is injected does not resolve, so its error is the error, and the second is not
requested. -/
theorem produce_requests_sail :
    Dependency.keys .direct sailStrategy.dependencies = [mastKey, ropeKey] ∧
    Dependency.keys .lazy sailStrategy.dependencies = [ropeKey] ∧
    ∃ v, produce resolve 0 sailKey sailStrategy sailMoment =
        .error (.error (.instantiate mastKey (.message "split"))) v ∧
      sailMoment.Requests 0 [mastKey] v := by
  refine ⟨rfl, rfl, ?_⟩
  have hmast : ∃ v, resolve 0 mastKey sailMoment =
      .error (.error (.instantiate mastKey (.message "split"))) v := ⟨_, rfl⟩
  obtain ⟨v, hv⟩ := hmast
  obtain ⟨⟨n, stop, u, ⟨k, xs, t, hk, hxs, hstop⟩, hproduce, hrequests⟩ | ⟨xs, u, hxs, _⟩, _⟩ :=
    produce_requests moment_sailMoment 0 sailKey sailStrategy
  · cases n with
    | zero =>
      cases hk
      cases hxs
      cases hv.symm.trans hstop
      exact ⟨v, hproduce, hrequests⟩
    | succ n =>
      cases hxs with
      | cons hmast _ => cases hv.symm.trans hmast
  · cases hxs with
    | cons hmast _ => cases hv.symm.trans hmast

end World

end Wiring
