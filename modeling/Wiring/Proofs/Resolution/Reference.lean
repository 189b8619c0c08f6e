import Mathlib.Order.Filter.AtTopBot.Basic
import Wiring.Proofs.Registry.Collections
import Wiring.Proofs.Registry.Graph

/-!
The value of a key, computed from scratch.

The reference evaluates the entries of a registry by plain recursion. It knows no identities, scopes, caches or
stacks, and it looks at nothing but the values of the keys that an entry depends on. The recursion is given a
depth; a key has a value if the recursion comes to it whenever it may go deep enough.
-/

set_option autoImplicit false

namespace Wiring

open Filter

/-- What an instance holds, whatever its identity. -/
inductive Content where
  | datum (datum : Datum)
  | collection (shape : Collection) (items : List (Option MapKey × Datum))
  | injector (id : InjectorId)
  deriving DecidableEq

def Instance.content : Instance → Content
  | object o => .datum o.datum
  | collection _ shape items => .collection shape (items.map fun e => (e.1, e.2.datum))
  | injector i => .injector i

namespace Content

def plain : Content → Instance
  | datum d => .object ⟨.made 0, d, []⟩
  | collection shape items =>
    .collection (.made 0) shape (items.map fun e => (e.1, ⟨.made 0, e.2, []⟩))
  | injector i => .injector i

def datum? : Content → Option Datum
  | datum d => some d
  | _ => none

@[simp] theorem content_plain (c : Content) : c.plain.content = c := by
  cases c <;> simp [plain, Instance.content, Function.comp_def]

@[simp] theorem type_plain_content (x : Instance) : x.content.plain.type = x.type := by
  cases x <;> rfl

end Content

def Held.content? (h : Held) : Option Content := h.instance?.map Instance.content

namespace Collection

/-- The items of a collection of values. Of equal values in a set the first stays. A value under a map key
that is there already takes the place of the earlier one. -/
def arrange : Collection → List (Option MapKey × Datum) → List (Option MapKey × Datum)
  | set _, es => (es.map (·.2)).eraseDups.map (none, ·)
  | list _, es => es.map fun e => (none, e.2)
  | map _ _, es => es.foldl (fun m e => if e.1.isSome then Table.put m e.1 e.2 else m) []

end Collection

inductive Method where
  | single (strategy : Strategy)
  | gather (shape : Collection) (parts : List (Option MapKey × Strategy))

def Method.strategies : Method → List Strategy
  | single s => [s]
  | gather _ parts => parts.map (·.2)

def Entry.method : Entry → Method
  | binding c => .single c.binding.strategy
  | aggregate g => .gather g.shape (g.contributions.map fun c => (c.mapKey, c.binding.strategy))

theorem Entry.strategies_method (e : Entry) : e.method.strategies = e.strategies := by
  cases e with
  | binding c => rfl
  | aggregate g => simp [method, Method.strategies, strategies]

def Registry.method? (r : Registry) (a : Ident) : Option Method := (r.at? a).map Entry.method

/-- The value that a routine computes on its own, when it is called for the first time. -/
def Routine.value? {t : TypeId} : Routine t → Option Datum
  | .done draft _ => some draft.datum
  | .count _ next => (next 1).value?
  | .note _ next => next.value?
  | _ => none

/-- What is computed element by element is computed still by what computes at least as much. -/
theorem mapM_mono {α β : Type} {f g : α → Option β} (h : ∀ a b, f a = some b → g a = some b)
    {as : List α} {bs : List β} (hbs : as.mapM f = some bs) : as.mapM g = some bs := by
  induction as generalizing bs with
  | nil => exact hbs
  | cons a rest ih =>
    simp only [List.mapM_cons, Option.bind_eq_bind, Option.bind_eq_some_iff] at hbs ⊢
    obtain ⟨b, hb, others, hothers, hbs⟩ := hbs
    exact ⟨b, h a b hb, others, ih hothers, hbs⟩

theorem eventually_mapM {α β : Type} {f : Nat → α → Option β} {as : List α} {bs : List β}
    (h : List.Forall₂ (fun a b => ∀ᶠ n in atTop, f n a = some b) as bs) :
    ∀ᶠ n in atTop, as.mapM (f n) = some bs := by
  induction h with
  | nil => exact Eventually.of_forall fun n => rfl
  | cons ha _ ih =>
    filter_upwards [ha, ih] with n hn hrest
    simp [List.mapM_cons, hn, hrest]

/-- What values are computed from: how keys are made, and the values that were offered for sharing. -/
structure Reference where
  injector : InjectorId
  offers : Table (Base × String) Datum
  method? : Ident → Option Method

namespace Reference

def given (m : Reference) (value : Ident → Option Content) : Point → Option Held
  | .inject key _ => (value key.ident).map fun c => .resolved c.plain
  | .lazy key _ => some (.lazy ⟨m.injector, key, key.type.id⟩)
  | .injector => some (.injector m.injector)

def call (m : Reference) (value : Ident → Option Content) {t : TypeId} (ps : List Point)
    (body : List Held → Routine t) : Option Content := do
  let held ← ps.mapM (m.given value)
  let d ← (body held).value?
  some (.datum d)

def make (m : Reference) (value : Ident → Option Content) : Strategy → Option Content
  | .construct _ ps body => m.call value ps body
  | .fixed o => some (.datum o.datum)
  | .shared name d => some (.datum ((m.offers.get? (d.type, name)).getD d))
  | .providerType _ _ ps body => m.call value ps body
  | .provider _ _ body => body.value?.map .datum
  | .alias target => value target.ident

def part (m : Reference) (value : Ident → Option Content) (p : Option MapKey × Strategy) :
    Option (Option MapKey × Datum) := do
  let c ← m.make value p.2
  let d ← c.datum?
  some (p.1, d)

/-- The value of a key by way of the values of others. -/
def step (m : Reference) (value : Ident → Option Content) (a : Ident) : Option Content :=
  if a.type = .injector then some (.injector m.injector)
  else
    match m.method? a with
    | none => none
    | some (.single s) => m.make value s
    | some (.gather shape parts) => (parts.mapM (m.part value)).map fun items =>
        .collection shape (shape.arrange items)

def valueWithin (m : Reference) : Nat → Ident → Option Content
  | 0 => fun _ => none
  | depth + 1 => m.step (m.valueWithin depth)

/-- The recursion comes to the value, if it may go deep enough. -/
def Value (m : Reference) (a : Ident) (c : Content) : Prop := ∃ depth, m.valueWithin depth a = some c

variable {m : Reference} {a : Ident} {value deeper : Ident → Option Content}

theorem step_injector (ha : a.type = .injector) : m.step value a = some (.injector m.injector) := by
  rw [step, if_pos ha]

theorem step_single (ha : a.type ≠ .injector) {s : Strategy} (hs : m.method? a = some (.single s)) :
    m.step value a = m.make value s := by
  rw [step, if_neg ha, hs]

theorem step_gather (ha : a.type ≠ .injector) {shape : Collection}
    {parts : List (Option MapKey × Strategy)} (hs : m.method? a = some (.gather shape parts)) :
    m.step value a = (parts.mapM (m.part value)).map fun items =>
      .collection shape (shape.arrange items) := by
  rw [step, if_neg ha, hs]

theorem given_mono (h : ∀ a c, value a = some c → deeper a = some c) {p : Point} {held : Held}
    (hp : m.given value p = some held) : m.given deeper p = some held := by
  cases p with
  | inject key q =>
    obtain ⟨c, hc, rfl⟩ := Option.map_eq_some_iff.mp hp
    simp [given, h _ _ hc]
  | lazy key q => exact hp
  | injector => exact hp

theorem call_mono (h : ∀ a c, value a = some c → deeper a = some c) {t : TypeId} {ps : List Point}
    {body : List Held → Routine t} {c : Content} (hc : m.call value ps body = some c) :
    m.call deeper ps body = some c := by
  obtain ⟨held, hheld, hbody⟩ := Option.bind_eq_some_iff.mp hc
  exact Option.bind_eq_some_iff.mpr ⟨held, mapM_mono (fun _ _ => given_mono h) hheld, hbody⟩

theorem make_mono (h : ∀ a c, value a = some c → deeper a = some c) {s : Strategy} {c : Content}
    (hc : m.make value s = some c) : m.make deeper s = some c := by
  cases s with
  | construct t ps body => exact call_mono h hc
  | providerType t name ps body => exact call_mono h hc
  | «alias» target => exact h _ _ hc
  | _ => exact hc

theorem part_mono (h : ∀ a c, value a = some c → deeper a = some c)
    {p : Option MapKey × Strategy} {e : Option MapKey × Datum} (he : m.part value p = some e) :
    m.part deeper p = some e := by
  obtain ⟨c, hc, hd⟩ := Option.bind_eq_some_iff.mp he
  exact Option.bind_eq_some_iff.mpr ⟨c, make_mono h hc, hd⟩

theorem step_mono (h : ∀ a c, value a = some c → deeper a = some c) {c : Content}
    (hc : m.step value a = some c) : m.step deeper a = some c := by
  simp only [step] at hc ⊢
  split at hc
  · rw [if_pos ‹_›, hc]
  · rw [if_neg ‹_›]
    split at hc
    · contradiction
    · exact make_mono h hc
    · obtain ⟨items, hitems, rfl⟩ := Option.map_eq_some_iff.mp hc
      rw [mapM_mono (fun _ _ => part_mono h) hitems]
      rfl

theorem valueWithin_succ {depth : Nat} {c : Content} (h : m.valueWithin depth a = some c) :
    m.valueWithin (depth + 1) a = some c := by
  induction depth generalizing a c with
  | zero => cases h
  | succ depth ih => exact step_mono (fun _ _ => ih) h

theorem Value.eventually {c : Content} (h : m.Value a c) :
    ∀ᶠ depth in atTop, m.valueWithin depth a = some c := by
  obtain ⟨d, hd⟩ := h
  refine eventually_atTop.mpr ⟨d, fun depth hdepth => ?_⟩
  induction hdepth with
  | refl => exact hd
  | step _ ih => exact valueWithin_succ ih

theorem Value.unique {c d : Content} (hc : m.Value a c) (hd : m.Value a d) : c = d := by
  obtain ⟨depth, hc, hd⟩ := (hc.eventually.and hd.eventually).exists
  exact Option.some.inj (hc.symm.trans hd)

theorem value_of_step {c : Content} (h : ∀ᶠ depth in atTop, m.step (m.valueWithin depth) a = some c) :
    m.Value a c :=
  h.exists.elim fun depth hdepth => ⟨depth + 1, hdepth⟩

end Reference

namespace Aggregate

def bare (e : Option MapKey × Object) : Option MapKey × Datum := (e.1, e.2.datum)

theorem datum_distinct (seen os : List Object) : (distinct seen os).map Object.datum =
    seen.map Object.datum ++ ((os.map Object.datum).removeAll (seen.map Object.datum)).eraseDups := by
  induction os generalizing seen with
  | nil => simp [distinct]
  | cons o rest ih =>
    have hseen : seen.any (fun s => s.datum = o.datum) = (seen.map Object.datum).elem o.datum := by
      rw [Bool.eq_iff_iff]
      simp
    by_cases h : (seen.map Object.datum).elem o.datum = true
    · rw [distinct, hseen, if_pos h, ih, List.map_cons, List.cons_removeAll, if_neg (by simpa using h)]
    · have hrest : (rest.map Object.datum).removeAll (seen.map Object.datum ++ [o.datum]) =
          ((rest.map Object.datum).removeAll (seen.map Object.datum)).filter fun d => !d == o.datum := by
        simp only [List.removeAll, List.filter_filter]
        refine List.filter_congr fun d _ => ?_
        rw [Bool.eq_iff_iff]
        simp [and_comm]
      rw [distinct, hseen, if_neg h, ih, List.map_cons, List.cons_removeAll, if_pos (by simpa using h),
        List.eraseDups_cons, ← hrest]
      simp

theorem bare_write (k : MapKey) (o : Object) (m : List (Option MapKey × Object)) :
    (write k o m).map bare = Table.put (m.map bare) (some k) o.datum := by
  induction m with
  | nil => rfl
  | cons e rest ih =>
    by_cases he : e.1 = some k
    · simp [write, Table.put, bare, he]
    · simp [write, Table.put, bare, he, ih]

theorem bare_gather (shape : Collection) (os : List (Option MapKey × Object)) :
    (gather shape os).map bare = shape.arrange (os.map bare) := by
  cases shape with
  | set t =>
    have hdistinct := datum_distinct [] (os.map (·.2))
    simp only [List.map_nil, List.removeAll, List.nil_append] at hdistinct
    simpa [gather, Collection.arrange, bare, Function.comp_def] using
      congrArg (List.map fun d => ((none : Option MapKey), d)) hdistinct
  | list t => simp [gather, Collection.arrange, bare]
  | map k t =>
    have hfold : ∀ m : List (Option MapKey × Object), (os.foldl enter m).map bare =
        (os.map bare).foldl (fun m e => if e.1.isSome then Table.put m e.1 e.2 else m) (m.map bare) := by
      induction os with
      | nil => exact fun _ => rfl
      | cons o rest ih =>
        intro m
        obtain ⟨k, o⟩ := o
        cases k with
        | none => simpa [enter, bare] using ih m
        | some k =>
          have := ih (write k o m)
          rw [bare_write] at this
          simpa [enter, bare] using this
    exact hfold []

end Aggregate

end Wiring
