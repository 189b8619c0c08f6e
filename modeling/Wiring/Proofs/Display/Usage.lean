import Wiring.Proofs.ByteOrder
import Wiring.Proofs.Display.Resolution
import Wiring.Proofs.Display.Script
import Wiring.Proofs.Resolution.Finality

/-!
A key is its identity.

Whatever keys are used for, a key may be replaced by one of the same identity: the use comes to the same, and so
does all that follows. Outcomes and states are compared without displayed names, which is all that a text may tell
of the difference.
-/

set_option autoImplicit false

namespace Wiring

/-- What is done with a builder and with the injectors made from what it freezes: an operation, a question to the
builder or to an injector, the making of an injector under a name, or a resolution. -/
inductive Use where
  | operate (op : Operation)
  | lookup (key : Key)
  | contains (key : Key)
  | has (injector : InjectorId) (key : Key)
  | inject (name : String)
  | resolve (q : Quest)

inductive Upshot where
  | outcome (outcome : Except BindError Unit)
  | found (binding : Option Binding)
  | flag (holds : Bool)
  | ended (result : Except Stop (List Held))

structure Stage where
  builder : Builder := {}
  world : World := {}

namespace Stage

def perform (s : Stage) : Use → Upshot × Stage
  | .operate op => (.outcome (op.apply s.builder).1, ⟨(op.apply s.builder).2, s.world.offerAll [op]⟩)
  | .lookup key => (.found (s.builder.lookup key), s)
  | .contains key => (.flag (s.builder.contains key), s)
  | .has i key => (.flag (key.isInjector || (s.world.registry i).contains key), s)
  | .inject name =>
    match s.builder.finalized with
    | none => (.flag false, s)
    | some registry => (.flag true, { s with world := s.world.addInjector name { registry } })
  | .resolve q => (.ended (s.world.result q.act), { s with world := s.world.after q.act })

def performAll (s : Stage) : List Use → List Upshot × Stage
  | [] => ([], s)
  | u :: rest =>
    let (upshot, t) := s.perform u
    let (upshots, final) := t.performAll rest
    (upshot :: upshots, final)

end Stage

section Erasure

variable (read : Reading)

def Quest.erased : Quest → Quest
  | fetch i req => .fetch i req.erased
  | pull l => .pull l.erased
  | points i ps => .points i (ps.map Point.erased)

def Use.erased : Use → Use
  | operate op => .operate (op.erased read)
  | lookup key => .lookup key.erased
  | contains key => .contains key.erased
  | has i key => .has i key.erased
  | inject name => .inject name
  | resolve q => .resolve q.erased

def Upshot.erased : Upshot → Upshot
  | outcome x => .outcome (translated BindError.erased id x)
  | found b => .found (b.map (Binding.erased read))
  | flag b => .flag b
  | ended x => .ended (translated (Stop.erased read) (List.map Held.erased) x)

def Stage.erased (s : Stage) : Stage := ⟨s.builder.erased read, s.world.erased read⟩

def Use.IgnoresNames : Use → Prop
  | operate op => ∀ b, op.binding? = some b → b.strategy.IgnoresNames read
  | _ => True

structure Stage.IgnoresNames (s : Stage) : Prop where
  builder : s.builder.Runs (Strategy.IgnoresNames read)
  world : ∀ i, (s.world.registry i).Runs (Strategy.IgnoresNames read)

structure Use.Alike (u v : Use) : Prop where
  erased : v.erased read = u.erased read
  left : u.IgnoresNames read
  right : v.IgnoresNames read

structure Stage.Alike (s t : Stage) : Prop where
  erased : t.erased read = s.erased read
  left : s.IgnoresNames read
  right : t.IgnoresNames read

end Erasure

namespace World

variable {read : Reading} (w : World)

theorem offer_erased (b : Binding) : (w.offer b).erased read = (w.erased read).offer (b.erased read) := by
  obtain ⟨strategy, scope⟩ := b
  cases strategy <;> rfl

theorem offerAll_erased (op : Operation) :
    (w.offerAll [op]).erased read = (w.erased read).offerAll [op.erased read] := by
  cases op with
  | register key b source => exact w.offer_erased b
  | contribute key b source mapKey => exact w.offer_erased b
  | _ => rfl

theorem addInjector_erased (name : String) (j : Injector) :
    (w.addInjector name j).erased read = (w.erased read).addInjector name (j.erased read) := by
  simp [addInjector, erased]

theorem registry_offerAll (ops : List Operation) : (w.offerAll ops).registry = w.registry := by
  rw [offerAll_eq]
  rfl

end World

open Resolution in
theorem Quest.erases_act {read : Reading} {r : InjectorId → Registry}
    (hr : ∀ i, (r i).Runs (Strategy.IgnoresNames read)) (q : Quest) :
    Act.Erases read r (List.map Held.erased) q.act q.erased.act := by
  have hs := erasing_resolve hr
  cases q with
  | fetch i req => exact (erases_serve hs req).bind fun a => Act.erases_pure rfl
  | pull l => exact (erases_pull hs l).bind fun a => Act.erases_pure rfl
  | points i ps => exact erases_points hs ps

namespace Stage

variable {read : Reading} {s t : Stage} {u v : Use}

theorem perform_erased (hs : s.IgnoresNames read) (u : Use) :
    (s.erased read).perform (u.erased read) = ((s.perform u).1.erased read, (s.perform u).2.erased read) := by
  cases u with
  | operate op =>
    simp only [perform, Use.erased, erased, Operation.apply_erased, World.offerAll_erased]
    rfl
  | lookup key =>
    simp only [perform, Use.erased, erased, Builder.lookup_erased]
    rfl
  | contains key =>
    simp only [perform, Use.erased, erased, Builder.contains_erased]
    rfl
  | has i key =>
    simp only [perform, Use.erased, erased, World.registry_erased, Registry.contains_erased,
      Key.isInjector_erased]
    rfl
  | inject name =>
    simp only [perform, Use.erased, erased, Builder.finalized_erased]
    cases s.builder.finalized with
    | none => rfl
    | some r =>
      have hworld : (s.world.addInjector name { registry := r }).erased read = _ :=
        s.world.addInjector_erased name { registry := r }
      exact congrArg (fun w => (Upshot.flag true, Stage.mk (s.builder.erased read) w)) hworld.symm
  | resolve q =>
    simp only [perform, Use.erased, erased, World.result, World.after]
    rcases q.erases_act hs.world s.world rfl with ⟨held, w, hw, ht, _⟩ | ⟨stop, w, hw, ht, _⟩ <;>
      rw [hw, ht] <;> rfl

theorem IgnoresNames.perform (hs : s.IgnoresNames read) (hu : u.IgnoresNames read) :
    (s.perform u).2.IgnoresNames read := by
  cases u with
  | operate op =>
    refine ⟨hs.builder.apply hu, fun i => ?_⟩
    change ((s.world.offerAll [op]).registry i).Runs _
    rw [World.registry_offerAll]
    exact hs.world i
  | inject name =>
    simp only [Stage.perform]
    cases hf : s.builder.finalized with
    | none => exact hs
    | some r =>
      refine ⟨hs.builder, fun i => ?_⟩
      change ((s.world.addInjector name { registry := r }).registry i).Runs _
      rw [World.registry_addInjector_eq]
      split
      · exact hs.builder.frozen r hf
      · exact hs.world i
  | resolve q =>
    refine ⟨hs.builder, fun i => ?_⟩
    have hregistry : (s.world.after q.act).registry = s.world.registry := by
      simp only [World.after]
      rcases q.erases_act hs.world s.world rfl with ⟨held, w, hw, _, hr⟩ | ⟨stop, w, hw, _, hr⟩ <;> rw [hw] <;>
        exact hr
    change ((s.world.after q.act).registry i).Runs _
    rw [hregistry]
    exact hs.world i
  | _ => exact hs

theorem Alike.perform (hs : Alike read s t) (hu : Use.Alike read u v) :
    (t.perform v).1.erased read = (s.perform u).1.erased read ∧
      Alike read (s.perform u).2 (t.perform v).2 := by
  have h : ((t.perform v).1.erased read, (t.perform v).2.erased read) =
      ((s.perform u).1.erased read, (s.perform u).2.erased read) := by
    rw [← perform_erased hs.right, ← perform_erased hs.left, hs.erased, hu.erased]
  obtain ⟨hupshot, hstage⟩ := Prod.mk.inj h
  exact ⟨hupshot, hstage, hs.left.perform hu.left, hs.right.perform hu.right⟩

theorem Alike.performAll {us vs : List Use} (hs : Alike read s t) (hu : List.Forall₂ (Use.Alike read) us vs) :
    (t.performAll vs).1.map (Upshot.erased read) = (s.performAll us).1.map (Upshot.erased read) ∧
      Alike read (s.performAll us).2 (t.performAll vs).2 := by
  induction hu generalizing s t with
  | nil => exact ⟨rfl, hs⟩
  | cons h _ ih =>
    obtain ⟨hupshot, hnext⟩ := hs.perform h
    obtain ⟨hupshots, hfinal⟩ := ih hnext
    refine ⟨?_, hfinal⟩
    simp only [Stage.performAll, List.map_cons, hupshot, hupshots]

end Stage

namespace Key

/-- The order of keys is total. It goes by type first, then come no qualifier, names by their bytes, and markers
by type. -/
structure OrderLaws : Prop where
  eq_iff : ∀ a b : Key, a.order b = .eq ↔ a.ident = b.ident
  swap : ∀ a b : Key, b.order a = (a.order b).swap
  trans : ∀ a b c : Key, (a.order b).isLE → (b.order c).isLE → (a.order c).isLE
  erased : ∀ a b : Key, a.erased.order b.erased = a.order b
  by_type : ∀ a b : Key, a.type.id ≠ b.type.id → a.order b = a.type.id.order b.type.id
  unqualified : ∀ a b : Key, a.type.id = b.type.id → a.qualifier = none → b.qualifier.isSome →
    a.order b = .lt
  by_name : ∀ (a b : Key) (m n : String), a.type.id = b.type.id → a.qualifier = some (.named m) →
    b.qualifier = some (.named n) → (a.order b = .lt ↔ Text.bytes m < Text.bytes n)
  name_marker : ∀ (a b : Key) (m : String) (n : TypeInfo), a.type.id = b.type.id →
    a.qualifier = some (.named m) → b.qualifier = some (.marker n) → a.order b = .lt
  by_marker : ∀ (a b : Key) (m n : TypeInfo), a.type.id = b.type.id → a.qualifier = some (.marker m) →
    b.qualifier = some (.marker n) → a.order b = m.id.order n.id

theorem order_of_type {a b : Key} (h : a.type.id = b.type.id) :
    a.order b = QualifierId.orderOption (a.qualifier.map Qualifier.ident) (b.qualifier.map Qualifier.ident) := by
  have htype : a.type.id.order b.type.id = .eq := by
    rw [h]
    exact @Std.ReflCmp.compare_self _ TypeId.order _ _
  simp only [order, ident, Ident.order, htype, Ordering.eq_then]

theorem orderLaws : OrderLaws where
  eq_iff _ _ := order_eq_iff
  swap a b := @Std.OrientedCmp.eq_swap _ Ident.order _ b.ident a.ident
  trans a b c := @Std.TransCmp.isLE_trans _ Ident.order _ a.ident b.ident c.ident
  erased := by simp
  by_type a b h := by
    have htype : a.type.id.order b.type.id ≠ .eq :=
      fun he => h (@Std.LawfulEqCmp.eq_of_compare _ TypeId.order _ _ _ he)
    simp only [order, ident, Ident.order]
    cases ho : a.type.id.order b.type.id with
    | eq => exact absurd ho htype
    | _ => rfl
  unqualified a b h ha hb := by
    obtain ⟨q, hq⟩ := Option.isSome_iff_exists.mp hb
    rw [order_of_type h, ha, hq]
    rfl
  by_name a b m n h ha hb := by
    rw [order_of_type h, ha, hb]
    exact Text.compare_eq_lt_iff
  name_marker a b m n h ha hb := by
    rw [order_of_type h, ha, hb]
    rfl
  by_marker a b m n h ha hb := by
    rw [order_of_type h, ha, hb]
    rfl

/-- What a key is used for: something is bound or contributed under it, it is looked up, another key is bound to
it or gathers it, and it is resolved, by itself, at injection points and through a handle. -/
def uses (k : Key) (b : Binding) (source : Source) (mapKey : Option MapKey) (owner : Key)
    (scope : Option Scope) (i : InjectorId) (expected : TypeId) (qualified : Bool) : List Use :=
  [.operate (.register k b source), .operate (.contribute k b source mapKey), .lookup k, .contains k,
    .has i k, .operate (.register owner ⟨.alias k, scope⟩ source),
    .operate (.contribute owner ⟨.alias k, scope⟩ source mapKey), .resolve (.fetch i ⟨k, expected⟩),
    .resolve (.points i [.inject k qualified, .lazy k qualified]), .resolve (.pull ⟨i, k, expected⟩)]

variable {read : Reading} {k k' : Key} {b : Binding}

theorem uses_alike (hk : k'.ident = k.ident) (hb : b.strategy.IgnoresNames read) (source : Source)
    (mapKey : Option MapKey) (owner : Key) (scope : Option Scope) (i : InjectorId) (expected : TypeId)
    (qualified : Bool) :
    List.Forall₂ (Use.Alike read) (k.uses b source mapKey owner scope i expected qualified)
      (k'.uses b source mapKey owner scope i expected qualified) := by
  have herased : k'.erased = k.erased := erased_eq_iff.mpr hk
  have hbinding : ∀ c, some b = some c → c.strategy.IgnoresNames read := fun c hc => by
    cases hc
    exact hb
  have halias : ∀ (x : Key) c, some (Binding.mk (.alias x) scope) = some c → c.strategy.IgnoresNames read :=
    fun x c hc => by
      cases hc
      trivial
  have hsame : ∀ {u v : Use}, v.erased read = u.erased read → u.IgnoresNames read → v.IgnoresNames read →
      Use.Alike read u v := fun h hu hv => ⟨h, hu, hv⟩
  refine .cons (hsame ?_ hbinding hbinding) <| .cons (hsame ?_ hbinding hbinding) <|
    .cons (hsame ?_ trivial trivial) <| .cons (hsame ?_ trivial trivial) <| .cons (hsame ?_ trivial trivial) <|
    .cons (hsame ?_ (halias k) (halias k')) <| .cons (hsame ?_ (halias k) (halias k')) <|
    .cons (hsame ?_ trivial trivial) <| .cons (hsame ?_ trivial trivial) <|
    .cons (hsame ?_ trivial trivial) .nil
  all_goals
    simp only [Use.erased, Operation.erased, Binding.erased, Strategy.erased, Quest.erased, Request.erased,
      Lazy.erased, Point.erased, List.map_cons, List.map_nil, herased]

theorem find?_congr {β : Type} (m : KeyMap β) (hk : k'.ident = k.ident) : m.find? k' = m.find? k := by
  simp only [KeyMap.find?, hk]

/-- A key is its identity: the order of keys knows nothing else, the same bindings are found, and using a key in
place of another of the same identity, in states that are alike, comes to the same up to displayed names, as
does all that is done afterwards. -/
theorem names_take_no_part {s t : Stage} {us vs : List Use} (hk : k'.ident = k.ident)
    (hb : b.strategy.IgnoresNames read) (hs : Stage.Alike read s t)
    (hus : List.Forall₂ (Use.Alike read) us vs) (source : Source) (mapKey : Option MapKey) (owner : Key)
    (scope : Option Scope) (i : InjectorId) (expected : TypeId) (qualified : Bool) :
    OrderLaws ∧ (∀ c : Builder, c.lookup k' = c.lookup k ∧ c.contains k' = c.contains k) ∧
      List.Forall₂ (fun u v =>
          (t.performAll (v :: vs)).1.map (Upshot.erased read) =
              (s.performAll (u :: us)).1.map (Upshot.erased read) ∧
            Stage.Alike read (s.performAll (u :: us)).2 (t.performAll (v :: vs)).2)
        (k.uses b source mapKey owner scope i expected qualified)
        (k'.uses b source mapKey owner scope i expected qualified) := by
  refine ⟨orderLaws, fun c => ⟨?_, ?_⟩, ?_⟩
  · simp only [Builder.lookup, Registry.lookup, Registry.find?, find?_congr _ hk]
  · simp only [Builder.contains, Registry.contains, KeyMap.contains, hk]
  · exact (uses_alike hk hb source mapKey owner scope i expected qualified).imp
      fun u v huv => hs.performAll (.cons huv hus)

def plainKey : Key := .of (.value .alpha)

def gaudyKey : Key := { plainKey with type := ⟨"elsewhere::Finery", .value .alpha⟩ }

def narcissus : Binding :=
  Recipe.binding (.value .alpha) none
    (.script { tally := 0, value := .text "narcissus", points := [.inject plainKey false] })

def poolStage : Stage where
  world := ({} : World).addInjector "pool"
    { registry := { entries := ⟨[(plainKey, .binding ⟨narcissus, .direct⟩)]⟩ } }

theorem narcissus_ignoresNames (read : Reading) : narcissus.strategy.IgnoresNames read :=
  Recipe.ignoresNames read (.value .alpha)
    (.script { tally := 0, value := .text "narcissus", points := [.inject plainKey false] })

theorem poolStage_alike (read : Reading) : Stage.Alike read poolStage poolStage := by
  have hbuilder : poolStage.builder.Runs (Strategy.IgnoresNames read) :=
    ⟨fun _ _ h => (by cases h), fun _ h => (by cases h)⟩
  have hworld : ∀ i, (poolStage.world.registry i).Runs (Strategy.IgnoresNames read) := by
    intro i a e he s hs
    have hentry : e = .binding ⟨narcissus, .direct⟩ := by
      cases i with
      | zero =>
        change KeyMap.at? ⟨[(plainKey, Entry.binding ⟨narcissus, .direct⟩)]⟩ a = some e at he
        rw [KeyMap.at?_cons] at he
        split at he
        · exact (Option.some.inj he).symm
        · cases he
      | succ n => cases he
    subst hentry
    rw [List.mem_singleton.mp hs]
    exact narcissus_ignoresNames read
  exact ⟨rfl, ⟨hbuilder, hworld⟩, ⟨hbuilder, hworld⟩⟩

/-- Under either name the constructor is found to need itself; the names are told in the path alone. -/
theorem names_take_no_part_gaudy :
    (poolStage.perform (.resolve (.fetch 0 (.of plainKey)))).1 =
        .ended (.error (.error (.circular [plainKey, plainKey]))) ∧
      (poolStage.perform (.resolve (.fetch 0 (.of gaudyKey)))).1 =
        .ended (.error (.error (.circular [gaudyKey, plainKey]))) ∧
      gaudyKey ≠ plainKey ∧ gaudyKey.ident = plainKey.ident ∧
      narcissus.strategy.IgnoresNames .verbatim ∧ Stage.Alike .verbatim poolStage poolStage ∧
      List.Forall₂ (Use.Alike .verbatim) [.has 0 plainKey] [.has 0 gaudyKey] ∧
      List.Forall₂ (fun u v =>
          (poolStage.performAll [v, .has 0 gaudyKey]).1.map (Upshot.erased .verbatim) =
              (poolStage.performAll [u, .has 0 plainKey]).1.map (Upshot.erased .verbatim) ∧
            Stage.Alike .verbatim (poolStage.performAll [u, .has 0 plainKey]).2
              (poolStage.performAll [v, .has 0 gaudyKey]).2)
        (plainKey.uses narcissus .direct none plainKey none 0 (.value .alpha) true)
        (gaudyKey.uses narcissus .direct none plainKey none 0 (.value .alpha) true) := by
  have hident : gaudyKey.ident = plainKey.ident := rfl
  have hignores := narcissus_ignoresNames .verbatim
  have halike := poolStage_alike .verbatim
  have hafter : List.Forall₂ (Use.Alike .verbatim) [.has 0 plainKey] [.has 0 gaudyKey] :=
    .cons ⟨rfl, trivial, trivial⟩ .nil
  have huses := names_take_no_part hident hignores halike hafter .direct none plainKey none 0
    (.value .alpha) true
  exact ⟨rfl, rfl, by decide, hident, hignores, halike, hafter, huses.2.2⟩

end Key

end Wiring
