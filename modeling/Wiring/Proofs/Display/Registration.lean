import Wiring.Proofs.Display.Erasure
import Wiring.Proofs.Registry.Collections
import Wiring.Proofs.Registry.Freeze
import Wiring.Proofs.Registry.Graph

set_option autoImplicit false

namespace Wiring

section Erasure

variable (read : Reading)

def Routine.erased {t : TypeId} : Routine t → Routine t
  | done draft fits => .done draft.erased fits
  | fail cause => .fail (cause.erased read)
  | panic text => .panic (read.text text)
  | count tally next => .count tally fun n => (next n).erased
  | note n next => .note (n.erased read) next.erased
  | find name next => .find name fun found => (next found).erased
  | get i req next => .get i req.erased fun answer => (next answer).erased
  | pull l next => .pull l.erased fun answer => (next answer).erased

/-- The routine goes on alike after answers that differ in displayed names only. The errors it is answered show
names to a routine that looks for them; no other part of a routine's course has to do with names. -/
def Routine.IgnoresNames {t : TypeId} : Routine t → Prop
  | count _ next => ∀ n, (next n).IgnoresNames
  | note _ next => next.IgnoresNames
  | find _ next => ∀ found, (next found).IgnoresNames
  | get _ _ next | pull _ next => ∀ answer, (next answer).IgnoresNames ∧
      ∀ other, erasedAnswer read other = erasedAnswer read answer →
        (next other).erased read = (next answer).erased read
  | done .. | fail _ | panic _ => True

def StartsAlike {t : TypeId} (body : List Held → Routine t) : Prop :=
  ∀ held, (body held).IgnoresNames read ∧ ∀ other, other.map Held.erased = held.map Held.erased →
    (body other).erased read = (body held).erased read

def Strategy.erased : Strategy → Strategy
  | construct t ps body => .construct t (ps.map Point.erased) fun held => (body held).erased read
  | fixed o => .fixed o.erased
  | shared name d => .shared name d
  | providerType t name ps body =>
    .providerType t name (ps.map Point.erased) fun held => (body held).erased read
  | provider t name body => .provider t name (body.erased read)
  | .alias target => .alias target.erased

def Strategy.IgnoresNames : Strategy → Prop
  | construct _ _ body | providerType _ _ _ body => StartsAlike read body
  | provider _ _ body => body.IgnoresNames read
  | _ => True

def Binding.erased (b : Binding) : Binding := { b with strategy := b.strategy.erased read }

def Candidate.erased (c : Candidate) : Candidate := { c with binding := c.binding.erased read }

def Contribution.erased (c : Contribution) : Contribution := { c with binding := c.binding.erased read }

def Aggregate.erased (a : Aggregate) : Aggregate :=
  { a with contributions := a.contributions.map (Contribution.erased read) }

def Pending.erased : Pending → Pending
  | candidates cs => .candidates (cs.map (Candidate.erased read))
  | aggregate a => .aggregate (a.erased read)

def Entry.erased : Entry → Entry
  | binding c => .binding (c.erased read)
  | aggregate a => .aggregate (a.erased read)

def KeyMap.erased {β γ : Type} (f : β → γ) (m : KeyMap β) : KeyMap γ :=
  ⟨m.entries.map fun e => (e.1.erased, f e.2)⟩

def Registry.erased (r : Registry) : Registry := { r with entries := r.entries.erased (Entry.erased read) }

def Builder.erased (b : Builder) : Builder :=
  { b with
    entries := b.entries.erased (Pending.erased read)
    finalized := b.finalized.map (Registry.erased read) }

def Operation.erased : Operation → Operation
  | register key binding source => .register key.erased (binding.erased read) source
  | declareAggregate key shape => .declareAggregate key.erased shape
  | contribute key binding source mapKey => .contribute key.erased (binding.erased read) source mapKey
  | setAggregateScope key scope => .setAggregateScope key.erased scope
  | declareOverride overriding overridden => .declareOverride overriding overridden
  | finalize => .finalize

def erasedStep {α β : Type} (f : α → β) (x : Except BindError α × Builder) : Except BindError β × Builder :=
  (translated BindError.erased f x.1, x.2.erased read)

end Erasure

namespace KeyMap

variable {β γ : Type} (f : β → γ) (m : KeyMap β)

@[simp] theorem find?_erased (k : Key) : (m.erased f).find? k = (m.find? k).map f := by
  obtain ⟨es⟩ := m
  simp [find?, erased, List.find?_map, Function.comp_def]

@[simp] theorem find?_key_erased (k : Key) : m.find? k.erased = m.find? k := by
  simp [find?]

@[simp] theorem contains_erased (k : Key) : (m.erased f).contains k = m.contains k := by
  obtain ⟨es⟩ := m
  simp [contains, erased, Function.comp_def]

@[simp] theorem contains_key_erased (k : Key) : m.contains k.erased = m.contains k := by
  simp [contains]

@[simp] theorem size_erased : (m.erased f).size = m.size := List.length_map _

theorem insert_erased (k : Key) (v : β) : (m.insert k v).erased f = (m.erased f).insert k.erased (f v) := by
  obtain ⟨es⟩ := m
  have hentries : (insertEntry k v es).map (fun e => (e.1.erased, f e.2)) =
      insertEntry k.erased (f v) (es.map fun e => (e.1.erased, f e.2)) := by
    induction es with
    | nil => rfl
    | cons e rest ih =>
      obtain ⟨x, u⟩ := e
      simp only [insertEntry, List.map_cons, Key.order_erased_left, Key.order_erased_right]
      cases k.order x with
      | gt => rw [List.map_cons, ih]
      | _ => rfl
  exact congrArg KeyMap.mk hentries

end KeyMap

variable (read : Reading)

@[simp] theorem Strategy.provides_erased (s : Strategy) : (s.erased read).provides = s.provides.erased := by
  cases s <;> rfl

theorem Point.dependency?_erased (p : Point) : p.erased.dependency? = p.dependency?.map Dependency.erased := by
  cases p <;> rfl

@[simp] theorem Strategy.dependencies_erased (s : Strategy) :
    (s.erased read).dependencies = s.dependencies.map Dependency.erased := by
  have hpoints : ∀ ps : List Point, (ps.map Point.erased).filterMap Point.dependency? =
      (ps.filterMap Point.dependency?).map Dependency.erased := by
    intro ps
    simp [List.filterMap_map, List.map_filterMap, Point.dependency?_erased]
  cases s with
  | construct t ps body => exact hpoints ps
  | providerType t name ps body => exact hpoints ps
  | _ => rfl

namespace Aggregate

variable (overrides : Source → Source → Bool)

theorem place_erased (new : Contribution) (k : MapKey) (cs : List Contribution) :
    place overrides (new.erased read) k (cs.map (Contribution.erased read)) =
      translated id (List.map (Contribution.erased read)) (place overrides new k cs) := by
  induction cs with
  | nil => rfl
  | cons c rest ih =>
    simp only [place, List.map_cons, Contribution.erased] at ih ⊢
    split
    · split
      · rfl
      · split <;> rfl
    · rw [ih]
      cases place overrides new k rest <;> rfl

theorem insert_erased (key : Key) (new : Contribution) (a : Aggregate) :
    insert overrides key.erased (new.erased read) (a.erased read) =
      translated BindError.erased (Aggregate.erased read) (insert overrides key new a) := by
  have hprovides : (new.erased read).binding.provides = new.binding.provides.erased :=
    new.binding.strategy.provides_erased read
  have hid : new.binding.provides.erased.id = new.binding.provides.id := rfl
  have hshape : (a.erased read).shape = a.shape := rfl
  have hkey : (new.erased read).mapKey = new.mapKey := rfl
  have hplace := place_erased read overrides new
  simp only [insert, hprovides, hid, hshape, hkey]
  split
  · rfl
  · cases new.mapKey with
    | none => simp [translated, erased]
    | some k =>
      simp only [erased, hplace]
      cases place overrides new k a.contributions <;> rfl

theorem objects_erased (key : Key) (c : Collection) (es : List (Option MapKey × Instance)) :
    objects key.erased c (es.map fun e => (e.1, e.2.erased)) =
      translated (ResolveError.erased read) (List.map fun e => (e.1, e.2.erased)) (objects key c es) := by
  induction es with
  | nil => rfl
  | cons e rest ih =>
    obtain ⟨k, a⟩ := e
    simp only [objects, List.map_cons, Instance.asObject?_erased, ih]
    cases lackedKey? c k with
    | some t => rfl
    | none =>
      cases a.asObject? c.element with
      | none => rfl
      | some o => cases objects key c rest <;> rfl

theorem distinct_erased (seen os : List Object) :
    distinct (seen.map Object.erased) (os.map Object.erased) = (distinct seen os).map Object.erased := by
  induction os generalizing seen with
  | nil => rfl
  | cons o rest ih =>
    have hany : ((seen.map Object.erased).any fun s => s.datum = o.erased.datum) =
        seen.any fun s => s.datum = o.datum := by
      rw [List.any_map]
      rfl
    simp only [distinct, List.map_cons, hany]
    split
    · exact ih seen
    · rw [← ih, List.map_append]
      rfl

theorem write_erased (k : MapKey) (o : Object) (items : List (Option MapKey × Object)) :
    write k o.erased (items.map fun e => (e.1, e.2.erased)) =
      (write k o items).map fun e => (e.1, e.2.erased) := by
  induction items with
  | nil => rfl
  | cons e rest ih =>
    obtain ⟨x, p⟩ := e
    simp only [write, List.map_cons, ih]
    split <;> rfl

theorem enter_erased (m : List (Option MapKey × Object)) (e : Option MapKey × Object) :
    enter (m.map fun e => (e.1, e.2.erased)) (e.1, e.2.erased) =
      (enter m e).map fun e => (e.1, e.2.erased) := by
  obtain ⟨_ | k, o⟩ := e
  · rfl
  · exact write_erased k o m

theorem foldl_enter_erased (entries m : List (Option MapKey × Object)) :
    (entries.map fun e => (e.1, e.2.erased)).foldl enter (m.map fun e => (e.1, e.2.erased)) =
      (entries.foldl enter m).map fun e => (e.1, e.2.erased) := by
  induction entries generalizing m with
  | nil => rfl
  | cons e rest ih =>
    rw [List.map_cons, List.foldl_cons, enter_erased]
    exact ih (enter m e)

theorem gather_erased (shape : Collection) (entries : List (Option MapKey × Object)) :
    gather shape (entries.map fun e => (e.1, e.2.erased)) =
      (gather shape entries).map fun e => (e.1, e.2.erased) := by
  cases shape with
  | set b =>
    have hdistinct := distinct_erased [] (entries.map (·.2))
    simp only [List.map_nil, List.map_map, Function.comp_def] at hdistinct
    simp [gather, hdistinct, Function.comp_def]
  | list b => simp [gather, Function.comp_def]
  | map t b => exact foldl_enter_erased entries []

theorem assemble_erased (key : Key) (a : Aggregate) (es : List (Option MapKey × Instance)) :
    assemble key.erased (a.erased read) (es.map fun e => (e.1, e.2.erased)) =
      translated (ResolveError.erased read) (List.map fun e => (e.1, e.2.erased)) (assemble key a es) := by
  have hshape : (a.erased read).shape = a.shape := rfl
  rw [assemble_eq, assemble_eq, hshape, objects_erased]
  cases objects key a.shape es with
  | error e => rfl
  | ok entries => exact congrArg Except.ok (gather_erased a.shape entries)

end Aggregate

@[simp] theorem Entry.dependencies_erased (e : Entry) :
    (e.erased read).dependencies = e.dependencies.map Dependency.erased := by
  cases e with
  | binding c => exact c.binding.strategy.dependencies_erased read
  | aggregate a =>
    simp only [erased, dependencies, Aggregate.dependencies, Aggregate.erased, List.flatMap_map,
      List.map_flatMap]
    refine congrArg (a.contributions.flatMap ·) (funext fun c => ?_)
    exact c.binding.strategy.dependencies_erased read

@[simp] theorem Entry.scope_erased (e : Entry) : (e.erased read).scope = e.scope := by
  cases e <;> rfl

theorem Registry.lookup_erased (r : Registry) (key : Key) :
    (r.erased read).lookup key.erased = (r.lookup key).map (Binding.erased read) := by
  simp only [lookup, find?, erased, KeyMap.find?_erased, KeyMap.find?_key_erased]
  cases r.entries.find? key with
  | none => rfl
  | some e => cases e <;> rfl

theorem Registry.contains_erased (r : Registry) (key : Key) :
    (r.erased read).contains key.erased = r.contains key := by
  simp [contains, erased]

namespace Builder

variable (g : OverrideGraph)

theorem effective?_erased (cs : List Candidate) :
    effective? g (cs.map (Candidate.erased read)) = (effective? g cs).map (Candidate.erased read) := by
  have among : ∀ before after : List Candidate,
      effectiveAmong g (before.map (Candidate.erased read)) (after.map (Candidate.erased read)) =
        (effectiveAmong g before after).map (Candidate.erased read) := by
    intro before after
    induction after generalizing before with
    | nil => rfl
    | cons c rest ih =>
      have hprecedes : ((before.map (Candidate.erased read) ++ rest.map (Candidate.erased read)).all
          (precedes g (c.erased read))) = (before ++ rest).all (precedes g c) := by
        rw [← List.map_append, List.all_map]
        rfl
      simp only [effectiveAmong, List.map_cons, hprecedes]
      split
      · rfl
      · rw [← ih, List.map_append]
        rfl
  exact among [] cs

@[simp] theorem config_erased (b : Builder) : (b.erased read).config = b.config := rfl

@[simp] theorem overrides_erased (b : Builder) : (b.erased read).overrides = b.overrides := rfl

@[simp] theorem finalized_erased (b : Builder) :
    (b.erased read).finalized = b.finalized.map (Registry.erased read) := rfl

@[simp] theorem isFinalized_erased (b : Builder) : (b.erased read).isFinalized = b.isFinalized := by
  simp [isFinalized, erased]

theorem write_erased (b : Builder) (key : Key) (p : Pending) :
    (b.write key p).erased read = (b.erased read).write key.erased (p.erased read) := by
  simp only [write, erased, KeyMap.insert_erased]

theorem find?_erased (b : Builder) (key : Key) :
    (b.erased read).entries.find? key.erased = (b.entries.find? key).map (Pending.erased read) := by
  simp [erased]

theorem register_erased (b : Builder) (key : Key) (binding : Binding) (source : Source) :
    (b.erased read).register key.erased (binding.erased read) source =
      erasedStep read id (b.register key binding source) := by
  have hprovides : (binding.erased read).provides = binding.provides.erased :=
    binding.strategy.provides_erased read
  have hid : binding.provides.erased.id = binding.provides.id := rfl
  have htype : key.erased.type.id = key.type.id := rfl
  simp only [register, isFinalized_erased, hprovides, hid, htype, find?_erased]
  split
  · rfl
  split
  · rfl
  cases b.entries.find? key with
  | none =>
    simp only [Option.map_none, erasedStep, write_erased]
    rfl
  | some p =>
    cases p with
    | aggregate a => rfl
    | candidates cs =>
      have hfind : ((cs.map (Candidate.erased read)).find? fun c => unrelated b.overrides source c.source) =
          (cs.find? fun c => unrelated b.overrides source c.source).map (Candidate.erased read) := by
        rw [List.find?_map]
        rfl
      simp only [Option.map_some, Pending.erased, overrides_erased, hfind]
      cases cs.find? fun c => unrelated b.overrides source c.source with
      | some existing => rfl
      | none =>
        simp only [Option.map_none, erasedStep, write_erased, Pending.erased, List.map_append]
        rfl

theorem declareAggregate_erased (b : Builder) (key : Key) (shape : Collection) :
    (b.erased read).declareAggregate key.erased shape = erasedStep read id (b.declareAggregate key shape) := by
  simp only [declareAggregate, isFinalized_erased, find?_erased]
  split
  · rfl
  cases b.entries.find? key with
  | none =>
    simp only [Option.map_none, erasedStep, write_erased]
    rfl
  | some p => cases p <;> rfl

theorem contribute_erased (b : Builder) (key : Key) (binding : Binding) (source : Source)
    (mapKey : Option MapKey) :
    (b.erased read).contribute key.erased (binding.erased read) source mapKey =
      erasedStep read id (b.contribute key binding source mapKey) := by
  simp only [contribute, isFinalized_erased, find?_erased]
  split
  · rfl
  cases b.entries.find? key with
  | none => rfl
  | some p =>
    cases p with
    | candidates cs => rfl
    | aggregate a =>
      have hnew : (⟨(binding.erased read).withDefaultScope b.config.defaultScope, source, mapKey⟩ :
          Contribution) = Contribution.erased read
            ⟨binding.withDefaultScope b.config.defaultScope, source, mapKey⟩ := rfl
      simp only [Option.map_some, Pending.erased, config_erased, overrides_erased, hnew,
        Aggregate.insert_erased]
      cases Aggregate.insert b.overrides.isOverriding key
          ⟨binding.withDefaultScope b.config.defaultScope, source, mapKey⟩ a with
      | error e => rfl
      | ok grown =>
        simp only [translated, erasedStep, write_erased]
        rfl

theorem setAggregateScope_erased (b : Builder) (key : Key) (scope : Scope) :
    (b.erased read).setAggregateScope key.erased scope = erasedStep read id (b.setAggregateScope key scope) := by
  simp only [setAggregateScope, isFinalized_erased, find?_erased]
  split
  · rfl
  cases b.entries.find? key with
  | none => rfl
  | some p =>
    cases p with
    | candidates cs => rfl
    | aggregate a =>
      simp only [Option.map_some, Pending.erased, erasedStep, write_erased]
      rfl

theorem declareOverride_erased (b : Builder) (overriding overridden : ModuleId) :
    (b.erased read).declareOverride overriding overridden =
      erasedStep read id (b.declareOverride overriding overridden) := by
  simp only [declareOverride, isFinalized_erased]
  split <;> rfl

theorem freezeEntries_erased (es : List (Key × Pending)) :
    freezeEntries g (es.map fun e => (e.1.erased, e.2.erased read)) =
      translated BindError.erased (List.map fun e => (e.1.erased, e.2.erased read)) (freezeEntries g es) := by
  induction es with
  | nil => rfl
  | cons e rest ih =>
    obtain ⟨key, p⟩ := e
    have hentry : freezeEntry g key.erased (p.erased read) =
        translated BindError.erased (Entry.erased read) (freezeEntry g key p) := by
      cases p with
      | aggregate a => rfl
      | candidates cs =>
        simp only [freezeEntry, Pending.erased, effective?_erased]
        cases effective? g cs <;> rfl
    simp only [freezeEntries, List.map_cons, hentry, ih]
    cases freezeEntry g key p with
    | error e => rfl
    | ok entry => cases freezeEntries g rest <;> rfl

theorem firstMissing_erased (all : KeyMap Entry) (es : List (Key × Entry)) :
    firstMissing (all.erased (Entry.erased read)) (es.map fun e => (e.1.erased, e.2.erased read)) =
      (firstMissing all es).map BindError.erased := by
  induction es with
  | nil => rfl
  | cons e rest ih =>
    obtain ⟨key, entry⟩ := e
    have hmissing : ((entry.erased read).dependencies.find? fun d => d.kind = .direct && !d.key.isInjector &&
        !(all.erased (Entry.erased read)).contains d.key) =
        (entry.dependencies.find? fun d => d.kind = .direct && !d.key.isInjector &&
          !all.contains d.key).map Dependency.erased := by
      rw [Entry.dependencies_erased, List.find?_map]
      refine congrArg (Option.map _ <| List.find? · entry.dependencies) (funext fun d => ?_)
      change (d.kind = .direct && !d.key.isInjector &&
        !(all.erased (Entry.erased read)).contains d.key.erased) = _
      rw [KeyMap.contains_erased, KeyMap.contains_key_erased]
    simp only [firstMissing, List.map_cons, hmissing]
    cases entry.dependencies.find? fun d => d.kind = .direct && !d.key.isInjector && !all.contains d.key with
    | some d => rfl
    | none => exact ih

theorem freeze_erased (b : Builder) :
    (b.erased read).freeze = translated BindError.erased (Registry.erased read) b.freeze := by
  have hpending : (b.erased read).entries.entries =
      b.entries.entries.map fun e => (e.1.erased, e.2.erased read) := rfl
  simp only [freeze, overrides_erased, config_erased, hpending, freezeEntries_erased]
  cases freezeEntries b.overrides b.entries.entries with
  | error e => rfl
  | ok entries =>
    have hmissing := firstMissing_erased read ⟨entries⟩ entries
    simp only [KeyMap.erased] at hmissing
    simp only [translated, hmissing]
    split
    · cases firstMissing ⟨entries⟩ entries <;> rfl
    · rfl

theorem finalize_erased (b : Builder) :
    (b.erased read).finalize = erasedStep read (Registry.erased read) b.finalize := by
  simp only [finalize, finalized_erased, freeze_erased]
  cases b.finalized with
  | some r => rfl
  | none => cases b.freeze <;> rfl

theorem lookup_erased (b : Builder) (key : Key) :
    (b.erased read).lookup key.erased = (b.lookup key).map (Binding.erased read) := by
  simp only [lookup, finalized_erased, overrides_erased, find?_erased]
  cases b.finalized with
  | some r => exact r.lookup_erased read key
  | none =>
    cases b.entries.find? key with
    | none => rfl
    | some p =>
      cases p with
      | aggregate a => rfl
      | candidates cs =>
        simp only [Option.map_none, Option.map_some, Pending.erased, effective?_erased, Option.map_map]
        rfl

theorem contains_erased (b : Builder) (key : Key) : (b.erased read).contains key.erased = b.contains key := by
  simp only [contains, finalized_erased]
  cases b.finalized with
  | some r => exact r.contains_erased read key
  | none => simp [erased]

end Builder

theorem Operation.apply_erased (b : Builder) (op : Operation) :
    (op.erased read).apply (b.erased read) = erasedStep read id (op.apply b) := by
  cases op with
  | register key binding source => exact b.register_erased read key binding source
  | declareAggregate key shape => exact b.declareAggregate_erased read key shape
  | contribute key binding source mapKey => exact b.contribute_erased read key binding source mapKey
  | setAggregateScope key scope => exact b.setAggregateScope_erased read key scope
  | declareOverride overriding overridden => exact b.declareOverride_erased read overriding overridden
  | finalize =>
    simp only [erased, apply, Builder.finalize_erased, erasedStep]
    cases b.finalize.1 <;> rfl

end Wiring
