import Wiring.Registry.Basic

/-!
Builders of registries.

Several sources may bind one key if each two of them are related by overrides; which binding counts
is settled when the registry is frozen, so the order of registrations does not matter. Every operation
gives its outcome and the builder it leaves behind; a refused operation leaves the builder it found.
-/

set_option autoImplicit false

namespace Wiring

inductive Pending where
  | candidates (candidates : List Candidate)
  | aggregate (aggregate : Aggregate)

structure Builder where
  config : Config := {}
  entries : KeyMap Pending := {}
  overrides : OverrideGraph := []
  finalized : Option Registry := none

namespace Builder

def withConfig (c : Config) : Builder := { config := c }

def isFinalized (b : Builder) : Bool := b.finalized.isSome

def write (b : Builder) (k : Key) (p : Pending) : Builder :=
  { b with entries := b.entries.insert k p }

def precedes (g : OverrideGraph) (c other : Candidate) : Bool :=
  g.isOverriding c.source other.source && !g.isOverriding other.source c.source

/-- The first of `after` that strictly takes precedence over all others, `before` among them. -/
def effectiveAmong (g : OverrideGraph) (before : List Candidate) :
    List Candidate → Option Candidate
  | [] => none
  | c :: after =>
    if (before ++ after).all (precedes g c) then some c else effectiveAmong g (before ++ [c]) after

def effective? (g : OverrideGraph) (cs : List Candidate) : Option Candidate :=
  effectiveAmong g [] cs

def unrelated (g : OverrideGraph) (s t : Source) : Bool :=
  !g.isOverriding s t && !g.isOverriding t s

def register (b : Builder) (key : Key) (binding : Binding) (source : Source) :
    Except BindError Unit × Builder :=
  if b.isFinalized then (.error (.finalized key), b)
  else if binding.provides.id ≠ key.type.id then (.error (.incorrectType key binding.provides), b)
  else
    let new : Candidate := ⟨binding.withDefaultScope b.config.defaultScope, source⟩
    match b.entries.find? key with
    | none => (.ok (), b.write key (.candidates [new]))
    | some (.aggregate _) => (.error (.aggregateConflict key), b)
    | some (.candidates cs) =>
      match cs.find? fun c => unrelated b.overrides source c.source with
      | some existing => (.error (.duplicateBinding key existing.source source), b)
      | none => (.ok (), b.write key (.candidates (cs ++ [new])))

def declareAggregate (b : Builder) (key : Key) (shape : Collection) :
    Except BindError Unit × Builder :=
  if b.isFinalized then (.error (.finalized key), b)
  else
    match b.entries.find? key with
    | some (.aggregate _) => (.ok (), b)
    | some (.candidates _) => (.error (.aggregateConflict key), b)
    | none => (.ok (), b.write key (.aggregate { shape, scope := b.config.defaultScope }))

def contribute (b : Builder) (key : Key) (binding : Binding) (source : Source)
    (mapKey : Option MapKey) : Except BindError Unit × Builder :=
  if b.isFinalized then (.error (.finalized key), b)
  else
    match b.entries.find? key with
    | some (.aggregate a) =>
      let new : Contribution := ⟨binding.withDefaultScope b.config.defaultScope, source, mapKey⟩
      match a.insert b.overrides.isOverriding key new with
      | .ok grown => (.ok (), b.write key (.aggregate grown))
      | .error e => (.error e, b)
    | _ => (.error (.aggregateConflict key), b)

/-- Sets the scope of an assembled collection; contributions keep their own. -/
def setAggregateScope (b : Builder) (key : Key) (scope : Scope) :
    Except BindError Unit × Builder :=
  if b.isFinalized then (.error (.finalized key), b)
  else
    match b.entries.find? key with
    | some (.aggregate a) => (.ok (), b.write key (.aggregate { a with scope }))
    | _ => (.error (.aggregateConflict key), b)

def declareOverride (b : Builder) (overriding overridden : ModuleId) :
    Except BindError Unit × Builder :=
  if b.isFinalized then (.error (.finalizedOverride overriding overridden), b)
  else (.ok (), { b with overrides := b.overrides.declare overriding overridden })

def freezeEntry (g : OverrideGraph) (key : Key) : Pending → Except BindError Entry
  | .aggregate a => .ok (.aggregate a)
  | .candidates cs =>
    match effective? g cs with
    | some c => .ok (.binding c)
    | none => .error (.ambiguousOverride key)

def freezeEntries (g : OverrideGraph) : List (Key × Pending) → Except BindError (List (Key × Entry))
  | [] => .ok []
  | (key, p) :: rest =>
    match freezeEntry g key p with
    | .error e => .error e
    | .ok entry => (freezeEntries g rest).map ((key, entry) :: ·)

/-- The first direct dependency, in the order of keys, that is neither bound nor the injector. -/
def firstMissing (all : KeyMap Entry) : List (Key × Entry) → Option BindError
  | [] => none
  | (key, entry) :: rest =>
    let missing := entry.dependencies.find? fun d =>
      d.kind = .direct && !d.key.isInjector && !all.contains d.key
    match missing with
    | some d => some (.unsatisfied d.key key)
    | none => firstMissing all rest

def freeze (b : Builder) : Except BindError Registry :=
  match freezeEntries b.overrides b.entries.entries with
  | .error e => .error e
  | .ok entries =>
    let frozen : Registry := { entries := ⟨entries⟩, config := b.config }
    if b.config.validate then
      match firstMissing frozen.entries entries with
      | some e => .error e
      | none => .ok frozen
    else .ok frozen

/-- Freezes the registry. Once frozen, the same registry is given again. -/
def finalize (b : Builder) : Except BindError Registry × Builder :=
  match b.finalized with
  | some r => (.ok r, b)
  | none =>
    match b.freeze with
    | .ok r => (.ok r, { b with finalized := some r })
    | .error e => (.error e, b)

def lookup (b : Builder) (key : Key) : Option Binding :=
  match b.finalized with
  | some r => r.lookup key
  | none =>
    match b.entries.find? key with
    | some (.candidates cs) => (effective? b.overrides cs).map (·.binding)
    | _ => none

def contains (b : Builder) (key : Key) : Bool :=
  match b.finalized with
  | some r => r.contains key
  | none => b.entries.contains key

def describe (b : Builder) : String :=
  Outline.record "RegistryBuilder"
    [("config", b.config.describe), ("keys", Outline.brackets (b.entries.keys.map Key.describe)),
     ("overrides", b.overrides.describe), ("finalized", Outline.bool b.isFinalized)]

end Builder

end Wiring
