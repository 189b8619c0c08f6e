import Wiring.Module.Basic
import Wiring.Module.Order
import Wiring.World

/-!
Building an injector from modules.

Modules are applied after the modules they override, otherwise in the order they were added. A module
names the types it overrides, so it overrides every added module of such a type.
-/

set_option autoImplicit false

namespace Wiring

structure Assembly where
  config : Config := {}
  modules : List Module := []

/-- What building came to: an injector or an error, what was noted down, and the operations that were
tried on the way. -/
structure Built where
  outcome : Except BuildError Injector
  notes : List Note
  tried : List Operation

namespace Assembly

def ofModules (config : Config) (ms : List Module) : Assembly := ⟨config, Module.kept ms⟩

def overriddenBy (ms : List Module) (i j : Nat) : Bool :=
  match ms[i]?, ms[j]? with
  | some a, some b => b.overrides.contains a.id.type
  | _, _ => false

def overriders (ms : List Module) (i : Nat) : List Nat :=
  (List.range ms.length).filter (overriddenBy ms i)

def idsOf (ms : List Module) (indexes : List Nat) : List ModuleId :=
  indexes.filterMap fun i => ms[i]?.map Module.id

def overrideOperations (ms : List Module) : List Operation :=
  (List.range ms.length).flatMap fun i =>
    match ms[i]? with
    | none => []
    | some a => (idsOf ms (overriders ms i)).map fun b => .declareOverride b a.id

def infoOf (ms : List Module) (index : Nat) (m : Module) : ModuleInfo :=
  { id := m.id
    name := m.name.getD m.id.text
    description := m.description
    overrides := idsOf ms ((List.range ms.length).filter fun i => overriddenBy ms i index) }

structure Applied where
  outcome : Except BuildError (List ModuleInfo)
  notes : List Note := []
  tried : List Operation := []
  builder : Builder

def applyInOrder (ms : List Module) (b : Builder) : List Nat → Applied
  | [] => { outcome := .ok [], builder := b }
  | index :: rest =>
    match ms[index]? with
    | none => applyInOrder ms b rest
    | some m =>
      let c := m.configure b
      match c.outcome with
      | .error e => ⟨.error (.configure m.id e), c.notes, c.tried, c.builder⟩
      | .ok _ =>
        let r := applyInOrder ms c.builder rest
        ⟨r.outcome.map (infoOf ms index m :: ·), c.notes ++ r.notes, c.tried ++ r.tried,
          r.builder⟩

def apply (a : Assembly) : Applied :=
  let b := Builder.withConfig a.config
  match Sorting.sort a.modules.length (overriders a.modules) with
  | .overdrawn => { outcome := .error (.cycle []), builder := b }
  | .cyclic trail => { outcome := .error (.cycle (idsOf a.modules trail.path)), builder := b }
  | .ordered order =>
    match Operation.applyAll b (overrideOperations a.modules) with
    | (.error e, tried, left) => { outcome := .error (.bind e), tried, builder := left }
    | (.ok _, tried, left) =>
      let r := applyInOrder a.modules left order
      { r with tried := tried ++ r.tried }

def build (a : Assembly) : Built :=
  let r := a.apply
  match r.outcome with
  | .error e => ⟨.error e, r.notes, r.tried⟩
  | .ok modules =>
    match r.builder.finalize.1 with
    | .error e => ⟨.error (.bind e), r.notes, r.tried⟩
    | .ok registry => ⟨.ok { registry, modules }, r.notes, r.tried⟩

def describe (a : Assembly) : String :=
  Outline.record "InjectorBuilder"
    [("config", a.config.describe),
     ("modules", Outline.brackets (a.modules.map fun m => m.id.describe))]

end Assembly

end Wiring
