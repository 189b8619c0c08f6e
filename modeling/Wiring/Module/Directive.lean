import Wiring.Registry.Operation

set_option autoImplicit false

namespace Wiring

/-- A part of a declared collection: the scope of the collection, or one contribution to it. -/
inductive Part where
  | scope (scope : Scope)
  | contribution (mapKey : Option MapKey) (binding : Binding)

/-- Whether a part is one of the collection: a contribution to a map comes with a map key of its key type, one
to another collection with none. -/
def Part.fits (shape : Collection) : Part → Bool
  | scope _ => true
  | contribution mapKey _ => mapKey.map MapKey.type = shape.keyType?

inductive Directive where
  | bind (key : Key) (binding : Binding)
  | register (key : Key) (binding : Binding)
  | collection (shape : Collection) (qualifier : Option Qualifier) (parts : List Part)
      (fits : ∀ part ∈ parts, part.fits shape = true)
  /-- Binds a chain of numbered names, each to the one before. -/
  | aliasChain (type : TypeId) (stem : String) (count : Nat) (scope : Option Scope)

namespace Directive

/-- Declares a collection and those of the parts that are of it. -/
def collect (shape : Collection) (qualifier : Option Qualifier) (parts : List Part) : Directive :=
  collection shape qualifier (parts.filter (Part.fits shape)) fun _ h => (List.mem_filter.mp h).2

def link (type : TypeId) (stem : String) (number : Nat) : Key :=
  Key.named type (stem ++ toString number)

def linkBinding (type : TypeId) (stem : String) (scope : Option Scope) (number : Nat) : Binding :=
  { strategy := .alias (link type stem number), scope }

def partOperation (key : Key) (source : Source) : Part → Operation
  | .scope s => .setAggregateScope key s
  | .contribution mapKey binding => .contribute key binding source mapKey

def operations (source : Source) : Directive → List Operation
  | bind key binding => [.register key binding source]
  | register key binding => [.register key binding source]
  | collection shape q parts _ =>
    let key := Key.qualified (.collection shape) q
    .declareAggregate key shape :: parts.map (partOperation key source)
  | aliasChain type stem count scope =>
    (List.range count).map fun n =>
      .register (link type stem (n + 1)) (linkBinding type stem scope n) source

def subject? : Directive → Option Key
  | bind key _ => some key
  | collection shape q _ _ => some (Key.qualified (.collection shape) q)
  | _ => none

end Directive

end Wiring
