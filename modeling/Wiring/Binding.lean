import Wiring.Config
import Wiring.Dependency
import Wiring.Routine

set_option autoImplicit false

namespace Wiring

/-- An injection point. `qualified` tells points that name a qualifier, be it an empty one. -/
inductive Point where
  | inject (key : Key) (qualified : Bool)
  | lazy (key : Key) (qualified : Bool)
  | injector
  deriving DecidableEq

namespace Point

def dependency? : Point → Option Dependency
  | inject key _ => some (.direct key)
  | lazy key _ => some (.lazy key)
  | injector => none

end Point

inductive Strategy where
  | construct (type : TypeId) (points : List Point) (body : List Held → Routine type)
  | fixed (object : Object)
  /-- One object per type and name; the value offered first under the name wins. -/
  | shared (name : String) (datum : Datum)
  /-- Makes a provider from the resolved points, then asks it for an instance. -/
  | providerType (type : TypeId) (name : String) (points : List Point)
      (body : List Held → Routine type)
  | provider (type : TypeId) (name : String) (body : Routine type)
  | alias (target : Key)

namespace Strategy

def name : Strategy → String
  | construct .. => "constructor"
  | fixed _ => "instance"
  | shared .. => "instance"
  | providerType .. => "provider type"
  | provider .. => "provider instance"
  | .alias _ => "alias"

def provides : Strategy → TypeInfo
  | construct t _ _ => TypeInfo.of t
  | fixed o => TypeInfo.of (.value o.datum.type)
  | shared _ d => TypeInfo.of (.value d.type)
  | providerType t _ _ _ => TypeInfo.of t
  | provider t _ _ => TypeInfo.of t
  | .alias target => target.type

def dependencies : Strategy → List Dependency
  | construct _ points _ => points.filterMap Point.dependency?
  | providerType _ _ points _ => points.filterMap Point.dependency?
  | .alias target => [.direct target]
  | _ => []

end Strategy

structure Binding where
  strategy : Strategy
  scope : Option Scope := none

namespace Binding

def provides (b : Binding) : TypeInfo := b.strategy.provides

def dependencies (b : Binding) : List Dependency := b.strategy.dependencies

def inScope (b : Binding) (s : Scope) : Binding := { b with scope := some s }

def withDefaultScope (b : Binding) (s : Scope) : Binding := { b with scope := some (b.scope.getD s) }

def effectiveScope (b : Binding) : Scope := b.scope.getD .unscoped

def describe (b : Binding) : String :=
  Outline.record "Binding"
    [("provides", Text.quoted b.provides.name), ("strategy", Text.quoted b.strategy.name),
     ("scope", Outline.option (b.scope.map Scope.describe)),
     ("dependencies", Outline.brackets (b.dependencies.map Dependency.describe))]

end Binding

end Wiring
