import Wiring.KeyMap
import Wiring.Registry.Aggregate
import Wiring.Override

set_option autoImplicit false

namespace Wiring

structure Candidate where
  binding : Binding
  source : Source

inductive Entry where
  | binding (chosen : Candidate)
  | aggregate (aggregate : Aggregate)

namespace Entry

def scope : Entry → Scope
  | binding c => c.binding.effectiveScope
  | aggregate a => a.scope

def dependencies : Entry → List Dependency
  | binding c => c.binding.dependencies
  | aggregate a => a.dependencies

end Entry

structure Registry where
  entries : KeyMap Entry := {}
  config : Config := {}

namespace Registry

def find? (r : Registry) (k : Key) : Option Entry := r.entries.find? k

def lookup (r : Registry) (k : Key) : Option Binding :=
  match r.find? k with
  | some (.binding c) => some c.binding
  | _ => none

def contains (r : Registry) (k : Key) : Bool := r.entries.contains k

def keys (r : Registry) : List Key := r.entries.keys

def size (r : Registry) : Nat := r.entries.size

def describe (r : Registry) : String :=
  Outline.record "Registry"
    [("keys", Outline.brackets (r.keys.map Key.describe)), ("config", r.config.describe)]

end Registry

end Wiring
