import Wiring.Module.Build
import Wiring.Recipe

set_option autoImplicit false

namespace Wiring

/-- How the instance that a request yields is shown: with its parts, by its structural description,
or, for a collection, as its items if nothing else refers to it. -/
inductive Style where
  | parts
  | description
  | items
  deriving DecidableEq

structure Delivery where
  style : Style := .parts
  hold : Option String := none
  deriving DecidableEq

inductive Command where
  | direct (source : Source) (directive : Directive)
  | declareOverride (overriding overridden : ModuleId)
  | lookup (key : Key)
  | contains (key : Key)
  | builder
  | finalize
  | registry (key : Key)
  | injector (name : String)
  | build (name : String) (config : Config) (modules : List Module) (describe : Bool)
  | clone (name copy : String)
  | drop (name : String)
  | get (injector : String) (request : Request) (delivery : Delivery)
  | has (injector : String) (key : Key)
  | info (injector : String) (describe : Bool)
  | resolve (injector : String) (points : List Point)
  | threads (injector : String) (request : Request) (count times : Nat)
  | lazy (injector : String) (request : Request) (name : String)
  | cloneLazy (name copy : String)
  | pull (name : String) (delivery : Delivery)
  | pullHeld (name : String) (index : Nat) (delivery : Delivery)

end Wiring
