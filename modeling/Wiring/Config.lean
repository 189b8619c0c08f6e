import Wiring.Text.Outline

set_option autoImplicit false

namespace Wiring

/-- How long an instance lives: made on every request, or made once per injector. -/
inductive Scope where
  | unscoped
  | singleton
  deriving DecidableEq

namespace Scope

def name : Scope → String
  | unscoped => "unscoped"
  | singleton => "singleton"

def describe : Scope → String
  | unscoped => "Unscoped"
  | singleton => "Singleton"

def isCached : Scope → Bool
  | unscoped => false
  | singleton => true

def number : Scope → Nat
  | unscoped => 0
  | singleton => 1

def order (s t : Scope) : Ordering := compare s.number t.number

instance : Inhabited Scope := ⟨unscoped⟩

end Scope

/-- `defaultScope` is given to a binding when it is registered without a scope of its own, so a later
change leaves registered bindings alone. `maxDepth` bounds the chain of keys under construction.
With `validate` a registry is frozen only if every direct dependency is bound. -/
structure Config where
  defaultScope : Scope := .unscoped
  maxDepth : Nat := 100
  validate : Bool := false
  deriving DecidableEq, Inhabited

def Config.describe (c : Config) : String :=
  Outline.record "Config"
    [("default_scope", c.defaultScope.describe), ("max_resolution_depth", toString c.maxDepth),
     ("validate_on_build", Outline.bool c.validate)]

end Wiring
