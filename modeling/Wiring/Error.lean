import Wiring.Key
import Wiring.Module.Id

set_option autoImplicit false

namespace Wiring

mutual

inductive ResolveError where
  | unsatisfied (key : Key) (requestedBy : Option Key)
  | circular (path : List Key)
  | depthExceeded (key : Key) (limit : Nat)
  | incorrectType (key : Key) (expected : TypeInfo)
  | instantiate (key : Key) (cause : Cause)
  | provider (key : Key) (provider : String) (cause : Cause)
  | injectorDropped (key : Key)
  deriving DecidableEq

/-- Why a constructor or provider failed: a message of its own, a message about a further cause, or
a failed request passed on. -/
inductive Cause where
  | message (text : String)
  | context (text : String) (inner : Cause)
  | resolution (error : ResolveError)
  deriving DecidableEq

end

inductive BindError where
  | duplicateBinding (key : Key) (existing duplicate : Source)
  | duplicateMapKey (key : Key) (mapKey : String) (existing duplicate : Source)
  | aggregateConflict (key : Key)
  | incorrectType (key : Key) (actual : TypeInfo)
  | unsatisfied (key requestedBy : Key)
  | finalized (key : Key)
  | finalizedOverride (overriding overridden : ModuleId)
  | ambiguousOverride (key : Key)
  deriving DecidableEq

inductive BuildError where
  | cycle (path : List ModuleId)
  | configure (module : ModuleId) (cause : BindError)
  | bind (cause : BindError)
  deriving DecidableEq

namespace ResolveError

def kind : ResolveError → String
  | unsatisfied .. => "Unsatisfied"
  | circular .. => "Circular"
  | depthExceeded .. => "DepthExceeded"
  | incorrectType .. => "IncorrectType"
  | instantiate .. => "Instantiate"
  | provider .. => "Provider"
  | injectorDropped .. => "InjectorDropped"

def message : ResolveError → String
  | unsatisfied key none => "No binding found for " ++ key.text
  | unsatisfied key (some asker) => "No binding found for " ++ key.text ++ ", requested by " ++ asker.text
  | circular path => "Circular dependency detected: " ++ Key.pathText path
  | depthExceeded key limit =>
    "Resolution depth limit (" ++ toString limit ++ ") exceeded while resolving " ++ key.text
  | incorrectType key expected =>
    "Incorrect type of " ++ key.text ++ ". Expected: " ++ expected.name
  | instantiate key _ => "Failed to instantiate " ++ key.text
  | provider key name _ => "Provider " ++ name ++ " failed to provide " ++ key.text
  | injectorDropped key => "Injector was dropped before " ++ key.text ++ " was resolved"

end ResolveError

mutual

def ResolveError.sources : ResolveError → List String
  | .instantiate _ cause => cause.texts
  | .provider _ _ cause => cause.texts
  | _ => []

/-- Texts of a cause and of all below it. A request passed on speaks for itself. -/
def Cause.texts : Cause → List String
  | .message text => [text]
  | .context text inner => text :: inner.texts
  | .resolution error => error.message :: error.sources

end

namespace BindError

def kind : BindError → String
  | duplicateBinding .. => "DuplicateBinding"
  | duplicateMapKey .. => "DuplicateMapKey"
  | aggregateConflict .. => "AggregateConflict"
  | incorrectType .. => "IncorrectType"
  | unsatisfied .. => "Unsatisfied"
  | finalized .. => "Finalized"
  | finalizedOverride .. => "FinalizedOverride"
  | ambiguousOverride .. => "AmbiguousOverride"

def message : BindError → String
  | duplicateBinding key existing duplicate =>
    "Duplicate binding for " ++ key.text ++ ": bound by " ++ existing.text ++ " and by " ++
      duplicate.text ++ ", neither overrides the other"
  | duplicateMapKey key mapKey existing duplicate =>
    "Duplicate map key " ++ mapKey ++ " in " ++ key.text ++ ": contributed by " ++ existing.text ++
      " and by " ++ duplicate.text ++ ", neither overrides the other"
  | aggregateConflict key => key.text ++ " is bound both as a single binding and as a multibinding"
  | incorrectType key actual => "Binding registered for " ++ key.text ++ " provides " ++ actual.name
  | unsatisfied key asker => "No binding found for " ++ key.text ++ ", requested by " ++ asker.text
  | finalized key => "Registry is finalized, " ++ key.text ++ " can't be bound"
  | finalizedOverride overriding overridden =>
    "Registry is finalized, override of " ++ overridden.text ++ " by " ++ overriding.text ++
      " can't be declared"
  | ambiguousOverride key => "Override relation between bindings of " ++ key.text ++ " is cyclic"

end BindError

namespace BuildError

def kind : BuildError → String
  | cycle _ => "Module.Cycle"
  | configure _ cause => "Module.Configure." ++ cause.kind
  | bind cause => "Bind." ++ cause.kind

def message : BuildError → String
  | cycle path => "Module override cycle detected: " ++ ModuleId.pathText path
  | configure module _ => "Failed to configure module " ++ module.text
  | bind cause => cause.message

def sources : BuildError → List String
  | configure _ cause => [cause.message]
  | _ => []

end BuildError

structure ErrorReport where
  kind : String
  message : String
  sources : List String
  deriving DecidableEq

def ResolveError.report (e : ResolveError) : ErrorReport := ⟨e.kind, e.message, e.sources⟩

def BindError.report (e : BindError) : ErrorReport := ⟨e.kind, e.message, []⟩

def BuildError.report (e : BuildError) : ErrorReport := ⟨e.kind, e.message, e.sources⟩

end Wiring
