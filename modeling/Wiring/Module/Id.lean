import Wiring.Type

set_option autoImplicit false

namespace Wiring

/-- Configuration state of a module. Lists are written cell by cell. -/
inductive ModuleState where
  | null
  | text (s : String)
  | number (n : Int)
  | nil
  | cons (head tail : ModuleState)
  deriving DecidableEq

/-- What tells modules of one type apart: a given number, the state they hold, or, for a closure
that cannot be compared, the count of closures made before it. -/
inductive Fingerprint where
  | number (n : Nat)
  | state (s : ModuleState)
  | closure (n : Nat)
  deriving DecidableEq

/-- Modules of one type with equal fingerprints are the same module. -/
structure ModuleId where
  type : TypeId
  fingerprint : Fingerprint
  deriving DecidableEq

namespace ModuleId

def text (m : ModuleId) : String := (TypeInfo.of m.type).shortName

def describe (m : ModuleId) : String :=
  Outline.record "ModuleId" [("type_info", (TypeInfo.of m.type).describe), ("fingerprint", "_")]

def pathText (path : List ModuleId) : String := " -> ".intercalate (path.map text)

end ModuleId

/-- Origin of a registration. A direct registration neither overrides nor is overridden. -/
inductive Source where
  | direct
  | module (id : ModuleId)
  deriving DecidableEq

def Source.text : Source → String
  | direct => "direct registration"
  | module m => "module " ++ m.text

end Wiring
