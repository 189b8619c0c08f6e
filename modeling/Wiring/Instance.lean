import Wiring.Key

set_option autoImplicit false

namespace Wiring

abbrev InjectorId := Nat

inductive Datum where
  | alpha (text : String)
  | beta (text : String)
  | gen (text : String)
  | shape (text : String)
  | str (text : String)
  | int (number : Int64)
  deriving DecidableEq

namespace Datum

def type : Datum → Base
  | alpha _ => .alpha | beta _ => .beta | gen _ => .gen | shape _ => .shape
  | str _ => .str | int _ => .int

/-- The value of type `b` out of a text and a number, of which it takes the one that fits. -/
def ofType (b : Base) (text : String) (number : Int64) : Datum :=
  match b with
  | .alpha => alpha text
  | .beta => beta text
  | .gen => gen text
  | .shape => shape text
  | .str => str text
  | .int => int number

@[simp] theorem type_ofType (b : Base) (s : String) (n : Int64) : (ofType b s n).type = b := by
  cases b <;> rfl

def text : Datum → String
  | alpha s | beta s | gen s | shape s | str s => s
  | int n => toString n.toInt

def describe : Datum → String
  | alpha s => Outline.tagged "Alpha" (Text.quoted s)
  | beta s => Outline.tagged "Beta" (Text.quoted s)
  | gen s => Outline.tagged "Gen" (Text.quoted s)
  | shape s => Outline.tagged "Shape" (Text.quoted s)
  | str s => Text.quoted s
  | int n => toString n.toInt

end Datum

inductive MapKey where
  | str (text : String)
  | int (number : Int64)
  | pair (text : String) (number : Int64)
  deriving DecidableEq

namespace MapKey

def type : MapKey → MapKeyType
  | str _ => .str | int _ => .int | pair _ _ => .pair

def describe : MapKey → String
  | str s => Text.quoted s
  | int n => toString n.toInt
  | pair s n => "(" ++ Text.quoted s ++ ", " ++ toString n.toInt ++ ")"

end MapKey

/-- A deferred reference: resolves its key with its injector, as long as that one exists, and
expects an instance of the given type. -/
structure Lazy where
  injector : InjectorId
  key : Key
  expected : TypeId
  deriving DecidableEq

def Lazy.describe (l : Lazy) : String := Outline.openRecord "Lazy" [("key", l.key.describe)]

/-- Identity of an instance: fixed by a binding, shared under a name, or made by a resolution. -/
inductive InstanceId where
  | fixed (number : Nat)
  | shared (type : Base) (name : String)
  | made (number : Nat)
  deriving DecidableEq

/-- What a value remembers of the things it was made from. -/
inductive Mark where
  | resolved (id : InstanceId)
  | lazy (handle : Lazy)
  | injector
  deriving DecidableEq

/-- A value and what it remembers, before it has an identity. -/
structure Draft where
  datum : Datum
  marks : List Mark
  deriving DecidableEq

structure Object where
  id : InstanceId
  datum : Datum
  marks : List Mark
  deriving DecidableEq

inductive Instance where
  | object (object : Object)
  | collection (id : InstanceId) (shape : Collection) (items : List (Option MapKey × Object))
  | injector (id : InjectorId)
  deriving DecidableEq

namespace Instance

def type : Instance → TypeId
  | object o => .value o.datum.type
  | collection _ c _ => .collection c
  | injector _ => .injector

def asObject? (b : Base) : Instance → Option Object
  | object o => if o.datum.type = b then some o else none
  | _ => none

def id? : Instance → Option InstanceId
  | object o => some o.id
  | collection i _ _ => some i
  | injector _ => none

def mark : Instance → Mark
  | object o => .resolved o.id
  | collection i _ _ => .resolved i
  | injector _ => .injector

def itemText (separator : String) (keyText : MapKey → String) (valueText : Datum → String) :
    Option MapKey × Object → String
  | (none, o) => valueText o.datum
  | (some k, o) => keyText k ++ separator ++ valueText o.datum

def text : Instance → String
  | object o => o.datum.text
  | collection _ (.list _) items =>
    "[" ++ ",".intercalate (items.map (itemText ":" MapKey.describe Datum.text)) ++ "]"
  | collection _ _ items =>
    "\x7b" ++ ",".intercalate (items.map (itemText ":" MapKey.describe Datum.text)) ++ "\x7d"
  | injector _ => "injector"

/-- Structural description. An injector is described by the one who knows its registry. -/
def describe : Instance → String
  | object o => o.datum.describe
  | collection _ (.list _) items =>
    Outline.brackets (items.map (itemText ": " MapKey.describe Datum.describe))
  | collection _ _ items =>
    Outline.braces (items.map (itemText ": " MapKey.describe Datum.describe))
  | injector _ => "Injector"

end Instance

/-- What an injection point yields: an instance, a handle, or the injector itself. -/
inductive Held where
  | resolved (value : Instance)
  | lazy (handle : Lazy)
  | injector (id : InjectorId)
  deriving DecidableEq

namespace Held

def mark : Held → Mark
  | resolved i => i.mark
  | lazy l => .lazy l
  | injector _ => .injector

def instance? : Held → Option Instance
  | resolved i => some i
  | _ => none

end Held

end Wiring
