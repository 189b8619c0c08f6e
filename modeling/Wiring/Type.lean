import Wiring.Name
import Wiring.Text.Quoted
import Wiring.Text.Outline

set_option autoImplicit false

namespace Wiring

/-- Types of plain values. All but `int` hold a text. -/
inductive Base where
  | alpha | beta | gen | shape | str | int
  deriving DecidableEq

namespace Base

def name : Base → String
  | alpha => "oracle::model::Alpha"
  | beta => "oracle::model::inner::Beta"
  | gen => "oracle::model::Gen<oracle::model::Alpha>"
  | shape => "alloc::boxed::Box<dyn oracle::model::Shape>"
  | str => "alloc::string::String"
  | int => "i64"

def index : Base → Nat
  | alpha => 0 | beta => 1 | gen => 2 | shape => 3 | str => 4 | int => 5

def remembers : Base → Bool
  | str | int => false
  | _ => true

end Base

inductive MapKeyType where
  | str | int | pair
  deriving DecidableEq

namespace MapKeyType

def name : MapKeyType → String
  | str => "alloc::string::String"
  | int => "i64"
  | pair => "(alloc::string::String, i64)"

def index : MapKeyType → Nat
  | str => 0 | int => 1 | pair => 2

end MapKeyType

inductive Collection where
  | set (element : Base)
  | list (element : Base)
  | map (key : MapKeyType) (element : Base)
  deriving DecidableEq

namespace Collection

def element : Collection → Base
  | set e | list e | map _ e => e

def keyType? : Collection → Option MapKeyType
  | map k _ => some k
  | _ => none

def name : Collection → String
  | set e => "bindery::multibinding::Set<" ++ e.name ++ ">"
  | list e => "bindery::multibinding::List<" ++ e.name ++ ">"
  | map k e => "bindery::multibinding::Map<" ++ k.name ++ ", " ++ e.name ++ ">"

def index : Collection → Nat
  | set _ => 1
  | list _ => 2
  | map k _ => 3 + k.index

end Collection

inductive Marker where
  | primary | replica | tagged | renamed | unqualified
  deriving DecidableEq

namespace Marker

def name : Marker → String
  | primary => "oracle::model::Primary"
  | replica => "oracle::model::inner::Replica"
  | tagged => "oracle::model::Tagged<oracle::model::Primary>"
  | renamed => "oracle::model::Renamed"
  | unqualified => "bindery::key::Unqualified"

def index : Marker → Nat
  | primary => 0 | replica => 1 | tagged => 2 | renamed => 3 | unqualified => 4

end Marker

/-- Types of modules. `closure` and `stateful` are the types of modules made from a function. -/
inductive ModuleType where
  | a | b | c | d | e | f | g | h | closure | stateful
  deriving DecidableEq

namespace ModuleType

def name : ModuleType → String
  | a => "oracle::modules::ModA"
  | b => "oracle::modules::ModB"
  | c => "oracle::modules::ModC"
  | d => "oracle::modules::ModD"
  | e => "oracle::modules::ModE"
  | f => "oracle::modules::ModF"
  | g => "oracle::model::inner::ModG"
  | h => "oracle::modules::Wrapper<oracle::modules::Spec>"
  | closure => "bindery::module::FnModule<oracle::modules::fn_mod::\x7b\x7bclosure\x7d\x7d>"
  | stateful => "bindery::module::StatefulModule<oracle::modules::State, " ++
      "oracle::modules::stateful_mod::\x7b\x7bclosure\x7d\x7d>"

/-- Place of a type among the module types, of which `a` is the last. -/
def index : ModuleType → Nat
  | b => 0 | c => 1 | d => 2 | e => 3 | f => 4 | g => 5 | h => 6 | closure => 7 | stateful => 8
  | a => 9

end ModuleType

/-- Identity of a type. `named` is a type of which only the name is known. -/
inductive TypeId where
  | value (base : Base)
  | collection (shape : Collection)
  | injector
  | marker (marker : Marker)
  | module (module : ModuleType)
  | named (name : String)
  deriving DecidableEq

namespace TypeId

def name : TypeId → String
  | value b => b.name
  | collection c => c.name
  | injector => "bindery::injector::Injector"
  | marker m => m.name
  | module m => m.name
  | named n => n

/-- Place of a type among all types: each base type is followed by its collections. -/
def rank : TypeId → Nat
  | value b => 6 * b.index
  | collection c => 6 * c.element.index + c.index
  | injector => 36
  | marker m => 37 + m.index
  | module m => 42 + m.index
  | named _ => 52

def order (s t : TypeId) : Ordering :=
  match s, t with
  | named m, named n => compare m n
  | _, _ => compare s.rank t.rank

end TypeId

/-- Map keys are values of base types, but for pairs. -/
def MapKeyType.id : MapKeyType → TypeId
  | str => .value .str
  | int => .value .int
  | pair => .named pair.name

structure TypeInfo where
  name : String
  id : TypeId
  deriving DecidableEq

namespace TypeInfo

def of (id : TypeId) : TypeInfo := ⟨id.name, id⟩

def named (name : String) : TypeInfo := of (.named name)

def shortName (t : TypeInfo) : String := Name.short t.name

def describe (t : TypeInfo) : String :=
  Outline.record "TypeInfo" [("name", Text.quoted t.name), ("id", "TypeId(0x_)")]

end TypeInfo

end Wiring
