import Wiring.Type

/-!
Keys: what a binding is registered and requested under.

A key is a type and perhaps a qualifier. Its identity leaves out every displayed name; identities
are totally ordered, by type first, then no qualifier before names before markers.
-/

set_option autoImplicit false

namespace Wiring

inductive Qualifier where
  | named (text : String)
  | marker (type : TypeInfo)
  deriving DecidableEq

inductive QualifierId where
  | named (text : String)
  | marker (type : TypeId)
  deriving DecidableEq

namespace Qualifier

def ident : Qualifier → QualifierId
  | named s => .named s
  | marker t => .marker t.id

def text : Qualifier → String
  | named s => "\"" ++ s ++ "\""
  | marker t => "@" ++ t.shortName

def describe : Qualifier → String
  | named s => Outline.tagged "Named" (Text.quoted s)
  | marker t => Outline.tagged "Marker" t.describe

end Qualifier

/-- What a marker stands for: itself, unless it stands for a name or for no qualifier at all. -/
def Marker.qualifier : Marker → Option Qualifier
  | .renamed => some (.named "replica")
  | .unqualified => none
  | m => some (.marker (TypeInfo.of (.marker m)))

structure Key where
  type : TypeInfo
  qualifier : Option Qualifier
  deriving DecidableEq

structure Ident where
  type : TypeId
  qualifier : Option QualifierId
  deriving DecidableEq

namespace QualifierId

def order : QualifierId → QualifierId → Ordering
  | named s, named t => compare s t
  | named _, marker _ => .lt
  | marker _, named _ => .gt
  | marker s, marker t => s.order t

def orderOption : Option QualifierId → Option QualifierId → Ordering
  | none, none => .eq
  | none, some _ => .lt
  | some _, none => .gt
  | some s, some t => s.order t

end QualifierId

def Ident.order (a b : Ident) : Ordering :=
  (a.type.order b.type).then (QualifierId.orderOption a.qualifier b.qualifier)

namespace Key

def of (t : TypeId) : Key := ⟨TypeInfo.of t, none⟩

def qualified (t : TypeId) (q : Option Qualifier) : Key := ⟨TypeInfo.of t, q⟩

def named (t : TypeId) (text : String) : Key := ⟨TypeInfo.of t, some (.named text)⟩

def withQualifier (k : Key) (q : Option Qualifier) : Key := { k with qualifier := q }

def ident (k : Key) : Ident := ⟨k.type.id, k.qualifier.map Qualifier.ident⟩

def order (a b : Key) : Ordering := a.ident.order b.ident

def isInjector (k : Key) : Bool := k.type.id = .injector

def text (k : Key) : String :=
  match k.qualifier with
  | none => k.type.name
  | some q => k.type.name ++ "[" ++ q.text ++ "]"

def pathText (path : List Key) : String := " -> ".intercalate (path.map text)

def describe (k : Key) : String :=
  Outline.record "Key"
    [("type_info", k.type.describe), ("qualifier", Outline.option (k.qualifier.map Qualifier.describe))]

end Key

end Wiring
