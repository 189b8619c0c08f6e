import Wiring.Script

set_option autoImplicit false

namespace Wiring

inductive ProviderName where
  | given (name : String)
  | closure
  | plain
  deriving DecidableEq

def ProviderName.text (t : TypeId) : ProviderName → String
  | given n => n
  | closure => "oracle::ty::closure_provider<" ++ t.name ++ ">::\x7b\x7bclosure\x7d\x7d"
  | plain => "oracle::model::PlainProvider<" ++ t.name ++ ">"

def providerClassName (t : TypeId) (n : Nat) : String :=
  "oracle::model::ProviderClass<" ++ t.name ++ ", " ++ toString n ++ ">"

inductive Recipe where
  /-- A value of its own, with a number that tells it from others. -/
  | fixed (number : Nat) (value : Value)
  | shared (name : String) (value : Value)
  | script (script : Script)
  | providerClass (number : Nat) (script : Script)
  | provider (name : ProviderName) (script : Script)
  | alias (target : Key)
  deriving DecidableEq

namespace Recipe

def valueStrategy (b : Base) : Recipe → Strategy
  | fixed n v => .fixed ⟨.fixed n, v.datum b, []⟩
  | shared name v => .shared name (v.datum b)
  | script s => .construct (.value b) s.points (s.body b)
  | providerClass n s =>
    .providerType (.value b) (providerClassName (.value b) n) s.points (s.providerBody b)
  | provider name s => .provider (.value b) (name.text (.value b)) (s.body b [])
  | .alias target => .alias target

def refusal : Recipe → String
  | script s | providerClass _ s | provider _ s => s.fail.getD ""
  | _ => ""

/-- The strategy for any type. Only values are ever made; for another type a recipe other than an
alias fails. -/
def strategy (t : TypeId) (r : Recipe) : Strategy :=
  match t, r with
  | .value b, r => r.valueStrategy b
  | _, .alias target => .alias target
  | t, r => .construct t [] fun _ => .fail (.message r.refusal)

def binding (t : TypeId) (scope : Option Scope) (r : Recipe) : Binding := ⟨r.strategy t, scope⟩

end Recipe

end Wiring
