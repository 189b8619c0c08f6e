import Wiring.Binding

set_option autoImplicit false

namespace Wiring

inductive Value where
  | text (s : String)
  | number (n : Int64)
  deriving DecidableEq

namespace Value

def label : Value → String
  | text s => s
  | number n => toString n.toInt

def toNumber : Value → Int64
  | text _ => 0
  | number n => n

def datum (b : Base) (v : Value) : Datum := Datum.ofType b v.label v.toNumber

end Value

/-- What happens with the outcome of a request: an instance may be kept, an error may be passed on
as the script's own failure. -/
structure Handling where
  keep : Bool := false
  must : Bool := false
  deriving DecidableEq

inductive Action where
  | sleep
  | pull (index : Nat) (handling : Handling)
  /-- Resolves a request with the injector of a name, or else with the first injector held. -/
  | get (request : Request) (injector : Option String) (handling : Handling)
  deriving DecidableEq

structure Script where
  /-- Calls of scripts with one tally are counted together. -/
  tally : Nat
  value : Value
  points : List Point := []
  actions : List Action := []
  fail : Option String := none
  failFirst : Option Nat := none
  panic : Option String := none
  panicFirst : Option Nat := none
  injectFail : Option String := none
  deriving DecidableEq

namespace Script

def label (s : Script) : String := s.value.label

/-- Whether something that happens on the first calls only, if a number is given, happens on call `n`. -/
def happens (first : Option Nat) (n : Nat) : Bool :=
  match first with
  | none => true
  | some k => n ≤ k

def heldInstances (held : List Held) : List Instance := held.filterMap Held.instance?

def text (s : Script) (held : List Held) : String :=
  match heldInstances held with
  | [] => s.label
  | is => s.label ++ "(" ++ ",".intercalate (is.map Instance.text) ++ ")"

def numberOf : Instance → Int64
  | .object ⟨_, .int n, _⟩ => n
  | _ => 0

/-- The number given, plus the numbers of the integers held, modulo 2^64. -/
def sum (s : Script) (held : List Held) : Int64 :=
  (heldInstances held).foldl (fun n i => n + numberOf i) s.value.toNumber

def draft (s : Script) (b : Base) (held : List Held) : Draft :=
  { datum := Datum.ofType b (s.text held) (s.sum held)
    marks := if b.remembers then held.map Held.mark else [] }

theorem draft_type (s : Script) (b : Base) (held : List Held) : (s.draft b held).datum.type = b :=
  Datum.type_ofType _ _ _

def settle {t : TypeId} (s : Script) (h : Handling) (held : List Held)
    (next : List Held → Routine t) : Except ResolveError Instance → Routine t
  | .ok a => .note (.got s.label a.text) (next (if h.keep then held ++ [.resolved a] else held))
  | .error e =>
    .note (.failed s.label e) (if h.must then .fail (.resolution e) else next held)

def firstInjector? (held : List Held) : Option InjectorId :=
  held.findSome? fun h => match h with
    | .injector i => some i
    | _ => none

/-- Performs actions in order. One that has nothing to act on is passed over. -/
def perform {t : TypeId} (s : Script) (next : List Held → Routine t) :
    List Action → List Held → Routine t
  | [], held => next held
  | .sleep :: rest, held => perform s next rest held
  | .pull index h :: rest, held =>
    match held[index]? with
    | some (.lazy l) => .pull l (settle s h held (perform s next rest))
    | _ => perform s next rest held
  | .get r none h :: rest, held =>
    match firstInjector? held with
    | some i => .get i r (settle s h held (perform s next rest))
    | none => perform s next rest held
  | .get r (some name) h :: rest, held =>
    .find name fun found =>
      match found with
      | some i => .get i r (settle s h held (perform s next rest))
      | none => perform s next rest held

/-- The end of call `n`: a panic goes before a failure, a failure before a value. -/
def finish (s : Script) (b : Base) (n : Nat) (held : List Held) : Routine (.value b) :=
  match s.panic.filter fun _ => happens s.panicFirst n,
        s.fail.filter fun _ => happens s.failFirst n with
  | some p, _ => .panic p
  | none, some m => .fail (.message m)
  | none, none => .done (s.draft b held) (congrArg _ (s.draft_type b held))

def body (s : Script) (b : Base) (held : List Held) : Routine (.value b) :=
  .count s.tally fun n =>
    .note (.call s.label n) (perform s (finish s b n) s.actions held)

def providerBody (s : Script) (b : Base) (held : List Held) : Routine (.value b) :=
  .note (.inject s.label) <|
    match s.injectFail with
    | some m => .fail (.message m)
    | none => s.body b held

end Script

end Wiring
