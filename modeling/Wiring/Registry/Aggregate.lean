import Wiring.Binding

set_option autoImplicit false

namespace Wiring

structure Contribution where
  binding : Binding
  source : Source
  mapKey : Option MapKey

structure Aggregate where
  shape : Collection
  scope : Scope
  contributions : List Contribution := []

namespace Aggregate

/-- Adds a contribution under a map key. The one found under an equal key is replaced if the new one
overrides it and stands if it overrides the new one; otherwise its source is the error. -/
def place (overrides : Source → Source → Bool) (new : Contribution) (k : MapKey) :
    List Contribution → Except Source (List Contribution)
  | [] => .ok [new]
  | c :: rest =>
    if c.mapKey = some k then
      if overrides new.source c.source then .ok (new :: rest)
      else if overrides c.source new.source then .ok (c :: rest)
      else .error c.source
    else (place overrides new k rest).map (c :: ·)

def insert (overrides : Source → Source → Bool) (key : Key) (new : Contribution) (a : Aggregate) :
    Except BindError Aggregate :=
  if new.binding.provides.id ≠ .value a.shape.element then
    .error (.incorrectType key new.binding.provides)
  else
    match new.mapKey with
    | none => .ok { a with contributions := a.contributions ++ [new] }
    | some k =>
      match place overrides new k a.contributions with
      | .ok placed => .ok { a with contributions := placed }
      | .error existing => .error (.duplicateMapKey key k.describe existing new.source)

def dependencies (a : Aggregate) : List Dependency :=
  a.contributions.flatMap fun c => c.binding.dependencies

/-- Items of a set: of equal values the first stays. -/
def distinct : List Object → List Object → List Object
  | seen, [] => seen
  | seen, o :: rest =>
    if seen.any (fun s => s.datum = o.datum) then distinct seen rest else distinct (seen ++ [o]) rest

/-- Writes an entry of an assembled map; an equal key keeps its place and gets the new value. -/
def write (k : MapKey) (o : Object) :
    List (Option MapKey × Object) → List (Option MapKey × Object)
  | [] => [(some k, o)]
  | (x, p) :: rest =>
    if x = some k then (x, o) :: rest else (x, p) :: write k o rest

/-- The key type of the map that an element is for, unless its map key is of this type. -/
def lackedKey? (c : Collection) (k : Option MapKey) : Option MapKeyType :=
  c.keyType?.filter fun t => k.map MapKey.type ≠ some t

/-- The values that elements come to, behind their map keys. The first that does not fit is the error; its map
key is looked at before its value. -/
def objects (key : Key) (c : Collection) :
    List (Option MapKey × Instance) → Except ResolveError (List (Option MapKey × Object))
  | [] => .ok []
  | (k, i) :: rest =>
    match lackedKey? c k, i.asObject? c.element with
    | some t, _ => .error (.incorrectType key (TypeInfo.of t.id))
    | none, none => .error (.incorrectType key (TypeInfo.of (.value c.element)))
    | none, some o => (objects key c rest).map ((k, o) :: ·)

def assemble (key : Key) (a : Aggregate) (elements : List (Option MapKey × Instance)) :
    Except ResolveError (List (Option MapKey × Object)) :=
  (objects key a.shape elements).map fun entries =>
    match a.shape with
    | .set _ => (distinct [] (entries.map (·.2))).map (none, ·)
    | .list _ => entries.map fun e => (none, e.2)
    | .map _ _ => entries.foldl (fun m e => match e.1 with
        | some k => write k e.2 m
        -- An element without a map key has been refused.
        | none => m) []

end Aggregate

end Wiring
