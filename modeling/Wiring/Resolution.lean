import Wiring.World

/-!
Resolution of keys.

`resolve` finds the entry of a key, serves a singleton from the cache, and otherwise puts a frame on
the stack and runs the entry's strategy, which may request further keys. A key that is already under
construction by the same injector is refused, so are chains that are too long; whichever way a
construction ends, its frame is taken off the stack and its reservation is given up or fulfilled.

The functions below take the resolver for nested requests as an argument. `resolveWithin` ties the
knot a bounded number of times, and `resolve` chooses a bound that no run reaches, because nested
requests of one injector are for distinct bound keys.
-/

set_option autoImplicit false

namespace Wiring

/-- Ways for a resolution to end without an instance. A thread that is `blocked` waits for a place
that is reserved; `exhausted` means that requests were nested deeper than the bound. -/
inductive Stop where
  | error (error : ResolveError)
  | panic (text : String)
  | blocked (injector : InjectorId) (place : Place)
  | exhausted
  deriving DecidableEq

abbrev Act := EStateM Stop World

abbrev Resolver := InjectorId → Key → Act Instance

namespace Act

variable {α : Type}

def refuse (e : ResolveError) : Act α := throw (.error e)

def ofExcept : Except ResolveError α → Act α
  | .ok a => pure a
  | .error e => refuse e

/-- Runs an action and answers with its outcome. Only errors are answered; a panic goes on. -/
def attempt (x : Act α) : Act (Except ResolveError α) := fun w =>
  match x w with
  | .ok a left => .ok (.ok a) left
  | .error (.error e) left => .ok (.error e) left
  | .error stop left => .error stop left

def record (e : Event) : Act Unit := modify fun w => w.record e

/-- Runs an action with a frame on the stack, and takes one off at its end, however it ends. -/
def withFrame (f : Frame) (x : Act α) : Act α := fun w =>
  match x { w with frames := f :: w.frames } with
  | .ok a left => .ok a { left with frames := left.frames.tail }
  | .error stop left => .error stop { left with frames := left.frames.tail }

def count (tally : Nat) : Act Nat := fun w =>
  let n := (w.tallies.get? tally).getD 0 + 1
  .ok n { w with tallies := w.tallies.put tally n }

def fresh : Act InstanceId := fun w => .ok (.made w.made) { w with made := w.made + 1 }

end Act

namespace Resolution

/-- Runs the construction of a key with the key on the stack. It is refused if the key is under
construction already, with the path from there, or if the limit is reached. -/
def underConstruction (i : InjectorId) (key : Key) (limit : Nat) (x : Act Instance) : Act Instance :=
  fun w =>
    let path := w.underConstruction i
    let cycle := path.dropWhile fun k => k.ident ≠ key.ident
    if cycle ≠ [] then .error (.error (.circular (cycle ++ [key]))) w
    else if limit ≤ path.length then .error (.error (.depthExceeded key limit)) w
    else Act.withFrame ⟨i, key⟩ x w

/-- The instance kept at a place, or the one that is made now and kept there from then on. A making
that does not succeed leaves the place vacant. -/
def kept (i : InjectorId) (p : Place) (x : Act Instance) : Act Instance := fun w =>
  let found := (w.cache i).find p
  let w := w.record (.acquired i p found)
  match found with
  | .ready a => .ok a w
  | .busy => .error (.blocked i p) w
  | .vacant =>
    match x (w.withCache i fun c => c.reserve p) with
    | .ok a left =>
      .ok a ((left.withCache i fun c => (c.fulfill p a).release p).record (.stored i p a))
    | .error stop left => .error stop (left.withCache i fun c => c.release p)

def yielding (i : InjectorId) (p : Place) (x : Act Instance) : Act Instance := do
  let a ← x
  Act.record (.yielded i p a)
  pure a

def serve (self : Resolver) (i : InjectorId) (r : Request) : Act Instance := do
  let a ← self i r.key
  if a.type = r.expected then pure a
  else Act.refuse (.incorrectType r.key (TypeInfo.of r.expected))

def pull (self : Resolver) (l : Lazy) : Act Instance := do
  if (← get).isLive l.injector then serve self l.injector ⟨l.key, l.expected⟩
  else Act.refuse (.injectorDropped l.key)

def point (self : Resolver) (i : InjectorId) : Point → Act Held
  | .inject key _ => do
    let a ← serve self i (.of key)
    pure (.resolved a)
  | .lazy key _ => pure (.lazy ⟨i, key, key.type.id⟩)
  | .injector => pure (.injector i)

/-- Resolves injection points from left to right; the first error is the error. -/
def points (self : Resolver) (i : InjectorId) : List Point → Act (List Held)
  | [] => pure []
  | p :: rest => do
    let h ← point self i p
    let hs ← points self i rest
    pure (h :: hs)

def run {t : TypeId} (self : Resolver) (wrap : Cause → ResolveError) : Routine t → Act Draft
  | .done d _ => pure d
  | .fail cause => Act.refuse (wrap cause)
  | .panic text => throw (.panic text)
  | .count tally next => do
    let n ← Act.count tally
    run self wrap (next n)
  | .note n next => do
    modify fun w => w.note n
    run self wrap next
  | .find name next => do
    let w ← get
    run self wrap (next (w.directory.get? name))
  | .get i r next => do
    let answer ← Act.attempt (serve self i r)
    run self wrap (next answer)
  | .pull l next => do
    let answer ← Act.attempt (pull self l)
    run self wrap (next answer)

def make {t : TypeId} (self : Resolver) (i : InjectorId) (key : Key) (wrap : Cause → ResolveError)
    (body : Routine t) : Act Instance := do
  Act.record (.entered i key)
  let d ← run self wrap body
  let id ← Act.fresh
  pure (.object ⟨id, d.datum, d.marks⟩)

def produce (self : Resolver) (i : InjectorId) (key : Key) : Strategy → Act Instance
  | .construct _ ps body => do
    let held ← points self i ps
    make self i key (.instantiate key) (body held)
  | .fixed o => pure (.object o)
  | .shared name d => do
    let w ← get
    pure (.object ⟨.shared d.type name, (w.offers.get? (d.type, name)).getD d, []⟩)
  | .providerType _ name ps body => do
    let held ← points self i ps
    make self i key (.provider key name) (body held)
  | .provider _ name body => make self i key (.provider key name) body
  | .alias target => self i target

def element (self : Resolver) (i : InjectorId) (key : Key) (index : Nat) (c : Contribution) :
    Act Instance :=
  let place := Place.element key.ident index
  let x := do
    Act.record (.produced i place c.source)
    produce self i key c.binding.strategy
  yielding i place (if c.binding.effectiveScope.isCached then kept i place x else x)

def elements (self : Resolver) (i : InjectorId) (key : Key) (index : Nat) :
    List Contribution → Act (List (Option MapKey × Instance))
  | [] => pure []
  | c :: rest => do
    let a ← element self i key index c
    let others ← elements self i key (index + 1) rest
    pure ((c.mapKey, a) :: others)

def construct (self : Resolver) (i : InjectorId) (key : Key) : Entry → Act Instance
  | .binding c => do
    Act.record (.produced i (.binding key.ident) c.source)
    produce self i key c.binding.strategy
  | .aggregate a => do
    let es ← elements self i key 0 a.contributions
    let items ← Act.ofExcept (a.assemble key es)
    Act.record (.assembled i key.ident)
    let id ← Act.fresh
    pure (.collection id a.shape items)

/-- One request of a key. Every key of the injector type yields the injector itself. -/
def request (self : Resolver) : Resolver := fun i key => do
  let w ← get
  Act.record (.requested i key w.frames w.caches)
  if key.isInjector then pure (.injector i)
  else
    match (w.registry i).find? key with
    | none => Act.refuse (.unsatisfied key (w.requester i))
    | some entry =>
      let place := Place.binding key.ident
      let limit := (w.registry i).config.maxDepth
      yielding i place <|
        if entry.scope.isCached then
          match (w.cache i).ready? place with
          | some a => pure a
          | none => underConstruction i key limit (kept i place (construct self i key entry))
        else underConstruction i key limit (construct self i key entry)

def resolveWithin : Nat → Resolver
  | 0 => fun _ _ => throw .exhausted
  | depth + 1 => request (resolveWithin depth)

end Resolution

namespace World

def resolve : Resolver := fun i key w => Resolution.resolveWithin w.capacity i key w

def fetch (i : InjectorId) (r : Request) : Act Instance := Resolution.serve resolve i r

def pull (l : Lazy) : Act Instance := Resolution.pull resolve l

def resolvePoints (i : InjectorId) (ps : List Point) : Act (List Held) :=
  Resolution.points resolve i ps

end World

end Wiring
