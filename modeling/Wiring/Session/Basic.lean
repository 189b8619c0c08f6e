import Wiring.Resolution
import Wiring.Text.Json
import Wiring.Session.Command
import Wiring.Session.View

set_option autoImplicit false

namespace Wiring

structure Session where
  world : World := {}
  builder : Builder := {}
  registry : Option Registry := none
  handles : Table String Lazy := []
  shown : Shown := []

/-- What several requests of one key came to: how many distinct instances there were, how often each
text was seen, and how often each kind of error. -/
structure Census where
  distinct : Nat
  texts : Table String Nat
  errors : Table String Nat
  deriving DecidableEq

inductive Reply where
  | done
  | text (s : String)
  | flag (b : Bool)
  | binding (found : Option Binding)
  | builder (finalized : Bool) (config : Config) (description : String)
  | frozen (keys : List String)
  | registry (found : Option Binding) (contains : Bool) (config : Config) (description : String)
  | built (modules : List ModuleInfo) (keys : List String) (description : Option String)
  | shown (view : InstanceView)
  | items (items : List (Option MapKey × ObjectView))
  | referred
  | info (modules : List ModuleInfo) (keys : List String) (config : Config)
      (description : Option String)
  | resolved (dependencies : List Dependency) (points : Except ErrorReport (List PointView))
  | census (census : Census)
  | handle (key description : String)

/-- How a command ended. It is skipped if something that it needs was never made, or is gone. -/
inductive Ending where
  | ok (reply : Reply)
  | failed (error : ErrorReport)
  | panicked (text : String)
  | skipped

structure Answer where
  ending : Ending
  notes : List Note

namespace Session

def withConfig (c : Config) : Session := { builder := Builder.withConfig c }

/-- The ending of an action that stopped. On one thread no place is found reserved and no request
is nested too deep. -/
def ofStop : Stop → Ending
  | .error e => .failed e.report
  | .panic text => .panicked text
  | .blocked .. | .exhausted => .skipped

def ofBind : Except BindError Unit → Reply → Ending
  | .ok _, reply => .ok reply
  | .error e, _ => .failed e.report

def direct (s : Session) (source : Source) (d : Directive) : Ending × Session :=
  let (outcome, tried, builder) := Operation.applyAll s.builder (d.operations source)
  let reply := match d.subject? with
    | some key => .text key.text
    | none => .done
  (ofBind outcome reply, { s with builder, world := s.world.offerAll tried })

def deliver (s : Session) (d : Delivery) (x : Act Instance) : Ending × Session :=
  match x s.world with
  | .error stop w => (ofStop stop, { s with world := w })
  | .ok a w =>
    let held := match d.hold with
      | some name => { w with holdings := w.holdings.put name a }
      | none => w
    match d.style, a with
    | .description, a => (.ok (.text (w.describe a)), { s with world := held })
    | .items, .collection id shape is =>
      if held.refersTo (.collection id shape is) then (.ok .referred, { s with world := held })
      else
        let (vs, shown) := s.shown.items is
        (.ok (.items vs), { s with world := held, shown })
    | _, a =>
      let (v, shown) := s.shown.view w a
      (.ok (.shown v), { s with world := held, shown })

def resolvePoints (s : Session) (i : InjectorId) (ps : List Point) : Ending × Session :=
  let declared := ps.filterMap Point.dependency?
  match World.resolvePoints i ps s.world with
  | .ok held w =>
    let (vs, shown) := PointView.ofAll s.shown w (ps.zip held)
    (.ok (.resolved declared (.ok vs)), { s with world := w, shown })
  | .error (.error e) w => (.ok (.resolved declared (.error e.report)), { s with world := w })
  | .error stop w => (ofStop stop, { s with world := w })

/-- The identities seen by a census. An injector is handed out anew each time. -/
structure Sightings where
  ids : List InstanceId := []
  injectors : Nat := 0
  texts : Table String Nat := []
  errors : Table String Nat := []

namespace Sightings

def increment (t : Table String Nat) (name : String) : Table String Nat :=
  t.put name ((t.get? name).getD 0 + 1)

def add (c : Sightings) (a : Instance) : Sightings :=
  let c := { c with texts := increment c.texts a.text }
  match a.id? with
  | some id => if id ∈ c.ids then c else { c with ids := id :: c.ids }
  | none => { c with injectors := c.injectors + 1 }

def addStop (c : Sightings) : Stop → Sightings
  | .error e => { c with errors := increment c.errors e.kind }
  | .panic _ => { c with errors := increment c.errors "panic" }
  | .blocked .. | .exhausted => c

def census (c : Sightings) : Census := ⟨c.ids.length + c.injectors, c.texts, c.errors⟩

end Sightings

def repeatRequest (i : InjectorId) (r : Request) : Nat → World → Sightings → Sightings × World
  | 0, w, c => (c, w)
  | n + 1, w, c =>
    match World.fetch i r w with
    | .ok a left => repeatRequest i r n left (c.add a)
    | .error stop left => repeatRequest i r n left (c.addStop stop)

/-- Orders notes of concurrent calls: by the JSON text of the label, then by count. -/
def noteBefore (a b : Note) : Bool :=
  match a, b with
  | .call s m, .call t n =>
    match compare (Text.json s) (Text.json t) with
    | .lt => true
    | .gt => false
    | .eq => m ≤ n
  | .call .., _ => true
  | _, .call .. => false
  | _, _ => true

def withInjector (s : Session) (name : String) (f : InjectorId → Ending × Session) :
    Ending × Session :=
  match s.world.directory.get? name with
  | some i => f i
  | none => (.skipped, s)

def keyTexts (ks : List Key) : List String := ks.map Key.text

def heldHandle? (w : World) (name : String) (index : Nat) : Option Lazy :=
  match w.holdings.get? name with
  | some (.object o) =>
    match o.marks[index]? with
    | some (.lazy l) => some l
    | _ => none
  | _ => none

def build (s : Session) (name : String) (config : Config) (modules : List Module)
    (describe : Bool) : Ending × Session :=
  let assembly := Assembly.ofModules config modules
  let built := assembly.build
  let w := (built.notes.foldl World.note s.world).offerAll built.tried
  match built.outcome with
  | .error e => (.failed e.report, { s with world := w })
  | .ok j =>
    let description := if describe then some assembly.describe else none
    (.ok (.built j.modules (keyTexts j.registry.keys) description),
      { s with world := w.addInjector name j })

def perform (s : Session) : Command → Ending × Session
  | .direct source d => s.direct source d
  | .declareOverride overriding overridden =>
    let (outcome, builder) := s.builder.declareOverride overriding overridden
    (ofBind outcome .done, { s with builder })
  | .lookup key => (.ok (.binding (s.builder.lookup key)), s)
  | .contains key => (.ok (.flag (s.builder.contains key)), s)
  | .builder =>
    (.ok (.builder s.builder.isFinalized s.builder.config s.builder.describe), s)
  | .finalize =>
    match s.builder.finalize with
    | (.ok r, builder) => (.ok (.frozen (keyTexts r.keys)), { s with builder, registry := some r })
    | (.error e, builder) => (.failed e.report, { s with builder })
  | .registry key =>
    match s.registry with
    | none => (.skipped, s)
    | some r => (.ok (.registry (r.lookup key) (r.contains key) r.config r.describe), s)
  | .injector name =>
    match s.registry with
    | none => (.skipped, s)
    | some registry => (.ok .done, { s with world := s.world.addInjector name { registry } })
  | .build name config modules describe => s.build name config modules describe
  | .clone name copy => s.withInjector name fun i =>
    (.ok .done,
      { s with world := { s.world with directory := s.world.directory.put copy i } })
  | .drop name =>
    (.ok .done,
      { s with world := { s.world with directory := s.world.directory.erase name } })
  | .get name r d => s.withInjector name fun i => s.deliver d (World.fetch i r)
  | .has name key => s.withInjector name fun i =>
    (.ok (.flag (key.isInjector || (s.world.registry i).contains key)), s)
  | .info name describe => s.withInjector name fun i =>
    let j := s.world.injector i
    let description := if describe then some j.describe else none
    (.ok (.info j.modules (keyTexts j.registry.keys) j.registry.config description), s)
  | .resolve name ps => s.withInjector name fun i => s.resolvePoints i ps
  | .threads name r count times => s.withInjector name fun i =>
    let (c, w) := repeatRequest i r (count * times) s.world {}
    let sorted := (w.notes.reverse.mergeSort noteBefore).reverse
    (.ok (.census c.census), { s with world := { w with notes := sorted } })
  | .lazy name r handle => s.withInjector name fun i =>
    let l : Lazy := ⟨i, r.key, r.expected⟩
    (.ok (.handle r.key.text l.describe), { s with handles := s.handles.put handle l })
  | .cloneLazy name copy =>
    match s.handles.get? name with
    | none => (.skipped, s)
    | some l => (.ok .done, { s with handles := s.handles.put copy l })
  | .pull name d =>
    match s.handles.get? name with
    | none => (.skipped, s)
    | some l => s.deliver d (World.pull l)
  | .pullHeld name index d =>
    match heldHandle? s.world name index with
    | none => (.skipped, s)
    | some l => s.deliver d (World.pull l)

def answer (s : Session) (c : Command) : Answer × Session :=
  let (ending, t) := s.perform c
  (⟨ending, t.world.notes.reverse⟩, { t with world := { t.world with notes := [], events := [] } })

def answerAll (s : Session) : List Command → List Answer
  | [] => []
  | c :: rest =>
    let (a, t) := s.answer c
    a :: answerAll t rest

end Session

end Wiring
