import Wiring.World
import Wiring.Resolution
import Wiring.Proofs.KeyOrder

/-!
Displayed names, and what is left without them.

A key displays names beside its identity: of its type, and of its marker. Erasing them leaves what a key is made
of otherwise, so two keys are erased alike exactly if they have one identity. Whatever carries keys is erased
with them. What user code says in texts is read in a way that is fixed beforehand, so that texts which
differ in displayed names may be read alike.
-/

set_option autoImplicit false

namespace Wiring

/-- A way of reading what user code says in texts. What is read already reads as it is. -/
structure Reading where
  text : String → String
  text_text : ∀ s, text (text s) = text s

attribute [simp] Reading.text_text

def Reading.verbatim : Reading := ⟨id, fun _ => rfl⟩

variable (read : Reading)

def translated {ε ε' α β : Type} (f : ε → ε') (g : α → β) : Except ε α → Except ε' β
  | .ok a => .ok (g a)
  | .error e => .error (f e)

def TypeInfo.erased (t : TypeInfo) : TypeInfo := .of t.id

def Qualifier.erased : Qualifier → Qualifier
  | named s => .named s
  | marker t => .marker t.erased

def Key.erased (k : Key) : Key := ⟨k.type.erased, k.qualifier.map Qualifier.erased⟩

def Dependency.erased (d : Dependency) : Dependency := { d with key := d.key.erased }

def Point.erased : Point → Point
  | inject key q => .inject key.erased q
  | lazy key q => .lazy key.erased q
  | injector => .injector

def Request.erased (r : Request) : Request := { r with key := r.key.erased }

def Lazy.erased (l : Lazy) : Lazy := { l with key := l.key.erased }

def Mark.erased : Mark → Mark
  | resolved id => .resolved id
  | lazy l => .lazy l.erased
  | injector => .injector

def Draft.erased (d : Draft) : Draft := { d with marks := d.marks.map Mark.erased }

def Object.erased (o : Object) : Object := { o with marks := o.marks.map Mark.erased }

def Instance.erased : Instance → Instance
  | object o => .object o.erased
  | collection id shape items => .collection id shape (items.map fun e => (e.1, e.2.erased))
  | injector i => .injector i

def Held.erased : Held → Held
  | resolved a => .resolved a.erased
  | lazy l => .lazy l.erased
  | injector i => .injector i

mutual

def ResolveError.erased : ResolveError → ResolveError
  | .unsatisfied key asker => .unsatisfied key.erased (asker.map Key.erased)
  | .circular path => .circular (path.map Key.erased)
  | .depthExceeded key limit => .depthExceeded key.erased limit
  | .incorrectType key expected => .incorrectType key.erased expected.erased
  | .instantiate key cause => .instantiate key.erased (cause.erased)
  | .provider key name cause => .provider key.erased name (cause.erased)
  | .injectorDropped key => .injectorDropped key.erased

def Cause.erased : Cause → Cause
  | .message text => .message (read.text text)
  | .context text inner => .context (read.text text) (inner.erased)
  | .resolution error => .resolution (error.erased)

end

def BindError.erased : BindError → BindError
  | duplicateBinding key existing duplicate => .duplicateBinding key.erased existing duplicate
  | duplicateMapKey key mapKey existing duplicate =>
    .duplicateMapKey key.erased mapKey existing duplicate
  | aggregateConflict key => .aggregateConflict key.erased
  | incorrectType key actual => .incorrectType key.erased actual.erased
  | unsatisfied key asker => .unsatisfied key.erased asker.erased
  | finalized key => .finalized key.erased
  | finalizedOverride overriding overridden => .finalizedOverride overriding overridden
  | ambiguousOverride key => .ambiguousOverride key.erased

abbrev erasedAnswer : Except ResolveError Instance → Except ResolveError Instance :=
  translated (ResolveError.erased read) Instance.erased

def Stop.erased : Stop → Stop
  | error e => .error (e.erased read)
  | panic text => .panic (read.text text)
  | blocked i p => .blocked i p
  | exhausted => .exhausted

def Note.erased : Note → Note
  | call label count => .call (read.text label) count
  | got label text => .got (read.text label) (read.text text)
  | failed label e => .failed (read.text label) (e.erased read)
  | inject label => .inject (read.text label)
  | configure module source => .configure module source
  | ignored e => .ignored e.erased

def Slot.erased : Slot → Slot
  | pending => .pending
  | ready a => .ready a.erased

def Cache.erased (c : Cache) : Cache := c.map fun e => (e.1, e.2.erased)

def Cache.Found.erased : Cache.Found → Cache.Found
  | ready a => .ready a.erased
  | busy => .busy
  | vacant => .vacant

def Frame.erased (f : Frame) : Frame := { f with key := f.key.erased }

def Event.erased : Event → Event
  | requested i key frames caches =>
    .requested i key.erased (frames.map Frame.erased) (caches.map Cache.erased)
  | produced i p source => .produced i p source
  | entered i key => .entered i key.erased
  | assembled i key => .assembled i key
  | acquired i p found => .acquired i p found.erased
  | stored i p a => .stored i p a.erased
  | yielded i p a => .yielded i p a.erased

namespace Key

@[simp] theorem ident_erased (k : Key) : k.erased.ident = k.ident := by
  obtain ⟨t, q⟩ := k
  rcases q with _ | _ | _ <;> rfl

@[simp] theorem isInjector_erased (k : Key) : k.erased.isInjector = k.isInjector := rfl

/-- Two keys have one identity exactly if they are the same without displayed names. -/
theorem erased_eq_iff {a b : Key} : a.erased = b.erased ↔ a.ident = b.ident := by
  constructor
  · intro h
    rw [← ident_erased a, ← ident_erased b, h]
  · intro h
    obtain ⟨s, p⟩ := a
    obtain ⟨t, q⟩ := b
    obtain ⟨ht, hq⟩ := Ident.mk.inj h
    have htype : s.id = t.id := ht
    have hqualifier : p.map Qualifier.erased = q.map Qualifier.erased := by
      rcases p with _ | _ | _ <;> rcases q with _ | _ | _ <;>
        simp_all [Qualifier.ident, Qualifier.erased, TypeInfo.erased]
    simp only [erased, TypeInfo.erased, htype, hqualifier]

@[simp] theorem erased_erased (k : Key) : k.erased.erased = k.erased := erased_eq_iff.mpr (ident_erased k)

@[simp] theorem order_erased_left (a b : Key) : a.erased.order b = a.order b := by
  simp [order]

@[simp] theorem order_erased_right (a b : Key) : a.order b.erased = a.order b := by
  simp [order]

end Key

section Twice

@[simp] theorem Mark.erased_erased (m : Mark) : m.erased.erased = m.erased := by
  cases m <;> simp [erased, Lazy.erased]

@[simp] theorem Object.erased_erased (o : Object) : o.erased.erased = o.erased := by
  simp [erased, Function.comp_def]

@[simp] theorem Instance.erased_erased (a : Instance) : a.erased.erased = a.erased := by
  cases a <;> simp [erased, Function.comp_def]

@[simp] theorem Held.erased_erased (h : Held) : h.erased.erased = h.erased := by
  cases h <;> simp [erased, Lazy.erased]

@[simp] theorem TypeInfo.erased_erased (t : TypeInfo) : t.erased.erased = t.erased := rfl

mutual

@[simp] theorem ResolveError.erased_erased : ∀ e : ResolveError, (e.erased read).erased read = e.erased read
  | .unsatisfied _ asker => by cases asker <;> simp [ResolveError.erased]
  | .circular _ => by simp [ResolveError.erased, Function.comp_def]
  | .depthExceeded .. => by simp [ResolveError.erased]
  | .incorrectType .. => by simp [ResolveError.erased]
  | .instantiate _ cause => by simp [ResolveError.erased, Cause.erased_erased cause]
  | .provider _ _ cause => by simp [ResolveError.erased, Cause.erased_erased cause]
  | .injectorDropped _ => by simp [ResolveError.erased]

@[simp] theorem Cause.erased_erased : ∀ c : Cause, (c.erased read).erased read = c.erased read
  | .message _ => by simp [Cause.erased]
  | .context _ inner => by simp [Cause.erased, Cause.erased_erased inner]
  | .resolution error => by simp [Cause.erased, ResolveError.erased_erased error]

end

theorem erasedAnswer_twice (answer : Except ResolveError Instance) :
    erasedAnswer read (erasedAnswer read answer) = erasedAnswer read answer := by
  cases answer <;> simp [erasedAnswer, translated]

end Twice

@[simp] theorem Instance.type_erased (a : Instance) : a.erased.type = a.type := by
  cases a <;> rfl

@[simp] theorem Instance.asObject?_erased (b : Base) (a : Instance) :
    a.erased.asObject? b = (a.asObject? b).map Object.erased := by
  cases a with
  | object o =>
    simp only [erased, asObject?]
    split <;> simp_all [Object.erased]
  | _ => rfl

@[simp] theorem Instance.erased_eq_injector_iff {a : Instance} {i : InjectorId} :
    a.erased = .injector i ↔ a = .injector i := by
  cases a <;> simp [erased]

@[simp] theorem Instance.mark_erased (a : Instance) : a.erased.mark = a.mark.erased := by
  cases a <;> rfl

@[simp] theorem Instance.text_erased (a : Instance) : a.erased.text = a.text := by
  have hitem : ∀ e : Option MapKey × Object,
      itemText ":" MapKey.describe Datum.text (e.1, e.2.erased) =
        itemText ":" MapKey.describe Datum.text e := by
    rintro ⟨_ | k, o⟩ <;> rfl
  cases a with
  | collection id shape items =>
    cases shape <;> simp [text, erased, Function.comp_def, hitem]
  | _ => rfl

end Wiring
