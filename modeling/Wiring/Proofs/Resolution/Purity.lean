import Wiring.Recipe
import Wiring.Proofs.Resolution.Law
import Wiring.Proofs.Resolution.Reference

set_option autoImplicit false

namespace Wiring

/-- The routine hands over the value, whichever of its calls it is. It asks for nothing and does not fail. -/
def Routine.Computes {t : TypeId} (d : Datum) : Routine t → Prop
  | .done draft _ => draft.datum = d
  | .count _ next => ∀ n, (next n).Computes d
  | .note _ next => next.Computes d
  | _ => False

namespace Routine

variable {t : TypeId} {body : Routine t} {d : Datum}

theorem Computes.datum (h : body.Computes d) {draft : Draft} (hm : body.MayMake draft) :
    draft.datum = d := by
  induction body with
  | done draft' fits => exact hm ▸ h
  | count tally next ih => exact hm.elim fun n hn => ih n (h n) hn
  | note n next ih => exact ih h hm
  | _ => exact h.elim

theorem Computes.value? (h : body.Computes d) : body.value? = some d := by
  induction body with
  | done draft fits => exact congrArg some h
  | count tally next ih => exact ih 1 (h 1)
  | note n next ih => exact ih h
  | _ => exact h.elim

end Routine

/-- What is computed from injection points depends on no more than the values they are given. -/
def DependsOnValues (i : InjectorId) {t : TypeId} (ps : List Point) (body : List Held → Routine t) : Prop :=
  ∀ held others, List.Forall₂ (Held.Fits i) ps held → List.Forall₂ (Held.Fits i) ps others →
    held.map Held.content? = others.map Held.content? →
    ∃ d, (body held).Computes d ∧ (body others).Computes d

def Strategy.Pure (i : InjectorId) : Strategy → Prop
  | .construct _ ps body => DependsOnValues i ps body
  | .providerType _ _ ps body => DependsOnValues i ps body
  | .provider _ _ body => ∃ d, body.Computes d
  | _ => True

def Strategy.Offered (offers : Table (Base × String) Datum) : Strategy → Prop
  | .shared name d => (offers.get? (d.type, name)).isSome
  | _ => True

namespace Held

def plain : Held → Held
  | resolved x => .resolved x.content.plain
  | h => h

@[simp] theorem content?_plain (h : Held) : h.plain.content? = h.content? := by
  cases h <;> simp [plain, content?, instance?]

theorem Fits.plain {i : InjectorId} {p : Point} {h : Held} (hf : h.Fits i p) : h.plain.Fits i p := by
  cases h with
  | resolved x =>
    cases p with
    | inject key q => exact (Content.type_plain_content x).trans hf
    | _ => exact hf.elim
  | _ => exact hf

end Held

structure Script.Plain (s : Script) : Prop where
  actions : s.actions = []
  fail : s.fail = none
  panic : s.panic = none
  injectFail : s.injectFail = none

namespace Script

variable {s : Script}

theorem text_plain_content (x : Instance) : x.content.plain.text = x.text := by
  have hitem : ∀ e : Option MapKey × Object,
      Instance.itemText ":" MapKey.describe Datum.text (e.1, ⟨.made 0, e.2.datum, []⟩) =
        Instance.itemText ":" MapKey.describe Datum.text e := by
    intro e
    obtain ⟨k, o⟩ := e
    cases k <;> rfl
  cases x with
  | collection id shape items =>
    cases shape <;>
      simp [Instance.text, Instance.content, Content.plain, Function.comp_def, hitem]
  | _ => rfl

theorem numberOf_plain_content (x : Instance) : numberOf x.content.plain = numberOf x := by
  cases x with
  | object o =>
    obtain ⟨id, d, marks⟩ := o
    cases d <;> rfl
  | _ => rfl

theorem content_heldInstances (held : List Held) :
    (heldInstances held).map Instance.content = (held.map Held.content?).filterMap id := by
  simp [heldInstances, List.map_filterMap, Held.content?, Function.comp_def]

/-- The value of a script depends on the values that it holds. -/
theorem datum_congr (s : Script) (b : Base) {held others : List Held}
    (h : held.map Held.content? = others.map Held.content?) :
    (s.draft b held).datum = (s.draft b others).datum := by
  have hcontents : (heldInstances held).map Instance.content =
      (heldInstances others).map Instance.content := by
    rw [content_heldInstances, content_heldInstances, h]
  have htexts : (heldInstances held).map Instance.text = (heldInstances others).map Instance.text := by
    simpa [Function.comp_def, text_plain_content] using
      congrArg (List.map fun c => c.plain.text) hcontents
  have hnumbers : (heldInstances held).map numberOf = (heldInstances others).map numberOf := by
    simpa [Function.comp_def, numberOf_plain_content] using
      congrArg (List.map fun c => numberOf c.plain) hcontents
  have htext : s.text held = s.text others := by
    unfold text
    generalize heldInstances held = is, heldInstances others = js at htexts
    cases is <;> cases js <;> simp_all
  have hsum : s.sum held = s.sum others := by
    simp only [sum]
    rw [← List.foldl_map (f := numberOf), hnumbers, List.foldl_map]
  simp only [draft, htext, hsum]

theorem Plain.computes (hs : s.Plain) (b : Base) (held : List Held) :
    (s.body b held).Computes (s.draft b held).datum := by
  intro n
  simp [perform, finish, hs.actions, hs.fail, hs.panic, Routine.Computes]

theorem Plain.dependsOnValues (hs : s.Plain) (b : Base) (i : InjectorId) :
    DependsOnValues i s.points (s.body b) := fun held others _ _ h =>
  ⟨_, hs.computes b held, s.datum_congr b h ▸ hs.computes b others⟩

theorem Plain.dependsOnValues_provider (hs : s.Plain) (b : Base) (i : InjectorId) :
    DependsOnValues i s.points (s.providerBody b) := by
  have hbody : ∀ held, s.providerBody b held = .note (.inject s.label) (s.body b held) := by
    intro held
    simp only [providerBody, hs.injectFail]
  intro held others hheld hothers h
  rw [hbody, hbody]
  exact hs.dependsOnValues b i held others hheld hothers h

end Script

namespace Recipe

def Plain : Recipe → Prop
  | script s => s.Plain
  | providerClass _ s => s.Plain
  | provider _ s => s.Plain
  | _ => True

theorem pure_valueStrategy {recipe : Recipe} (h : recipe.Plain) (i : InjectorId) (b : Base) :
    (recipe.valueStrategy b).Pure i := by
  cases recipe with
  | script s => exact Script.Plain.dependsOnValues h b i
  | providerClass number s => exact Script.Plain.dependsOnValues_provider h b i
  | provider name s => exact ⟨_, Script.Plain.computes h b []⟩
  | _ => trivial

end Recipe

end Wiring
