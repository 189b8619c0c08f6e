import Wiring.Recipe
import Wiring.Proofs.Display.Registration

set_option autoImplicit false

namespace Wiring

variable (read : Reading)

theorem Held.map_mark_erased (held : List Held) :
    (held.map Held.mark).map Mark.erased = (held.map Held.erased).map Held.mark := by
  have hmark : ∀ h : Held, h.mark.erased = h.erased.mark := by
    intro h
    cases h <;> simp [Held.mark, Held.erased, Mark.erased]
  simp [hmark]

namespace Script

variable {held other : List Held}

theorem heldInstances_erased (held : List Held) :
    heldInstances (held.map Held.erased) = (heldInstances held).map Instance.erased := by
  have hinstance : ∀ h : Held, h.erased.instance? = h.instance?.map Instance.erased := by
    intro h
    cases h <;> rfl
  simp [heldInstances, List.filterMap_map, List.map_filterMap, hinstance]

theorem text_erased (s : Script) (held : List Held) : s.text (held.map Held.erased) = s.text held := by
  simp only [text, heldInstances_erased]
  cases heldInstances held with
  | nil => rfl
  | cons a rest => simp [Function.comp_def]

theorem sum_erased (s : Script) (held : List Held) : s.sum (held.map Held.erased) = s.sum held := by
  have hnumber : ∀ a : Instance, numberOf a.erased = numberOf a := by
    intro a
    obtain ⟨_, d, _⟩ | _ | _ := a
    · cases d <;> rfl
    · rfl
    · rfl
  simp only [sum, heldInstances_erased, List.foldl_map, hnumber]

theorem draft_congr (s : Script) (b : Base) (h : other.map Held.erased = held.map Held.erased) :
    (s.draft b other).erased = (s.draft b held).erased := by
  have htext : s.text other = s.text held := by rw [← text_erased, h, text_erased]
  have hsum : s.sum other = s.sum held := by rw [← sum_erased, h, sum_erased]
  simp only [draft, Draft.erased, htext, hsum]
  split
  · rw [Held.map_mark_erased, Held.map_mark_erased, h]
  · rfl

theorem firstInjector?_congr (h : other.map Held.erased = held.map Held.erased) :
    firstInjector? other = firstInjector? held := by
  have herased : ∀ held : List Held, firstInjector? (held.map Held.erased) = firstInjector? held := by
    intro held
    simp only [firstInjector?, List.findSome?_map]
    refine congrArg (List.findSome? · held) (funext fun x => ?_)
    cases x <;> rfl
  rw [← herased, h, herased]

theorem lazy_congr (h : other.map Held.erased = held.map Held.erased) (index : Nat) :
    (∃ l l', held[index]? = some (.lazy l) ∧ other[index]? = some (.lazy l') ∧ l'.erased = l.erased) ∨
    (∀ l, held[index]? ≠ some (.lazy l)) ∧ ∀ l, other[index]? ≠ some (.lazy l) := by
  have hindex : (other[index]?).map Held.erased = (held[index]?).map Held.erased := by
    rw [← List.getElem?_map, ← List.getElem?_map, h]
  cases hheld : held[index]? with
  | none =>
    rw [hheld] at hindex
    exact .inr ⟨by simp, by simp [Option.map_eq_none_iff.mp hindex]⟩
  | some x =>
    rw [hheld] at hindex
    obtain ⟨y, hy, hxy⟩ := Option.map_eq_some_iff.mp hindex
    cases x <;> cases y <;> simp [Held.erased] at hxy <;> simp [hy, hxy]

variable {t : TypeId} {read}

theorem settle_congr (s : Script) (handling : Handling) {next : List Held → Routine t}
    (hnext : StartsAlike read next) (h : other.map Held.erased = held.map Held.erased)
    {answer answer' : Except ResolveError Instance}
    (hanswer : erasedAnswer read answer' = erasedAnswer read answer) :
    (settle s handling other next answer').erased read = (settle s handling held next answer).erased read := by
  cases answer with
  | ok a =>
    cases answer' with
    | error e => cases hanswer
    | ok a' =>
      have ha : a'.erased = a.erased := Except.ok.inj hanswer
      have htext : a'.text = a.text := by rw [← Instance.text_erased, ha, Instance.text_erased]
      simp only [settle, Routine.erased, htext]
      refine congrArg _ ((hnext _).2 _ ?_)
      split
      · simp [h, ha, Held.erased]
      · exact h
  | error e =>
    cases answer' with
    | ok a' => cases hanswer
    | error e' =>
      have he : e'.erased read = e.erased read := Except.error.inj hanswer
      simp only [settle, Routine.erased, Note.erased, he]
      split
      · simp [Routine.erased, Cause.erased, he]
      · exact congrArg _ ((hnext _).2 _ h)

theorem settle_ignoresNames (s : Script) (handling : Handling) {next : List Held → Routine t}
    (hnext : StartsAlike read next) (held : List Held) (answer : Except ResolveError Instance) :
    (settle s handling held next answer).IgnoresNames read ∧
      ∀ other, erasedAnswer read other = erasedAnswer read answer →
        (settle s handling held next other).erased read = (settle s handling held next answer).erased read := by
  refine ⟨?_, fun other hother => settle_congr s handling hnext rfl hother⟩
  cases answer with
  | ok a => exact (hnext _).1
  | error e =>
    simp only [settle, Routine.IgnoresNames]
    split
    · trivial
    · exact (hnext _).1

theorem perform_pull_of_ne (s : Script) (next : List Held → Routine t) (handling : Handling)
    (rest : List Action) {index : Nat} (h : ∀ l, held[index]? ≠ some (.lazy l)) :
    perform s next (.pull index handling :: rest) held = perform s next rest held := by
  simp only [perform]

theorem perform_startsAlike (s : Script) {next : List Held → Routine t} (hnext : StartsAlike read next)
    (actions : List Action) : StartsAlike read (perform s next actions) := by
  induction actions with
  | nil => exact hnext
  | cons action rest ih =>
    intro held
    have hsettle := fun handling => settle_ignoresNames s handling ih held
    cases action with
    | sleep => exact ih held
    | pull index handling =>
      constructor
      · simp only [perform]
        split
        · exact hsettle handling
        · exact (ih held).1
      · intro other h
        rcases lazy_congr h index with ⟨l, l', hl, hl', hll⟩ | ⟨hl, hl'⟩
        · simp only [perform, hl, hl', Routine.erased, hll]
          exact congrArg _ (funext fun answer => settle_congr s handling ih h rfl)
        · rw [perform_pull_of_ne s next handling rest hl, perform_pull_of_ne s next handling rest hl']
          exact (ih held).2 other h
    | get req name handling =>
      cases name with
      | none =>
        constructor
        · simp only [perform]
          split
          · exact hsettle handling
          · exact (ih held).1
        · intro other h
          simp only [perform, firstInjector?_congr h]
          cases firstInjector? held with
          | none => exact (ih held).2 other h
          | some i =>
            exact congrArg (Routine.get i _) (funext fun answer => settle_congr s handling ih h rfl)
      | some name =>
        constructor
        · intro found
          cases found with
          | none => exact (ih held).1
          | some i => exact hsettle handling
        · intro other h
          refine congrArg (Routine.find name) (funext fun found => ?_)
          cases found with
          | none => exact (ih held).2 other h
          | some i =>
            exact congrArg (Routine.get i _) (funext fun answer => settle_congr s handling ih h rfl)

theorem finish_startsAlike (s : Script) (b : Base) (n : Nat) : StartsAlike read (finish s b n) := by
  intro held
  constructor
  · simp only [finish]
    split <;> trivial
  · intro other h
    simp only [finish]
    split
    · rfl
    · rfl
    · simp only [Routine.erased, draft_congr s b h]

theorem body_startsAlike (s : Script) (b : Base) : StartsAlike read (s.body b) := by
  intro held
  have hperform : ∀ n, StartsAlike read (perform s (finish s b n) s.actions) :=
    fun n => perform_startsAlike s (finish_startsAlike s b n) s.actions
  constructor
  · exact fun n => (hperform n held).1
  · intro other h
    refine congrArg (Routine.count s.tally) (funext fun n => ?_)
    simp only [Routine.erased, (hperform n held).2 other h]

theorem providerBody_startsAlike (s : Script) (b : Base) : StartsAlike read (s.providerBody b) := by
  intro held
  constructor
  · simp only [providerBody, Routine.IgnoresNames]
    split
    · trivial
    · exact (s.body_startsAlike b held).1
  · intro other h
    simp only [providerBody, Routine.erased]
    split
    · rfl
    · rw [(s.body_startsAlike b held).2 other h]

end Script

theorem Recipe.ignoresNames (t : TypeId) (r : Recipe) : (r.strategy t).IgnoresNames read := by
  unfold strategy
  split
  · cases r with
    | script s => exact s.body_startsAlike _
    | providerClass n s => exact s.providerBody_startsAlike _
    | provider name s => exact (s.body_startsAlike _ []).1
    | _ => trivial
  · trivial
  · exact fun _ => ⟨trivial, fun _ _ => rfl⟩

end Wiring
