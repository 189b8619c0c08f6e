import Wiring.Proofs.Registry.Validation

/-!
Runs without the operations that failed.

An operation that fails leaves the builder as it was. So a run goes on after it as if it had not been
tried: with any of the failed operations left out, each of the others answers what it answered and leaves
the builder that it left. This includes attempts to freeze the registry.
-/

set_option autoImplicit false

namespace Wiring

namespace Operation

def answer (b : Builder) : Operation → Except BindError (Option Registry)
  | finalize => b.finalize.1.map some
  | op => (op.apply b).1.map fun _ => none

structure Step where
  op : Operation
  answer : Except BindError (Option Registry)
  left : Builder

def Step.succeeded (s : Step) : Bool := s.answer.isOk

def trace (b : Builder) : List Operation → List Step
  | [] => []
  | op :: rest => ⟨op, op.answer b, (op.apply b).2⟩ :: trace (op.apply b).2 rest

theorem isOk_answer (b : Builder) (op : Operation) : (op.answer b).isOk = (op.apply b).1.isOk := by
  have hmap : ∀ {α β : Type} (f : α → β) (x : Except BindError α), (x.map f).isOk = x.isOk := by
    intro α β f x
    cases x <;> rfl
  cases op with
  | finalize => simp only [answer, apply, hmap]
  | _ => exact hmap _ _

theorem apply_of_failed {b : Builder} {op : Operation} (h : (op.answer b).isOk = false) :
    (op.apply b).2 = b := by
  rw [isOk_answer] at h
  rcases apply_cases b op with ⟨e, ha⟩ | ⟨_, _, _, _, _, _, ha, _⟩ | ⟨_, _, _, ha⟩ |
    ⟨_, _, _, ha⟩ <;> rw [ha] at h ⊢ <;> contradiction

/-- Left out operations that failed are not missed. -/
theorem trace_kept {b : Builder} {ops : List Operation} {keep : Step → Bool}
    (hkeep : ∀ s ∈ trace b ops, s.succeeded = true → keep s = true) :
    trace b (((trace b ops).filter keep).map Step.op) = (trace b ops).filter keep ∧
    (runAll b (((trace b ops).filter keep).map Step.op)).2 = (runAll b ops).2 := by
  induction ops generalizing b with
  | nil => exact ⟨rfl, rfl⟩
  | cons op rest ih =>
    have hrest := ih (b := (op.apply b).2) fun s hs => hkeep s (List.mem_cons_of_mem _ hs)
    simp only [trace]
    by_cases hk : keep ⟨op, op.answer b, (op.apply b).2⟩ = true
    · rw [List.filter_cons_of_pos hk]
      simp only [List.map_cons, trace, runAll]
      exact ⟨by rw [hrest.1], hrest.2⟩
    · have hfailed : (op.answer b).isOk = false :=
        Bool.eq_false_iff.mpr fun hok => hk (hkeep _ List.mem_cons_self hok)
      rw [List.filter_cons_of_neg hk]
      simp only [runAll]
      rw [apply_of_failed hfailed] at hrest ⊢
      exact hrest

end Operation

namespace Builder

variable {b : Builder}

theorem finalize_of_error {e : BindError} (h : b.finalize.1 = .error e) :
    b.finalize.2 = b ∧ b.finalized = none ∧ b.freeze = .error e := by
  unfold finalize at h ⊢
  cases hf : b.finalized with
  | some r => simp [hf] at h
  | none =>
    simp only [hf] at h
    cases hr : b.freeze with
    | ok r => simp [hr] at h
    | error d =>
      simp only [hr] at h
      exact ⟨rfl, rfl, h⟩

theorem contains_of_open (h : b.finalized = none) (key : Key) :
    b.contains key = (b.at? key.ident).isSome := by
  simp only [contains, h]
  exact KeyMap.contains_eq_isSome _ _

theorem register_unbound (hs : b.entries.Sorted) (hopen : b.finalized = none) {key : Key}
    (hkey : b.contains key = false) {binding : Binding} (ht : binding.provides.id = key.type.id)
    (source : Source) : ∃ c, b.register key binding source = (.ok (), c) ∧ c.contains key = true ∧
      ∀ asker, c.finalize.1 ≠ .error (.unsatisfied key asker) := by
  rw [contains_of_open hopen, Option.isSome_eq_false_iff, Option.isNone_iff_eq_none] at hkey
  have hfind : b.entries.find? key = none := hkey
  have hregister : b.register key binding source = (.ok (), b.write key
      (.candidates [⟨binding.withDefaultScope b.config.defaultScope, source⟩])) := by
    simp [register, isFinalized, hopen, ht, hfind]
  have hw := b.writes_write key (.candidates [⟨binding.withDefaultScope b.config.defaultScope, source⟩])
  refine ⟨_, hregister, ?_, fun asker h => ?_⟩
  · rw [contains_of_open (hw.finalized.trans hopen), hw.at?, if_pos rfl]
    rfl
  · obtain ⟨_, _, hfreeze⟩ := finalize_of_error h
    obtain ⟨_, hnone, _⟩ := freeze_unsatisfied (hw.sorted hs) hfreeze
    rw [hw.at?, if_pos rfl] at hnone
    contradiction

end Builder

namespace Operation

/-- Operations that failed are as if they had not been tried, whether all of them are left out or only
some. In particular a builder that could not be frozen goes on as without the attempt and accepts bindings
for all that is not bound, such as the key that was missing. -/
theorem failed_left_out (config : Config) (ops : List Operation) (keep : Step → Bool)
    (hkeep : ∀ s ∈ trace (.withConfig config) ops, s.succeeded = true → keep s = true) :
    trace (.withConfig config) (((trace (.withConfig config) ops).filter keep).map Step.op) =
      (trace (.withConfig config) ops).filter keep ∧
    (runAll (.withConfig config) (((trace (.withConfig config) ops).filter keep).map Step.op)).2 =
      (runAll (.withConfig config) ops).2 ∧
    ∀ b e, b = (runAll (.withConfig config) ops).2 → b.finalize.1 = .error e →
      (∀ more, (runAll (.withConfig config) (ops ++ finalize :: more)).2 =
        (runAll (.withConfig config) (ops ++ more)).2) ∧
      (∀ key asker, e = .unsatisfied key asker → b.contains key = false) ∧
      ∀ key binding source, b.contains key = false → binding.provides.id = key.type.id →
        ∃ c, b.finalize.2.register key binding source = (.ok (), c) ∧ c.contains key = true ∧
          ∀ asker, c.finalize.1 ≠ .error (.unsatisfied key asker) := by
  obtain ⟨htrace, hfinal⟩ := trace_kept hkeep
  refine ⟨htrace, hfinal, fun b e hb he => ?_⟩
  have hsorted : b.entries.Sorted := by
    rw [hb]
    exact (coherent_runAll (Builder.coherent_withConfig config) ops).sorted
  obtain ⟨hsame, hopen, hfreeze⟩ := Builder.finalize_of_error he
  refine ⟨fun more => ?_, fun key asker hmissing => ?_, fun key binding source hkey ht => ?_⟩
  · rw [runAll_append, runAll_append, ← hb]
    exact congrArg (fun c => (runAll c more).2) hsame
  · subst hmissing
    rw [Builder.contains_of_open hopen, (Builder.freeze_unsatisfied hsorted hfreeze).2.1]
    rfl
  · rw [hsame]
    exact Builder.register_unbound hsorted hopen hkey ht source

def checkedConfig : Config := { validate := true }

def retryKey : Key := .of (.value .alpha)

def retryBase : Key := .of (.value .beta)

def retryBinding : Binding :=
  ⟨.construct (.value .alpha) [.inject retryBase false] fun _ => .done ⟨.alpha "retry", []⟩ rfl, none⟩

def retryValue : Binding := ⟨.fixed ⟨.fixed 0, .beta "base", []⟩, none⟩

def retryOperations : List Operation :=
  [.register retryKey retryBinding .direct, .finalize, .register retryBase retryBinding .direct,
    .register retryBase retryValue .direct, .finalize]

theorem failed_left_out_retry :
    (runAll (.withConfig checkedConfig) [.register retryKey retryBinding .direct,
        .register retryBase retryValue .direct, .finalize]).2 =
      (runAll (.withConfig checkedConfig) retryOperations).2 ∧
    (runAll (.withConfig checkedConfig) retryOperations).2.finalized.isSome = true ∧
    ∃ c, (runAll (.withConfig checkedConfig)
        [.register retryKey retryBinding .direct]).2.finalize.2.register retryBase retryValue .direct =
      (.ok (), c) := by
  obtain ⟨_, hfinal, _⟩ := failed_left_out checkedConfig retryOperations Step.succeeded
    fun _ _ hs => hs
  obtain ⟨_, _, hretry⟩ := failed_left_out checkedConfig [.register retryKey retryBinding .direct]
    (fun _ => true) fun _ _ _ => rfl
  obtain ⟨_, hmissing, haccepts⟩ := hretry _ (.unsatisfied retryBase retryKey) rfl rfl
  obtain ⟨c, hc, _⟩ := haccepts retryBase retryValue .direct (hmissing _ _ rfl) rfl
  exact ⟨hfinal, rfl, c, hc⟩

end Operation

end Wiring
