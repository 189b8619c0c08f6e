import Mathlib.Data.List.Forall2
import Wiring.Proofs.Registry.Builder

/-!
What freezing makes of a builder.

A frozen registry reads, at each key, what the builder shows there: its aggregate, or the candidate
that counts. Freezing fails only where no candidate counts or, with validation, where a direct
dependency is not bound; of an acyclic override graph some candidate always counts.
-/

set_option autoImplicit false

namespace Wiring

open OverrideGraph

/-- The entry that a registry frozen now has; there is none if no candidate counts. -/
def Pending.frozen? (g : OverrideGraph) : Pending → Option Entry
  | candidates cs => (Builder.effective? g cs).map .binding
  | aggregate a => some (.aggregate a)

theorem Pending.Coherent.frozen {g : OverrideGraph} (hg : g.Acyclic) {p : Pending}
    (h : p.Coherent g) : ∃ e, p.frozen? g = some e := by
  cases p with
  | candidates cs =>
    obtain ⟨c, hc⟩ := h.2.exists_effective hg h.1
    exact ⟨.binding c, by rw [frozen?, hc]; rfl⟩
  | aggregate a => exact ⟨_, rfl⟩

/-- Every direct dependency that is read, other than on the injector, can be read itself. -/
def Closed (view : Ident → Option Entry) : Prop :=
  ∀ a e, view a = some e → ∀ d ∈ e.dependencies, d.kind = .direct → d.key.isInjector = false →
    (view d.key.ident).isSome

namespace Registry

def at? (r : Registry) (a : Ident) : Option Entry := r.entries.at? a

theorem find?_eq_at (r : Registry) (k : Key) : r.find? k = r.at? k.ident := rfl

end Registry

namespace Builder

def view (b : Builder) (a : Ident) : Option Entry := (b.at? a).bind (Pending.frozen? b.overrides)

variable {g : OverrideGraph} {es : List (Key × Pending)} {out : List (Key × Entry)}

theorem freezeEntry_eq_ok {key : Key} {p : Pending} {e : Entry} :
    freezeEntry g key p = .ok e ↔ p.frozen? g = some e := by
  cases p with
  | aggregate a => simp [freezeEntry, Pending.frozen?]
  | candidates cs =>
    simp only [freezeEntry, Pending.frozen?]
    cases effective? g cs <;> simp

theorem freezeEntry_eq_error {key : Key} {p : Pending} {e : BindError}
    (h : freezeEntry g key p = .error e) : e = .ambiguousOverride key ∧ p.frozen? g = none := by
  cases p with
  | aggregate a => contradiction
  | candidates cs =>
    simp only [freezeEntry] at h
    cases hc : effective? g cs with
    | some c =>
      rw [hc] at h
      contradiction
    | none =>
      rw [hc] at h
      cases h
      exact ⟨rfl, by simp [Pending.frozen?, hc]⟩

theorem freezeEntries_eq_ok : freezeEntries g es = .ok out ↔
    List.Forall₂ (fun x y => y.1 = x.1 ∧ x.2.frozen? g = some y.2) es out := by
  induction es generalizing out with
  | nil => cases out <;> simp [freezeEntries]
  | cons x rest ih =>
    obtain ⟨key, p⟩ := x
    simp only [freezeEntries]
    cases hp : freezeEntry g key p with
    | error e =>
      refine iff_of_false (by simp) fun h => ?_
      cases h with
      | cons hy _ => exact Option.some_ne_none _ (hy.2.symm.trans (freezeEntry_eq_error hp).2)
    | ok entry =>
      have hentry := freezeEntry_eq_ok.mp hp
      dsimp only
      constructor
      · intro h
        cases hr : freezeEntries g rest with
        | error e =>
          rw [hr] at h
          contradiction
        | ok others =>
          rw [hr] at h
          cases h
          exact .cons ⟨rfl, hentry⟩ (ih.mp hr)
      · intro h
        cases h with
        | @cons _ y _ others hy hrest =>
          obtain ⟨k, e⟩ := y
          obtain ⟨rfl, he⟩ := hy
          cases hentry.symm.trans he
          rw [ih.mpr hrest]
          rfl

theorem freezeEntries_eq_error {e : BindError} (h : freezeEntries g es = .error e) :
    ∃ x ∈ es, e = .ambiguousOverride x.1 ∧ x.2.frozen? g = none := by
  induction es with
  | nil => contradiction
  | cons x rest ih =>
    obtain ⟨key, p⟩ := x
    simp only [freezeEntries] at h
    cases hp : freezeEntry g key p with
    | error d =>
      rw [hp] at h
      cases h
      exact ⟨_, List.mem_cons_self, freezeEntry_eq_error hp⟩
    | ok entry =>
      rw [hp] at h
      cases hr : freezeEntries g rest with
      | error d =>
        rw [hr] at h
        cases h
        obtain ⟨x, hx, hd⟩ := ih hr
        exact ⟨x, List.mem_cons_of_mem _ hx, hd⟩
      | ok others =>
        rw [hr] at h
        contradiction

theorem at?_frozen (h : List.Forall₂ (fun x y => y.1 = x.1 ∧ x.2.frozen? g = some y.2) es out)
    (a : Ident) :
    KeyMap.at? ⟨out⟩ a = (KeyMap.at? ⟨es⟩ a).bind (Pending.frozen? g) := by
  induction h with
  | nil => rfl
  | @cons x y es out hy _ ih =>
    obtain ⟨k, e⟩ := y
    obtain ⟨rfl, he⟩ := hy
    rw [KeyMap.at?_cons, KeyMap.at?_cons, ih]
    by_cases ha : x.1.ident = a
    · simp [ha, he]
    · simp [ha]

theorem sorted_frozen
    (h : List.Forall₂ (fun x y => y.1 = x.1 ∧ x.2.frozen? g = some y.2) es out)
    (hs : KeyMap.Sorted ⟨es⟩) : KeyMap.Sorted ⟨out⟩ := by
  have hkeys : out.map (·.1) = es.map (·.1) := by
    induction h with
    | nil => rfl
    | cons hy _ ih => rw [List.map_cons, List.map_cons, hy.1, ih hs.of_cons]
  unfold KeyMap.Sorted at hs ⊢
  rw [← List.pairwise_map (f := fun e : Key × Entry => e.1) (R := fun a b => a.order b = .lt)]
  rw [hkeys]
  exact List.pairwise_map.mpr hs

theorem firstMissing_eq_none {all : KeyMap Entry} {entries : List (Key × Entry)} :
    firstMissing all entries = none ↔ ∀ x ∈ entries, ∀ d ∈ x.2.dependencies, d.kind = .direct →
      d.key.isInjector = false → (all.at? d.key.ident).isSome := by
  induction entries with
  | nil => simp [firstMissing]
  | cons x rest ih =>
    obtain ⟨key, entry⟩ := x
    simp only [firstMissing, List.forall_mem_cons]
    cases hm : entry.dependencies.find? fun d =>
        d.kind = .direct && !d.key.isInjector && !all.contains d.key with
    | none =>
      rw [ih]
      refine (and_iff_right fun d hd hkind hinj => ?_).symm
      have := List.find?_eq_none.mp hm d hd
      simpa [hkind, hinj, KeyMap.contains_eq_isSome, Option.isSome_iff_ne_none] using this
    | some d =>
      refine iff_of_false (by simp) fun h => ?_
      have hd := List.find?_some hm
      simp only [Bool.and_eq_true, decide_eq_true_eq, Bool.not_eq_true'] at hd
      have := h.1 d (List.mem_of_find?_eq_some hm) hd.1.1 hd.1.2
      rw [KeyMap.contains_eq_isSome] at hd
      rw [hd.2] at this
      contradiction

theorem firstMissing_eq_some {all : KeyMap Entry} {entries : List (Key × Entry)} {e : BindError}
    (h : firstMissing all entries = some e) :
    ∃ key, ∃ x ∈ entries, e = .unsatisfied key x.1 ∧ .direct key ∈ x.2.dependencies ∧
      key.isInjector = false ∧ all.at? key.ident = none := by
  induction entries with
  | nil => contradiction
  | cons x rest ih =>
    obtain ⟨asker, entry⟩ := x
    simp only [firstMissing] at h
    split at h
    · rename_i d hd
      cases h
      have hmissing := List.find?_some hd
      simp only [Bool.and_eq_true, decide_eq_true_eq, Bool.not_eq_true'] at hmissing
      obtain ⟨⟨hkind, hinj⟩, habsent⟩ := hmissing
      rw [KeyMap.contains_eq_isSome, Option.isSome_eq_false_iff, Option.isNone_iff_eq_none]
        at habsent
      have hdirect : d = .direct d.key := by rw [Dependency.direct, ← hkind]
      refine ⟨d.key, _, List.mem_cons_self, rfl, ?_, hinj, habsent⟩
      rw [← hdirect]
      exact List.mem_of_find?_eq_some hd
    · obtain ⟨key, x, hx, hrest⟩ := ih h
      exact ⟨key, x, List.mem_cons_of_mem _ hx, hrest⟩

theorem firstMissing_closed {m : KeyMap Entry} (hs : m.Sorted) :
    firstMissing m m.entries = none ↔ Closed m.at? := by
  rw [firstMissing_eq_none]
  constructor
  · intro h a e ha
    obtain ⟨x, hx, _⟩ := KeyMap.exists_mem_of_at? ha
    exact h _ hx
  · intro h x hx
    exact h _ _ (hs.at?_of_mem hx)

/-- Freezing goes through exactly if some candidate counts at each key and, with validation, all that
is read is closed under direct dependencies. The registry reads what the builder shows. -/
theorem freeze_spec {b : Builder} (hs : b.entries.Sorted) :
    match b.freeze with
    | .ok r => r.config = b.config ∧ r.entries.Sorted ∧ r.at? = b.view ∧
        (∀ a p, b.at? a = some p → ∃ e, p.frozen? b.overrides = some e) ∧
        (b.config.validate = true → Closed b.view)
    | .error e =>
        ((∃ key, e = .ambiguousOverride key) ∧
          ∃ a p, b.at? a = some p ∧ p.frozen? b.overrides = none) ∨
        ((∃ key asker, e = .unsatisfied key asker) ∧ b.config.validate = true ∧
          ¬ Closed b.view) := by
  unfold freeze
  cases hf : freezeEntries b.overrides b.entries.entries with
  | error e =>
    obtain ⟨⟨key, p⟩, hx, he, hp⟩ := freezeEntries_eq_error hf
    exact .inl ⟨⟨key, he⟩, key.ident, p, hs.at?_of_mem hx, hp⟩
  | ok entries =>
    have hall := freezeEntries_eq_ok.mp hf
    have hsorted : KeyMap.Sorted ⟨entries⟩ := sorted_frozen hall hs
    have hview : KeyMap.at? ⟨entries⟩ = b.view := funext fun a => at?_frozen hall a
    have hcounts : ∀ a p, b.at? a = some p → ∃ e, p.frozen? b.overrides = some e := by
      intro a p hp
      obtain ⟨x, hx, _⟩ := KeyMap.exists_mem_of_at? hp
      obtain ⟨i, hi, hx⟩ := List.getElem_of_mem hx
      have := hall.get hi (by rw [← hall.length_eq]; exact hi)
      simp only [List.get_eq_getElem, hx] at this
      exact ⟨_, this.2⟩
    have hclosed := firstMissing_closed hsorted
    rw [hview] at hclosed
    dsimp only
    cases hv : b.config.validate with
    | false => exact ⟨rfl, hsorted, hview, hcounts, by simp⟩
    | true =>
      simp only [if_true]
      cases hm : firstMissing ⟨entries⟩ entries with
      | none => exact ⟨rfl, hsorted, hview, hcounts, fun _ => hclosed.mp hm⟩
      | some e =>
        obtain ⟨key, x, _, he, _⟩ := firstMissing_eq_some hm
        refine .inr ⟨⟨key, x.1, he⟩, trivial, fun hc => ?_⟩
        rw [hclosed.mpr hc] at hm
        contradiction

theorem finalize_of_open {b : Builder} (h : b.finalized = none) : b.finalize.1 = b.freeze := by
  unfold finalize
  rw [h]
  cases b.freeze <;> rfl

def Sealed (b : Builder) : Prop := ∀ r, b.finalized = some r → b.freeze = .ok r

theorem sealed_withConfig (config : Config) : (withConfig config).Sealed := fun _ h => by
  simp [withConfig] at h

theorem Sealed.finalize {b : Builder} (h : b.Sealed) : b.finalize.1 = b.freeze := by
  cases hf : b.finalized with
  | none => exact finalize_of_open hf
  | some r =>
    rw [h r hf]
    simp [Builder.finalize, hf]

theorem Sealed.open_of_error {b : Builder} (h : b.Sealed) {e : BindError} (he : b.freeze = .error e) :
    b.finalized = none := by
  cases hf : b.finalized with
  | none => rfl
  | some r =>
    rw [h r hf] at he
    contradiction

end Builder

namespace Operation

theorem apply_of_finalized {b : Builder} {r : Registry} (h : b.finalized = some r) (op : Operation) :
    (op.apply b).2 = b := by
  have hf : b.isFinalized = true := by simp [Builder.isFinalized, h]
  cases hk : op.subject? with
  | some key => rw [apply_frozen hf hk]
  | none =>
    cases op with
    | declareOverride x y => simp [apply, Builder.declareOverride, hf]
    | finalize => simp [apply, Builder.finalize, h]
    | _ => contradiction

theorem config_apply (b : Builder) (op : Operation) : (op.apply b).2.config = b.config := by
  rcases apply_cases b op with ⟨e, ha⟩ | ⟨_, _, _, _, _, _, ha, hw⟩ | ⟨x, y, _, ha⟩ | ⟨_, r, _, ha⟩ <;>
    rw [ha]
  exact hw.config

theorem config_runAll (b : Builder) (ops : List Operation) : (runAll b ops).2.config = b.config :=
  runAll_induction (P := fun c => c.config = b.config) ops
    (fun c op _ hc => (config_apply c op).trans hc) rfl

end Operation

theorem Builder.Sealed.apply {b : Builder} (h : b.Sealed) (op : Operation) : (op.apply b).2.Sealed := by
  cases hf : b.finalized with
  | some r => rwa [Operation.apply_of_finalized hf]
  | none =>
    intro s hs
    rcases Operation.apply_cases b op with ⟨e, ha⟩ | ⟨_, _, left, _, _, _, ha, hw⟩ |
      ⟨x, y, rfl, ha⟩ | ⟨rfl, r, hr, ha⟩ <;> rw [ha] at hs ⊢
    · exact h s hs
    · rw [hw.finalized, hf] at hs
      contradiction
    · exact absurd (hf.symm.trans hs) (by simp)
    · cases hs
      rcases hr with hr | hr
      · rw [hf] at hr
        contradiction
      · exact hr

theorem Operation.sealed_runAll {b : Builder} (h : b.Sealed) (ops : List Operation) :
    (runAll b ops).2.Sealed :=
  runAll_induction ops (fun _ op _ hb => hb.apply op) h

theorem Operation.at?_of_finalized {config : Config} {ops : List Operation} {r : Registry}
    (h : (runAll (.withConfig config) ops).2.finalized = some r) :
    r.at? = (runAll (.withConfig config) ops).2.view := by
  have hcoherent := coherent_runAll (Builder.coherent_withConfig config) ops
  have hspec := Builder.freeze_spec hcoherent.sorted
  rw [sealed_runAll (Builder.sealed_withConfig config) ops r h] at hspec
  exact hspec.2.2.1

end Wiring
