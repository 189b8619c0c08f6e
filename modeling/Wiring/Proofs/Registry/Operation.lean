import Wiring.Registry.Operation
import Wiring.Proofs.KeyMap
import Wiring.Proofs.Registry.Candidates

set_option autoImplicit false

namespace Wiring

open OverrideGraph

namespace Builder

def at? (b : Builder) (a : Ident) : Option Pending := b.entries.at? a

@[simp] theorem at?_withConfig (config : Config) (a : Ident) : (withConfig config).at? a = none := rfl

structure Writes (b : Builder) (key : Key) (p : Pending) (left : Builder) : Prop where
  config : left.config = b.config
  overrides : left.overrides = b.overrides
  finalized : left.finalized = b.finalized
  at? : ∀ a, left.at? a = if key.ident = a then some p else b.at? a
  sorted : b.entries.Sorted → left.entries.Sorted

theorem writes_write (b : Builder) (key : Key) (p : Pending) : b.Writes key p (b.write key p) :=
  ⟨rfl, rfl, rfl, fun a => KeyMap.at?_insert b.entries key p a, fun h => h.insert key p⟩

theorem writes_self {b : Builder} {key : Key} {p : Pending} (h : b.at? key.ident = some p) :
    b.Writes key p b := by
  refine ⟨rfl, rfl, rfl, fun a => ?_, id⟩
  by_cases ha : key.ident = a
  · simp [← ha, h]
  · simp [ha]

end Builder

namespace Operation

def subject? : Operation → Option Key
  | register key _ _ => some key
  | declareAggregate key _ => some key
  | contribute key _ _ _ => some key
  | setAggregateScope key _ => some key
  | declareOverride _ _ => none
  | finalize => none

/-- What an operation makes of what stands under its key; nothing if it is refused. -/
def settle (g : OverrideGraph) (s : Scope) : Operation → Option Pending → Option Pending
  | register key binding source, p =>
    if binding.provides.id ≠ key.type.id then none
    else
      let new : Candidate := ⟨binding.withDefaultScope s, source⟩
      match p with
      | none => some (.candidates [new])
      | some (.aggregate _) => none
      | some (.candidates cs) =>
        if ∀ c ∈ cs, g.Above source c.source ∨ g.Above c.source source then
          some (.candidates (cs ++ [new]))
        else none
  | declareAggregate _ shape, p =>
    match p with
    | none => some (.aggregate { shape, scope := s })
    | some (.aggregate a) => some (.aggregate a)
    | some (.candidates _) => none
  | contribute key binding source mapKey, p =>
    match p with
    | some (.aggregate a) =>
      match a.insert g.isOverriding key ⟨binding.withDefaultScope s, source, mapKey⟩ with
      | .ok grown => some (.aggregate grown)
      | .error _ => none
    | _ => none
  | setAggregateScope _ scope, p =>
    match p with
    | some (.aggregate a) => some (.aggregate { a with scope })
    | _ => none
  | declareOverride _ _, _ => none
  | finalize, _ => none

/-- All that an operation that is not refused can do under its key: add a candidate that is related to
those there, declare an aggregate, grow one, or set its scope. -/
theorem settle_cases {g : OverrideGraph} {s : Scope} {op : Operation} {p : Option Pending}
    {q : Pending} (h : op.settle g s p = some q) :
    (∃ key binding source old, op = .register key binding source ∧
      binding.provides.id = key.type.id ∧ (p = none ∧ old = [] ∨ p = some (.candidates old)) ∧
      (∀ c ∈ old, g.Above source c.source ∨ g.Above c.source source) ∧
      q = .candidates (old ++ [⟨binding.withDefaultScope s, source⟩])) ∨
    (∃ key shape a, op = .declareAggregate key shape ∧
      (p = none ∧ a = { shape, scope := s } ∨ p = some (.aggregate a)) ∧ q = .aggregate a) ∨
    (∃ key binding source mapKey a grown, op = .contribute key binding source mapKey ∧
      p = some (.aggregate a) ∧
      a.insert g.isOverriding key ⟨binding.withDefaultScope s, source, mapKey⟩ = .ok grown ∧
      q = .aggregate grown) ∨
    (∃ key scope a, op = .setAggregateScope key scope ∧ p = some (.aggregate a) ∧
      q = .aggregate { a with scope }) := by
  cases op with
  | register key binding source =>
    left
    simp only [settle] at h
    split at h
    · contradiction
    · rename_i ht
      refine ⟨key, binding, source, ?_⟩
      cases p with
      | none =>
        cases h
        exact ⟨[], rfl, not_not.mp ht, .inl ⟨rfl, rfl⟩, by simp, rfl⟩
      | some p =>
        cases p with
        | aggregate a => contradiction
        | candidates old =>
          dsimp only at h
          split at h
          · rename_i hr
            cases h
            exact ⟨old, rfl, not_not.mp ht, .inr rfl, hr, rfl⟩
          · contradiction
  | declareAggregate key shape =>
    right; left
    simp only [settle] at h
    split at h
    · cases h
      exact ⟨key, shape, _, rfl, .inl ⟨rfl, rfl⟩, rfl⟩
    · cases h
      exact ⟨key, shape, _, rfl, .inr rfl, rfl⟩
    · contradiction
  | contribute key binding source mapKey =>
    right; right; left
    simp only [settle] at h
    split at h
    · rename_i a
      split at h
      · rename_i grown hg
        cases h
        exact ⟨key, binding, source, mapKey, a, grown, rfl, rfl, hg, rfl⟩
      · contradiction
    · contradiction
  | setAggregateScope key scope =>
    right; right; right
    simp only [settle] at h
    split at h
    · cases h
      exact ⟨key, scope, _, rfl, rfl, rfl⟩
    · contradiction
  | declareOverride => contradiction
  | finalize => contradiction

theorem find?_unrelated_eq_none {g : OverrideGraph} {source : Source} {cs : List Candidate} :
    (cs.find? fun c => Builder.unrelated g source c.source) = none ↔
      ∀ c ∈ cs, g.Above source c.source ∨ g.Above c.source source := by
  simp only [List.find?_eq_none, Builder.unrelated, Above, Bool.and_eq_true, Bool.not_eq_true',
    not_and, Bool.not_eq_false]
  refine forall₂_congr fun c _ => ?_
  cases g.isOverriding source c.source <;> simp

/-- An operation about a key either writes what it makes of the entry or is refused, and then leaves
the builder as it was. -/
theorem apply_settle {b : Builder} {op : Operation} {key : Key} (hf : b.finalized = none)
    (hk : op.subject? = some key) :
    match op.settle b.overrides b.config.defaultScope (b.at? key.ident) with
    | some p => ∃ left, op.apply b = (.ok (), left) ∧ b.Writes key p left
    | none => ∃ e, op.apply b = (.error e, b) := by
  have hfin : b.isFinalized = false := by simp [Builder.isFinalized, hf]
  have hat : b.entries.find? key = b.at? key.ident := rfl
  cases op with
  | register k binding source =>
    cases hk
    simp only [apply, Builder.register, settle, hfin, hat, Bool.false_eq_true, if_false]
    by_cases ht : binding.provides.id = key.type.id
    · simp only [ht, ne_eq, not_true_eq_false, if_false]
      cases b.at? key.ident with
      | none => exact ⟨_, rfl, b.writes_write key _⟩
      | some p =>
        cases p with
        | aggregate a => exact ⟨_, rfl⟩
        | candidates cs =>
          dsimp only
          cases hc : cs.find? fun c => Builder.unrelated b.overrides source c.source with
          | none =>
            rw [if_pos (find?_unrelated_eq_none.mp hc)]
            exact ⟨_, rfl, b.writes_write key _⟩
          | some c =>
            rw [if_neg fun h => by rw [find?_unrelated_eq_none.mpr h] at hc; contradiction]
            exact ⟨_, rfl⟩
    · simp only [ht, ne_eq, not_false_eq_true, if_true]
      exact ⟨_, rfl⟩
  | declareAggregate k shape =>
    cases hk
    simp only [apply, Builder.declareAggregate, settle, hfin, hat, Bool.false_eq_true, if_false]
    cases h : b.at? key.ident with
    | none => exact ⟨_, rfl, b.writes_write key _⟩
    | some p =>
      cases p with
      | aggregate a => exact ⟨_, rfl, Builder.writes_self h⟩
      | candidates cs => exact ⟨_, rfl⟩
  | contribute k binding source mapKey =>
    cases hk
    simp only [apply, Builder.contribute, settle, hfin, hat, Bool.false_eq_true, if_false]
    cases b.at? key.ident with
    | none => exact ⟨_, rfl⟩
    | some p =>
      cases p with
      | candidates cs => exact ⟨_, rfl⟩
      | aggregate a =>
        dsimp only
        cases a.insert b.overrides.isOverriding key
            ⟨binding.withDefaultScope b.config.defaultScope, source, mapKey⟩ with
        | ok grown => exact ⟨_, rfl, b.writes_write key _⟩
        | error e => exact ⟨_, rfl⟩
  | setAggregateScope k scope =>
    cases hk
    simp only [apply, Builder.setAggregateScope, settle, hfin, hat, Bool.false_eq_true, if_false]
    cases b.at? key.ident with
    | none => exact ⟨_, rfl⟩
    | some p =>
      cases p with
      | candidates cs => exact ⟨_, rfl⟩
      | aggregate a => exact ⟨_, rfl, b.writes_write key _⟩
  | declareOverride _ _ => contradiction
  | finalize => contradiction

theorem apply_frozen {b : Builder} {op : Operation} {key : Key} (hf : b.isFinalized = true)
    (hk : op.subject? = some key) : op.apply b = (.error (.finalized key), b) := by
  cases op with
  | register => cases hk; simp [apply, Builder.register, hf]
  | declareAggregate => cases hk; simp [apply, Builder.declareAggregate, hf]
  | contribute => cases hk; simp [apply, Builder.contribute, hf]
  | setAggregateScope => cases hk; simp [apply, Builder.setAggregateScope, hf]
  | declareOverride => contradiction
  | finalize => contradiction

/-- What one operation can do to a builder: be refused, write under its key, declare an override, or
freeze the registry. -/
theorem apply_cases (b : Builder) (op : Operation) :
    (∃ e, op.apply b = (.error e, b)) ∨
    (∃ key p left, op.subject? = some key ∧ b.finalized = none ∧
      op.settle b.overrides b.config.defaultScope (b.at? key.ident) = some p ∧
      op.apply b = (.ok (), left) ∧ b.Writes key p left) ∨
    (∃ x y, op = .declareOverride x y ∧
      op.apply b = (.ok (), { b with overrides := b.overrides.declare x y })) ∨
    (op = .finalize ∧ ∃ r, (b.finalized = some r ∨ b.freeze = .ok r) ∧
      op.apply b = (.ok (), { b with finalized := some r })) := by
  cases hk : op.subject? with
  | some key =>
    cases hf : b.finalized with
    | some r =>
      have hfin : b.isFinalized = true := by simp [Builder.isFinalized, hf]
      exact .inl ⟨_, apply_frozen hfin hk⟩
    | none =>
      have h := apply_settle hf hk
      cases hs : op.settle b.overrides b.config.defaultScope (b.at? key.ident) with
      | none =>
        rw [hs] at h
        exact .inl h
      | some p =>
        rw [hs] at h
        obtain ⟨left, ha, hw⟩ := h
        exact .inr (.inl ⟨key, p, left, rfl, rfl, hs, ha, hw⟩)
  | none =>
    cases op with
    | declareOverride x y =>
      cases hf : b.isFinalized with
      | true => exact .inl ⟨_, by simp only [apply, Builder.declareOverride, hf, if_true]; rfl⟩
      | false =>
        refine .inr (.inr (.inl ⟨x, y, rfl, ?_⟩))
        simp [apply, Builder.declareOverride, hf]
    | finalize =>
      unfold apply Builder.finalize
      cases hf : b.finalized with
      | some r =>
        refine .inr (.inr (.inr ⟨rfl, r, .inl rfl, ?_⟩))
        obtain ⟨config, entries, overrides, finalized⟩ := b
        cases hf
        rfl
      | none =>
        cases b.freeze with
        | error e => exact .inl ⟨e, rfl⟩
        | ok r => exact .inr (.inr (.inr ⟨rfl, r, .inr rfl, rfl⟩))
    | _ => contradiction

theorem apply_of_subject (b : Builder) {op : Operation} (h : ∃ key, op.subject? = some key) :
    (op.apply b).2.config = b.config ∧ (op.apply b).2.overrides = b.overrides ∧
      (op.apply b).2.finalized = b.finalized := by
  obtain ⟨key, hk⟩ := h
  rcases apply_cases b op with ⟨e, ha⟩ | ⟨_, _, left, _, _, _, ha, hw⟩ | ⟨x, y, rfl, _⟩ | ⟨rfl, _⟩
  · rw [ha]
    exact ⟨rfl, rfl, rfl⟩
  · rw [ha]
    exact ⟨hw.config, hw.overrides, hw.finalized⟩
  · contradiction
  · contradiction

theorem runAll_append (b : Builder) (ops more : List Operation) :
    (runAll b (ops ++ more)).2 = (runAll (runAll b ops).2 more).2 := by
  induction ops generalizing b with
  | nil => rfl
  | cons op rest ih => exact ih (op.apply b).2

/-- What a run that stops at a refusal leaves behind is what its tried operations make. -/
theorem applyAll_eq_runAll (b : Builder) (ops : List Operation) :
    (applyAll b ops).2.2 = (runAll b (applyAll b ops).2.1).2 := by
  induction ops generalizing b with
  | nil => rfl
  | cons op rest ih =>
    simp only [applyAll]
    cases h : op.apply b with
    | mk outcome left =>
      cases outcome with
      | error e => simp [runAll, h]
      | ok _ =>
        have := ih left
        simp only [runAll, h]
        exact this

theorem runAll_induction {P : Builder → Prop} (ops : List Operation)
    (step : ∀ b, ∀ op ∈ ops, P b → P (op.apply b).2) {b : Builder} (h : P b) :
    P (runAll b ops).2 := by
  induction ops generalizing b with
  | nil => exact h
  | cons op rest ih =>
    exact ih (fun c o ho => step c o (List.mem_cons_of_mem _ ho)) (step b op List.mem_cons_self h)

theorem overrides_apply (b : Builder) {op : Operation} (h : ∀ x y, op ≠ .declareOverride x y) :
    (op.apply b).2.overrides = b.overrides := by
  rcases apply_cases b op with ⟨e, ha⟩ | ⟨_, _, left, _, _, _, ha, hw⟩ | ⟨x, y, hop, _⟩ |
    ⟨rfl, r, _, ha⟩
  · rw [ha]
  · rw [ha]
    exact hw.overrides
  · exact absurd hop (h x y)
  · rw [ha]

theorem overrides_runAll (b : Builder) {ops : List Operation}
    (h : ∀ op ∈ ops, ∀ x y, op ≠ .declareOverride x y) : (runAll b ops).2.overrides = b.overrides :=
  runAll_induction (P := fun c => c.overrides = b.overrides) ops
    (fun c op hop hc => (overrides_apply c (h op hop)).trans hc) rfl

/-- What each operation keeps true of the entry that it writes holds of all entries after a run. -/
theorem entries_runAll {P : Ident → Pending → Prop} {ops : List Operation}
    (settle : ∀ op ∈ ops, ∀ key g s p q, op.subject? = some key → (∀ o, p = some o → P key.ident o) →
      op.settle g s p = some q → P key.ident q)
    {b : Builder} (h : ∀ a p, b.at? a = some p → P a p) {a : Ident} {p : Pending}
    (hp : (runAll b ops).2.at? a = some p) : P a p := by
  refine runAll_induction (P := fun b => ∀ a p, b.at? a = some p → P a p) ops
    (fun b op ho hb a p hp => ?_) h a p hp
  rcases apply_cases b op with ⟨e, ha⟩ | ⟨key, q, left, hk, _, hs, ha, hw⟩ | ⟨x, y, rfl, ha⟩ |
    ⟨rfl, r, _, ha⟩ <;> rw [ha] at hp
  · exact hb a p hp
  · rw [hw.at?] at hp
    split at hp
    · rename_i hka
      subst hka
      cases hp
      exact settle op ho key _ _ _ _ hk (fun o hold => hb _ o hold) hs
    · exact hb a p hp
  · exact hb a p hp
  · exact hb a p hp

def settleAll (g : OverrideGraph) (s : Scope) : List Operation → Option Pending →
    Option (Option Pending)
  | [], p => some p
  | op :: rest, p =>
    match op.settle g s p with
    | none => none
    | some q => settleAll g s rest (some q)

def isAbout (a : Ident) (op : Operation) : Bool := op.subject?.map Key.ident = some a

theorem applyAll_settleAll {b : Builder} {ops : List Operation} (hf : b.finalized = none)
    (hs : ∀ op ∈ ops, ∃ key, op.subject? = some key) :
    match applyAll b ops with
    | (.ok _, _, left) => left.config = b.config ∧ left.overrides = b.overrides ∧
        left.finalized = none ∧ (b.entries.Sorted → left.entries.Sorted) ∧
        ∀ a, settleAll b.overrides b.config.defaultScope (ops.filter (isAbout a)) (b.at? a) =
          some (left.at? a)
    | (.error _, _, _) =>
        ∃ a, settleAll b.overrides b.config.defaultScope (ops.filter (isAbout a)) (b.at? a) =
          none := by
  induction ops generalizing b with
  | nil => exact ⟨rfl, rfl, hf, id, fun _ => rfl⟩
  | cons op rest ih =>
    obtain ⟨key, hk⟩ := hs op List.mem_cons_self
    have habout : ∀ a, isAbout a op = decide (key.ident = a) := by
      intro a
      simp [isAbout, hk]
    have h := apply_settle hf hk
    cases hp : op.settle b.overrides b.config.defaultScope (b.at? key.ident) with
    | none =>
      rw [hp] at h
      obtain ⟨e, ha⟩ := h
      simp only [applyAll, ha]
      refine ⟨key.ident, ?_⟩
      simp [habout, settleAll, hp]
    | some p =>
      rw [hp] at h
      obtain ⟨left, ha, hw⟩ := h
      have hrest := ih (by rw [hw.finalized, hf]) fun o ho => hs o (List.mem_cons_of_mem _ ho)
      rw [hw.overrides, hw.config] at hrest
      -- At the key of the operation the run goes on from what it wrote, elsewhere from what was there.
      have hcons : ∀ a, settleAll b.overrides b.config.defaultScope
            ((op :: rest).filter (isAbout a)) (b.at? a) =
          settleAll b.overrides b.config.defaultScope (rest.filter (isAbout a)) (left.at? a) := by
        intro a
        by_cases hka : key.ident = a
        · subst hka
          simp [habout, settleAll, hp, hw.at?]
        · simp [habout, hka, hw.at?]
      simp only [hcons]
      simp only [applyAll, ha]
      generalize applyAll left rest = r at hrest ⊢
      obtain ⟨outcome, tried, final⟩ := r
      cases outcome with
      | ok _ =>
        obtain ⟨hc, ho, hfin, hsort, hat⟩ := hrest
        exact ⟨hc, ho, hfin, fun hb => hsort (hw.sorted hb), hat⟩
      | error _ => exact hrest

end Operation

end Wiring
