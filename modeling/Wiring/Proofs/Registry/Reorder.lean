import Wiring.Proofs.Registry.Aggregate
import Wiring.Proofs.Registry.Operation

set_option autoImplicit false

namespace Wiring

open OverrideGraph

namespace Operation

def isRegister : Operation → Bool
  | register .. => true
  | _ => false

def origin : Operation → Source
  | register _ _ s => s
  | contribute _ _ s _ => s
  | _ => .direct

def contribution? (s : Scope) : Operation → Option Contribution
  | contribute _ binding source mapKey => some ⟨binding.withDefaultScope s, source, mapKey⟩
  | _ => none

/-- No operation comes before one whose source it overrides. -/
def Ordered (g : OverrideGraph) (ops : List Operation) : Prop :=
  ops.Pairwise fun o p => ¬ g.Above o.origin p.origin

def Led (t : TypeId) : List Operation → Prop
  | [] => True
  | op :: _ => op.isRegister = true ∨ ∃ key shape, op = .declareAggregate key shape ∧ t = .collection shape

variable {g : OverrideGraph} {s : Scope}

theorem settle_congr {g' : OverrideGraph} (h : g.isOverriding = g'.isOverriding) (op : Operation)
    (p : Option Pending) : op.settle g s p = op.settle g' s p := by
  cases op with
  | register key binding source =>
    have habove : g.Above = g'.Above := by
      funext s t
      simp only [Above, h]
    simp only [settle]
    congr 1
    split
    · rfl
    · rfl
    · exact if_congr (by rw [habove]) rfl rfl
  | contribute key binding source mapKey => simp only [settle, h]
  | _ => rfl

theorem settleAll_congr {g' : OverrideGraph} (h : g.isOverriding = g'.isOverriding)
    (ops : List Operation) (p : Option Pending) : settleAll g s ops p = settleAll g' s ops p := by
  induction ops generalizing p with
  | nil => rfl
  | cons op rest ih =>
    simp only [settleAll, settle_congr h]
    cases op.settle g' s p with
    | none => rfl
    | some q => exact ih (some q)

theorem settle_kind {op : Operation} {p : Option Pending} {q : Pending}
    (h : op.settle g s p = some q) :
    (op.isRegister = true ∧ (∃ cs, q = .candidates cs) ∧ ∀ a, p ≠ some (.aggregate a)) ∨
    (op.isRegister = false ∧ (∃ a, q = .aggregate a) ∧ ∀ cs, p ≠ some (.candidates cs)) := by
  rcases settle_cases h with ⟨_, _, _, _, rfl, _, hold, _, rfl⟩ | ⟨_, _, _, rfl, hold, rfl⟩ |
    ⟨_, _, _, _, _, _, rfl, hold, _, rfl⟩ | ⟨_, _, _, rfl, hold, rfl⟩
  · refine .inl ⟨rfl, ⟨_, rfl⟩, ?_⟩
    rintro a rfl
    rcases hold with ⟨hn, _⟩ | hn <;> cases hn
  · refine .inr ⟨rfl, ⟨_, rfl⟩, ?_⟩
    rintro cs rfl
    rcases hold with ⟨hn, _⟩ | hn <;> cases hn
  · exact .inr ⟨rfl, ⟨_, rfl⟩, by simp [hold]⟩
  · exact .inr ⟨rfl, ⟨_, rfl⟩, by simp [hold]⟩

/-- A run that goes on from candidates registers further ones, related to them and to each other. -/
theorem settleAll_candidates {ops : List Operation} {cs : List Candidate} {r : Option Pending}
    (h : settleAll g s ops (some (.candidates cs)) = some r) :
    (∀ op ∈ ops, op.isRegister = true ∧
      ∀ c ∈ cs, g.Above op.origin c.source ∨ g.Above c.source op.origin) ∧
    ops.Pairwise fun o p => g.Above o.origin p.origin ∨ g.Above p.origin o.origin := by
  induction ops generalizing cs with
  | nil => exact ⟨by simp, List.Pairwise.nil⟩
  | cons op rest ih =>
    simp only [settleAll] at h
    cases hop : op.settle g s (some (.candidates cs)) with
    | none => simp [hop] at h
    | some q =>
      simp only [hop] at h
      rcases settle_cases hop with ⟨_, _, source, old, rfl, _, hold, hrel, rfl⟩ |
        ⟨_, _, _, _, hold, _⟩ | ⟨_, _, _, _, _, _, _, hold, _⟩ | ⟨_, _, _, _, hold, _⟩
      · have hcs : cs = old := by
          rcases hold with ⟨hn, _⟩ | hold
          · contradiction
          · cases hold
            rfl
        subst hcs
        obtain ⟨hrest, hpair⟩ := ih h
        refine ⟨fun o ho => ?_, List.pairwise_cons.mpr ⟨fun o ho => ?_, hpair⟩⟩
        · rcases List.mem_cons.mp ho with rfl | ho
          · exact ⟨rfl, hrel⟩
          · exact ⟨(hrest o ho).1, fun c hc => (hrest o ho).2 c (List.mem_append_left _ hc)⟩
        · exact ((hrest o ho).2 _ (List.mem_append_right _ (List.mem_singleton.mpr rfl))).symm
      · rcases hold with ⟨hn, _⟩ | hn <;> cases hn
      · cases hold
      · cases hold

theorem settleAll_register {op : Operation} {ops : List Operation} {r : Option Pending}
    (hop : op.isRegister = true) (h : settleAll g s (op :: ops) none = some r) :
    (op :: ops).Pairwise fun o p => g.Above o.origin p.origin ∨ g.Above p.origin o.origin := by
  simp only [settleAll] at h
  cases hq : op.settle g s none with
  | none => simp [hq] at h
  | some q =>
    simp only [hq] at h
    rcases settle_cases hq with ⟨_, _, source, old, rfl, _, hold, _, rfl⟩ | ⟨_, _, _, rfl, _⟩ |
      ⟨_, _, _, _, _, _, rfl, _⟩ | ⟨_, _, _, rfl, _⟩
    · obtain ⟨hrest, hpair⟩ := settleAll_candidates h
      refine List.pairwise_cons.mpr ⟨fun o ho => ?_, hpair⟩
      exact ((hrest o ho).2 _ (List.mem_append_right _ (List.mem_singleton.mpr rfl))).symm
    all_goals contradiction

theorem settleAll_not_register {ops : List Operation} {a : Aggregate} {r : Option Pending}
    (h : settleAll g s ops (some (.aggregate a)) = some r) :
    ∀ op ∈ ops, op.isRegister = false := by
  induction ops generalizing a with
  | nil => simp
  | cons op rest ih =>
    simp only [settleAll] at h
    cases hq : op.settle g s (some (.aggregate a)) with
    | none => simp [hq] at h
    | some q =>
      simp only [hq] at h
      rcases settle_kind hq with ⟨_, _, hno⟩ | ⟨hop, ⟨grown, rfl⟩, _⟩
      · exact absurd rfl (hno a)
      · exact List.forall_mem_cons.mpr ⟨hop, ih h⟩

/-- A run that goes on from an aggregate has its contributions come together, and nothing else can
stop it. -/
theorem settleAll_aggregate {ops : List Operation} (a : Aggregate)
    (hs : ∀ op ∈ ops, (∃ key, op.subject? = some key) ∧ op.isRegister = false) :
    match settleAll g s ops (some (.aggregate a)) with
    | some r => ∃ cs scope, Aggregate.grow g.isOverriding a.shape.element
          (ops.filterMap (contribution? s)) a.contributions = some cs ∧
        r = some (.aggregate { a with contributions := cs, scope })
    | none => Aggregate.grow g.isOverriding a.shape.element
        (ops.filterMap (contribution? s)) a.contributions = none := by
  induction ops generalizing a with
  | nil => exact ⟨a.contributions, a.scope, rfl, rfl⟩
  | cons op rest ih =>
    have hrest : ∀ o ∈ rest, (∃ key, o.subject? = some key) ∧ o.isRegister = false :=
      fun o ho => hs o (List.mem_cons_of_mem _ ho)
    obtain ⟨⟨key, hkey⟩, hreg⟩ := hs op List.mem_cons_self
    cases op with
    | register => contradiction
    | declareOverride => contradiction
    | finalize => contradiction
    | declareAggregate key shape => exact ih a hrest
    | setAggregateScope key scope => exact ih { a with scope } hrest
    | contribute key binding source mapKey =>
      have hadd := Aggregate.insert_eq_add g.isOverriding key
        ⟨binding.withDefaultScope s, source, mapKey⟩ a
      simp only [settleAll, settle, List.filterMap_cons, contribution?, Aggregate.grow]
      cases hi : a.insert g.isOverriding key ⟨binding.withDefaultScope s, source, mapKey⟩ with
      | error e =>
        rw [hi] at hadd
        have hadd := Option.map_eq_none_iff.mp hadd.symm
        simp only [hadd]
      | ok grown =>
        rw [hi] at hadd
        obtain ⟨cs, hcs, rfl⟩ := Option.map_eq_some_iff.mp hadd.symm
        simp only [hcs]
        exact ih { a with contributions := cs } hrest

end Operation

def Pending.Alike : Pending → Pending → Prop
  | candidates cs, candidates ds => cs = ds
  | aggregate a, aggregate b =>
    a.shape = b.shape ∧ a.contributions.Perm b.contributions ∧ ∀ k, a.at? k = b.at? k
  | _, _ => False

theorem Pending.Alike.refl_rel (p : Option Pending) : Option.Rel Pending.Alike p p := by
  cases p with
  | none => exact .none
  | some p =>
    cases p with
    | candidates cs => exact .some rfl
    | aggregate a => exact .some ⟨rfl, .refl _, fun _ => rfl⟩

namespace Operation

variable {g : OverrideGraph} {s : Scope}

theorem Ordered.contributions {ops : List Operation} (h : Ordered g ops) :
    (ops.filterMap (contribution? s)).Pairwise fun c d => ¬ g.Above c.source d.source := by
  have horigin : ∀ {op c}, contribution? s op = some c → op.origin = c.source := by
    intro op c hc
    cases op with
    | contribute key binding source mapKey =>
      cases hc
      rfl
    | _ => contradiction
  refine List.Pairwise.filterMap _ (fun o p hop c hc d hd => ?_) h
  rwa [horigin hc, horigin hd] at hop

theorem settleAll_declare {key : Key} {shape : Collection} (ops : List Operation) :
    settleAll g s (declareAggregate key shape :: ops) none =
      settleAll g s (declareAggregate key shape :: ops)
        (some (.aggregate { shape, scope := s })) := rfl

/-- A run that goes through goes through in another order, and comes to the same. -/
theorem settleAll_perm (hg : g.Acyclic) {t : TypeId} {xs ys : List Operation}
    (hp : xs.Perm ys) (hs : ∀ op ∈ xs, ∃ key, op.subject? = some key) (hx : Ordered g xs)
    (hy : Ordered g ys) (hlx : Led t xs) (hly : Led t ys) {r : Option Pending}
    (h : settleAll g s xs none = some r) :
    ∃ r', settleAll g s ys none = some r' ∧ Option.Rel Pending.Alike r r' := by
  cases xs with
  | nil =>
    rw [← hp.nil_eq]
    cases h
    exact ⟨none, rfl, .none⟩
  | cons op rest =>
    rcases hlx with hreg | ⟨key, shape, rfl, rfl⟩
    · -- Registrations are related to each other, so both runs have them in the same order.
      have habove := ((settleAll_register hreg h).and hx).imp fun h => h.1.resolve_left h.2
      rw [← eq_of_perm hg origin hp habove hy]
      exact ⟨r, h, Pending.Alike.refl_rel r⟩
    · rw [settleAll_declare] at h
      have hxreg := settleAll_not_register h
      have hyreg : ∀ o ∈ ys, o.isRegister = false := fun o ho => hxreg o (hp.mem_iff.mpr ho)
      have hrun := settleAll_aggregate (g := g) (s := s) { shape, scope := s }
        fun o ho => ⟨hs o ho, hxreg o ho⟩
      rw [h] at hrun
      obtain ⟨cs, scope, hgrow, rfl⟩ := hrun
      obtain ⟨ds, hgrow', hperm, hunder⟩ := Aggregate.grow_perm hg
        (hp.filterMap (contribution? s)) hx.contributions hy.contributions hgrow
      cases ys with
      | nil => simp at hp
      | cons first others =>
        rcases hly with hreg | ⟨key', shape', rfl, htype⟩
        · rw [hyreg first List.mem_cons_self] at hreg
          contradiction
        · cases htype
          rw [settleAll_declare]
          have hrun := settleAll_aggregate (g := g) (s := s) { shape, scope := s }
            fun o ho => ⟨hs o (hp.mem_iff.mpr ho), hyreg o ho⟩
          cases hys : settleAll g s (declareAggregate key' shape :: others)
              (some (.aggregate { shape, scope := s })) with
          | none =>
            rw [hys] at hrun
            exact absurd (hgrow'.symm.trans hrun) (by simp)
          | some r' =>
            rw [hys] at hrun
            obtain ⟨es, scope', hes, rfl⟩ := hrun
            cases hgrow'.symm.trans hes
            refine ⟨_, rfl, .some ⟨rfl, hperm, fun k => ?_⟩⟩
            rw [Aggregate.at?_eq_head, Aggregate.at?_eq_head, hunder]

end Operation

end Wiring
