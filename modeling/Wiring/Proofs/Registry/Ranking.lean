import Mathlib.Data.List.Permutation
import Wiring.Proofs.Registry.Reorder
import Wiring.Proofs.Registry.Replay
import Wiring.Proofs.Registry.Rivalry

/-!
Ranking of the candidates of a key.

Each two candidates are related by overrides, so some are above all others, cycles of overrides or not. If
there is one of these it is the effective candidate. If there are several, they override each other, and
then no registry can be frozen. None of this depends on the order of the registrations.
-/

set_option autoImplicit false

namespace Wiring

open OverrideGraph

namespace Builder

variable {g : OverrideGraph} {cs : List Candidate} {b : Builder}

/-- The candidate is above all others and none of them is above it. -/
def Foremost (g : OverrideGraph) (c : Candidate) (cs : List Candidate) : Prop :=
  ∃ rest, cs.Perm (c :: rest) ∧
    ∀ d ∈ rest, g.Above c.source d.source ∧ ¬ g.Above d.source c.source

/-- Two candidates override each other, and both override all the rest. -/
def Tied (g : OverrideGraph) (cs : List Candidate) : Prop :=
  ∃ c d rest, cs.Perm (c :: d :: rest) ∧ g.Above c.source d.source ∧ g.Above d.source c.source ∧
    ∀ x ∈ rest, g.Above c.source x.source ∧ g.Above d.source x.source

def winner? (b : Builder) (key : Key) : Option Candidate :=
  effective? b.overrides (Pending.candidatesOf (b.at? key.ident))

theorem effective?_iff_foremost {c : Candidate} : effective? g cs = some c ↔ Foremost g c cs := by
  simp only [effective?_eq_some, Foremost, precedes_iff]

theorem Related.perm {ds : List Candidate} (hp : cs.Perm ds) : Related g cs ↔ Related g ds :=
  hp.pairwise_iff fun h => h.symm

theorem Related.exists_top (h : Related g cs) (hn : cs ≠ []) :
    ∃ c rest, cs.Perm (c :: rest) ∧ ∀ d ∈ rest, g.Above c.source d.source := by
  induction cs with
  | nil => contradiction
  | cons c cs ih =>
    obtain ⟨hc, hcs⟩ := List.pairwise_cons.mp h
    by_cases he : cs = []
    · subst he
      exact ⟨c, [], .refl _, by simp⟩
    obtain ⟨t, rest, hp, ht⟩ := ih hcs he
    rcases hc t (hp.mem_iff.mpr List.mem_cons_self) with hct | htc
    · refine ⟨c, cs, .refl _, fun d hd => ?_⟩
      rcases List.mem_cons.mp (hp.mem_iff.mp hd) with rfl | hd
      · exact hct
      · exact hct.trans (ht d hd)
    · refine ⟨t, c :: rest, (hp.cons c).trans (.swap t c rest), fun d hd => ?_⟩
      rcases List.mem_cons.mp hd with rfl | hd
      · exact htc
      · exact ht d hd

theorem Tied.not_foremost (h : Tied g cs) (e : Candidate) : ¬ Foremost g e cs := by
  rintro ⟨others, hq, he⟩
  obtain ⟨c, d, rest, hp, hcd, hdc, hrest⟩ := h
  have hsplit : (c :: d :: rest).Perm (e :: others) := hp.symm.trans hq
  by_cases hec : e = c
  · subst hec
    have hd : d ∈ others := hsplit.cons_inv.mem_iff.mp List.mem_cons_self
    exact (he d hd).2 hdc
  have hc : c ∈ others :=
    (List.mem_cons.mp (hsplit.mem_iff.mp List.mem_cons_self)).resolve_left (Ne.symm hec)
  rcases List.mem_cons.mp (hsplit.mem_iff.mpr List.mem_cons_self) with rfl | hmem
  · exact hec rfl
  · rcases List.mem_cons.mp hmem with rfl | hmem
    · exact (he c hc).2 hcd
    · exact (he c hc).2 (hrest e hmem).1

theorem Related.effective?_eq_none_iff (h : Related g cs) (hn : cs ≠ []) :
    effective? g cs = none ↔ Tied g cs := by
  constructor
  · intro hnone
    obtain ⟨c, rest, hp, hc⟩ := h.exists_top hn
    have hbeaten : ∃ d ∈ rest, g.Above d.source c.source := by
      by_contra hall
      push Not at hall
      have hsome := effective?_iff_foremost.mpr ⟨rest, hp, fun d hd => ⟨hc d hd, hall d hd⟩⟩
      rw [hnone] at hsome
      contradiction
    obtain ⟨d, hd, hdc⟩ := hbeaten
    obtain ⟨before, after, rfl⟩ := List.append_of_mem hd
    refine ⟨c, d, before ++ after, hp.trans (List.perm_middle.cons c), hc d hd, hdc, fun x hx => ?_⟩
    have hcx : g.Above c.source x.source := hc x (by simp at hx ⊢; tauto)
    exact ⟨hcx, hdc.trans hcx⟩
  · intro ht
    rw [Option.eq_none_iff_forall_ne_some]
    exact fun e he => ht.not_foremost e (effective?_iff_foremost.mp he)

theorem freeze_ambiguous (hs : b.entries.Sorted) {key : Key}
    (h : b.freeze = .error (.ambiguousOverride key)) :
    ∃ p, b.at? key.ident = some p ∧ p.frozen? b.overrides = none := by
  unfold freeze at h
  cases hf : freezeEntries b.overrides b.entries.entries with
  | error e =>
    obtain ⟨⟨k, p⟩, hx, he, hp⟩ := freezeEntries_eq_error hf
    rw [hf] at h
    cases h
    cases he
    exact ⟨p, hs.at?_of_mem hx, hp⟩
  | ok entries =>
    rw [hf] at h
    dsimp only at h
    split at h
    · split at h
      · rename_i e he
        obtain ⟨_, _, _, hmissing, _⟩ := firstMissing_eq_some he
        cases h
        contradiction
      · contradiction
    · contradiction

theorem exists_freeze_ambiguous (hs : b.entries.Sorted) {a : Ident} {p : Pending}
    (hp : b.at? a = some p) (hnone : p.frozen? b.overrides = none) :
    ∃ key, b.freeze = .error (.ambiguousOverride key) := by
  have hspec := freeze_spec hs
  cases hf : b.freeze with
  | ok r =>
    rw [hf] at hspec
    obtain ⟨e, he⟩ := hspec.2.2.2.1 a p hp
    rw [hnone] at he
    contradiction
  | error e =>
    rw [hf] at hspec
    rcases hspec with ⟨⟨key, rfl⟩, _⟩ | ⟨⟨key, asker, rfl⟩, _⟩
    · exact ⟨key, rfl⟩
    · obtain ⟨_, _, _, r, hr, _⟩ := freeze_unsatisfied hs hf
      have hrelaxed := freeze_spec (b := b.relaxed) hs
      rw [hr] at hrelaxed
      obtain ⟨e, he⟩ := hrelaxed.2.2.2.1 a p hp
      exact absurd (hnone.symm.trans he) (by simp)

theorem Coherent.candidates_related (h : b.Coherent) (a : Ident) :
    Related b.overrides (Pending.candidatesOf (b.at? a)) := by
  cases hp : b.at? a with
  | none => exact List.Pairwise.nil
  | some p =>
    cases p with
    | aggregate g => exact List.Pairwise.nil
    | candidates cs => exact (h.entries a _ hp).2

theorem Coherent.tied_iff (h : b.Coherent) {a : Ident} :
    Tied b.overrides (Pending.candidatesOf (b.at? a)) ↔
      ∃ p, b.at? a = some p ∧ p.frozen? b.overrides = none := by
  have hnil : ¬ Tied b.overrides [] := fun ⟨c, d, rest, hp, _⟩ => by simp at hp
  cases hp : b.at? a with
  | none => simp [Pending.candidatesOf, hnil]
  | some p =>
    cases p with
    | aggregate g => simp [Pending.candidatesOf, Pending.frozen?, hnil]
    | candidates cs =>
      obtain ⟨hn, hrel⟩ := h.entries a _ hp
      simp [Pending.candidatesOf, Pending.frozen?, hrel.effective?_eq_none_iff hn]

theorem lookup_eq_winner {key : Key} {c : Candidate} (h : b.Coherent) (hsealed : b.Sealed)
    (hc : b.winner? key = some c) : b.lookup key = some c.binding ∧
      ∀ r, b.finalize.1 = .ok r → r.find? key = some (.binding c) := by
  have hat : b.at? key.ident = some (.candidates (Pending.candidatesOf (b.at? key.ident))) := by
    cases hp : b.at? key.ident with
    | none => simp [winner?, hp, Pending.candidatesOf, effective?, effectiveAmong] at hc
    | some p =>
      cases p with
      | candidates cs => rfl
      | aggregate g => simp [winner?, hp, Pending.candidatesOf, effective?, effectiveAmong] at hc
  have hfrozen : ∀ r, b.freeze = .ok r → r.find? key = some (.binding c) := by
    intro r hr
    have hspec := freeze_spec h.sorted
    rw [hr] at hspec
    rw [Registry.find?_eq_at, hspec.2.2.1, view, hat]
    exact congrArg (Option.map Entry.binding) hc
  refine ⟨?_, fun r hr => hfrozen r (hsealed.finalize ▸ hr)⟩
  cases hf : b.finalized with
  | some r => simp [lookup, hf, Registry.lookup, hfrozen r (hsealed r hf)]
  | none =>
    have hfind : b.entries.find? key = b.at? key.ident := rfl
    simp only [lookup, hf, hfind]
    rw [hat]
    exact congrArg (Option.map Candidate.binding) hc

end Builder

namespace Operation

variable {g : OverrideGraph} {s : Scope} {a : Ident} {b : Builder} {ops others : List Operation}

def AllAccepted (a : Ident) (b : Builder) (ops : List Operation) : Prop :=
  ∀ t ∈ trace b ops, isAbout a t.op = true → t.succeeded = true

/-- Runs that declare no overrides and register the same bindings for a key, each in its own order and in
between other operations. -/
structure Reordered (a : Ident) (ops others : List Operation) : Prop where
  subject : ∀ op ∈ ops ++ others, ∃ key, op.subject? = some key
  registers : ∀ op ∈ ops, isAbout a op = true → op.isRegister = true
  perm : (ops.filter (isAbout a)).Perm (others.filter (isAbout a))

theorem allAccepted_cons {op : Operation} : AllAccepted a b (op :: ops) ↔
    (isAbout a op = true → (op.apply b).1.isOk = true) ∧ AllAccepted a (op.apply b).2 ops := by
  simp only [AllAccepted, trace, List.forall_mem_cons, Step.succeeded, isOk_answer]

theorem allAccepted_iff (hopen : b.finalized = none)
    (hs : ∀ op ∈ ops, ∃ key, op.subject? = some key) : AllAccepted a b ops ↔
      ∃ r, settleAll b.overrides b.config.defaultScope (ops.filter (isAbout a)) (b.at? a) = some r := by
  induction ops generalizing b with
  | nil => simp [AllAccepted, trace, settleAll]
  | cons op rest ih =>
    obtain ⟨key, hk⟩ := hs op List.mem_cons_self
    have habout : isAbout a op = decide (key.ident = a) := by simp [isAbout, hk]
    have hrest : ∀ o ∈ rest, ∃ key, o.subject? = some key :=
      fun o ho => hs o (List.mem_cons_of_mem _ ho)
    have happly := apply_settle hopen hk
    rw [allAccepted_cons, habout, List.filter_cons, habout]
    cases hp : op.settle b.overrides b.config.defaultScope (b.at? key.ident) with
    | none =>
      rw [hp] at happly
      obtain ⟨e, ha⟩ := happly
      rw [ha, ih hopen hrest]
      by_cases hka : key.ident = a
      · subst hka
        simp [settleAll, hp, Except.isOk, Except.toBool]
      · simp [hka]
    | some p =>
      rw [hp] at happly
      obtain ⟨left, ha, hw⟩ := happly
      rw [ha, ih (hw.finalized.trans hopen) hrest, hw.overrides, hw.config, hw.at?]
      by_cases hka : key.ident = a
      · subst hka
        simp [settleAll, hp, Except.isOk, Except.toBool]
      · simp [hka]

theorem allAccepted_frozen {r : Registry} (hf : b.finalized = some r)
    (hs : ∀ op ∈ ops, ∃ key, op.subject? = some key) :
    AllAccepted a b ops ↔ ops.filter (isAbout a) = [] := by
  induction ops with
  | nil => simp [AllAccepted, trace]
  | cons op rest ih =>
    obtain ⟨key, hk⟩ := hs op List.mem_cons_self
    have hfin : b.isFinalized = true := by simp [Builder.isFinalized, hf]
    rw [allAccepted_cons, apply_frozen hfin hk, ih fun o ho => hs o (List.mem_cons_of_mem _ ho)]
    cases h : isAbout a op <;> simp [h, Except.isOk, Except.toBool]

/-- Registrations go through beside the candidates that are there exactly if each two of all are related,
in whatever order they come. -/
theorem settleAll_registers (hr : ∀ op ∈ ops, isAbout a op = true ∧ op.isRegister = true)
    {p : Option Pending} (hp : Builder.Related g (Pending.candidatesOf p)) :
    (∃ r, settleAll g s ops p = some r) ↔ (ops = [] ∨ ∀ x, p ≠ some (.aggregate x)) ∧
      (∀ c ∈ ops.filterMap (candidate? s a), c.binding.provides.id = a.type) ∧
      Builder.Related g (Pending.candidatesOf p ++ ops.filterMap (candidate? s a)) := by
  induction ops generalizing p with
  | nil => simp [settleAll, hp]
  | cons op rest ih =>
    obtain ⟨habout, hreg⟩ := hr op List.mem_cons_self
    have hrest := fun q => @ih (fun o ho => hr o (List.mem_cons_of_mem _ ho)) q
    cases op with
    | register key binding source =>
      have hka : key.ident = a := by simpa [isAbout, subject?] using habout
      subst hka
      let new : Candidate := ⟨binding.withDefaultScope s, source⟩
      have hnew : (register key binding source).candidate? s key.ident = some new := by
        simp [candidate?, new]
      rw [List.filterMap_cons_some hnew, List.forall_mem_cons]
      by_cases ht : binding.provides.id = key.type.id
      · have htype : new.binding.provides.id = key.ident.type := ht
        simp only [settleAll, settle, ht, ne_eq, not_true_eq_false, if_false, htype, true_and]
        cases p with
        | none =>
          rw [hrest (some (.candidates [new])) (List.pairwise_singleton _ _)]
          simp [Pending.candidatesOf]
        | some p =>
          cases p with
          | aggregate x => simp
          | candidates cs =>
            dsimp only
            by_cases hrel : ∀ c ∈ cs, g.Above source c.source ∨ g.Above c.source source
            · rw [if_pos hrel]
              refine (hrest (some (.candidates (cs ++ [new]))) (hp.snoc hrel)).trans ?_
              simp [Pending.candidatesOf]
            · rw [if_neg hrel]
              refine iff_of_false (by simp) fun h => hrel fun c hc => ?_
              exact ((List.pairwise_append.mp h.2.2).2.2 c hc new List.mem_cons_self).symm
      · have htype : ¬ new.binding.provides.id = key.ident.type := ht
        simp [settleAll, settle, ht, htype]
    | _ => contradiction

theorem accepted_of_allAccepted (h : AllAccepted a b ops) :
    accepted a b ops = ops.filterMap (candidate? b.config.defaultScope a) := by
  induction ops generalizing b with
  | nil => rfl
  | cons op rest ih =>
    obtain ⟨hop, hrest⟩ := allAccepted_cons.mp h
    have hconfig := config_apply b op
    have hlater := ih hrest
    rw [hconfig] at hlater
    simp only [accepted]
    generalize op.apply b = r at hop hlater ⊢
    obtain ⟨outcome, left⟩ := r
    cases hc : op.candidate? b.config.defaultScope a with
    | none =>
      rw [List.filterMap_cons_none hc]
      cases outcome <;> simpa using hlater
    | some c =>
      have habout : isAbout a op = true := by
        cases op with
        | register key binding source =>
          simp only [candidate?] at hc
          split at hc
          · rename_i hka
            simp [isAbout, subject?, hka]
          · contradiction
        | _ => contradiction
      rw [List.filterMap_cons_some hc]
      cases outcome with
      | error e => simp [Except.isOk, Except.toBool, habout] at hop
      | ok _ => simpa using hlater

theorem filterMap_candidate_perm (h : Reordered a ops others) :
    (ops.filterMap (candidate? s a)).Perm (others.filterMap (candidate? s a)) := by
  have hfilter : ∀ ops : List Operation, (ops.filter (isAbout a)).filterMap (candidate? s a) =
      ops.filterMap (candidate? s a) := by
    intro ops
    rw [List.filterMap_filter]
    refine List.filterMap_congr fun op _ => ?_
    cases op with
    | register key binding source => by_cases hka : key.ident = a <;> simp [isAbout, subject?, candidate?, hka]
    | _ => simp [candidate?]
  rw [← hfilter ops, ← hfilter others]
  exact h.perm.filterMap _

theorem Reordered.allAccepted_iff (hb : b.Coherent) (h : Reordered a ops others) :
    AllAccepted a b ops ↔ AllAccepted a b others := by
  have hops : ∀ op ∈ ops, ∃ key, op.subject? = some key :=
    fun op ho => h.subject op (List.mem_append_left _ ho)
  have hothers : ∀ op ∈ others, ∃ key, op.subject? = some key :=
    fun op ho => h.subject op (List.mem_append_right _ ho)
  cases hf : b.finalized with
  | some r =>
    rw [allAccepted_frozen hf hops, allAccepted_frozen hf hothers, ← List.length_eq_zero_iff,
      h.perm.length_eq, List.length_eq_zero_iff]
  | none =>
    have hregisters : ∀ op ∈ ops.filter (isAbout a), isAbout a op = true ∧ op.isRegister = true := by
      intro op ho
      obtain ⟨ho, habout⟩ := List.mem_filter.mp ho
      exact ⟨habout, h.registers op ho habout⟩
    have hrelated := hb.candidates_related a
    have hnews := h.perm.filterMap (candidate? b.config.defaultScope a)
    have hempty : ops.filter (isAbout a) = [] ↔ others.filter (isAbout a) = [] := by
      rw [← List.length_eq_zero_iff, h.perm.length_eq, List.length_eq_zero_iff]
    rw [Operation.allAccepted_iff hf hops, Operation.allAccepted_iff hf hothers,
      settleAll_registers hregisters hrelated,
      settleAll_registers (fun op ho => hregisters op (h.perm.mem_iff.mpr ho)) hrelated, hempty]
    refine and_congr_right' (and_congr ?_ ?_)
    · simp only [hnews.mem_iff]
    · exact Builder.Related.perm (hnews.append_left _)

theorem Reordered.winner?_eq {key : Key} (hb : b.Coherent) (h : Reordered key.ident ops others)
    (hall : AllAccepted key.ident b ops) :
    (runAll b ops).2.winner? key = (runAll b others).2.winner? key := by
  have hdeclares : ∀ op ∈ ops ++ others, ∀ x y, op ≠ .declareOverride x y := by
    rintro op ho x y rfl
    obtain ⟨key, hk⟩ := h.subject _ ho
    contradiction
  have hops := overrides_runAll b fun op ho => hdeclares op (List.mem_append_left _ ho)
  have hothers := overrides_runAll b fun op ho => hdeclares op (List.mem_append_right _ ho)
  rw [Builder.winner?, Builder.winner?, hops, hothers, candidatesOf_runAll, candidatesOf_runAll,
    accepted_of_allAccepted hall, accepted_of_allAccepted ((h.allAccepted_iff hb).mp hall)]
  exact Builder.effective?_perm ((filterMap_candidate_perm h).append_left _)

/-- In any builder that operations lead to, each two candidates of a key are related, and a direct one is
alone. Freezing finds an override ambiguous exactly if the candidates of a key are tied; otherwise the one
that is foremost counts. As long as no overrides are declared, registrations of a key all go through in one
order if they do in another, and then the same one counts. -/
theorem candidates_ranked (config : Config) (ops : List Operation) :
    let b := (runAll (.withConfig config) ops).2
    let candidates := fun key : Key => accepted key.ident (.withConfig config) ops
    (∀ key, Builder.Related b.overrides (candidates key)) ∧
    (∀ key, ∀ c ∈ candidates key, c.source = .direct → candidates key = [c]) ∧
    ((∃ key, b.finalize.1 = .error (.ambiguousOverride key)) ↔
      ∃ key, Builder.Tied b.overrides (candidates key)) ∧
    (∀ key, b.finalize.1 = .error (.ambiguousOverride key) →
      Builder.Tied b.overrides (candidates key)) ∧
    ((∀ key, ¬ Builder.Tied b.overrides (candidates key)) → ∀ key, candidates key ≠ [] →
      ∃ c, Builder.Foremost b.overrides c (candidates key) ∧
        (∀ d, Builder.Foremost b.overrides d (candidates key) → d = c) ∧
        b.winner? key = some c ∧ b.lookup key = some c.binding ∧
        ∀ r, b.finalize.1 = .ok r → r.find? key = some (.binding c)) ∧
    ∀ key more others, Reordered key.ident more others →
      (AllAccepted key.ident b more ↔ AllAccepted key.ident b others) ∧
      (AllAccepted key.ident b more →
        (runAll b more).2.winner? key = (runAll b others).2.winner? key) := by
  intro b candidates
  have hb : b.Coherent := coherent_runAll (Builder.coherent_withConfig config) ops
  have hsealed : b.Sealed := sealed_runAll (Builder.sealed_withConfig config) ops
  have hcandidates : ∀ key : Key, Pending.candidatesOf (b.at? key.ident) = candidates key := by
    intro key
    rw [candidatesOf_runAll]
    simp [Pending.candidatesOf, candidates]
  have hrelated : ∀ key, Builder.Related b.overrides (candidates key) := by
    intro key
    rw [← hcandidates]
    exact hb.candidates_related _
  have hreported : ∀ key, b.finalize.1 = .error (.ambiguousOverride key) →
      Builder.Tied b.overrides (candidates key) := by
    intro key h
    rw [hsealed.finalize] at h
    rw [← hcandidates]
    exact hb.tied_iff.mpr (Builder.freeze_ambiguous hb.sorted h)
  refine ⟨hrelated, fun key c hc hdirect => ?_, ⟨?_, ?_⟩, hreported, fun hnone key hn => ?_,
    fun key more others h => ⟨h.allAccepted_iff hb, h.winner?_eq hb⟩⟩
  · -- Nothing overrides a direct registration or is overridden by one.
    have hapart : ∀ s, ¬ b.overrides.Related c.source s := by
      intro s hs
      rw [hdirect] at hs
      rcases hs with hs | hs <;> simp [above_iff] at hs
    obtain ⟨before, after, he⟩ := List.append_of_mem hc
    have hpair := hrelated key
    rw [he] at hpair
    obtain ⟨_, hafter, hbefore⟩ := List.pairwise_append.mp hpair
    have hb' : before = [] := List.eq_nil_iff_forall_not_mem.mpr fun d hd =>
      hapart _ (hbefore d hd c List.mem_cons_self).symm
    have ha' : after = [] := List.eq_nil_iff_forall_not_mem.mpr fun d hd =>
      hapart _ ((List.pairwise_cons.mp hafter).1 d hd)
    rw [he, hb', ha', List.nil_append]
  · rintro ⟨key, h⟩
    exact ⟨key, hreported key h⟩
  · rintro ⟨key, ht⟩
    rw [← hcandidates] at ht
    obtain ⟨p, hp, hnone⟩ := hb.tied_iff.mp ht
    obtain ⟨reported, hr⟩ := Builder.exists_freeze_ambiguous hb.sorted hp hnone
    exact ⟨reported, by rw [hsealed.finalize, hr]⟩
  · have hwinner : b.winner? key = Builder.effective? b.overrides (candidates key) := by
      rw [Builder.winner?, hcandidates]
    obtain ⟨c, hc⟩ := Option.ne_none_iff_exists'.mp fun h =>
      hnone key (((hrelated key).effective?_eq_none_iff hn).mp h)
    have hwins := hwinner.trans hc
    refine ⟨c, Builder.effective?_iff_foremost.mp hc, fun d hd => ?_, hwins,
      Builder.lookup_eq_winner hb hsealed hwins⟩
    exact Option.some.inj ((Builder.effective?_iff_foremost.mpr hd).symm.trans hc)

def feudKey : Key := .of (.value .alpha)

def feudOperation (type : ModuleType) : Operation :=
  .register feudKey ⟨.fixed ⟨.fixed 0, .alpha "feud", []⟩, none⟩ (.module (Builder.plainModule type))

def feudOverrides : List Operation :=
  [.declareOverride (Builder.plainModule .a) (Builder.plainModule .b),
    .declareOverride (Builder.plainModule .b) (Builder.plainModule .a),
    .declareOverride (Builder.plainModule .c) (Builder.plainModule .a)]

def feudRegistrations : List Operation :=
  [feudOperation .a, feudOperation .b, feudOperation .c]

/-- The feud does no harm: the third module counts, whether it is the last or the first to register. -/
theorem candidates_ranked_feud :
    let b := (runAll (.withConfig {}) feudOverrides).2
    let ops := feudOverrides ++ feudRegistrations
    (∀ key : Key, ¬ Builder.Tied (runAll (.withConfig {}) ops).2.overrides
      (accepted key.ident (.withConfig {}) ops)) ∧
    (∃ c, Builder.Foremost (runAll (.withConfig {}) ops).2.overrides c
      (accepted feudKey.ident (.withConfig {}) ops) ∧ c.source = .module (Builder.plainModule .c)) ∧
    Reordered feudKey.ident feudRegistrations feudRegistrations.reverse ∧
    AllAccepted feudKey.ident b feudRegistrations ∧
    AllAccepted feudKey.ident b feudRegistrations.reverse ∧
    (runAll b feudRegistrations.reverse).2.winner? feudKey =
      (runAll b feudRegistrations).2.winner? feudKey := by
  intro b ops
  obtain ⟨_, _, hiff, _, hforemost, _⟩ := candidates_ranked {} ops
  have hfrozen : (runAll (.withConfig {}) ops).2.finalize.1.isOk = true := by cbv
  have hnone : ∀ key : Key, ¬ Builder.Tied (runAll (.withConfig {}) ops).2.overrides
      (accepted key.ident (.withConfig {}) ops) := by
    intro key ht
    obtain ⟨k, hk⟩ := hiff.mpr ⟨key, ht⟩
    rw [hk] at hfrozen
    contradiction
  have hsource : ((runAll (.withConfig {}) ops).2.winner? feudKey).map Candidate.source =
      some (.module (Builder.plainModule .c)) := by cbv
  have haccepted : accepted feudKey.ident (.withConfig {}) ops ≠ [] := by
    have hlength : (accepted feudKey.ident (.withConfig {}) ops).length = 3 := by cbv
    exact List.ne_nil_of_length_pos (hlength ▸ Nat.zero_lt_succ 2)
  obtain ⟨c, hc, _, hwinner, _⟩ := hforemost hnone feudKey haccepted
  rw [hwinner] at hsource
  have hreordered : Reordered feudKey.ident feudRegistrations feudRegistrations.reverse :=
    { subject := by simp [feudRegistrations, feudOperation, subject?]
      registers := by simp [feudRegistrations, feudOperation, isRegister]
      perm := (List.reverse_perm feudRegistrations).symm.filter _ }
  have hall : AllAccepted feudKey.ident b feudRegistrations := by
    have hok : (trace b feudRegistrations).all Step.succeeded = true := by cbv
    exact fun t ht _ => List.all_eq_true.mp hok t ht
  obtain ⟨_, _, _, _, _, horder⟩ := candidates_ranked {} feudOverrides
  obtain ⟨hsame, heq⟩ := horder feudKey _ _ hreordered
  exact ⟨hnone, ⟨c, hc, Option.some.inj hsource⟩, hreordered, hall, hsame.mp hall, (heq hall).symm⟩

end Operation

end Wiring
