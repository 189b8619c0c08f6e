import Mathlib.Data.List.Forall2
import Wiring.Registry.Aggregate

set_option autoImplicit false

namespace Wiring

theorem Instance.asObject?_eq_some {x : Instance} {b : Base} {o : Object} :
    x.asObject? b = some o ↔ x = .object o ∧ o.datum.type = b := by
  cases x with
  | object o' =>
    simp only [asObject?, Option.ite_none_right_eq_some, Option.some.injEq, object.injEq]
    constructor
    · rintro ⟨ht, rfl⟩
      exact ⟨rfl, ht⟩
    · rintro ⟨rfl, ht⟩
      exact ⟨ht, rfl⟩
  | _ => simp [asObject?]

namespace Aggregate

variable {key : Key} {e : Base} {shape : Collection} {es : List (Option MapKey × Instance)}
  {os : List (Option MapKey × Object)}

def enter (m : List (Option MapKey × Object)) (o : Option MapKey × Object) :
    List (Option MapKey × Object) :=
  match o.1 with
  | some k => write k o.2 m
  | none => m

def gather : Collection → List (Option MapKey × Object) → List (Option MapKey × Object)
  | .set _, os => (distinct [] (os.map (·.2))).map (none, ·)
  | .list _, os => os.map fun o => (none, o.2)
  | .map _ _, os => os.foldl enter []

/-- The element is a value of the element type, and the other is this value behind the same map key. -/
structure Carries (e : Base) (x : Option MapKey × Instance) (o : Option MapKey × Object) : Prop where
  mapKey : o.1 = x.1
  object : x.2 = .object o.2
  type : o.2.datum.type = e

/-- The element is of the element type, and its map key of the key type; there is none if there are no keys. -/
structure Suits (shape : Collection) (x : Option MapKey × Instance) : Prop where
  type : x.2.type = .value shape.element
  mapKey : x.1.map MapKey.type = shape.keyType?

theorem map_of_carries (h : List.Forall₂ (Carries e) es os) :
    es.map Prod.fst = os.map Prod.fst ∧ es.map Prod.snd = os.map fun o => .object o.2 := by
  induction h with
  | nil => exact ⟨rfl, rfl⟩
  | cons hcarries _ ih => simp [hcarries.mapKey, hcarries.object, ih]

theorem lackedKey?_eq_none {k : Option MapKey} :
    lackedKey? shape k = none ↔ ∀ t, shape.keyType? = some t → k.map MapKey.type = some t := by
  simp [lackedKey?, Option.filter_eq_none_iff]

theorem objects_cons_eq_ok {k : Option MapKey} {x : Instance} :
    objects key shape ((k, x) :: es) = .ok os ↔ lackedKey? shape k = none ∧
      ∃ o rest, x.asObject? shape.element = some o ∧ objects key shape es = .ok rest ∧
        os = (k, o) :: rest := by
  simp only [objects]
  cases lackedKey? shape k with
  | some t => simp
  | none =>
    cases x.asObject? shape.element with
    | none => simp
    | some o => cases objects key shape es <;> simp [Except.map, eq_comm]

theorem objects_eq_ok : objects key shape es = .ok os ↔
    (∀ x ∈ es, lackedKey? shape x.1 = none) ∧ List.Forall₂ (Carries shape.element) es os := by
  induction es generalizing os with
  | nil => cases os <;> simp [objects]
  | cons x rest ih =>
    rw [objects_cons_eq_ok, List.forall_mem_cons, List.forall₂_cons_left_iff, and_assoc]
    refine and_congr_right fun _ => ?_
    constructor
    · intro h
      obtain ⟨o, others, ho, hrest, rfl⟩ := h
      obtain ⟨hobject, htype⟩ := Instance.asObject?_eq_some.mp ho
      obtain ⟨hkeys, hcarries⟩ := ih.mp hrest
      exact ⟨hkeys, (x.1, o), others, ⟨rfl, hobject, htype⟩, hcarries, rfl⟩
    · intro h
      obtain ⟨hkeys, o, others, ho, hcarries, rfl⟩ := h
      refine ⟨o.2, others, Instance.asObject?_eq_some.mpr ⟨ho.object, ho.type⟩,
        ih.mpr ⟨hkeys, hcarries⟩, ?_⟩
      rw [← ho.mapKey]

theorem assemble_eq (key : Key) (a : Aggregate) (es : List (Option MapKey × Instance)) :
    a.assemble key es = (objects key a.shape es).map (gather a.shape) := by
  simp only [assemble]
  cases a.shape <;> rfl

theorem assemble_eq_ok {a : Aggregate} {items : List (Option MapKey × Object)} :
    a.assemble key es = .ok items ↔ ∃ os, objects key a.shape es = .ok os ∧ items = gather a.shape os := by
  rw [assemble_eq]
  cases objects key a.shape es with
  | error err => simp [Except.map]
  | ok os => simp [Except.map, eq_comm]

theorem exists_assemble (key : Key) (a : Aggregate) (h : ∀ x ∈ es, Suits a.shape x) :
    ∃ items, a.assemble key es = .ok items := by
  have hkeys : ∀ x ∈ es, lackedKey? a.shape x.1 = none := fun x hx =>
    lackedKey?_eq_none.mpr fun t ht => (h x hx).mapKey.trans ht
  have hobjects : ∃ os, List.Forall₂ (Carries a.shape.element) es os := by
    clear hkeys
    induction es with
    | nil => exact ⟨[], .nil⟩
    | cons x rest ih =>
      obtain ⟨k, i⟩ := x
      obtain ⟨os, hos⟩ := ih fun y hy => h y (List.mem_cons_of_mem _ hy)
      have ht := (h (k, i) List.mem_cons_self).type
      cases i with
      | object o => exact ⟨(k, o) :: os, .cons ⟨rfl, rfl, TypeId.value.inj ht⟩ hos⟩
      | collection => contradiction
      | injector => contradiction
  obtain ⟨os, hos⟩ := hobjects
  exact ⟨_, assemble_eq_ok.mpr ⟨os, objects_eq_ok.mpr ⟨hkeys, hos⟩, rfl⟩⟩

theorem mem_distinct {seen os : List Object} {o : Object} (h : o ∈ distinct seen os) :
    o ∈ seen ∨ o ∈ os := by
  induction os generalizing seen with
  | nil => exact .inl h
  | cons x rest ih =>
    simp only [distinct] at h
    split at h
    · exact (ih h).imp_right (List.mem_cons_of_mem _)
    · rcases ih h with hseen | hrest
      · simpa [or_assoc] using Or.inl hseen
      · exact .inr (List.mem_cons_of_mem _ hrest)

theorem find?_of_mem_distinct {seen os : List Object} {x : Object} (h : x ∈ distinct seen os) :
    x ∈ seen ∨ (∀ s ∈ seen, s.datum ≠ x.datum) ∧ os.find? (fun o => o.datum = x.datum) = some x := by
  induction os generalizing seen with
  | nil => exact .inl h
  | cons o rest ih =>
    simp only [distinct] at h
    split at h
    · rename_i hany
      obtain ⟨s, hs, heq⟩ := List.any_eq_true.mp hany
      refine (ih h).imp_right fun ⟨hnew, hfind⟩ => ⟨hnew, ?_⟩
      have hne : o.datum ≠ x.datum := fun ho => hnew s hs ((of_decide_eq_true heq).trans ho)
      simpa [List.find?_cons, hne] using hfind
    · rename_i hany
      rcases ih h with hseen | ⟨hnew, hfind⟩
      · rcases List.mem_append.mp hseen with hseen | hx
        · exact .inl hseen
        · cases List.mem_singleton.mp hx
          refine .inr ⟨fun s hs heq => hany (List.any_eq_true.mpr ⟨s, hs, by simpa using heq⟩), ?_⟩
          simp
      · refine .inr ⟨fun s hs => hnew s (List.mem_append_left _ hs), ?_⟩
        have hne : o.datum ≠ x.datum := hnew o (by simp)
        simpa [List.find?_cons, hne] using hfind

theorem mem_write {k : MapKey} {o : Object} {m : List (Option MapKey × Object)}
    {x : Option MapKey × Object} (h : x ∈ write k o m) : x = (some k, o) ∨ x ∈ m := by
  induction m with
  | nil => simpa [write] using h
  | cons y rest ih =>
    simp only [write] at h
    split at h
    · rename_i hy
      rcases List.mem_cons.mp h with rfl | h
      · exact .inl (by rw [hy])
      · exact .inr (List.mem_cons_of_mem _ h)
    · rcases List.mem_cons.mp h with rfl | h
      · exact .inr List.mem_cons_self
      · exact (ih h).imp_right (List.mem_cons_of_mem _)

theorem write_fresh {k : MapKey} {o : Object} {m : List (Option MapKey × Object)}
    (h : some k ∉ m.map Prod.fst) : write k o m = m ++ [(some k, o)] := by
  induction m with
  | nil => rfl
  | cons y rest ih =>
    obtain ⟨hy, hrest⟩ := not_or.mp (mt List.mem_cons.mpr h)
    rw [write, if_neg (Ne.symm hy), ih hrest]
    rfl

theorem foldl_enter_fresh {m : List (Option MapKey × Object)} (hsome : ∀ o ∈ os, o.1 ≠ none)
    (hnew : ((m ++ os).map Prod.fst).Nodup) : os.foldl enter m = m ++ os := by
  induction os generalizing m with
  | nil => simp
  | cons o rest ih =>
    obtain ⟨k?, o⟩ := o
    obtain ⟨k, rfl⟩ := Option.ne_none_iff_exists'.mp (hsome (k?, o) List.mem_cons_self)
    have hfresh : some k ∉ m.map Prod.fst := by
      rw [List.map_append] at hnew
      exact fun hm => (List.nodup_append.mp hnew).2.2 _ hm _ List.mem_cons_self rfl
    have henter : enter m (some k, o) = m ++ [(some k, o)] := write_fresh hfresh
    rw [List.foldl_cons, henter, ih (fun x hx => hsome x (List.mem_cons_of_mem _ hx)) (by simpa using hnew)]
    simp

theorem mem_foldl_enter {m : List (Option MapKey × Object)} {x : Option MapKey × Object}
    (h : x ∈ os.foldl enter m) : x ∈ m ∨ x ∈ os := by
  induction os generalizing m with
  | nil => exact .inl h
  | cons o rest ih =>
    obtain ⟨k, o⟩ := o
    rcases ih h with hm | hrest
    · cases k with
      | none => exact .inl hm
      | some k =>
        rcases mem_write hm with rfl | hm
        · exact .inr List.mem_cons_self
        · exact .inl hm
    · exact .inr (List.mem_cons_of_mem _ hrest)

theorem mem_gather {shape : Collection} {x : Option MapKey × Object} (h : x ∈ gather shape os) :
    ∃ o ∈ os, x.2 = o.2 ∧ x.1 = shape.keyType?.bind fun _ => o.1 := by
  cases shape with
  | set t =>
    obtain ⟨o, ho, rfl⟩ := List.mem_map.mp h
    obtain ⟨y, hy, rfl⟩ := List.mem_map.mp ((mem_distinct ho).resolve_left (by simp))
    exact ⟨y, hy, rfl, rfl⟩
  | list t =>
    obtain ⟨o, ho, rfl⟩ := List.mem_map.mp h
    exact ⟨o, ho, rfl, rfl⟩
  | map k t => exact ⟨x, (mem_foldl_enter h).resolve_left (by simp), rfl, rfl⟩

end Aggregate

end Wiring
