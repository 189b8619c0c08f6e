import Wiring.KeyMap
import Wiring.Proofs.KeyOrder

set_option autoImplicit false

namespace Wiring.KeyMap

variable {β : Type}

def at? (m : KeyMap β) (a : Ident) : Option β :=
  (m.entries.find? fun e => e.1.ident = a).map (·.2)

theorem at?_cons (x : Key) (u : β) (es : List (Key × β)) (a : Ident) :
    at? ⟨(x, u) :: es⟩ a = if x.ident = a then some u else at? ⟨es⟩ a := by
  by_cases h : x.ident = a <;> simp [at?, h]

theorem at?_insert (m : KeyMap β) (k : Key) (v : β) (a : Ident) :
    (m.insert k v).at? a = if k.ident = a then some v else m.at? a := by
  obtain ⟨es⟩ := m
  simp only [insert]
  induction es with
  | nil => simp [insertEntry, at?_cons]
  | cons e rest ih =>
    obtain ⟨x, u⟩ := e
    simp only [insertEntry]
    cases h : k.order x with
    | lt => simp only [at?_cons]
    | eq =>
      have hx : x.ident = k.ident := (Key.order_eq_iff.mp h).symm
      by_cases ha : k.ident = a <;> simp [at?_cons, hx, ha]
    | gt =>
      have hne : x.ident ≠ k.ident := Key.ident_ne_of_lt (Key.order_lt_of_gt h)
      simp only [at?_cons, ih]
      by_cases ha : k.ident = a
      · subst ha; simp [hne]
      · simp [ha]

theorem contains_eq_isSome (m : KeyMap β) (k : Key) : m.contains k = (m.at? k.ident).isSome := by
  obtain ⟨es⟩ := m
  simp only [contains]
  induction es with
  | nil => rfl
  | cons e rest ih =>
    obtain ⟨x, u⟩ := e
    by_cases h : x.ident = k.ident <;> simp [at?_cons, h, ih]

def Sorted (m : KeyMap β) : Prop := m.entries.Pairwise fun a b => a.1.order b.1 = .lt

theorem sorted_nil : Sorted ({} : KeyMap β) := List.Pairwise.nil

theorem mem_insertEntry {k : Key} {v : β} {es : List (Key × β)} {e : Key × β}
    (h : e ∈ insertEntry k v es) : e.1.ident = k.ident ∨ e ∈ es := by
  induction es with
  | nil =>
    simp only [insertEntry, List.mem_singleton] at h
    exact .inl (by rw [h])
  | cons d rest ih =>
    obtain ⟨x, u⟩ := d
    simp only [insertEntry] at h
    split at h
    · rcases List.mem_cons.mp h with rfl | h
      · exact .inl rfl
      · exact .inr h
    · rename_i ho
      rcases List.mem_cons.mp h with rfl | h
      · exact .inl (Key.order_eq_iff.mp ho).symm
      · exact .inr (List.mem_cons_of_mem _ h)
    · rcases List.mem_cons.mp h with rfl | h
      · exact .inr List.mem_cons_self
      · exact (ih h).imp_right (List.mem_cons_of_mem _)

theorem Sorted.insert {m : KeyMap β} (hm : m.Sorted) (k : Key) (v : β) : (m.insert k v).Sorted := by
  obtain ⟨es⟩ := m
  unfold Sorted at hm ⊢
  simp only [KeyMap.insert] at hm ⊢
  induction es with
  | nil => exact List.pairwise_singleton _ _
  | cons e rest ih =>
    obtain ⟨x, u⟩ := e
    obtain ⟨hx, hrest⟩ := List.pairwise_cons.mp hm
    simp only [insertEntry]
    cases h : k.order x with
    | lt =>
      refine List.pairwise_cons.mpr ⟨fun e he => ?_, hm⟩
      rcases List.mem_cons.mp he with rfl | he
      · exact h
      · exact Key.order_lt_trans h (hx e he)
    | eq => exact List.pairwise_cons.mpr ⟨hx, hrest⟩
    | gt =>
      refine List.pairwise_cons.mpr ⟨fun e he => ?_, ih hrest⟩
      rcases mem_insertEntry he with hk | he
      · have hlt : x.order k = .lt := Key.order_lt_of_gt h
        simpa only [Key.order, hk] using hlt
      · exact hx e he

theorem exists_mem_of_at? {m : KeyMap β} {a : Ident} {v : β} (h : m.at? a = some v) :
    ∃ x, (x, v) ∈ m.entries ∧ x.ident = a := by
  obtain ⟨⟨x, u⟩, hf, rfl⟩ := Option.map_eq_some_iff.mp h
  exact ⟨x, List.mem_of_find?_eq_some hf, by simpa using List.find?_some hf⟩

theorem Sorted.at?_of_mem {m : KeyMap β} (hm : m.Sorted) {x : Key} {v : β}
    (h : (x, v) ∈ m.entries) : m.at? x.ident = some v := by
  obtain ⟨es⟩ := m
  unfold Sorted at hm
  simp only at hm h
  induction es with
  | nil => contradiction
  | cons e rest ih =>
    obtain ⟨y, u⟩ := e
    obtain ⟨hy, hrest⟩ := List.pairwise_cons.mp hm
    rcases List.mem_cons.mp h with he | h
    · cases he
      simp [at?_cons]
    · have hne : y.ident ≠ x.ident := Key.ident_ne_of_lt (hy _ h)
      simp only [at?_cons, hne, if_false]
      exact ih hrest h

end Wiring.KeyMap
