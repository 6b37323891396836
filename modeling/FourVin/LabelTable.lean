/-!
Tables from label names to what is known of the labels. A name has one entry, that of its last
insertion, and entries stand in the order of those insertions.
-/
namespace FourVin

structure LabelTable (α : Type) where
  entries : List (String × α)
  deriving DecidableEq

namespace LabelTable

variable {α : Type}

def empty : LabelTable α := ⟨[]⟩

def find? (t : LabelTable α) (name : String) : Option α := t.entries.lookup name

def contains (t : LabelTable α) (name : String) : Bool := (t.find? name).isSome

def size (t : LabelTable α) : Nat := t.entries.length

def names (t : LabelTable α) : List String := t.entries.map Prod.fst

def insert (t : LabelTable α) (name : String) (value : α) : LabelTable α :=
  ⟨t.entries.filter (fun e => e.1 ≠ name) ++ [(name, value)]⟩

@[simp] theorem find?_empty (name : String) : (empty : LabelTable α).find? name = none := rfl

theorem lookup_filter_ne (entries : List (String × α)) (name other : String) (h : other ≠ name) :
    (entries.filter fun e => e.1 ≠ name).lookup other = entries.lookup other := by
  induction entries with
  | nil => rfl
  | cons e rest ih =>
    obtain ⟨key, value⟩ := e
    by_cases hk : key = name
    · subst hk
      simpa [List.lookup_cons, beq_false_of_ne h] using ih
    · by_cases ho : other = key
      · simp [hk, ho]
      · simpa [hk, List.lookup_cons, beq_false_of_ne ho] using ih

theorem lookup_filter_self (entries : List (String × α)) (name : String) :
    (entries.filter fun e => e.1 ≠ name).lookup name = none := by
  rw [List.lookup_eq_none_iff]
  intro e he
  have hne : e.1 ≠ name := by simpa using (List.mem_filter.mp he).2
  simpa using Ne.symm hne

theorem find?_insert (t : LabelTable α) (name other : String) (value : α) :
    (t.insert name value).find? other = if other = name then some value else t.find? other := by
  unfold find? insert
  rw [List.lookup_append]
  split
  · next h =>
    subst h
    rw [lookup_filter_self]
    simp
  · next h =>
    rw [lookup_filter_ne _ _ _ h]
    simp [List.lookup_cons, beq_false_of_ne h]

theorem find?_eq_none_iff (t : LabelTable α) (name : String) :
    t.find? name = none ↔ name ∉ t.names := by
  unfold find? names
  rw [List.lookup_eq_none_iff, List.mem_map]
  constructor
  · rintro h ⟨e, he, rfl⟩
    simpa using h e he
  · intro h e he
    rw [bne_iff_ne]
    rintro rfl
    exact h ⟨e, he, rfl⟩

theorem contains_iff (t : LabelTable α) (name : String) :
    t.contains name = true ↔ name ∈ t.names := by
  rw [contains, Option.isSome_iff_ne_none, ne_eq, find?_eq_none_iff, Classical.not_not]

theorem insert_of_not_mem (t : LabelTable α) (name : String) (value : α) (h : name ∉ t.names) :
    t.insert name value = ⟨t.entries ++ [(name, value)]⟩ := by
  have hfilter : t.entries.filter (fun e => e.1 ≠ name) = t.entries := by
    apply List.filter_eq_self.mpr
    intro e he
    simp only [ne_eq, decide_eq_true_eq]
    rintro rfl
    exact h (List.mem_map_of_mem he)
  rw [insert, hfilter]

theorem names_insert (t : LabelTable α) (name : String) (value : α) :
    (t.insert name value).names = t.names.filter (· ≠ name) ++ [name] := by
  simp [names, insert, List.filter_map, Function.comp_def]

theorem names_insert_of_not_mem (t : LabelTable α) (name : String) (value : α)
    (h : name ∉ t.names) : (t.insert name value).names = t.names ++ [name] := by
  rw [insert_of_not_mem t name value h, names, List.map_append]
  rfl

theorem nodup_names_insert (t : LabelTable α) (name : String) (value : α) (h : t.names.Nodup) :
    (t.insert name value).names.Nodup := by
  rw [names_insert, List.nodup_append]
  refine ⟨h.sublist List.filter_sublist, by simp, ?_⟩
  intro a ha b hb
  have hne : a ≠ name := by simpa using (List.mem_filter.mp ha).2
  exact List.mem_singleton.mp hb ▸ hne

end LabelTable

end FourVin
