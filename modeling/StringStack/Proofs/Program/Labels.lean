import Mathlib.Data.List.Sort
import StringStack.Program.Labels

namespace StringStack.LabelTable

theorem get?_empty (name : String) : empty.get? name = none := rfl

theorem lookup_eq_some_iff_mem {entries : List (String × Nat)}
    (sorted : entries.Pairwise fun a b => a.1 < b.1) {name : String} {index : Nat} :
    entries.lookup name = some index ↔ (name, index) ∈ entries := by
  induction entries with
  | nil => simp
  | cons entry rest ih =>
    obtain ⟨first, i⟩ := entry
    obtain ⟨below, restSorted⟩ := List.pairwise_cons.1 sorted
    rw [List.lookup_cons, List.mem_cons]
    by_cases same : name = first
    · subst same
      have absent : (name, index) ∉ rest := fun later => String.lt_irrefl name (below _ later)
      simp [absent, eq_comm]
    · rw [beq_false_of_ne same]
      simp [same, ih restSorted]

theorem mem_entries_iff {table : LabelTable} {name : String} {index : Nat} :
    (name, index) ∈ table.entries ↔ table.get? name = some index :=
  (lookup_eq_some_iff_mem table.sorted).symm

theorem ext_get? {a b : LabelTable} (same : ∀ name, a.get? name = b.get? name) : a = b := by
  have irreflexive : Std.Irrefl fun x y : String × Nat => x.1 < y.1 :=
    ⟨fun x => String.lt_irrefl x.1⟩
  have antisymmetric : Std.Antisymm fun x y : String × Nat => x.1 < y.1 :=
    ⟨fun x y before after => absurd (String.lt_trans before after) (String.lt_irrefl x.1)⟩
  have entries : a.entries = b.entries := by
    refine a.sorted.eq_of_mem_iff b.sorted fun ⟨name, index⟩ => ?_
    rw [mem_entries_iff, mem_entries_iff, same]
  cases a
  cases b
  simp only at entries
  subst entries
  rfl

theorem get?_place {table : LabelTable} {name : String} {index : Nat}
    (fresh : table.entries.lookup name = none) (other : String) :
    (place name index table.entries).lookup other =
      if other = name then some index else table.get? other := by
  have sorted : (place name index table.entries).Pairwise fun a b => a.1 < b.1 :=
    place_sorted table.sorted fresh
  ext i
  rw [lookup_eq_some_iff_mem sorted, mem_place]
  split
  · next same =>
    have absent : (name, i) ∉ table.entries := by
      rw [mem_entries_iff, get?, fresh]
      simp
    simp [same, absent, eq_comm]
  · next differs => simp [differs, mem_entries_iff]

theorem insert_eq_ok_iff {table added : LabelTable} {name : String} {index : Nat} :
    table.insert name index = .ok added ↔ table.get? name = none ∧
      ∀ other, added.get? other = if other = name then some index else table.get? other := by
  unfold insert
  split
  · next existing found =>
    have present : table.get? name = some existing := found
    simp [present]
  · next fresh =>
    have absent : table.get? name = none := fresh
    rw [Except.ok.injEq]
    constructor
    · rintro rfl
      exact ⟨absent, get?_place fresh⟩
    · rintro ⟨-, lookups⟩
      exact ext_get? fun other => (get?_place fresh other).trans (lookups other).symm

theorem exists_insert {table : LabelTable} {name : String} (index : Nat)
    (absent : table.get? name = none) : ∃ added, table.insert name index = .ok added := by
  unfold insert
  split
  · next existing found => exact absurd (found.symm.trans absent) (by simp)
  · exact ⟨_, rfl⟩

theorem get?_of_nameAt? {table : LabelTable} {name : String} {index : Nat}
    (found : table.nameAt? index = some name) : table.get? name = some index := by
  obtain ⟨entry, listed, rfl⟩ := Option.map_eq_some_iff.1 found
  have indexed : entry.2 = index := by simpa using List.find?_some listed
  have member := List.mem_of_find?_eq_some listed
  rw [← mem_entries_iff, ← indexed]
  exact member

theorem nameAt?_eq_none_iff {table : LabelTable} {index : Nat} :
    table.nameAt? index = none ↔ ∀ name, table.get? name ≠ some index := by
  rw [nameAt?, Option.map_eq_none_iff, List.find?_eq_none]
  constructor
  · intro absent name found
    exact absent (name, index) (mem_entries_iff.2 found) (by simp)
  · intro absent ⟨name, i⟩ member same
    obtain rfl : i = index := by simpa using same
    exact absent name (mem_entries_iff.1 member)

theorem nameAt?_of_get? {table : LabelTable} {name : String} {index : Nat}
    (alone : ∀ other, table.get? other = some index → other = name)
    (found : table.get? name = some index) : table.nameAt? index = some name := by
  cases listed : table.nameAt? index with
  | none => exact absurd found (nameAt?_eq_none_iff.1 listed name)
  | some other => rw [alone other (get?_of_nameAt? listed)]

end StringStack.LabelTable
