/-! A label table gives names an instruction index each. It is kept sorted by name, so two tables
with the same labels are equal. -/
namespace StringStack

structure LabelTable where
  entries : List (String × Nat)
  sorted : entries.Pairwise fun a b => a.1 < b.1
  deriving DecidableEq

namespace LabelTable

def empty : LabelTable := ⟨[], .nil⟩

def get? (table : LabelTable) (name : String) : Option Nat := table.entries.lookup name

def size (table : LabelTable) : Nat := table.entries.length

def isEmpty (table : LabelTable) : Bool := table.entries.isEmpty

/-- The name of the label at an index, the first in order of names if there are several. -/
def nameAt? (table : LabelTable) (index : Nat) : Option String :=
  (table.entries.find? fun entry => entry.2 == index).map Prod.fst

def place (name : String) (index : Nat) : List (String × Nat) → List (String × Nat)
  | [] => [(name, index)]
  | entry :: rest =>
    if name < entry.1 then (name, index) :: entry :: rest else entry :: place name index rest

theorem mem_place {name : String} {index : Nat} {entries : List (String × Nat)} {e : String × Nat} :
    e ∈ place name index entries ↔ e = (name, index) ∨ e ∈ entries := by
  induction entries with
  | nil => simp [place]
  | cons entry rest ih =>
    simp only [place]
    split
    · simp
    · simp only [List.mem_cons, ih]
      constructor
      · rintro (h | h | h) <;> simp [h]
      · rintro (h | h | h) <;> simp [h]

theorem place_sorted {name : String} {index : Nat} {entries : List (String × Nat)}
    (sorted : entries.Pairwise fun a b => a.1 < b.1) (fresh : entries.lookup name = none) :
    (place name index entries).Pairwise fun a b => a.1 < b.1 := by
  induction entries with
  | nil => simp [place]
  | cons entry rest ih =>
    obtain ⟨below, restSorted⟩ := List.pairwise_cons.1 sorted
    have other : name ≠ entry.1 ∧ rest.lookup name = none := by
      rw [List.lookup_cons] at fresh
      split at fresh
      · cases fresh
      · next different => exact ⟨by simpa using different, fresh⟩
    simp only [place]
    split
    · next before =>
      refine List.pairwise_cons.2 ⟨fun e he => ?_, sorted⟩
      rcases List.mem_cons.1 he with rfl | later
      · exact before
      · exact String.lt_trans before (below e later)
    · next notBefore =>
      refine List.pairwise_cons.2 ⟨fun e he => ?_, ih restSorted other.2⟩
      rcases mem_place.1 he with rfl | later
      · exact Std.lt_of_le_of_ne (Std.not_lt.1 notBefore) (Ne.symm other.1)
      · exact below e later

def insert (table : LabelTable) (name : String) (index : Nat) : Except Nat LabelTable :=
  match fresh : table.entries.lookup name with
  | some existing => .error existing
  | none => .ok ⟨place name index table.entries, place_sorted table.sorted fresh⟩

end LabelTable
end StringStack
