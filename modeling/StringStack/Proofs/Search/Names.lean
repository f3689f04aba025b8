import Mathlib.Data.List.Forall2
import StringStack.Search.Engine

namespace StringStack.Engine

def names : Engine → List String
  | boyerMoore => ["boyer-moore", "bm"]
  | rabinKarp => ["rabin-karp", "rk"]
  | naive => ["naive"]

def Spells (c lower : Char) : Prop := c = lower ∨ c.isUpper = true ∧ lower.toNat = c.toNat + 32

/-- The text is a name or an abbreviation of the engine, in upper case, in lower case or in a
mixture. -/
def IsName (text : String) (engine : Engine) : Prop :=
  ∃ name ∈ engine.names, List.Forall₂ Spells text.toList name.toList

variable {text : String} {engine : Engine}

theorem toNat_toLower {c : Char} (upper : c.isUpper = true) : c.toLower.toNat = c.toNat + 32 := by
  have range := of_decide_eq_true upper
  have last : c.val.toNat ≤ 90 := UInt32.le_iff_toNat_le.1 range.2
  unfold Char.toLower
  rw [dif_pos range]
  change (c.val + 32).toNat = c.val.toNat + 32
  rw [UInt32.toNat_add]
  apply Nat.mod_eq_of_lt
  change c.val.toNat + 32 < 2 ^ 32
  omega

theorem toLower_of_not_isUpper {c : Char} (other : c.isUpper = false) : c.toLower = c :=
  dif_neg (of_decide_eq_false other)

theorem toLower_eq_iff {c lower : Char} (small : lower.isUpper = false) :
    c.toLower = lower ↔ Spells c lower := by
  unfold Spells
  cases upper : c.isUpper with
  | true =>
    have other : c ≠ lower := by
      rintro rfl
      rw [upper] at small
      cases small
    rw [← Char.toNat_inj, toNat_toLower upper, eq_comm]
    simp only [other, false_or, true_and]
  | false =>
    rw [toLower_of_not_isUpper upper]
    simp only [Bool.false_eq_true, false_and, or_false]

theorem forall₂_spells_iff {text lower : List Char} (small : ∀ c ∈ lower, c.isUpper = false) :
    List.Forall₂ Spells text lower ↔ text.map Char.toLower = lower := by
  induction lower generalizing text with
  | nil => rw [List.forall₂_nil_right_iff, List.map_eq_nil_iff]
  | cons d lower ih =>
    obtain ⟨first, small⟩ := List.forall_mem_cons.1 small
    rw [List.forall₂_cons_right_iff, List.map_eq_cons_iff]
    refine exists_congr fun c => exists_congr fun rest => ?_
    rw [ih small, toLower_eq_iff first]
    tauto

theorem not_isUpper_of_mem_names {name : String} (member : name ∈ engine.names) :
    ∀ c ∈ name.toList, c.isUpper = false := by
  have lower : ∀ name ∈ engine.names, (name.toList.all fun c => !c.isUpper) = true := by
    cases engine <;> decide
  intro c inside
  simpa using List.all_eq_true.1 (lower name member) c inside

theorem isName_iff :
    IsName text engine ↔ String.ofList (text.toList.map Char.toLower) ∈ engine.names := by
  constructor
  · rintro ⟨name, member, spelled⟩
    rwa [(forall₂_spells_iff (not_isUpper_of_mem_names member)).1 spelled, String.ofList_toList]
  · intro member
    refine ⟨_, member, ?_⟩
    rw [forall₂_spells_iff (not_isUpper_of_mem_names member), String.toList_ofList]

theorem ofName_eq_ok_iff : ofName text = .ok engine ↔ IsName text engine := by
  rw [isName_iff]
  unfold ofName
  cases engine <;> simp only [names, List.mem_cons, List.not_mem_nil, or_false] <;>
    split <;> simp_all

theorem name_of_ofName_eq_error {e : UnknownName} (failed : ofName text = .error e) :
    e = ⟨text⟩ := by
  unfold ofName at failed
  split at failed <;> cases failed
  rfl

theorem ofName_eq_error_iff {e : UnknownName} :
    ofName text = .error e ↔ e = ⟨text⟩ ∧ ∀ engine, ¬ IsName text engine := by
  simp only [← ofName_eq_ok_iff]
  constructor
  · intro failed
    refine ⟨name_of_ofName_eq_error failed, fun engine read => ?_⟩
    rw [failed] at read
    cases read
  · rintro ⟨rfl, none⟩
    cases read : ofName text with
    | ok engine => exact absurd read (none engine)
    | error e => rw [name_of_ofName_eq_error read]

end StringStack.Engine
