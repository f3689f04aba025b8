import Mathlib.Algebra.Group.Nat.Defs
import StringStack.Search.RabinKarp
import StringStack.Proofs.Search.Occurrence

namespace StringStack.Search

theorem toNat_two_pow (n : Nat) : ((2 : UInt64) ^ n).toNat = 2 ^ n % 2 ^ 64 := by
  induction n with
  | zero => rfl
  | succ n ih => rw [UInt64.pow_succ, UInt64.toNat_mul, ih, Nat.pow_succ, Nat.mod_mul_mod]; rfl

theorem two_pow_eq_zero_of_wide {n : Nat} (wide : 64 ≤ n) : (2 : UInt64) ^ n = 0 := by
  apply UInt64.toNat_inj.1
  rw [toNat_two_pow]
  exact Nat.mod_eq_zero_of_dvd (Nat.pow_dvd_pow 2 wide)

theorem shiftLeft_eq_mul {n : Nat} (inside : n < 64) (h : UInt64) :
    h <<< n.toUInt64 = h * 2 ^ n := by
  apply UInt64.toNat_inj.1
  have word : n.toUInt64.toNat = n := Nat.mod_eq_of_lt (by omega)
  rw [UInt64.toNat_shiftLeft, UInt64.toNat_mul, toNat_two_pow, word, Nat.mod_eq_of_lt inside,
    Nat.shiftLeft_eq, Nat.mul_mod_mod]

theorem shiftLeft_one (h : UInt64) : h <<< 1 = h * 2 := shiftLeft_eq_mul (by decide : 1 < 64) h

theorem leadingWeight_eq (width : Nat) (b : UInt8) :
    leadingWeight width b = b.toUInt64 * 2 ^ (width - 1) := by
  unfold leadingWeight
  split
  · next inside => exact shiftLeft_eq_mul inside _
  · next wide => rw [two_pow_eq_zero_of_wide (by omega), UInt64.mul_zero]

theorem foldl_fingerprint (window : List UInt8) (h : UInt64) :
    window.foldl (fun (h : UInt64) b => (h <<< 1) + b.toUInt64) h =
      h * 2 ^ window.length + fingerprint window := by
  induction window generalizing h with
  | nil => simp [fingerprint]
  | cons b rest ih =>
    rw [fingerprint, List.foldl_cons, List.foldl_cons, ih, ih, shiftLeft_one, shiftLeft_one,
      List.length_cons]
    grind

theorem fingerprint_cons (b : UInt8) (rest : List UInt8) :
    fingerprint (b :: rest) = b.toUInt64 * 2 ^ rest.length + fingerprint rest := by
  rw [fingerprint, List.foldl_cons, foldl_fingerprint]
  simp

theorem fingerprint_concat (window : List UInt8) (b : UInt8) :
    fingerprint (window ++ [b]) = fingerprint window * 2 + b.toUInt64 := by
  rw [fingerprint, List.foldl_append, List.foldl_cons, List.foldl_nil, shiftLeft_one, fingerprint]

theorem roll_fingerprint (outgoing incoming : UInt8) (kept : List UInt8) :
    roll (kept.length + 1) (fingerprint (outgoing :: kept)) outgoing incoming =
      fingerprint (kept ++ [incoming]) := by
  rw [roll, leadingWeight_eq, fingerprint_cons, fingerprint_concat, Nat.add_sub_cancel,
    shiftLeft_one]
  grind

theorem roll_window {m : Nat} (outgoing : UInt8) {incoming : UInt8} {rest ahead : List UInt8}
    (next : rest.drop m = incoming :: ahead) :
    roll (m + 1) (fingerprint ((outgoing :: rest).take (m + 1))) outgoing incoming =
      fingerprint (rest.take (m + 1)) := by
  have longer : m < rest.length := by
    have := congrArg List.length next
    rw [List.length_drop, List.length_cons] at this
    omega
  have kept : (rest.take m).length = m := List.length_take_of_le (Nat.le_of_lt longer)
  have widened : rest.take (m + 1) = rest.take m ++ [incoming] := by
    rw [List.take_add_one, ← List.head?_drop, next, List.head?_cons, Option.toList_some]
  have rolled := roll_fingerprint outgoing incoming (rest.take m)
  rwa [kept, ← widened, ← List.take_succ_cons] at rolled

/-- The symbols of a window read as one number, without a limit. -/
def reading (window : List UInt8) : Nat := window.foldl (fun n b => 2 * n + b.toNat) 0

theorem toNat_foldl_fingerprint (window : List UInt8) (h : UInt64) (n : Nat)
    (same : h.toNat = n % 2 ^ 64) :
    (window.foldl (fun (h : UInt64) b => (h <<< 1) + b.toUInt64) h).toNat =
      window.foldl (fun n b => 2 * n + b.toNat) n % 2 ^ 64 := by
  induction window generalizing h n with
  | nil => exact same
  | cons b rest ih =>
    apply ih
    change ((h <<< 1) + b.toUInt64).toNat = (2 * n + b.toNat) % 2 ^ 64
    have two : (2 : UInt64).toNat = 2 := rfl
    rw [shiftLeft_one, UInt64.toNat_add, UInt64.toNat_mul, same, two, UInt8.toNat_toUInt64]
    omega

theorem toNat_fingerprint (window : List UInt8) :
    (fingerprint window).toNat = reading window % 2 ^ 64 :=
  toNat_foldl_fingerprint window 0 0 rfl

/- The weight by way of a count of places that is itself a word of half the size, and a shift that
refuses to go past the end of the word. -/

def narrowed? (n : Nat) : Option UInt32 := if n < 2 ^ 32 then some n.toUInt32 else none

def shiftChecked (h : UInt64) (places : UInt32) : Option UInt64 :=
  if places < 64 then some (h <<< places.toUInt64) else none

def weightChecked (width : Nat) (b : UInt8) : UInt64 :=
  ((narrowed? (width - 1)).bind (shiftChecked b.toUInt64)).getD 0

theorem narrowed?_of_lt {n : Nat} (small : n < 2 ^ 32) :
    ∃ places, narrowed? n = some places ∧ places.toNat = n :=
  ⟨n.toUInt32, if_pos small, Nat.mod_eq_of_lt small⟩

theorem shiftChecked_of_lt {h : UInt64} {places : UInt32} (inside : places.toNat < 64) :
    shiftChecked h places = some (h <<< places.toNat.toUInt64) := by
  have word : places.toUInt64 = places.toNat.toUInt64 := by
    apply UInt64.toNat_inj.1
    have small := places.toNat_lt
    exact (UInt32.toNat_toUInt64 places).trans (Nat.mod_eq_of_lt (by omega)).symm
  rw [shiftChecked, if_pos (UInt32.lt_iff_toNat_lt.2 inside), word]

theorem shiftChecked_of_le {h : UInt64} {places : UInt32} (past : 64 ≤ places.toNat) :
    shiftChecked h places = none :=
  if_neg fun inside => Nat.not_lt.2 past (UInt32.lt_iff_toNat_lt.1 inside)

theorem weightChecked_eq (width : Nat) (b : UInt8) :
    weightChecked width b = leadingWeight width b := by
  unfold weightChecked leadingWeight
  by_cases small : width - 1 < 2 ^ 32
  · obtain ⟨places, narrowed, count⟩ := narrowed?_of_lt small
    rw [narrowed, Option.bind_some]
    by_cases inside : width - 1 < 64
    · rw [if_pos inside, shiftChecked_of_lt (by omega), count, Option.getD_some]
    · rw [if_neg inside, shiftChecked_of_le (by omega), Option.getD_none]
  · have wide : ¬ width - 1 < 64 := by omega
    rw [narrowed?, if_neg small, if_neg wide]
    rfl

/-- Rolled on by one place, the fingerprint of a window is the fresh one of the next window, which
is its reading modulo `2 ^ 64`. The weight that goes out is the same when its count of places is
narrowed to half a word first. -/
theorem rolled_fingerprint_fresh (text : List UInt8) {width start : Nat} (filled : 1 ≤ width)
    (later : 1 ≤ start) (fits : start + width ≤ text.length) :
    roll width (fingerprint ((text.drop (start - 1)).take width)) text[start - 1]
      text[start + width - 1] =
      fingerprint ((text.drop start).take width) ∧
    leadingWeight width text[start - 1] = weightChecked width text[start - 1] ∧
    (fingerprint ((text.drop start).take width)).toNat =
      reading ((text.drop start).take width) % 2 ^ 64 := by
  refine ⟨?_, (weightChecked_eq _ _).symm, toNat_fingerprint _⟩
  obtain ⟨m, rfl⟩ := Nat.exists_eq_add_of_le' filled
  obtain ⟨k, rfl⟩ := Nat.exists_eq_add_of_le' later
  have here : text.drop k = text[k] :: text.drop (k + 1) := List.drop_eq_getElem_cons (by omega)
  have ahead : (text.drop (k + 1)).drop m = text[k + 1 + m] :: text.drop (k + 1 + m + 1) := by
    rw [List.drop_drop]
    exact List.drop_eq_getElem_cons (by omega)
  have rolled := roll_window text[k] ahead
  rw [← here] at rolled
  exact rolled

theorem rolled_fingerprint_wide :
    let text : List UInt8 := 201 :: List.replicate 65 97
    1 ≤ 65 ∧ 1 ≤ 1 ∧ 1 + 65 ≤ text.length ∧ leadingWeight 65 201 = 0 ∧
      roll 65 (fingerprint (text.take 65)) 201 97 = fingerprint ((text.drop 1).take 65) := by
  intro text
  have fits : 1 + 65 ≤ text.length := by decide
  exact ⟨by decide, by decide, fits, rfl,
    (rolled_fingerprint_fresh text (by decide) (by decide) fits).1⟩

theorem hit_iff_occursAt {pattern here : List UInt8} {h : UInt64} (before : List UInt8)
    (current : h = fingerprint (here.take pattern.length)) :
    (h == fingerprint pattern && pattern.isPrefixOf here) = true ↔
      OccursAt pattern (before ++ here) before.length := by
  rw [OccursAt, List.drop_left, Bool.and_eq_true, List.isPrefixOf_iff_prefix, beq_iff_eq]
  refine ⟨fun hit => hit.2, fun found => ⟨?_, found⟩⟩
  rw [current, ← List.prefix_iff_eq_take.1 found]

theorem isFirst_scanWindows (pattern : List UInt8) (filled : 0 < pattern.length)
    (before here : List UInt8) (h : UInt64)
    (current : h = fingerprint (here.take pattern.length)) (fits : pattern.length ≤ here.length)
    (passed : ∀ j, j < before.length → ¬ OccursAt pattern (before ++ here) j) :
    IsFirst pattern (before ++ here) (scanWindows pattern pattern.length (fingerprint pattern)
      before.length h here (here.drop pattern.length)) := by
  induction here generalizing before h with
  | nil => exact absurd filled (Nat.not_lt.2 fits)
  | cons outgoing rest ih =>
    have hit := hit_iff_occursAt before current
    unfold scanWindows
    split
    · next found => exact ⟨by simp, hit.1 found, passed⟩
    · next missed =>
      have passedHere := Nat.forall_lt_succ_right.2 ⟨passed, mt hit.2 missed⟩
      obtain ⟨m, width⟩ := Nat.exists_eq_add_one_of_ne_zero (Nat.ne_of_gt filled)
      rw [width, List.length_cons] at fits
      rw [width, List.drop_succ_cons]
      cases next : rest.drop m with
      | nil =>
        -- The window has come to the end of the text, so nothing longer than it is left.
        have last := List.drop_eq_nil_iff.1 next
        intro k _ found
        have length := found.length_le
        rw [List.length_append, List.length_cons] at length
        exact passedHere k (by omega) found
      | cons incoming ahead =>
        have behind : ahead = rest.drop (m + 1) := by
          rw [← List.tail_drop, next, List.tail_cons]
        have longer := congrArg List.length next
        rw [List.length_drop, List.length_cons] at longer
        rw [width] at current
        have rolled := roll_window outgoing next
        rw [← current] at rolled
        have moved := ih (before ++ [outgoing]) (roll (m + 1) h outgoing incoming) (width ▸ rolled)
          (by omega)
        simp only [List.append_assoc, List.singleton_append, List.length_append,
          List.length_singleton, width, ← behind] at moved
        exact moved passedHere

theorem isFirst_rabinKarp (pattern text : List UInt8) :
    IsFirst pattern text (rabinKarp pattern text) := by
  simp only [rabinKarp]
  split
  · next empty =>
    obtain rfl := List.length_eq_zero_iff.1 empty
    exact ⟨Nat.zero_le _, occursAt_nil text 0,
      fun j impossible => absurd impossible (Nat.not_lt_zero j)⟩
  · next filled =>
    split
    · next longer =>
      intro k inside found
      have length := found.length_le
      omega
    · next fits =>
      exact isFirst_scanWindows pattern (Nat.pos_of_ne_zero filled) [] text _ rfl
        (Nat.not_lt.1 fits)
        fun j impossible => absurd impossible (Nat.not_lt_zero j)

theorem rabinKarp_eq_naive (pattern text : List UInt8) :
    rabinKarp pattern text = naive pattern text :=
  (isFirst_rabinKarp pattern text).unique (isFirst_naive pattern text)

/-- The first slice of the text that equals the pattern is found, whatever the length of the
pattern. Neither the wrap-around of fingerprints nor a weight that is shifted out hides an
occurrence. -/
theorem rabinKarp_finds_first (pattern text : List UInt8) :
    (∀ k, rabinKarp pattern text = some k ↔
      k + pattern.length ≤ text.length ∧ (text.drop k).take pattern.length = pattern ∧
        ∀ j, j < k → (text.drop j).take pattern.length ≠ pattern) ∧
    (rabinKarp pattern text = none ↔
      ∀ k, k + pattern.length ≤ text.length → (text.drop k).take pattern.length ≠ pattern) ∧
    (∀ k, k + pattern.length ≤ text.length → (text.drop k).take pattern.length = pattern →
      ∃ j, j ≤ k ∧ rabinKarp pattern text = some j) ∧
    rabinKarp pattern text = naive pattern text := by
  have first := isFirst_rabinKarp pattern text
  have found := fun k => (eq_iff_isFirst (q := some k) first).trans isFirst_some_iff_slice
  have absent := (eq_iff_isFirst first).trans isFirst_none_iff_slice
  refine ⟨found, absent, ?_, rabinKarp_eq_naive pattern text⟩
  intro k fits occurs
  cases answer : rabinKarp pattern text with
  | none => exact absurd occurs (absent.1 answer k fits)
  | some j =>
    have earliest := ((found j).1 answer).2.2
    have notLater : ¬ k < j := fun sooner => earliest k sooner occurs
    exact ⟨j, Nat.not_lt.1 notLater, rfl⟩

end StringStack.Search
