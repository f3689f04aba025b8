import StringStack.Text.Lines

namespace StringStack.Text

/-- What is left of a text without the blanks at both ends. -/
structure Trimmed (text inner : List Char) : Prop where
  surrounded : ∃ front back, text = front ++ inner ++ back ∧
    (∀ c ∈ front, isBlank c = true) ∧ ∀ c ∈ back, isBlank c = true
  starts : ∀ c, inner.head? = some c → isBlank c = false
  ends : ∀ c, inner.getLast? = some c → isBlank c = false

theorem dropWhile_eq_iff {α : Type} {p : α → Bool} {text rest : List α} :
    text.dropWhile p = rest ↔
      (∃ front, text = front ++ rest ∧ ∀ a ∈ front, p a = true) ∧
      ∀ a, rest.head? = some a → p a = false := by
  induction text with
  | nil =>
    constructor
    · rintro rfl
      exact ⟨⟨[], rfl, nofun⟩, nofun⟩
    · rintro ⟨⟨front, whole, -⟩, -⟩
      exact (List.append_eq_nil_iff.1 whole.symm).2.symm
  | cons a text ih =>
    by_cases dropped : p a = true
    · rw [List.dropWhile_cons_of_pos dropped, ih]
      refine and_congr_left fun kept => ?_
      constructor
      · rintro ⟨front, rfl, all⟩
        exact ⟨a :: front, rfl, List.forall_mem_cons.2 ⟨dropped, all⟩⟩
      · rintro ⟨_ | ⟨b, front⟩, whole, all⟩
        · cases whole
          rw [kept a rfl] at dropped
          cases dropped
        · cases whole
          exact ⟨front, rfl, (List.forall_mem_cons.1 all).2⟩
    · rw [List.dropWhile_cons_of_neg dropped]
      constructor
      · rintro rfl
        refine ⟨⟨[], rfl, nofun⟩, fun b first => ?_⟩
        cases first
        exact Bool.not_eq_true _ ▸ dropped
      · rintro ⟨⟨_ | ⟨b, front⟩, whole, all⟩, -⟩
        · exact whole
        · cases whole
          exact absurd (all a List.mem_cons_self) dropped

theorem trim_eq_iff {text inner : List Char} : trim text = inner ↔ Trimmed text inner := by
  unfold trim
  rw [List.reverse_eq_iff, dropWhile_eq_iff]
  constructor
  · rintro ⟨⟨back, rest, blank⟩, ends⟩
    obtain ⟨⟨front, whole, blank'⟩, starts⟩ := dropWhile_eq_iff.1 (List.reverse_eq_iff.1 rest)
    rw [List.reverse_append, List.reverse_reverse] at whole starts
    refine ⟨⟨front, back.reverse, ?_, blank',
      fun c member => blank c (List.mem_reverse.1 member)⟩, fun c first => ?_,
      fun c last => ends c (List.head?_reverse ▸ last)⟩
    · rw [whole, List.append_assoc]
    · apply starts
      rw [List.head?_append, first, Option.some_or]
  · rintro ⟨⟨front, back, rfl, blank, blank'⟩, starts, ends⟩
    refine ⟨?_, fun c last => ends c (List.head?_reverse ▸ last)⟩
    cases inner with
    | nil =>
      have nothing : (front ++ [] ++ back).dropWhile isBlank = [] := by
        refine dropWhile_eq_iff.2 ⟨⟨front ++ [] ++ back, (List.append_nil _).symm, ?_⟩, nofun⟩
        rw [List.append_nil]
        exact fun c member => (List.mem_append.1 member).elim (blank c) (blank' c)
      exact ⟨[], congrArg List.reverse nothing, nofun⟩
    | cons c inner =>
      have kept : (front ++ c :: inner ++ back).dropWhile isBlank = c :: inner ++ back := by
        refine dropWhile_eq_iff.2 ⟨⟨front, List.append_assoc .., blank⟩, fun d first => starts d ?_⟩
        exact first
      refine ⟨back.reverse, ?_, fun d member => blank' d (List.mem_reverse.1 member)⟩
      rw [kept, List.reverse_append]

theorem trim_eq_nil_iff {text : List Char} : trim text = [] ↔ ∀ c ∈ text, isBlank c = true := by
  rw [trim_eq_iff]
  constructor
  · rintro ⟨⟨front, back, rfl, blank, blank'⟩, -, -⟩
    rw [List.append_nil]
    exact fun c member => (List.mem_append.1 member).elim (blank c) (blank' c)
  · exact fun blank => ⟨⟨text, [], by simp, blank, nofun⟩, nofun, nofun⟩

end StringStack.Text
