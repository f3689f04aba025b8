import StringStack.Text.Quoted

namespace StringStack.Text.Quoted

theorem mem_double {c : Char} {value : List Char} : c ∈ double value ↔ c ∈ value := by
  induction value with
  | nil => simp [double]
  | cons first rest ih =>
    by_cases quote : first = '\''
    · simp [double, quote, ih]
    · simp [double, quote, ih]

theorem mem_encode {c : Char} {value : List Char} : c ∈ encode value ↔ c = '\'' ∨ c ∈ value := by
  simp only [encode, List.mem_cons, List.mem_append, List.not_mem_nil, or_false, mem_double]
  constructor
  · rintro (quote | inner | quote)
    · exact .inl quote
    · exact .inr inner
    · exact .inl quote
  · rintro (quote | inner)
    · exact .inl quote
    · exact .inr (.inl inner)

theorem double_of_undouble {text value : List Char} (read : undouble text = some value) :
    double value = text := by
  fun_induction undouble text generalizing value with
  | case1 => cases read; rfl
  | case2 rest ih =>
    obtain ⟨inner, undoubled, rfl⟩ := Option.map_eq_some_iff.1 read
    rw [double, if_pos rfl, ih undoubled]
  | case3 rest _ => cases read
  | case4 c rest _ other ih =>
    obtain ⟨inner, undoubled, rfl⟩ := Option.map_eq_some_iff.1 read
    rw [double, if_neg other, ih undoubled]

theorem inside?_eq_some_iff {text inner : List Char} :
    inside? text = some inner ↔ text = '\'' :: (inner ++ ['\'']) := by
  constructor
  · intro found
    unfold inside? at found
    split at found
    · next rest =>
      split at found
      · next closed =>
        cases found
        obtain ⟨inner, rfl⟩ := List.getLast?_eq_some_iff.1 closed
        rw [List.dropLast_concat]
      · cases found
    · cases found
  · rintro rfl
    simp [inside?]

theorem encode_of_decode {text value : List Char} (read : decode text = .ok value) :
    encode value = text := by
  unfold decode at read
  split at read
  · cases read
  · next inner enclosed =>
    split at read
    · cases read
    · next undoubled =>
      cases read
      rw [encode, double_of_undouble undoubled, inside?_eq_some_iff.1 enclosed]

/-- A quote stands at each end, and these are two quotes. -/
def Enclosed (text : List Char) : Prop :=
  2 ≤ text.length ∧ text.head? = some '\'' ∧ text.getLast? = some '\''

/-- Quotes come in runs of even length, where a run goes on as long as there are quotes. -/
def EvenRuns (text : List Char) : Prop :=
  ∀ (front : List Char) (n : Nat) (back : List Char),
    text = front ++ List.replicate n '\'' ++ back →
    front.getLast? ≠ some '\'' → back.head? ≠ some '\'' → n % 2 = 0

theorem evenRuns_nil : EvenRuns [] := by
  intro front n back whole _ _
  have lengths := congrArg List.length whole
  simp only [List.length_nil, List.length_append, List.length_replicate] at lengths
  omega

theorem evenRuns_cons_iff {c : Char} {rest : List Char} (other : c ≠ '\'') :
    EvenRuns (c :: rest) ↔ EvenRuns rest := by
  constructor
  · intro even front n back whole unended unstarted
    refine even (c :: front) n back (by rw [whole]; rfl) ?_ unstarted
    cases front with
    | nil => simpa using other
    | cons d front => rwa [List.getLast?_cons_cons]
  · intro even front n back whole unended unstarted
    cases front with
    | nil =>
      cases n with
      | zero => rfl
      | succ n => exact absurd (List.cons.inj whole).1 other
    | cons d front =>
      refine even front n back (List.cons.inj whole).2 ?_ unstarted
      cases front with
      | nil => nofun
      | cons e front => rwa [List.getLast?_cons_cons] at unended

theorem evenRuns_pair_iff {rest : List Char} : EvenRuns ('\'' :: '\'' :: rest) ↔ EvenRuns rest := by
  constructor
  · intro even front n back whole unended unstarted
    cases front with
    | nil =>
      have longer := even [] (n + 2) back (by rw [whole]; rfl) nofun unstarted
      omega
    | cons d front =>
      refine even ('\'' :: '\'' :: d :: front) n back (by rw [whole]; rfl) ?_ unstarted
      rwa [List.getLast?_cons_cons, List.getLast?_cons_cons]
  · intro even front n back whole unended unstarted
    match front, n with
    | [], 0 => rfl
    | [], 1 =>
      obtain rfl : '\'' :: rest = back := (List.cons.inj whole).2
      exact absurd rfl unstarted
    | [], n + 2 =>
      have shorter := even [] n back (List.cons.inj (List.cons.inj whole).2).2 nofun unstarted
      omega
    | [d], _ =>
      obtain rfl : '\'' = d := (List.cons.inj whole).1
      exact absurd rfl unended
    | c :: d :: front, n =>
      obtain ⟨rfl, after⟩ := List.cons.inj (List.cons.inj whole).2
      refine even front n back after ?_ unstarted
      cases front with
      | nil => exact absurd rfl unended
      | cons e front => rwa [List.getLast?_cons_cons, List.getLast?_cons_cons] at unended

theorem isSome_undouble_iff {text : List Char} : (undouble text).isSome ↔ EvenRuns text := by
  fun_induction undouble text with
  | case1 => exact iff_of_true rfl evenRuns_nil
  | case2 rest ih => rw [Option.isSome_map, ih, evenRuns_pair_iff]
  | case3 rest alone =>
    refine iff_of_false nofun fun even => ?_
    have unstarted : rest.head? ≠ some '\'' := by
      intro started
      obtain ⟨more, rfl⟩ := List.head?_eq_some_iff.1 started
      exact alone more rfl rfl
    cases even [] 1 rest rfl nofun unstarted
  | case4 c rest _ other ih => rw [Option.isSome_map, ih, evenRuns_cons_iff other]

theorem enclosed_iff {text : List Char} :
    Enclosed text ↔ ∃ inner, text = '\'' :: (inner ++ ['\'']) := by
  constructor
  · rintro ⟨long, opened, closed⟩
    obtain ⟨rest, rfl⟩ := List.head?_eq_some_iff.1 opened
    have filled : rest ≠ [] := by
      rintro rfl
      simp at long
    rw [List.getLast?_cons_of_ne_nil filled] at closed
    obtain ⟨inner, rfl⟩ := List.getLast?_eq_some_iff.1 closed
    exact ⟨inner, rfl⟩
  · rintro ⟨inner, rfl⟩
    refine ⟨by simp, rfl, ?_⟩
    rw [← List.cons_append, List.getLast?_concat]

def inner (text : List Char) : List Char := text.tail.dropLast

theorem decode_of_not_enclosed {text : List Char} (enclosed : ¬ Enclosed text) :
    decode text = .error .notEnclosed := by
  have none : inside? text = none := by
    refine Option.eq_none_iff_forall_ne_some.2 fun inner found =>
      enclosed (enclosed_iff.2 ⟨inner, ?_⟩)
    exact inside?_eq_some_iff.1 found
  rw [decode, none]

theorem Enclosed.inside?_eq {text : List Char} (enclosed : Enclosed text) :
    inside? text = some (inner text) := by
  obtain ⟨between, rfl⟩ := enclosed_iff.1 enclosed
  have same : inner ('\'' :: (between ++ ['\''])) = between := List.dropLast_concat
  rw [same, inside?_eq_some_iff.2 rfl]

theorem Enclosed.decode_of_odd {text : List Char} (enclosed : Enclosed text)
    (odd : ¬ EvenRuns (inner text)) :
    decode text = .error .loneQuote := by
  have unread : undouble (inner text) = none := by
    rwa [← isSome_undouble_iff, Option.not_isSome_iff_eq_none] at odd
  simp only [decode, enclosed.inside?_eq, unread]

theorem Enclosed.exists_decode {text : List Char} (enclosed : Enclosed text)
    (even : EvenRuns (inner text)) :
    ∃ value, decode text = .ok value := by
  obtain ⟨value, read⟩ := Option.isSome_iff_exists.1 (isSome_undouble_iff.2 even)
  exact ⟨value, by simp only [decode, enclosed.inside?_eq, read]⟩

end StringStack.Text.Quoted
