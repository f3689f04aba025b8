import StringStack.Proofs.Program.Loading

/-! What is reported of lines that do not load. A line spoils the program if it is no statement, or
if it defines a label again; a jump dangles if no line defines its label. The first line that spoils
the program is reported. Only if there is none it is the first jump that dangles, wherever that
stands. Lines are counted in the whole text, and labels by the instructions before them. -/
namespace StringStack

theorem getElem?_append_cons {α : Type} (front : List α) (x : α) (back : List α) :
    (front ++ x :: back)[front.length]? = some x := by
  rw [List.getElem?_append_right (Nat.le_refl _), Nat.sub_self, List.getElem?_cons_zero]

theorem eq_of_earliest {P : Nat → Prop} {m n : Nat} (hm : P m) (beforeM : ∀ k, k < m → ¬ P k)
    (hn : P n) (beforeN : ∀ k, k < n → ¬ P k) : m = n := by
  have notLater : ¬ n < m := fun less => beforeM n less hn
  have notSooner : ¬ m < n := fun less => beforeN m less hm
  omega

theorem LabelTable.insert_eq_error_iff {table : LabelTable} {name : String} {index existing : Nat} :
    table.insert name index = .error existing ↔ table.get? name = some existing := by
  unfold insert get?
  split
  · next found => rw [found, Except.error.injEq, Option.some.injEq]
  · next fresh => simp [fresh]

namespace Program

/-- The line at this place of the whole text is no comment and reads as this statement. -/
def StatesAt (lines : List String) (n : Nat) (s : Statement) : Prop :=
  ∃ line, lines[n]? = some line ∧ isComment line = false ∧ Statement.parse line = .ok s

def instructionIndex (lines : List String) (n : Nat) : Nat := (codeLines (lines.take n)).length

/-- What is wrong with a line, in view of those before it. -/
inductive Spoils (lines : List String) (n : Nat) : LoadError → Prop where
  | badLine {line : String} {cause : SyntaxError} : lines[n]? = some line → isComment line = false →
      Statement.parse line = .error cause → Spoils lines n (.badLine (n + 1) cause)
  | duplicateLabel {name : String} {first : Nat} : StatesAt lines n (.label name) → first < n →
      StatesAt lines first (.label name) → (∀ m, m < first → ¬ StatesAt lines m (.label name)) →
        Spoils lines n (.duplicateLabel (n + 1) name (instructionIndex lines first))

/-- What is wrong with a jump, in view of all lines. -/
inductive Dangles (lines : List String) (n : Nat) : LoadError → Prop where
  | undefinedLabel {name : String} :
      StatesAt lines n (.jumpTo name) → (∀ m, ¬ StatesAt lines m (.label name)) →
      Dangles lines n (.undefinedLabel (n + 1) name)

def FirstProblem (problem : Nat → LoadError → Prop) (e : LoadError) : Prop :=
  ∃ n, problem n e ∧ ∀ m, m < n → ∀ other, ¬ problem m other

theorem FirstProblem.unique {problem : Nat → LoadError → Prop} {a b : LoadError}
    (same : ∀ n a b, problem n a → problem n b → a = b) (ha : FirstProblem problem a)
    (hb : FirstProblem problem b) : a = b := by
  obtain ⟨n, hn, beforeN⟩ := ha
  obtain ⟨m, hm, beforeM⟩ := hb
  have noneN (k : Nat) (less : k < n) : ¬ ∃ e, problem k e := not_exists.2 (beforeN k less)
  have noneM (k : Nat) (less : k < m) : ¬ ∃ e, problem k e := not_exists.2 (beforeM k less)
  obtain rfl : n = m := eq_of_earliest ⟨a, hn⟩ noneN ⟨b, hm⟩ noneM
  exact same n a b hn hm

section Places

variable {lines front : List String} {s : Statement} {n m : Nat}

theorem codeLines_append (front rest : List String) :
    codeLines (front ++ rest) = codeLines front ++ codeLines rest := List.filter_append ..

theorem codeLines_cons_of_code {line : String} (code : isComment line = false)
    (rest : List String) :
    codeLines (line :: rest) = line :: codeLines rest := List.filter_cons_of_pos (by rw [code]; rfl)

theorem codeLines_cons_of_comment {line : String} (comment : isComment line = true)
    (rest : List String) :
    codeLines (line :: rest) = codeLines rest := List.filter_cons_of_neg (by rw [comment]; simp)

theorem getElem?_codeLines {line : String} (there : lines[n]? = some line)
    (code : isComment line = false) :
    (codeLines lines)[instructionIndex lines n]? = some line := by
  obtain ⟨inside, rfl⟩ := List.getElem?_eq_some_iff.1 there
  have parts :
      codeLines lines = codeLines (lines.take n) ++ lines[n] :: codeLines (lines.drop (n + 1)) := by
    rw [← codeLines_cons_of_code code, ← codeLines_append, List.getElem_cons_drop,
      List.take_append_drop]
  rw [parts, instructionIndex, getElem?_append_cons]

theorem exists_place_of_getElem?_codeLines {i : Nat} {line : String}
    (there : (codeLines lines)[i]? = some line) :
    ∃ n, lines[n]? = some line ∧ isComment line = false ∧ instructionIndex lines n = i := by
  induction lines generalizing i with
  | nil => cases there
  | cons first rest ih =>
    cases comment : isComment first with
    | true =>
      -- A comment takes a place among the lines, but no index.
      rw [codeLines_cons_of_comment comment] at there
      obtain ⟨n, at_n, code, index⟩ := ih there
      refine ⟨n + 1, at_n, code, ?_⟩
      rw [instructionIndex, List.take_succ_cons, codeLines_cons_of_comment comment]
      exact index
    | false =>
      rw [codeLines_cons_of_code comment] at there
      cases i with
      | zero =>
        cases there
        exact ⟨0, rfl, comment, rfl⟩
      | succ i =>
        obtain ⟨n, at_n, code, index⟩ := ih there
        refine ⟨n + 1, at_n, code, ?_⟩
        rw [instructionIndex, List.take_succ_cons, codeLines_cons_of_code comment, List.length_cons]
        exact congrArg (· + 1) index

theorem StatesAt.readsAt (states : StatesAt lines n s) :
    ReadsAt lines (instructionIndex lines n) s := by
  obtain ⟨line, there, code, read⟩ := states
  exact ⟨line, getElem?_codeLines there code, read⟩

theorem exists_statesAt_of_readsAt {i : Nat} (reads : ReadsAt lines i s) :
    ∃ n, StatesAt lines n s ∧ instructionIndex lines n = i := by
  obtain ⟨line, there, read⟩ := reads
  obtain ⟨n, at_n, code, index⟩ := exists_place_of_getElem?_codeLines there
  exact ⟨n, ⟨line, at_n, code, read⟩, index⟩

theorem StatesAt.unique {t : Statement} (hs : StatesAt lines n s) (ht : StatesAt lines n t) :
    s = t := by
  obtain ⟨line, there, -, read⟩ := hs
  obtain ⟨line', there', -, read'⟩ := ht
  cases there.symm.trans there'
  exact Except.ok.inj (read.symm.trans read')

theorem StatesAt.lt_length (states : StatesAt lines n s) : n < lines.length := by
  obtain ⟨line, there, -, -⟩ := states
  exact (List.getElem?_eq_some_iff.1 there).1

theorem statesAt_append_iff (inside : n < front.length) (rest : List String) :
    StatesAt (front ++ rest) n s ↔ StatesAt front n s := by
  rw [StatesAt, StatesAt, List.getElem?_append_left inside]

theorem instructionIndex_append (within : n ≤ front.length) (rest : List String) :
    instructionIndex (front ++ rest) n = instructionIndex front n := by
  rw [instructionIndex, List.take_append_of_le_length within, instructionIndex]

theorem StatesAt.index_lt (states : StatesAt lines m s) (sooner : m < n) :
    instructionIndex lines m < instructionIndex lines n := by
  obtain ⟨line, there, code, -⟩ := states
  have kept : (lines.take n)[m]? = some line := by rwa [List.getElem?_take_of_lt sooner]
  have found := getElem?_codeLines kept code
  rw [instructionIndex, List.take_take, Nat.min_eq_left (Nat.le_of_lt sooner)] at found
  exact (List.getElem?_eq_some_iff.1 found).1

end Places

theorem Spoils.append {front : List String} {n : Nat} {e : LoadError} {rest : List String}
    (inside : n < front.length) (spoils : Spoils (front ++ rest) n e) : Spoils front n e := by
  cases spoils with
  | badLine there code broken =>
    rw [List.getElem?_append_left inside] at there
    exact .badLine there code broken
  | @duplicateLabel name first states sooner earlier none =>
    have within : first < front.length := Nat.lt_trans sooner inside
    rw [instructionIndex_append (Nat.le_of_lt within)]
    refine .duplicateLabel ((statesAt_append_iff inside rest).1 states) sooner
      ((statesAt_append_iff within rest).1 earlier) fun m less states => none m less ?_
    exact (statesAt_append_iff (Nat.lt_trans less within) rest).2 states

theorem Spoils.unique {lines : List String} {n : Nat} {a b : LoadError} (ha : Spoils lines n a)
    (hb : Spoils lines n b) : a = b := by
  cases ha with
  | badLine there _ broken =>
    cases hb with
    | badLine there' _ broken' =>
      cases there.symm.trans there'
      rw [Except.error.inj (broken.symm.trans broken')]
    | duplicateLabel states _ _ _ =>
      obtain ⟨line, there', -, read⟩ := states
      cases there.symm.trans there'
      cases broken.symm.trans read
  | @duplicateLabel name first states _ earlier none =>
    cases hb with
    | badLine there' _ broken =>
      obtain ⟨line, there, -, read⟩ := states
      cases there.symm.trans there'
      cases broken.symm.trans read
    | @duplicateLabel name' first' states' _ earlier' none' =>
      cases states.unique states'
      rw [eq_of_earliest earlier none earlier' none']

theorem Dangles.unique {lines : List String} {n : Nat} {a b : LoadError} (ha : Dangles lines n a)
    (hb : Dangles lines n b) : a = b := by
  cases ha with
  | undefinedLabel states _ =>
    cases hb with
    | undefinedLabel states' _ =>
      cases states.unique states'
      rfl

theorem exists_of_numbered_eq {lines : List String} {before after : List (String × Nat)}
    {line : String} {number : Nat} (split : numbered lines = before ++ (line, number) :: after) :
    ∃ front back, lines = front ++ line :: back ∧ isComment line = false ∧
    number = front.length + 1 ∧
      before = numbered front := by
  obtain ⟨early, late, whole, rfl, here⟩ := List.filter_eq_append_iff.1 split
  obtain ⟨comments, rest, rfl, silent, code, -⟩ := List.filter_eq_cons_iff.1 here
  rw [← List.append_assoc] at whole
  obtain ⟨front, tail, rfl, passed, more⟩ := List.zipIdx_eq_append_iff.1 whole
  obtain ⟨_, back, rfl, place, -⟩ := List.zipIdx_eq_cons_iff.1 more.symm
  cases place
  refine ⟨front, back, rfl, by simpa using code, Nat.add_comm _ _, ?_⟩
  rw [numbered, ← passed, List.filter_append, List.filter_eq_nil_iff.2 silent, List.append_nil]

theorem mem_numbered {lines : List String} {n : Nat} {line : String} (there : lines[n]? = some line)
    (code : isComment line = false) : (line, n + 1) ∈ numbered lines := by
  refine List.mem_filter.2 ⟨?_, by rw [code]; rfl⟩
  exact List.mk_mem_zipIdx_iff_le_and_getElem?_sub.2 ⟨Nat.le_add_left 1 n, there⟩

namespace Draft

theorem add_eq_error {draft : Draft} {line : String} {number : Nat} {e : LoadError}
    (failed : draft.add (line, number) = .error e) :
    (∃ cause, Statement.parse line = .error cause ∧ e = .badLine number cause) ∨
      ∃ name existing, Statement.parse line = .ok (.label name) ∧
      draft.labels.get? name = some existing ∧
        e = .duplicateLabel number name existing := by
  unfold add at failed
  split at failed
  · next cause broken =>
    cases failed
    exact .inl ⟨cause, broken, rfl⟩
  · next name read =>
    split at failed
    · next existing taken =>
      cases failed
      exact .inr ⟨name, existing, read, LabelTable.insert_eq_error_iff.1 taken, rfl⟩
    · cases failed
  · cases failed

def read (entry : String × Nat) : Except LoadError (Statement × Nat) :=
  ((Statement.parse entry.1).mapError (.badLine entry.2)).map (·, entry.2)

theorem read_of_parse {line : String} {s : Statement} (parsed : Statement.parse line = .ok s)
    (number : Nat) :
    read (line, number) = .ok (s, number) := by
  rw [read, parsed]
  rfl

theorem add_statements {draft added : Draft} {entry : String × Nat}
    (h : draft.add entry = .ok added) :
    ∃ s, read entry = .ok s ∧ added.statements = draft.statements.push s := by
  unfold add at h
  split at h
  · cases h
  · next name parsed =>
    split at h
    · cases h
    · cases h
      exact ⟨_, read_of_parse parsed entry.2, rfl⟩
  · next s _ parsed =>
    cases h
    exact ⟨_, read_of_parse parsed entry.2, rfl⟩

theorem foldlM_add_statements {entries : List (String × Nat)} {draft final : Draft}
    (h : entries.foldlM Draft.add draft = .ok final) :
    ∃ statements, entries.mapM read = .ok statements ∧
      final.statements.toList = draft.statements.toList ++ statements := by
  induction entries generalizing draft with
  | nil =>
    cases h
    exact ⟨[], rfl, (List.append_nil _).symm⟩
  | cons entry entries ih =>
    rw [List.foldlM_cons] at h
    obtain ⟨next, added, rest⟩ := bind_eq_ok_iff.1 h
    obtain ⟨s, first, grown⟩ := add_statements added
    obtain ⟨statements, others, whole⟩ := ih rest
    refine ⟨s :: statements, mapM_cons_eq_ok_iff.2 ⟨s, statements, first, others, rfl⟩, ?_⟩
    rw [whole, grown, Array.toList_push, List.append_assoc, List.singleton_append]

theorem finish_eq_error {draft : Draft} {e : LoadError} (failed : draft.finish = .error e) :
    draft.statements.toList.mapM (resolve draft.labels) = .error e := by
  unfold finish at failed
  rw [Array.mapM_eq_mapM_toList] at failed
  cases resolved : draft.statements.toList.mapM (resolve draft.labels) with
  | error e' =>
    rw [resolved] at failed
    cases failed
    rfl
  | ok instructions =>
    rw [resolved] at failed
    cases failed

theorem resolve_eq_error {labels : LabelTable} {s : Statement} {number : Nat} {e : LoadError}
    (failed : resolve labels (s, number) = .error e) :
    ∃ name, s = .jumpTo name ∧ labels.get? name = none ∧ e = .undefinedLabel number name := by
  unfold resolve at failed
  split at failed
  · cases failed
  · cases failed
  · next name named =>
    split at failed
    · cases failed
    · next absent =>
      cases failed
      exact ⟨name, named, absent, rfl⟩

end Draft

def Drafts (lines : List String) (draft : Draft) : Prop :=
  (numbered lines).foldlM Draft.add .empty = .ok draft

section Passes

variable {lines front : List String} {draft : Draft} {e : LoadError}

theorem Drafts.exists_statements (drafts : Drafts lines draft) :
    ∃ statements, (codeLines lines).mapM Statement.parse = .ok statements ∧
    Records statements draft.labels := by
  obtain ⟨records, statements, parsed, whole⟩ := Draft.foldlM_add_eq_ok Draft.records_empty drafts
  rw [map_fst_numbered] at parsed
  obtain rfl : draft.statementList = statements := whole
  exact ⟨_, parsed, records⟩

theorem Drafts.get?_eq_some_iff (drafts : Drafts lines draft) {name : String} {i : Nat} :
    draft.labels.get? name = some i ↔ ReadsAt lines i (.label name) := by
  obtain ⟨statements, parsed, records⟩ := drafts.exists_statements
  exact (records name i).trans (readsAt_iff parsed).symm

theorem Drafts.label_unique (drafts : Drafts lines draft) {name : String} {m n : Nat}
    (first : StatesAt lines m (.label name)) (again : StatesAt lines n (.label name)) : m = n := by
  have same :=
    (drafts.get?_eq_some_iff.2 first.readsAt).symm.trans (drafts.get?_eq_some_iff.2 again.readsAt)
  have same : instructionIndex lines m = instructionIndex lines n := Option.some.inj same
  have notSooner : ¬ m < n := fun less => Nat.ne_of_lt (first.index_lt less) same
  have notLater : ¬ n < m := fun less => Nat.ne_of_gt (again.index_lt less) same
  omega

theorem Drafts.exists_parse (drafts : Drafts lines draft) {n : Nat} {line : String}
    (there : lines[n]? = some line) (code : isComment line = false) :
    ∃ s, Statement.parse line = .ok s := by
  obtain ⟨statements, parsed, -⟩ := drafts.exists_statements
  obtain ⟨s, -, read⟩ := (mapM_eq_ok_iff.1 parsed).2 _ _ (getElem?_codeLines there code)
  exact ⟨s, read⟩

theorem Drafts.not_spoils (drafts : Drafts lines draft) (n : Nat) (e : LoadError) :
    ¬ Spoils lines n e := by
  rintro (⟨there, code, broken⟩ | ⟨states, sooner, earlier, -⟩)
  · obtain ⟨s, read⟩ := drafts.exists_parse there code
    cases broken.symm.trans read
  · exact Nat.ne_of_lt sooner (drafts.label_unique earlier states)

theorem Drafts.spoils_of_add {line : String} (drafts : Drafts front draft)
    (code : isComment line = false) (failed : draft.add (line, front.length + 1) = .error e)
    (back : List String) :
    Spoils (front ++ line :: back) front.length e := by
  have there := getElem?_append_cons front line back
  rcases Draft.add_eq_error failed with ⟨cause, broken, rfl⟩ | ⟨name, existing, read, taken, rfl⟩
  · exact .badLine there code broken
  · obtain ⟨first, states, rfl⟩ := exists_statesAt_of_readsAt (drafts.get?_eq_some_iff.1 taken)
    have sooner : first < front.length := states.lt_length
    rw [← instructionIndex_append (Nat.le_of_lt sooner) (line :: back)]
    refine .duplicateLabel ⟨line, there, code, read⟩ sooner
      ((statesAt_append_iff sooner _).2 states) ?_
    intro m less again
    exact Nat.ne_of_lt less
      (drafts.label_unique ((statesAt_append_iff (Nat.lt_trans less sooner) _).1 again) states)

theorem firstProblem_spoils (failed : (numbered lines).foldlM Draft.add .empty = .error e) :
    FirstProblem (Spoils lines) e := by
  obtain ⟨before, ⟨line, number⟩, after, draft, split, drafts, broken⟩ :=
    exists_of_foldlM_eq_error failed
  obtain ⟨front, back, rfl, code, rfl, rfl⟩ := exists_of_numbered_eq split
  have drafts : Drafts front draft := drafts
  -- What spoils an earlier line does so in view of the lines before it, and these have gone through
  -- the pass.
  exact ⟨front.length, drafts.spoils_of_add code broken back,
    fun m sooner other spoils => drafts.not_spoils m other (spoils.append sooner)⟩

theorem Drafts.firstProblem_dangles (drafts : Drafts lines draft)
    (failed : draft.finish = .error e) :
    FirstProblem (Dangles lines) e := by
  obtain ⟨statements, read, whole⟩ := Draft.foldlM_add_statements drafts
  have whole : draft.statements.toList = statements := whole
  have unresolved := Draft.finish_eq_error failed
  rw [whole, mapM_of_mapM_eq_ok read] at unresolved
  obtain ⟨before, ⟨line, number⟩, after, split, fine, broken⟩ := exists_of_mapM_eq_error unresolved
  obtain ⟨front, back, rfl, code, rfl, rfl⟩ := exists_of_numbered_eq split
  have there := getElem?_append_cons front line back
  obtain ⟨s, parsed⟩ := drafts.exists_parse there code
  rw [Draft.read_of_parse parsed] at broken
  obtain ⟨name, rfl, absent, rfl⟩ := Draft.resolve_eq_error broken
  refine ⟨front.length, .undefinedLabel ⟨line, there, code, parsed⟩ fun m states => ?_, ?_⟩
  · cases absent.symm.trans (drafts.get?_eq_some_iff.2 states.readsAt)
  · -- The second pass has resolved the jumps before this one, so their labels are defined.
    rintro m sooner _ ⟨states, nowhere⟩
    obtain ⟨earlier, at_m, code', parsed'⟩ := (statesAt_append_iff sooner _).1 states
    obtain ⟨i, resolved⟩ := fine _ (mem_numbered at_m code')
    rw [Draft.read_of_parse parsed'] at resolved
    have resolved : Draft.resolve draft.labels (.jumpTo _, m + 1) = .ok i := resolved
    cases Draft.resolve_eq_ok_iff.1 resolved with
    | jumpTo found =>
      obtain ⟨k, label, -⟩ := exists_statesAt_of_readsAt (drafts.get?_eq_some_iff.1 found)
      exact nowhere k label

end Passes

/-- The first line that spoils the program, or else the first jump that dangles. -/
def Reported (lines : List String) (e : LoadError) : Prop :=
  FirstProblem (Spoils lines) e ∨
    (∀ n other, ¬ Spoils lines n other) ∧ FirstProblem (Dangles lines) e

section Reports

variable {lines : List String} {e : LoadError}

theorem Reported.unique {other : LoadError} (he : Reported lines e) (ho : Reported lines other) :
    e = other := by
  have spoils n a b (ha : Spoils lines n a) (hb : Spoils lines n b) : a = b := ha.unique hb
  have dangles n a b (ha : Dangles lines n a) (hb : Dangles lines n b) : a = b := ha.unique hb
  rcases he with first | ⟨none, first⟩
  · rcases ho with first' | ⟨none, -⟩
    · exact first.unique spoils first'
    · obtain ⟨n, spoiled, -⟩ := first
      exact absurd spoiled (none n e)
  · rcases ho with ⟨n, spoiled, -⟩ | ⟨-, first'⟩
    · exact absurd spoiled (none n other)
    · exact first.unique dangles first'

theorem reported_of_load (failed : load lines = .error e) : Reported lines e := by
  rcases bind_eq_error_iff.1 failed with first | ⟨draft, drafts, second⟩
  · exact .inl (firstProblem_spoils first)
  · have drafts : Drafts lines draft := drafts
    exact .inr ⟨drafts.not_spoils, drafts.firstProblem_dangles second⟩

theorem not_reported_of_load {p : Program} (loaded : load lines = .ok p) : ¬ Reported lines e := by
  obtain ⟨draft, drafts, -⟩ := bind_eq_ok_iff.1 loaded
  have drafts : Drafts lines draft := drafts
  obtain ⟨statements, parsed, means⟩ := means_of_load loaded
  rintro (⟨n, spoiled, -⟩ | ⟨-, n, dangles, -⟩)
  · exact drafts.not_spoils n e spoiled
  · obtain ⟨states, nowhere⟩ := dangles
    obtain ⟨j, defined⟩ := means.jumpsDefined _ _ ((readsAt_iff parsed).1 states.readsAt)
    obtain ⟨m, label, -⟩ := exists_statesAt_of_readsAt ((readsAt_iff parsed).2 defined)
    exact nowhere m label

end Reports

/-- Lines that do not load are refused for the first line that is no statement or defines a label
again, be it after a jump that has no label; if there is no such line, for the first jump whose
label no line defines. The error has the number of that line in the whole text, and with a label the
instruction that has it already. -/
theorem load_eq_error_iff (lines : List String) (e : LoadError) :
    load lines = .error e ↔ Reported lines e := by
  refine ⟨reported_of_load, fun reported => ?_⟩
  cases loaded : load lines with
  | ok p => exact absurd reported (not_reported_of_load loaded)
  | error other => rw [(reported_of_load loaded).unique reported]

example : load ["JMP nowhere", " a comment", "POP", "LABEL a", "", "LABEL a"] =
    .error (.duplicateLabel 6 "a" 2) := by
  rfl

end Program
end StringStack
