import StringStack.Program.Loading
import StringStack.Proofs.FirstError
import StringStack.Proofs.Program.Labels

/-! What a loaded program is. The lines that are no comments read as statements, one instruction
each; the label table records the places of the labels among them, and a jump to a name stands for
the place of its label. A program is loaded exactly when it stands in this relation to its
statements. -/
namespace StringStack

theorem getElem?_concat_eq_some_iff {α : Type} {xs : List α} {x y : α} {i : Nat} :
    (xs ++ [x])[i]? = some y ↔ xs[i]? = some y ∨ i = xs.length ∧ x = y := by
  rcases Nat.lt_trichotomy i xs.length with old | rfl | beyond
  · simp [List.getElem?_append_left old, Nat.ne_of_lt old]
  · simp
  · rw [List.getElem?_eq_none (by rw [List.length_append]; exact beyond),
      List.getElem?_eq_none (Nat.le_of_lt beyond)]
    simp [Nat.ne_of_gt beyond]

namespace Program

/-- The lines that are no comments. -/
def codeLines (lines : List String) : List String := lines.filter fun line => !isComment line

theorem map_fst_numbered (lines : List String) :
    (numbered lines).map Prod.fst = codeLines lines := by
  have filtered :=
    List.filter_map (f := Prod.fst) (p := fun line => !isComment line) (l := lines.zipIdx 1)
  rw [List.zipIdx_map_fst] at filtered
  exact filtered.symm

/-- The table has the names of the labels among the statements, each with its place. -/
def Records (statements : List Statement) (labels : LabelTable) : Prop :=
  ∀ name i, labels.get? name = some i ↔ statements[i]? = some (.label name)

def DistinctLabels (statements : List Statement) : Prop :=
  ∀ (i j : Nat) (name : String), statements[i]? = some (.label name) →
    statements[j]? = some (.label name) → i = j

inductive Resolves (labels : LabelTable) : Statement → Instruction → Prop where
  | instruction (i : Instruction) : Resolves labels (.instruction i) i
  | label (name : String) : Resolves labels (.label name) .mark
  | jumpTo {name : String} {target : Nat} :
      labels.get? name = some target → Resolves labels (.jumpTo name) (.jump target)

structure Means (statements : List Statement) (p : Program) : Prop where
  size : statements.length = p.instructions.size
  labels : Records statements p.labels
  resolves : ∀ (i : Nat) (s : Statement), statements[i]? = some s →
    ∃ instr, p.instructions[i]? = some instr ∧ Resolves p.labels s instr

theorem Records.distinct {statements : List Statement} {labels : LabelTable}
    (records : Records statements labels) : DistinctLabels statements := by
  intro i j name at_i at_j
  have same := ((records name i).2 at_i).symm.trans ((records name j).2 at_j)
  exact Option.some.inj same

theorem Records.add_label {statements : List Statement} {labels added : LabelTable} {name : String}
    (records : Records statements labels)
    (inserted : labels.insert name statements.length = .ok added) :
    Records (statements ++ [.label name]) added := by
  obtain ⟨fresh, lookups⟩ := LabelTable.insert_eq_ok_iff.1 inserted
  intro other i
  rw [lookups, getElem?_concat_eq_some_iff, ← records other i]
  by_cases same : other = name
  · simp [same, fresh, eq_comm]
  · simp [same, Ne.symm same]

theorem Records.add_other {statements : List Statement} {labels : LabelTable} {s : Statement}
    (records : Records statements labels) (other : ∀ name, s ≠ .label name) :
    Records (statements ++ [s]) labels := by
  intro name i
  rw [getElem?_concat_eq_some_iff, records name i]
  simp [other name]

namespace Draft

def statementList (draft : Draft) : List Statement := draft.statements.toList.map Prod.fst

theorem add_eq_ok {draft added : Draft} {line : String} {number : Nat}
    (h : draft.add (line, number) = .ok added) :
    ∃ s, Statement.parse line = .ok s ∧ added.statementList = draft.statementList ++ [s] ∧
      ((∃ name, s = .label name ∧
          draft.labels.insert name draft.statementList.length = .ok added.labels) ∨
        (∀ name, s ≠ .label name) ∧ added.labels = draft.labels) := by
  unfold add at h
  split at h
  · cases h
  · next name parsed =>
    split at h
    · cases h
    · next labels inserted =>
      cases h
      refine ⟨.label name, parsed, by simp [statementList], .inl ⟨name, rfl, ?_⟩⟩
      simpa [statementList] using inserted
  · next s noLabel parsed =>
    cases h
    exact ⟨s, parsed, by simp [statementList], .inr ⟨fun name same => noLabel name same, rfl⟩⟩

theorem add_records {draft added : Draft} {entry : String × Nat}
    (records : Records draft.statementList draft.labels) (h : draft.add entry = .ok added) :
    Records added.statementList added.labels := by
  obtain ⟨s, -, statements, ⟨name, rfl, inserted⟩ | ⟨other, labels⟩⟩ := add_eq_ok h
  · rw [statements]
    exact records.add_label inserted
  · rw [statements, labels]
    exact records.add_other other

theorem foldlM_add_eq_ok {entries : List (String × Nat)} {draft final : Draft}
    (records : Records draft.statementList draft.labels)
    (h : entries.foldlM Draft.add draft = .ok final) :
    Records final.statementList final.labels ∧
      ∃ statements, (entries.map Prod.fst).mapM Statement.parse = .ok statements ∧
        final.statementList = draft.statementList ++ statements := by
  -- By induction on the lines, from any draft that is already right.
  induction entries generalizing draft with
  | nil =>
    cases h
    exact ⟨records, [], rfl, by simp⟩
  | cons entry entries ih =>
    rw [List.foldlM_cons] at h
    obtain ⟨next, added, rest⟩ := bind_eq_ok_iff.1 h
    obtain ⟨s, parsed, grown, -⟩ := add_eq_ok added
    obtain ⟨final_records, statements, read, whole⟩ := ih (add_records records added) rest
    have read_all := mapM_cons_eq_ok_iff.2 ⟨s, statements, parsed, read, rfl⟩
    exact ⟨final_records, s :: statements, read_all, by simp [whole, grown]⟩

theorem exists_add {draft : Draft} {entry : String × Nat} {s : Statement}
    (parsed : Statement.parse entry.1 = .ok s)
    (fresh : ∀ name, s = .label name → draft.labels.get? name = none) :
    ∃ added, draft.add entry = .ok added := by
  unfold add
  cases s with
  | label name =>
    obtain ⟨labels, inserted⟩ := LabelTable.exists_insert draft.statements.size (fresh name rfl)
    simp [parsed, inserted]
  | instruction i => simp [parsed]
  | jumpTo name => simp [parsed]

theorem exists_foldlM_add {entries : List (String × Nat)} {draft : Draft}
    {statements : List Statement} (records : Records draft.statementList draft.labels)
    (read : (entries.map Prod.fst).mapM Statement.parse = .ok statements)
    (distinct : DistinctLabels (draft.statementList ++ statements)) :
    ∃ final, entries.foldlM Draft.add draft = .ok final := by
  induction entries generalizing draft statements with
  | nil => exact ⟨draft, rfl⟩
  | cons entry entries ih =>
    obtain ⟨s, rest, parsed, others, rfl⟩ := mapM_cons_eq_ok_iff.1 read
    have fresh : ∀ name, s = .label name → draft.labels.get? name = none := by
      rintro name rfl
      cases taken : draft.labels.get? name with
      | none => rfl
      | some i =>
        have earlier := (records name i).1 taken
        have inside := (List.getElem?_eq_some_iff.1 earlier).1
        have again := distinct i draft.statementList.length name
          (by rw [List.getElem?_append_left inside, earlier]) (by simp)
        omega
    obtain ⟨next, added⟩ := exists_add parsed fresh
    obtain ⟨s', parsed', grown, -⟩ := add_eq_ok added
    cases parsed.symm.trans parsed'
    obtain ⟨final, ran⟩ := ih (add_records records added) others (by simpa [grown] using distinct)
    refine ⟨final, ?_⟩
    rw [List.foldlM_cons, added]
    exact ran

theorem resolve_eq_ok_iff {labels : LabelTable} {s : Statement} {number : Nat} {i : Instruction} :
    resolve labels (s, number) = .ok i ↔ Resolves labels s i := by
  cases s with
  | instruction j =>
    simp only [resolve, Except.ok.injEq]
    exact ⟨fun same => same ▸ .instruction j, fun h => by cases h; rfl⟩
  | label name =>
    simp only [resolve, Except.ok.injEq]
    exact ⟨fun same => same ▸ .label name, fun h => by cases h; rfl⟩
  | jumpTo name =>
    simp only [resolve]
    constructor
    · intro h
      split at h
      · next target found => exact Except.ok.inj h ▸ .jumpTo found
      · cases h
    · rintro ⟨⟩
      next target found => rw [found]

theorem finish_eq_ok_iff_mapM {draft : Draft} {p : Program} :
    draft.finish = .ok p ↔ p.labels = draft.labels ∧
      draft.statements.toList.mapM (resolve draft.labels) = .ok p.instructions.toList := by
  unfold finish
  rw [Array.mapM_eq_mapM_toList]
  cases draft.statements.toList.mapM (resolve draft.labels) with
  | error e => simp [Functor.map, Except.map]
  | ok instructions =>
    simp only [Functor.map, Except.map, Except.ok.injEq]
    constructor
    · rintro rfl
      exact ⟨rfl, rfl⟩
    · rintro ⟨labels, rfl⟩
      rw [Array.toArray_toList, ← labels]

theorem finish_eq_ok_iff {draft : Draft} {p : Program} :
    draft.finish = .ok p ↔ p.labels = draft.labels ∧
      draft.statementList.length = p.instructions.size ∧
      ∀ (i : Nat) (s : Statement), draft.statementList[i]? = some s →
        ∃ instr, p.instructions[i]? = some instr ∧ Resolves p.labels s instr := by
  rw [finish_eq_ok_iff_mapM, mapM_eq_ok_iff]
  refine and_congr_right fun labels => and_congr (by simp [statementList]) ?_
  simp only [statementList, List.getElem?_map, Option.map_eq_some_iff, Array.getElem?_toList,
    labels]
  constructor
  · rintro each i s ⟨⟨s, number⟩, at_i, rfl⟩
    obtain ⟨instr, there, resolved⟩ := each i _ at_i
    exact ⟨instr, there, resolve_eq_ok_iff.1 resolved⟩
  · rintro each i ⟨s, number⟩ at_i
    obtain ⟨instr, there, resolved⟩ := each i s ⟨_, at_i, rfl⟩
    exact ⟨instr, there, resolve_eq_ok_iff.2 resolved⟩

end Draft

theorem Resolves.unique {labels : LabelTable} {s : Statement} {i j : Instruction}
    (hi : Resolves labels s i) (hj : Resolves labels s j) : i = j := by
  cases hi with
  | instruction i => cases hj; rfl
  | label name => cases hj; rfl
  | jumpTo found =>
    cases hj with
    | jumpTo found' => rw [Option.some.inj (found.symm.trans found')]

theorem Records.unique {statements : List Statement} {a b : LabelTable}
    (ha : Records statements a) (hb : Records statements b) : a = b := by
  refine LabelTable.ext_get? fun name => ?_
  ext i
  rw [ha name i, hb name i]

theorem Means.unique {statements : List Statement} {p q : Program} (hp : Means statements p)
    (hq : Means statements q) : p = q := by
  have labels := hp.labels.unique hq.labels
  have instructions : p.instructions = q.instructions := by
    refine Array.ext (hp.size.symm.trans hq.size) fun i inside inside' => ?_
    have listed : i < statements.length := hp.size ▸ inside
    obtain ⟨a, ha, ra⟩ := hp.resolves i _ (List.getElem?_eq_getElem listed)
    obtain ⟨b, hb, rb⟩ := hq.resolves i _ (List.getElem?_eq_getElem listed)
    rw [(Array.getElem?_eq_some_iff.1 ha).2, (Array.getElem?_eq_some_iff.1 hb).2]
    exact ra.unique (labels ▸ rb)
  cases p
  cases q
  simp only at labels instructions
  subst labels
  subst instructions
  rfl

/-- Every jump to a name in the statements has its label, before it or after it. -/
def JumpsDefined (statements : List Statement) : Prop :=
  ∀ (i : Nat) (name : String), statements[i]? = some (.jumpTo name) →
    ∃ j : Nat, statements[j]? = some (.label name)

theorem Means.jumpsDefined {statements : List Statement} {p : Program}
    (means : Means statements p) :
    JumpsDefined statements := by
  intro i name at_i
  obtain ⟨instr, -, resolved⟩ := means.resolves i _ at_i
  cases resolved with
  | jumpTo found => exact ⟨_, (means.labels name _).1 found⟩

theorem Records.exists_resolves {statements : List Statement} {labels : LabelTable}
    (records : Records statements labels) (defined : JumpsDefined statements) (i : Nat)
    (s : Statement) (at_i : statements[i]? = some s) : ∃ instr, Resolves labels s instr := by
  cases s with
  | instruction instr => exact ⟨instr, .instruction instr⟩
  | label name => exact ⟨.mark, .label name⟩
  | jumpTo name =>
    obtain ⟨j, at_j⟩ := defined i name at_i
    exact ⟨.jump j, .jumpTo ((records name j).2 at_j)⟩

theorem Draft.records_empty : Records Draft.empty.statementList Draft.empty.labels := by
  intro name i
  simp [Draft.empty, Draft.statementList, LabelTable.get?_empty]

theorem means_of_load {lines : List String} {p : Program} (loaded : load lines = .ok p) :
    ∃ statements, (codeLines lines).mapM Statement.parse = .ok statements ∧ Means statements p := by
  obtain ⟨draft, read, finished⟩ := bind_eq_ok_iff.1 loaded
  obtain ⟨records, statements, parsed, whole⟩ := Draft.foldlM_add_eq_ok Draft.records_empty read
  obtain ⟨labels, size, resolves⟩ := Draft.finish_eq_ok_iff.1 finished
  rw [map_fst_numbered] at parsed
  obtain rfl : draft.statementList = statements := whole
  exact ⟨_, parsed, size, labels ▸ records, resolves⟩

theorem exists_load {lines : List String} {statements : List Statement}
    (parsed : (codeLines lines).mapM Statement.parse = .ok statements)
    (distinct : DistinctLabels statements) (defined : JumpsDefined statements) :
    ∃ p, load lines = .ok p := by
  rw [← map_fst_numbered] at parsed
  obtain ⟨draft, read⟩ := Draft.exists_foldlM_add Draft.records_empty parsed distinct
  obtain ⟨records, statements', parsed', whole⟩ := Draft.foldlM_add_eq_ok Draft.records_empty read
  cases parsed.symm.trans parsed'
  obtain rfl : draft.statementList = statements := whole
  obtain ⟨instructions, resolved⟩ : ∃ instructions,
      draft.statements.toList.mapM (Draft.resolve draft.labels) = .ok instructions := by
    refine exists_mapM_eq_ok fun ⟨s, number⟩ member => ?_
    obtain ⟨i, at_i⟩ := List.mem_iff_getElem?.1 member
    have listed : draft.statementList[i]? = some s := by
      rw [Draft.statementList, List.getElem?_map, at_i]
      rfl
    obtain ⟨instr, resolves⟩ := records.exists_resolves defined i s listed
    exact ⟨instr, Draft.resolve_eq_ok_iff.2 resolves⟩
  have finished : draft.finish = .ok ⟨instructions.toArray, draft.labels⟩ :=
    Draft.finish_eq_ok_iff_mapM.2 ⟨rfl, resolved⟩
  exact ⟨_, bind_eq_ok_iff.2 ⟨draft, read, finished⟩⟩

theorem load_eq_ok_iff {lines : List String} {p : Program} :
    load lines = .ok p ↔
      ∃ statements, (codeLines lines).mapM Statement.parse = .ok statements ∧
      Means statements p := by
  refine ⟨means_of_load, fun ⟨statements, parsed, means⟩ => ?_⟩
  obtain ⟨q, loaded⟩ := exists_load parsed means.labels.distinct means.jumpsDefined
  obtain ⟨statements', parsed', means'⟩ := means_of_load loaded
  cases parsed.symm.trans parsed'
  rw [loaded, means.unique means']

def ReadsAt (lines : List String) (i : Nat) (s : Statement) : Prop :=
  ∃ line, (codeLines lines)[i]? = some line ∧ Statement.parse line = .ok s

theorem readsAt_iff {lines : List String} {statements : List Statement}
    (parsed : (codeLines lines).mapM Statement.parse = .ok statements) {i : Nat} {s : Statement} :
    ReadsAt lines i s ↔ statements[i]? = some s := by
  obtain ⟨length, each⟩ := mapM_eq_ok_iff.1 parsed
  constructor
  · rintro ⟨line, at_i, read⟩
    obtain ⟨s', there, read'⟩ := each i line at_i
    cases read.symm.trans read'
    exact there
  · intro at_i
    have inside : i < (codeLines lines).length := length ▸ (List.getElem?_eq_some_iff.1 at_i).1
    have at_line := List.getElem?_eq_getElem inside
    obtain ⟨s', there, read⟩ := each i _ at_line
    cases at_i.symm.trans there
    exact ⟨_, at_line, read⟩

/-- Loading succeeds exactly when every line that is no comment reads as a statement, no label is
there twice and every jump to a name has its label somewhere. The program then has one instruction
for each of these lines: the table holds the labels with their places and nothing else, and jumps
stand for these places. -/
theorem load_declarative (lines : List String) :
    ((∃ p, load lines = .ok p) ↔
      (∀ line ∈ codeLines lines, ∃ s, Statement.parse line = .ok s) ∧
      (∀ i j name, ReadsAt lines i (.label name) → ReadsAt lines j (.label name) → i = j) ∧
      (∀ i name, ReadsAt lines i (.jumpTo name) → ∃ j, ReadsAt lines j (.label name))) ∧
    ∀ p, load lines = .ok p →
      p.size = (codeLines lines).length ∧
      (∀ name i, (name, i) ∈ p.labels.entries ↔ ReadsAt lines i (.label name)) ∧
      (∀ i name, ReadsAt lines i (.label name) → p.instructions[i]? = some .mark) ∧
      (∀ i j name, ReadsAt lines i (.jumpTo name) → ReadsAt lines j (.label name) →
        p.instructions[i]? = some (.jump j)) ∧
      (∀ i instr, ReadsAt lines i (.instruction instr) → p.instructions[i]? = some instr) := by
  refine ⟨⟨?_, ?_⟩, ?_⟩
  · rintro ⟨p, loaded⟩
    obtain ⟨statements, parsed, means⟩ := means_of_load loaded
    simp only [readsAt_iff parsed]
    refine ⟨fun line member => ?_, means.labels.distinct, means.jumpsDefined⟩
    obtain ⟨i, at_i⟩ := List.mem_iff_getElem?.1 member
    obtain ⟨s, -, read⟩ := (mapM_eq_ok_iff.1 parsed).2 i line at_i
    exact ⟨s, read⟩
  · rintro ⟨each, distinct, defined⟩
    obtain ⟨statements, parsed⟩ := exists_mapM_eq_ok each
    simp only [readsAt_iff parsed] at distinct defined
    exact exists_load parsed distinct defined
  · intro p loaded
    obtain ⟨statements, parsed, means⟩ := means_of_load loaded
    simp only [readsAt_iff parsed]
    refine ⟨?_, ?_, ?_, ?_, ?_⟩
    · exact means.size.symm.trans (mapM_eq_ok_iff.1 parsed).1.symm
    · exact fun name i => LabelTable.mem_entries_iff.trans (means.labels name i)
    · intro i name at_i
      obtain ⟨instr, there, resolved⟩ := means.resolves i _ at_i
      cases resolved
      exact there
    · intro i j name at_i at_j
      obtain ⟨instr, there, resolved⟩ := means.resolves i _ at_i
      cases resolved with
      | jumpTo found =>
        rwa [Option.some.inj (found.symm.trans ((means.labels name j).2 at_j))] at there
    · intro i instr at_i
      obtain ⟨instr', there, resolved⟩ := means.resolves i _ at_i
      cases resolved
      exact there

end Program
end StringStack
