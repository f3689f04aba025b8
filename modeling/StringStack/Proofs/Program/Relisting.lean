import StringStack.Proofs.Program.Listing

namespace StringStack

namespace LabelTable

/-- No two names share an index. -/
def Apart (table : LabelTable) : Prop :=
  ∀ (a b : String) (index : Nat), table.get? a = some index → table.get? b = some index → a = b

theorem exists_nameAt? {table : LabelTable} {name : String} {index : Nat}
    (found : table.get? name = some index) :
    ∃ other, table.nameAt? index = some other := by
  cases named : table.nameAt? index with
  | none => exact absurd found (nameAt?_eq_none_iff.1 named name)
  | some other => exact ⟨other, rfl⟩

theorem Apart.nameAt?_eq_some_iff {table : LabelTable} (apart : table.Apart) {name : String}
    {index : Nat} :
    table.nameAt? index = some name ↔ table.get? name = some index := by
  refine ⟨get?_of_nameAt?, fun found => nameAt?_of_get? (fun other also => ?_) found⟩
  exact apart other name index also found

end LabelTable

namespace Program

def statementAt (labels : LabelTable) (index : Nat) : Instruction → Statement
  | .mark =>
    match labels.nameAt? index with
    | some name => .label name
    | none => .instruction .mark
  | .jump target =>
    match labels.nameAt? target with
    | some name => .jumpTo name
    | none => .instruction (.jump target)
  | i => .instruction i

def statements (p : Program) : List Statement :=
  p.instructions.toList.zipIdx.map fun (i, index) => statementAt p.labels index i

theorem getElem?_statements (p : Program) (i : Nat) :
    p.statements[i]? = p.instructions[i]?.map (statementAt p.labels i) := by
  rw [statements, List.getElem?_map, List.getElem?_zipIdx, Array.getElem?_toList, Option.map_map,
    Nat.zero_add]
  rfl

theorem resolves_statementAt (labels : LabelTable) (index : Nat) (i : Instruction) :
    Resolves labels (statementAt labels index i) i := by
  cases i with
  | mark =>
    cases named : labels.nameAt? index with
    | none => simpa only [statementAt, named] using Resolves.instruction _
    | some name => simpa only [statementAt, named] using Resolves.label name
  | jump target =>
    cases named : labels.nameAt? target with
    | none => simpa only [statementAt, named] using Resolves.instruction _
    | some name =>
      simpa only [statementAt, named] using Resolves.jumpTo (LabelTable.get?_of_nameAt? named)
  | _ => exact Resolves.instruction _

/-- What a listing can show: values and names that stay on their line, and a name for every mark,
every target and nothing else. -/
structure Listable (p : Program) : Prop where
  values : ∀ value, .push value ∈ p.instructions → '\n' ∉ value.toList
  marks : ∀ i, (∃ name, p.labels.get? name = some i) ↔ p.instructions[i]? = some .mark
  jumps : ∀ target, .jump target ∈ p.instructions → ∃ name, p.labels.get? name = some target
  names : ∀ name i, p.labels.get? name = some i →
    name ≠ "" ∧ '\n' ∉ name.toList ∧ name.toList.getLast? ≠ some '\r'

theorem Listable.means {p : Program} (listable : p.Listable) (apart : p.labels.Apart) :
    Means p.statements p where
  size := by rw [statements, List.length_map, List.length_zipIdx, Array.length_toList]
  labels := by
    intro name i
    rw [getElem?_statements]
    constructor
    · intro found
      have there := (listable.marks i).1 ⟨name, found⟩
      rw [there, Option.map_some, statementAt, apart.nameAt?_eq_some_iff.2 found]
    · intro listed
      obtain ⟨instr, there, shown⟩ := Option.map_eq_some_iff.1 listed
      have resolved := resolves_statementAt p.labels i instr
      rw [shown] at resolved
      cases resolved
      obtain ⟨other, found⟩ := (listable.marks i).2 there
      simp only [statementAt, apart.nameAt?_eq_some_iff.2 found] at shown
      cases shown
      exact found
  resolves := by
    intro i s listed
    rw [getElem?_statements] at listed
    obtain ⟨instr, there, rfl⟩ := Option.map_eq_some_iff.1 listed
    exact ⟨instr, there, resolves_statementAt p.labels i instr⟩

/-- What the statements of such a program can be. -/
inductive Shows (p : Program) : Statement → Prop where
  | instruction {i : Instruction} :
      i ∈ p.instructions → i ≠ .mark → (∀ target, i ≠ .jump target) → Shows p (.instruction i)
  | label {name : String} {index : Nat} : p.labels.get? name = some index → Shows p (.label name)
  | jumpTo {name : String} {index : Nat} : p.labels.get? name = some index → Shows p (.jumpTo name)

theorem Listable.shows {p : Program} (listable : p.Listable) {s : Statement}
    (member : s ∈ p.statements) :
    Shows p s := by
  obtain ⟨index, listed⟩ := List.mem_iff_getElem?.1 member
  rw [getElem?_statements] at listed
  obtain ⟨i, there, rfl⟩ := Option.map_eq_some_iff.1 listed
  cases i with
  | mark =>
    obtain ⟨name, found⟩ := (listable.marks index).2 there
    obtain ⟨other, named⟩ := LabelTable.exists_nameAt? found
    rw [statementAt, named]
    exact .label (LabelTable.get?_of_nameAt? named)
  | jump target =>
    obtain ⟨name, found⟩ := listable.jumps target (Array.mem_of_getElem? there)
    obtain ⟨other, named⟩ := LabelTable.exists_nameAt? found
    rw [statementAt, named]
    exact .jumpTo (LabelTable.get?_of_nameAt? named)
  | _ => exact .instruction (Array.mem_of_getElem? there) (by simp) (by simp)

theorem Shows.readable {p : Program} {s : Statement} (listable : p.Listable)
    (words : ∀ i ∈ p.instructions, ∀ n ∈ i.offsets, n ≤ 2 ^ 64 - 2) (shows : Shows p s) :
    s.Readable := by
  cases shows with
  | instruction member unmarked unfixed =>
    exact Statement.readable_instruction unmarked unfixed (words _ member)
  | label found => exact (listable.names _ _ found).1
  | jumpTo found => exact (listable.names _ _ found).1

theorem Shows.clean {p : Program} {s : Statement} (listable : p.Listable) (shows : Shows p s) :
    '\n' ∉ s.text.toList := by
  intro newline
  have inside := Statement.mem_payload_of_mem_text (by decide) (by decide) (by decide) newline
  cases shows with
  | @instruction i member _ _ =>
    cases i with
    | push value => exact listable.values value member inside
    | _ => simp [Statement.payload] at inside
  | label found => exact (listable.names _ _ found).2.1 inside
  | jumpTo found => exact (listable.names _ _ found).2.1 inside

theorem Means.listable {statements : List Statement} {p : Program} (means : Means statements p)
    (readable : ∀ s ∈ statements, s.Readable) (clean : ∀ s ∈ statements, '\n' ∉ s.text.toList)
    (kept : p.NamesKept) : p.Listable where
  values := by
    intro value member newline
    obtain ⟨i, there⟩ := Array.mem_iff_getElem?.1 member
    obtain ⟨s, listed, resolved⟩ := means.exists_statement there
    have at_s := List.mem_of_getElem? listed
    cases resolved with
    | instruction _ =>
      exact clean _ at_s
        (Statement.mem_of_mem_payload (Statement.parse_text (readable _ at_s)) newline)
  marks := by
    intro i
    refine ⟨fun ⟨name, found⟩ => means.mark_of_label found, fun there => ?_⟩
    obtain ⟨s, listed, resolved⟩ := means.exists_statement there
    cases resolved with
    | instruction _ => exact (readable _ (List.mem_of_getElem? listed)).elim
    | label name => exact ⟨name, (means.labels name i).2 listed⟩
  jumps := by
    intro target member
    obtain ⟨i, there⟩ := Array.mem_iff_getElem?.1 member
    exact means.label_of_jump readable there
  names := by
    intro name i found
    have at_s := List.mem_of_getElem? ((means.labels name i).1 found)
    have named := readable _ at_s
    refine ⟨named, fun newline => ?_, kept name i found⟩
    exact clean _ at_s (Statement.mem_of_mem_payload (Statement.parse_text named) newline)

theorem Listable.loadText_listing {p : Program} (listable : p.Listable)
    (words : ∀ i ∈ p.instructions, ∀ n ∈ i.offsets, n ≤ 2 ^ 64 - 2) (apart : p.labels.Apart) :
    loadText p.listing = .ok p := by
  have readable : ∀ s ∈ p.statements, s.Readable :=
    fun s member => (listable.shows member).readable listable words
  have clean : ∀ s ∈ p.statements, '\n' ∉ s.text.toList :=
    fun s member => (listable.shows member).clean listable
  refine ((listable.means apart).loadText_listing_iff readable clean).2 fun name i found => ?_
  exact (listable.names name i found).2.2

/-- A program, loaded or not, is loaded from its listing exactly when its texts stay on their lines
and its labels are where its marks are and where its jumps go. -/
theorem loadText_listing_eq_self_iff {p : Program}
    (words : ∀ i ∈ p.instructions, ∀ n ∈ i.offsets, n ≤ 2 ^ 64 - 2) (apart : p.labels.Apart) :
    loadText p.listing = .ok p ↔ p.Listable := by
  constructor
  · intro loaded
    obtain ⟨statements, means, readable, clean⟩ := statements_of_loadText loaded
    exact means.listable readable clean ((means.loadText_listing_iff readable clean).1 loaded)
  · exact fun listable => listable.loadText_listing words apart

theorem listable_and_broken_line :
    let p : Program :=
      ⟨#[.mark, .push "it's", .swap 0 1, .jump 0], ⟨[(" #1 '", 0)], List.pairwise_singleton _ _⟩⟩
    let q : Program := ⟨#[.push "\nPOP"], .empty⟩
    p.Listable ∧ loadText q.listing ≠ .ok q := by
  intro p q
  have apart : p.labels.Apart := by
    intro a b index first second
    have first := LabelTable.mem_entries_iff.2 first
    have second := LabelTable.mem_entries_iff.2 second
    simp only [p, List.mem_singleton, Prod.mk.injEq] at first second
    rw [first.1, second.1]
  have words : ∀ i ∈ p.instructions, ∀ n ∈ i.offsets, n ≤ 2 ^ 64 - 2 := by
    simp [p, Instruction.offsets]
  have loaded : loadText p.listing = .ok p := by decide +kernel
  refine ⟨(loadText_listing_eq_self_iff words apart).1 loaded, fun broken => ?_⟩
  have apart : q.labels.Apart := by simp [q, LabelTable.Apart, LabelTable.get?_empty]
  have words : ∀ i ∈ q.instructions, ∀ n ∈ i.offsets, n ≤ 2 ^ 64 - 2 := by
    simp [q, Instruction.offsets]
  have listable := (loadText_listing_eq_self_iff words apart).1 broken
  exact listable.values "\nPOP" (by simp [q]) (by decide)

end Program
end StringStack
