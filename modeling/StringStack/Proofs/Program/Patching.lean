import StringStack.Program.Loading

/-! Loading in one pass over the lines and one over the jumps. A mark stands in the place of a jump
until the labels are known, and the jump waits in a list with the index of its placeholder. -/
namespace StringStack.Program

structure PendingJump where
  index : Nat
  name : String
  line : Nat
  deriving DecidableEq, Repr

structure Assembly where
  instructions : Array Instruction
  labels : LabelTable
  pending : Array PendingJump

namespace Assembly

def empty : Assembly := ⟨#[], .empty, #[]⟩

def add (a : Assembly) (entry : String × Nat) : Except LoadError Assembly :=
  match Statement.parse entry.1 with
  | .error cause => .error (.badLine entry.2 cause)
  | .ok (.instruction i) => .ok { a with instructions := a.instructions.push i }
  | .ok (.label name) =>
    match a.labels.insert name a.instructions.size with
    | .error existing => .error (.duplicateLabel entry.2 name existing)
    | .ok labels => .ok { a with instructions := a.instructions.push .mark, labels }
  | .ok (.jumpTo name) =>
    .ok { a with
      instructions := a.instructions.push .mark
      pending := a.pending.push ⟨a.instructions.size, name, entry.2⟩ }

def patch (labels : LabelTable) (instructions : Array Instruction) (jump : PendingJump) :
    Except LoadError (Array Instruction) :=
  match labels.get? jump.name with
  | none => .error (.undefinedLabel jump.line jump.name)
  | some target => .ok (instructions.setIfInBounds jump.index (.jump target))

def finish (a : Assembly) : Except LoadError Program :=
  (a.pending.toList.foldlM (patch a.labels) a.instructions).map fun instructions =>
    ⟨instructions, a.labels⟩

end Assembly

def loadPatching (lines : List String) : Except LoadError Program :=
  ((numbered lines).foldlM Assembly.add .empty).bind Assembly.finish

namespace Draft

def placeholder (entry : Statement × Nat) : Instruction :=
  match entry.1 with
  | .instruction i => i
  | _ => .mark

def waiting? (entry : Statement × Nat) (index : Nat) : Option PendingJump :=
  match entry.1 with
  | .jumpTo name => some ⟨index, name, entry.2⟩
  | _ => none

/-- The jumps that wait when these statements stand at `start` and on. -/
def waiting (start : Nat) (entries : List (Statement × Nat)) : List PendingJump :=
  (entries.zipIdx start).filterMap fun place => waiting? place.1 place.2

/-- What the lines of a draft leave for the second pass: this is the invariant of the first one. -/
def assembly (draft : Draft) : Assembly :=
  ⟨draft.statements.map placeholder, draft.labels, (waiting 0 draft.statements.toList).toArray⟩

theorem waiting?_eq_some_iff {entry : Statement × Nat} {index : Nat} {jump : PendingJump} :
    waiting? entry index = some jump ↔
      entry = (.jumpTo jump.name, jump.line) ∧ jump.index = index := by
  obtain ⟨s, line⟩ := entry
  cases s with
  | jumpTo name =>
    constructor
    · rintro ⟨⟩
      exact ⟨rfl, rfl⟩
    · rintro ⟨⟨⟩, rfl⟩
      rfl
  | _ => simp [waiting?]

theorem resolve_of_waiting?_eq_none {entry : Statement × Nat} {index : Nat} (labels : LabelTable)
    (still : waiting? entry index = none) : resolve labels entry = .ok (placeholder entry) := by
  obtain ⟨s, line⟩ := entry
  cases s with
  | jumpTo name => cases still
  | _ => rfl

theorem waiting_cons (start : Nat) (entry : Statement × Nat) (rest : List (Statement × Nat)) :
    waiting start (entry :: rest) = (waiting? entry start).toList ++ waiting (start + 1) rest := by
  rw [waiting, List.zipIdx_cons, List.filterMap_cons]
  cases waiting? entry start <;> rfl

theorem waiting_concat (start : Nat) (entries : List (Statement × Nat)) (entry : Statement × Nat) :
    waiting start (entries ++ [entry]) =
      waiting start entries ++ (waiting? entry (start + entries.length)).toList := by
  rw [waiting, List.zipIdx_append, List.filterMap_append, List.zipIdx_singleton]
  rfl

theorem mem_waiting_iff {jump : PendingJump} {entries : List (Statement × Nat)} :
    jump ∈ waiting 0 entries ↔ entries[jump.index]? = some (.jumpTo jump.name, jump.line) := by
  simp only [waiting, List.mem_filterMap, List.mem_zipIdx_iff_getElem?, waiting?_eq_some_iff]
  constructor
  · rintro ⟨place, there, same, index⟩
    rw [index, there, same]
  · intro there
    exact ⟨(_, jump.index), there, rfl, rfl⟩

theorem waiting_increasing (start : Nat) (entries : List (Statement × Nat)) :
    (∀ jump ∈ waiting start entries, start ≤ jump.index) ∧
      (waiting start entries).Pairwise fun a b => a.index < b.index := by
  induction entries generalizing start with
  | nil => exact ⟨nofun, .nil⟩
  | cons entry rest ih =>
    obtain ⟨above, increasing⟩ := ih (start + 1)
    rw [waiting_cons]
    cases waits : waiting? entry start with
    | none => exact ⟨fun jump member => Nat.le_of_succ_le (above jump member), increasing⟩
    | some first =>
      have here : first.index = start := (waiting?_eq_some_iff.1 waits).2
      refine ⟨?_, List.pairwise_cons.2 ⟨fun jump member => here ▸ above jump member, increasing⟩⟩
      intro jump member
      rcases List.mem_cons.1 member with rfl | later
      · exact Nat.le_of_eq here.symm
      · exact Nat.le_of_succ_le (above jump later)

theorem assembly_empty : empty.assembly = .empty := by
  simp [assembly, empty, waiting, Assembly.empty]

theorem assembly_push (draft : Draft) (labels : LabelTable) (entry : Statement × Nat) :
    assembly ⟨draft.statements.push entry, labels⟩ =
      ⟨draft.assembly.instructions.push (placeholder entry), labels,
        (waiting? entry draft.assembly.instructions.size).elim draft.assembly.pending
          draft.assembly.pending.push⟩ := by
  simp only [assembly, Array.map_push, Array.toList_push, waiting_concat, Nat.zero_add,
    Array.length_toList, Array.size_map]
  cases waiting? entry draft.statements.size with
  | none => simp
  | some jump => simp

theorem add_assembly (draft : Draft) (entry : String × Nat) :
    draft.assembly.add entry = (draft.add entry).map assembly := by
  have size : draft.assembly.instructions.size = draft.statements.size := Array.size_map
  unfold Assembly.add add
  cases Statement.parse entry.1 with
  | error cause => rfl
  | ok s =>
    cases s with
    | instruction i =>
      exact congrArg Except.ok (assembly_push draft draft.labels (.instruction i, entry.2)).symm
    | jumpTo name =>
      exact congrArg Except.ok (assembly_push draft draft.labels (.jumpTo name, entry.2)).symm
    | label name =>
      simp only [size, show draft.assembly.labels = draft.labels from rfl]
      cases draft.labels.insert name draft.statements.size with
      | error existing => rfl
      | ok labels =>
        exact congrArg Except.ok (assembly_push draft labels (.label name, entry.2)).symm

theorem foldlM_add_assembly (draft : Draft) (entries : List (String × Nat)) :
    entries.foldlM Assembly.add draft.assembly = (entries.foldlM add draft).map assembly := by
  induction entries generalizing draft with
  | nil => rfl
  | cons entry rest ih =>
    rw [List.foldlM_cons, List.foldlM_cons, add_assembly]
    cases draft.add entry with
    | error e => rfl
    | ok next => exact ih next

theorem patch_placeholder (labels : LabelTable) (done rest : List Instruction) (name : String)
    (line : Nat) :
    Assembly.patch labels (done ++ .mark :: rest).toArray ⟨done.length, name, line⟩ =
      (resolve labels (.jumpTo name, line)).map fun i => (done ++ i :: rest).toArray := by
  cases found : labels.get? name with
  | none =>
    simp only [Assembly.patch, resolve, found]
    rfl
  | some target =>
    simp only [Assembly.patch, resolve, found, List.setIfInBounds_toArray,
      List.set_append_right _ _ (Nat.le_refl done.length), Nat.sub_self, List.set_cons_zero]
    rfl

theorem foldlM_patch (labels : LabelTable) (done : List Instruction)
    (todo : List (Statement × Nat)) :
    (waiting done.length todo).foldlM (Assembly.patch labels)
      (done ++ todo.map placeholder).toArray =
      (todo.mapM (resolve labels)).map fun resolved => (done ++ resolved).toArray := by
  -- By induction on what is not yet patched, for any instructions that already are.
  induction todo generalizing done with
  | nil => rfl
  | cons entry rest ih =>
    have passed (i : Instruction) :
        (waiting (done.length + 1) rest).foldlM (Assembly.patch labels)
            (done ++ i :: rest.map placeholder).toArray =
          (rest.mapM (resolve labels)).map fun resolved => (done ++ i :: resolved).toArray := by
      have behind := ih (done ++ [i])
      rw [List.length_append, List.length_singleton] at behind
      simpa only [List.append_assoc, List.singleton_append] using behind
    have collected :
        ((entry :: rest).mapM (resolve labels)).map (fun resolved => (done ++ resolved).toArray) =
          (resolve labels entry).bind fun i =>
            (rest.mapM (resolve labels)).map fun resolved => (done ++ i :: resolved).toArray := by
      rw [List.mapM_cons]
      cases resolve labels entry with
      | error e => rfl
      | ok i => cases rest.mapM (resolve labels) <;> rfl
    rw [collected, waiting_cons, List.map_cons]
    cases waits : waiting? entry done.length with
    | none =>
      rw [resolve_of_waiting?_eq_none labels waits]
      exact passed (placeholder entry)
    | some jump =>
      obtain ⟨index, name, line⟩ := jump
      obtain ⟨rfl, rfl⟩ := waiting?_eq_some_iff.1 waits
      rw [Option.toList_some, List.singleton_append, List.foldlM_cons]
      -- Its placeholder is the first instruction that is written over.
      rw [show placeholder (.jumpTo name, line) = .mark from rfl, patch_placeholder]
      cases resolve labels (.jumpTo name, line) with
      | error e => rfl
      | ok i => exact passed i

theorem finish_assembly (draft : Draft) : draft.assembly.finish = draft.finish := by
  have patched := foldlM_patch draft.labels [] draft.statements.toList
  simp only [List.length_nil, List.nil_append] at patched
  have instructions : (draft.statements.toList.map placeholder).toArray =
      draft.statements.map placeholder := by
    rw [← Array.toList_map, Array.toArray_toList]
  rw [instructions] at patched
  rw [Assembly.finish, finish, Array.mapM_eq_mapM_toList]
  change Except.map _ ((waiting 0 draft.statements.toList).foldlM (Assembly.patch draft.labels)
    (draft.statements.map placeholder)) = _
  rw [patched]
  cases draft.statements.toList.mapM (resolve draft.labels) <;> rfl

end Draft

/-- Whatever the lines are, writing the targets back is the same as waiting for all labels: the
programs are equal, and so are the errors. -/
theorem loadPatching_eq_load (lines : List String) : loadPatching lines = load lines := by
  have first := Draft.foldlM_add_assembly .empty (numbered lines)
  unfold loadPatching load
  rw [← Draft.assembly_empty, first]
  cases (numbered lines).foldlM Draft.add .empty with
  | error e => rfl
  | ok draft => exact Draft.finish_assembly draft

/-- The pending jumps between the passes: one for each statement that is a jump to a name, in the
order of the lines, each at a placeholder of its own. -/
theorem pending_jumps {entries : List (String × Nat)} {a : Assembly}
    (read : entries.foldlM Assembly.add .empty = .ok a) :
    ∃ draft, entries.foldlM Draft.add .empty = .ok draft ∧
      (∀ jump, jump ∈ a.pending ↔
        draft.statements[jump.index]? = some (.jumpTo jump.name, jump.line)) ∧
      (∀ jump ∈ a.pending, a.instructions[jump.index]? = some .mark) ∧
      a.pending.toList.Pairwise fun x y => x.index < y.index := by
  have first := Draft.foldlM_add_assembly .empty entries
  rw [Draft.assembly_empty, read] at first
  cases drafted : entries.foldlM Draft.add .empty with
  | error e =>
    rw [drafted] at first
    cases first
  | ok draft =>
    rw [drafted] at first
    cases first
    have listed (jump : PendingJump) : jump ∈ draft.assembly.pending ↔
        draft.statements[jump.index]? = some (.jumpTo jump.name, jump.line) := by
      rw [← Array.getElem?_toList, ← Draft.mem_waiting_iff]
      exact List.mem_toArray
    refine ⟨draft, rfl, listed, ?_, (Draft.waiting_increasing 0 _).2⟩
    intro jump member
    show (draft.statements.map Draft.placeholder)[jump.index]? = _
    rw [Array.getElem?_map, (listed jump).1 member]
    rfl

end StringStack.Program
