import StringStack.Proofs.Program.Listing

/-! Jumps written the other way. A jump to a label can take the name from the stack instead, and
then it is two lines, one that puts the name there and one that jumps to what is there. Lines that
load also load when some of their jumps are written so. What is behind such a jump moves on by one,
and the labels and the targets of jumps move with it. -/
namespace StringStack.Program

/-- Where an instruction has gone when each of the chosen ones before it has become two. -/
def place (chosen : Nat → Bool) : Nat → Nat
  | 0 => 0
  | i + 1 => place chosen i + if chosen i then 2 else 1

section Place

variable {chosen : Nat → Bool} {i k n : Nat}

theorem place_kept (kept : chosen i = false) : place chosen (i + 1) = place chosen i + 1 := by
  rw [place, kept]
  rfl

theorem place_chosen (is_chosen : chosen i = true) : place chosen (i + 1) = place chosen i + 2 := by
  rw [place, is_chosen]
  rfl

theorem place_strictMono (chosen : Nat → Bool) : StrictMono (place chosen) := by
  apply strictMono_nat_of_lt_succ
  intro i
  cases here : chosen i with
  | false => simp [place_kept here]
  | true => simp [place_chosen here]

theorem exists_place (below : k < place chosen n) :
    ∃ i < n, k = place chosen i ∨ chosen i = true ∧ k = place chosen i + 1 := by
  induction n with
  | zero => cases below
  | succ n ih =>
    by_cases earlier : k < place chosen n
    · obtain ⟨i, before, there⟩ := ih earlier
      exact ⟨i, Nat.lt_succ_of_lt before, there⟩
    · refine ⟨n, Nat.lt_succ_self n, ?_⟩
      cases here : chosen n with
      | false =>
        rw [place_kept here] at below
        exact .inl (by omega)
      | true =>
        rw [place_chosen here] at below
        by_cases first : k = place chosen n
        · exact .inl first
        · exact .inr ⟨rfl, by omega⟩

end Place

inductive Line where
  | kept (line : String)
  | jump (name : String) (named : name ≠ "")

namespace Line

def fixed : Line → String
  | kept line => line
  | jump name _ => "JMP " ++ name

def dynamic : Line → List String
  | kept line => [line]
  | jump name _ => ["PUSH " ++ quote name, "JMP"]

def isCode : Line → Bool
  | kept line => !isComment line
  | jump _ _ => true

def isJump : Line → Bool
  | kept _ => false
  | jump _ _ => true

theorem length_dynamic (line : Line) : line.dynamic.length = if line.isJump then 2 else 1 := by
  cases line with
  | kept line => rfl
  | jump name named => rfl

theorem isComment_fixed (line : Line) : (!isComment line.fixed) = line.isCode := by
  cases line with
  | kept line => rfl
  | jump name named =>
    have comment : isComment ("JMP" ++ (" " ++ name)) = false :=
      isComment_keyword_append .jump (" " ++ name)
    rw [← String.append_assoc] at comment
    exact congrArg not comment

theorem filter_dynamic (line : Line) :
    line.dynamic.filter (fun l => !isComment l) = if line.isCode then line.dynamic else [] := by
  cases line with
  | kept line =>
    cases comment : isComment line with
    | false => simp [dynamic, isCode, comment]
    | true => simp [dynamic, isCode, comment]
  | jump name named =>
    have push : isComment ("PUSH" ++ (" " ++ quote name)) = false :=
      isComment_keyword_append .push (" " ++ quote name)
    have jump : isComment "JMP" = false := isComment_keyword_append .jump ""
    rw [← String.append_assoc] at push
    exact List.filter_eq_self.2 (by simpa [dynamic, jump] using push)

theorem parse_fixed {name : String} (named : name ≠ "") :
    Statement.parse (jump name named).fixed = .ok (.jumpTo name) :=
  (Statement.Reads.jumpTo named).parse_append

end Line

def respelled (text : List Line) (i : Nat) : Bool := (text.filter Line.isCode)[i]?.any Line.isJump

theorem codeLines_fixed (text : List Line) :
    codeLines (text.map Line.fixed) = (text.filter Line.isCode).map Line.fixed := by
  rw [codeLines, List.filter_map]
  congr 2
  funext line
  exact line.isComment_fixed

theorem codeLines_dynamic (text : List Line) :
    codeLines (text.flatMap Line.dynamic) = (text.filter Line.isCode).flatMap Line.dynamic := by
  induction text with
  | nil => rfl
  | cons line text ih =>
    rw [List.flatMap_cons, codeLines, List.filter_append, line.filter_dynamic, List.filter_cons]
    rw [codeLines] at ih
    cases code : line.isCode with
    | false => exact ih
    | true => simp [ih]

theorem length_take_dynamic {text : List Line} {i : Nat}
    (inside : i ≤ (text.filter Line.isCode).length) :
    (((text.filter Line.isCode).take i).flatMap Line.dynamic).length =
      place (respelled text) i := by
  induction i with
  | zero => rfl
  | succ i ih =>
    have here := List.getElem?_eq_getElem inside
    rw [List.take_add_one, List.flatMap_append, List.length_append, ih (Nat.le_of_succ_le inside),
      place, respelled, here]
    simp [Line.length_dynamic]

theorem getElem?_dynamic {text : List Line} {i j : Nat} {line : Line} {written : String}
    (at_i : (text.filter Line.isCode)[i]? = some line) (at_j : line.dynamic[j]? = some written) :
    (codeLines (text.flatMap Line.dynamic))[place (respelled text) i + j]? = some written := by
  obtain ⟨inside, rfl⟩ := List.getElem?_eq_some_iff.1 at_i
  obtain ⟨within, -⟩ := List.getElem?_eq_some_iff.1 at_j
  have parted := List.take_append_drop i (text.filter Line.isCode)
  rw [List.drop_eq_getElem_cons inside] at parted
  have spread := congrArg (List.flatMap Line.dynamic) parted
  rw [List.flatMap_append, List.flatMap_cons] at spread
  rw [codeLines_dynamic, ← length_take_dynamic (Nat.le_of_lt inside), ← spread,
    List.getElem?_append_right (Nat.le_add_right _ _), Nat.add_sub_cancel_left,
    List.getElem?_append_left within, at_j]

theorem exists_line_of_readsAt {text : List Line} {i : Nat} {s : Statement}
    (reads : ReadsAt (text.map Line.fixed) i s) :
    ∃ line, (text.filter Line.isCode)[i]? = some line ∧ Statement.parse line.fixed = .ok s := by
  obtain ⟨written, at_i, parsed⟩ := reads
  rw [codeLines_fixed, List.getElem?_map] at at_i
  obtain ⟨line, there, rfl⟩ := Option.map_eq_some_iff.1 at_i
  exact ⟨line, there, parsed⟩

theorem exists_parse_dynamic {text : List Line} {statements : List Statement}
    (parsed : (codeLines (text.map Line.fixed)).mapM Statement.parse = .ok statements) :
    ∃ others, (codeLines (text.flatMap Line.dynamic)).mapM Statement.parse = .ok others := by
  apply exists_mapM_eq_ok
  intro written member
  rw [codeLines_dynamic] at member
  obtain ⟨line, listed, member⟩ := List.mem_flatMap.1 member
  cases line with
  | jump name named =>
    rcases List.mem_pair.1 member with rfl | rfl
    · exact ⟨_, (Statement.Reads.push name).parse_append⟩
    · exact ⟨_, Statement.Reads.jumpDynamic.parse_keyword⟩
  | kept line =>
    obtain rfl := List.mem_singleton.1 member
    rw [codeLines_fixed] at parsed
    have also : written ∈ (text.filter Line.isCode).map Line.fixed := List.mem_map_of_mem listed
    obtain ⟨i, at_i⟩ := List.mem_iff_getElem?.1 also
    obtain ⟨s, -, reads⟩ := (mapM_eq_ok_iff.1 parsed).2 i written at_i
    exact ⟨s, reads⟩

/-- The statements of the lines when each chosen jump is written the other way. -/
structure Spread (chosen : Nat → Bool) (statements others : List Statement) : Prop where
  length : others.length = place chosen statements.length
  kept : ∀ {i : Nat} {s : Statement}, statements[i]? = some s → chosen i = false →
    others[place chosen i]? = some s
  jump : ∀ {i : Nat} {s : Statement}, statements[i]? = some s → chosen i = true →
    ∃ name, s = .jumpTo name ∧
    others[place chosen i]? = some (.instruction (.push name)) ∧
    others[place chosen i + 1]? = some (.instruction .jumpDynamic)

theorem spread_of_parsed {text : List Line} {statements others : List Statement}
    (parsed : (codeLines (text.map Line.fixed)).mapM Statement.parse = .ok statements)
    (parsed' : (codeLines (text.flatMap Line.dynamic)).mapM Statement.parse = .ok others) :
    Spread (respelled text) statements others := by
  refine ⟨?_, ?_, ?_⟩
  · have length := (mapM_eq_ok_iff.1 parsed).1
    have length' := (mapM_eq_ok_iff.1 parsed').1
    rw [codeLines_fixed, List.length_map] at length
    rw [codeLines_dynamic] at length'
    rw [← length, ← length', ← length_take_dynamic (Nat.le_refl _), List.take_length]
  · intro i s at_i kept
    obtain ⟨line, there, reads⟩ := exists_line_of_readsAt ((readsAt_iff parsed).2 at_i)
    rw [respelled, there] at kept
    cases line with
    | jump name named => cases kept
    | kept line => exact (readsAt_iff parsed').1 ⟨line, getElem?_dynamic (j := 0) there rfl, reads⟩
  · intro i s at_i jumps
    obtain ⟨line, there, reads⟩ := exists_line_of_readsAt ((readsAt_iff parsed).2 at_i)
    rw [respelled, there] at jumps
    cases line with
    | kept line => cases jumps
    | jump name named =>
      cases reads.symm.trans (Line.parse_fixed named)
      refine ⟨name, rfl, (readsAt_iff parsed').1 ?_, (readsAt_iff parsed').1 ?_⟩
      · exact ⟨_, getElem?_dynamic (j := 0) there rfl, (Statement.Reads.push name).parse_append⟩
      · exact ⟨_, getElem?_dynamic (j := 1) there rfl, Statement.Reads.jumpDynamic.parse_keyword⟩

section Spread

variable {chosen : Nat → Bool} {statements others : List Statement}

theorem Spread.origin (spread : Spread chosen statements others) {k : Nat} {s : Statement}
    (there : others[k]? = some s) :
    (∃ i, k = place chosen i ∧ statements[i]? = some s) ∨
      ∃ i : Instruction, s = .instruction i := by
  have below : k < place chosen statements.length :=
    spread.length ▸ (List.getElem?_eq_some_iff.1 there).1
  obtain ⟨i, inside, place⟩ := exists_place below
  have at_i := List.getElem?_eq_getElem inside
  cases here : chosen i with
  | false =>
    rcases place with rfl | ⟨is_chosen, -⟩
    · cases there.symm.trans (spread.kept at_i here)
      exact .inl ⟨i, rfl, at_i⟩
    · cases here.symm.trans is_chosen
  | true =>
    right
    obtain ⟨name, -, push, jump⟩ := spread.jump at_i here
    rcases place with rfl | ⟨-, rfl⟩
    · cases there.symm.trans push
      exact ⟨_, rfl⟩
    · cases there.symm.trans jump
      exact ⟨_, rfl⟩

theorem Spread.label_iff (spread : Spread chosen statements others) {k : Nat} {name : String} :
    others[k]? = some (.label name) ↔
      ∃ i, k = place chosen i ∧ statements[i]? = some (.label name) := by
  constructor
  · intro there
    rcases spread.origin there with here | ⟨i, impossible⟩
    · exact here
    · cases impossible
  · rintro ⟨i, rfl, at_i⟩
    cases here : chosen i with
    | false => exact spread.kept at_i here
    | true =>
      obtain ⟨name, impossible, -⟩ := spread.jump at_i here
      cases impossible

theorem Spread.distinctLabels (spread : Spread chosen statements others)
    (distinct : DistinctLabels statements) :
    DistinctLabels others := by
  intro k l name at_k at_l
  obtain ⟨i, rfl, at_i⟩ := spread.label_iff.1 at_k
  obtain ⟨j, rfl, at_j⟩ := spread.label_iff.1 at_l
  rw [distinct i j name at_i at_j]

theorem Spread.jumpsDefined (spread : Spread chosen statements others)
    (defined : JumpsDefined statements) :
    JumpsDefined others := by
  intro k name at_k
  rcases spread.origin at_k with ⟨i, rfl, at_i⟩ | ⟨i, impossible⟩
  · obtain ⟨j, at_j⟩ := defined i name at_i
    exact ⟨place chosen j, spread.label_iff.2 ⟨j, rfl, at_j⟩⟩
  · cases impossible

end Spread

end StringStack.Program

namespace StringStack

def Instruction.moved (f : Nat → Nat) : Instruction → Instruction
  | .jump target => .jump (f target)
  | i => i

namespace Program

/-- The second program is the first one with each chosen jump written the other way. -/
structure Respells (chosen : Nat → Bool) (p q : Program) : Prop where
  size : q.size = place chosen p.size
  labels : ∀ name, q.labels.get? name = (p.labels.get? name).map (place chosen)
  kept : ∀ {index : Nat} {i : Instruction}, p.instructions[index]? = some i → chosen index = false →
    q.instructions[place chosen index]? = some (i.moved (place chosen))
  jump : ∀ {index : Nat} {i : Instruction}, p.instructions[index]? = some i → chosen index = true →
    ∃ name target, i = .jump target ∧ p.labels.get? name = some target ∧
      q.instructions[place chosen index]? = some (.push name) ∧
      q.instructions[place chosen index + 1]? = some .jumpDynamic

section Respells

variable {chosen : Nat → Bool} {p q : Program} {i target : Nat}

theorem Respells.place_le (respells : Respells chosen p q) (inside : i ≤ p.size) :
    place chosen i ≤ q.size := by
  rw [respells.size]
  exact (place_strictMono chosen).monotone inside

theorem Respells.size_le (respells : Respells chosen p q) (outside : p.size ≤ i) :
    q.size ≤ place chosen i := by
  rw [respells.size]
  exact (place_strictMono chosen).monotone outside

theorem Respells.get?_eq (respells : Respells chosen p q) {name : String}
    (found : p.labels.get? name = some target) :
    q.labels.get? name = some (place chosen target) := by
  rw [respells.labels, found]
  rfl

end Respells

theorem Resolves.moved {chosen : Nat → Bool} {labels others : LabelTable} {s : Statement}
    {i : Instruction} (resolves : Resolves labels s i) (readable : s.Readable)
    (moved : ∀ name, others.get? name = (labels.get? name).map (place chosen)) :
    Resolves others s (i.moved (place chosen)) := by
  cases resolves with
  | label name => exact .label name
  | jumpTo found =>
    apply Resolves.jumpTo
    rw [moved, found]
    rfl
  | instruction i =>
    cases i with
    | jump target => exact readable.elim
    | _ => exact .instruction _

theorem Spread.get?_eq {chosen : Nat → Bool} {statements others : List Statement}
    {labels moved : LabelTable} (spread : Spread chosen statements others)
    (records : Records statements labels) (records' : Records others moved) (name : String) :
    moved.get? name = (labels.get? name).map (place chosen) := by
  ext k
  rw [records' name k, spread.label_iff, Option.map_eq_some_iff]
  constructor
  · rintro ⟨i, rfl, at_i⟩
    exact ⟨i, (records name i).2 at_i, rfl⟩
  · rintro ⟨i, found, rfl⟩
    exact ⟨i, rfl, (records name i).1 found⟩

theorem Spread.respells {chosen : Nat → Bool} {statements others : List Statement} {p q : Program}
    (spread : Spread chosen statements others) (means : Means statements p)
    (means' : Means others q) (readable : ∀ s ∈ statements, s.Readable) : Respells chosen p q := by
  have labels := spread.get?_eq means.labels means'.labels
  refine ⟨?_, labels, ?_, ?_⟩
  · exact (means'.size.symm.trans spread.length).trans (congrArg (place chosen) means.size)
  · intro index i there kept
    obtain ⟨s, at_index, resolves⟩ := means.exists_statement there
    obtain ⟨i', there', resolves'⟩ := means'.resolves _ s (spread.kept at_index kept)
    rw [there',
      resolves'.unique (resolves.moved (readable s (List.mem_of_getElem? at_index)) labels)]
  · intro index i there jumps
    obtain ⟨s, at_index, resolves⟩ := means.exists_statement there
    obtain ⟨name, rfl, at_push, at_jump⟩ := spread.jump at_index jumps
    obtain ⟨_, push, ⟨⟩⟩ := means'.resolves _ _ at_push
    obtain ⟨_, jump, ⟨⟩⟩ := means'.resolves _ _ at_jump
    cases resolves with
    | jumpTo found => exact ⟨name, _, rfl, found, push, jump⟩

theorem exists_respells {text : List Line} {p : Program}
    (loaded : load (text.map Line.fixed) = .ok p) :
    ∃ q, load (text.flatMap Line.dynamic) = .ok q ∧ Respells (respelled text) p q := by
  obtain ⟨statements, parsed, means⟩ := means_of_load loaded
  obtain ⟨others, parsed'⟩ := exists_parse_dynamic parsed
  have spread := spread_of_parsed parsed parsed'
  obtain ⟨q, loaded'⟩ :=
    exists_load parsed' (spread.distinctLabels means.labels.distinct)
      (spread.jumpsDefined means.jumpsDefined)
  obtain ⟨others', again, means'⟩ := means_of_load loaded'
  cases parsed'.symm.trans again
  exact ⟨q, loaded', spread.respells means means' (readable_of_parsed parsed)⟩

end Program
end StringStack
