import StringStack.Machine.Device
import StringStack.Proofs.Text.Lines
import StringStack.Proofs.Text.Bytes

namespace StringStack

/-- Writes values until one of them fails. -/
def Sink.writeAll {ω : Type} [Sink ω] (out : ω) : List String → Option DeviceFault × ω
  | [] => (none, out)
  | v :: rest =>
    match Sink.write out v with
    | (none, next) => writeAll next rest
    | (some cause, next) => (some cause, next)

namespace LineOutput

theorem exists_writeAll (written : Array UInt8) (values : List String) :
    ∃ out : LineOutput, Sink.writeAll (⟨none, written⟩ : LineOutput) values = (none, out) ∧
      out.written.toList = written.toList ++ (values.map Text.bytes).flatMap fun line =>
        line ++ [10] := by
  induction values generalizing written with
  | nil => exact ⟨_, rfl, (List.append_nil _).symm⟩
  | cons v values ih =>
    obtain ⟨out, went, whole⟩ := ih (written ++ line v)
    refine ⟨out, went, ?_⟩
    rw [whole, Array.toList_appendList, List.map_cons, List.flatMap_cons, List.append_assoc, line]

end LineOutput

def Reading.ofLine (line : List UInt8) : Reading :=
  match Text.ofBytes? line with
  | some v => .value v
  | none => .failed .invalidUtf8

theorem Reading.ofLine_ne_ended (line : List UInt8) : ofLine line ≠ .ended := by
  unfold ofLine
  split
  · nofun
  · nofun

theorem Reading.ofLine_eq_value_iff {line : List UInt8} {v : String} :
    ofLine line = .value v ↔ line = Text.bytes v := by
  unfold ofLine
  constructor
  · intro read
    split at read
    · next decoded =>
      cases read
      exact (Text.bytes_of_ofBytes? decoded).symm
    · cases read
  · rintro rfl
    rw [Text.ofBytes?_bytes]

theorem Reading.map_ofLine_eq_iff {lines : List (List UInt8)} {values : List String} :
    lines.map ofLine = values.map .value ↔ lines = values.map Text.bytes := by
  induction lines generalizing values with
  | nil => simp [eq_comm]
  | cons line lines ih =>
    cases values with
    | nil => simp
    | cons v values => simp only [List.map_cons, List.cons.injEq, ofLine_eq_value_iff, ih]

namespace LineInput

theorem read_of_end {input : LineInput} (ended : Text.nextLine? 10 13 input.rest = none) :
    input.read = (.ended, input) := by
  rw [read, ended]

theorem read_of_line {input : LineInput} {line rest : List UInt8}
    (cut : Text.nextLine? 10 13 input.rest = some (line, rest)) :
    input.read = (Reading.ofLine line, ⟨rest⟩) := by
  cases decoded : Text.ofBytes? line with
  | none => simp only [read, cut, Reading.ofLine, decoded]
  | some v => simp only [read, cut, Reading.ofLine, decoded]

theorem rest_lt_of_read {input next : LineInput} {reading : Reading}
    (taken : input.read = (reading, next)) (going : reading ≠ .ended) :
    next.rest.length < input.rest.length := by
  cases cut : Text.nextLine? 10 13 input.rest with
  | none =>
    rw [read_of_end cut] at taken
    cases taken
    exact absurd rfl going
  | some found =>
    rw [read_of_line cut] at taken
    cases taken
    exact Text.nextLine?_rest_lt cut

def readAll (input : LineInput) : List Reading :=
  match taken : input.read with
  | (.ended, _) => []
  | (.value v, next) =>
    have := rest_lt_of_read taken nofun
    .value v :: readAll next
  | (.failed cause, next) =>
    have := rest_lt_of_read taken nofun
    .failed cause :: readAll next
termination_by input.rest.length

theorem readAll_of_end {input : LineInput} (ended : Text.nextLine? 10 13 input.rest = none) :
    input.readAll = [] := by
  have taken := read_of_end ended
  rw [readAll]
  split
  · rfl
  · next again =>
    cases taken.symm.trans again
  · next again =>
    cases taken.symm.trans again

theorem readAll_of_line {input : LineInput} {line rest : List UInt8}
    (cut : Text.nextLine? 10 13 input.rest = some (line, rest)) :
    input.readAll = Reading.ofLine line :: readAll ⟨rest⟩ := by
  have taken := read_of_line cut
  rw [readAll]
  split
  · next again =>
    exact absurd (Prod.mk.inj (taken.symm.trans again)).1 (Reading.ofLine_ne_ended line)
  · next again =>
    obtain ⟨reading, rfl⟩ := Prod.mk.inj (taken.symm.trans again)
    rw [reading]
  · next again =>
    obtain ⟨reading, rfl⟩ := Prod.mk.inj (taken.symm.trans again)
    rw [reading]

theorem readAll_eq (text : List UInt8) :
    readAll ⟨text⟩ = (Text.linesOf 10 13 text).map Reading.ofLine := by
  fun_induction Text.linesOf 10 13 text with
  | case1 text ended => exact readAll_of_end ended
  | case2 text line rest cut _ ih => rw [readAll_of_line cut, ih, List.map_cons]

end LineInput

/-- Any values can be written as lines, and what is read from the bytes, until they end, is these
values again if and only if no value has a line feed in it and none ends in a carriage return. -/
theorem written_values_read_back_iff (values : List String) :
    ∃ out : LineOutput, Sink.writeAll (⟨none, #[]⟩ : LineOutput) values = (none, out) ∧
      (LineInput.readAll ⟨out.written.toList⟩ = values.map .value ↔
        ∀ v ∈ values, '\n' ∉ v.toList ∧ v.toList.getLast? ≠ some '\r') := by
  obtain ⟨out, went, whole⟩ := LineOutput.exists_writeAll #[] values
  refine ⟨out, went, ?_⟩
  have whole : out.written.toList = (values.map Text.bytes).flatMap fun line => line ++ [10] :=
    whole
  rw [LineInput.readAll_eq, Reading.map_ofLine_eq_iff, whole, Text.linesOf_flatMap_eq_self_iff,
    List.forall_mem_map]
  have lineFeed : Text.bytes (String.singleton '\n') = [10] := by decide
  have carriageReturn : Text.bytes (String.singleton '\r') = [13] := by decide
  simp only [ne_eq, Text.mem_bytes_iff lineFeed, Text.getLast?_bytes_eq_some_iff carriageReturn]

end StringStack
