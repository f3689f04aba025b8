import StringStack.Proofs.Machine.Refinement

namespace StringStack

open Text

namespace Engine

variable {engine : Engine} {pattern text : String} {k : Nat}

theorem exists_append_of_find (found : engine.find pattern text = some k) :
    ∃ before after, text = before ++ pattern ++ after ∧ k = before.utf8ByteSize ∧
      ∀ sooner rest, text = sooner ++ pattern ++ rest → before.length ≤ sooner.length := by
  rw [find_eq_offsetOf, Option.map_eq_some_iff] at found
  obtain ⟨_, answer, rfl⟩ := found
  obtain ⟨before, after, rfl, rfl, least⟩ := naive_toList_eq_some_iff.1 answer
  refine ⟨before, after, rfl, ?_, least⟩
  rw [offsetOf, take_append]

theorem find_eq_none_iff :
    engine.find pattern text = none ↔ ∀ before after, text ≠ before ++ pattern ++ after := by
  rw [← @replaceFirst_eq_none_iff text pattern "", ← map_splice_find engine, Option.map_eq_none_iff]

end Engine

theorem splice_append (before pattern after replacement : String) :
    splice (before ++ pattern ++ after) before.utf8ByteSize pattern replacement =
      before ++ replacement ++ after := by
  have parts := splitBytes_append before.toList (pattern.toList ++ after.toList)
  rw [String.ofList_toList] at parts
  have characters :
      (before ++ pattern ++ after).toList = before.toList ++ (pattern.toList ++ after.toList) := by
    rw [String.toList_append, String.toList_append, List.append_assoc]
  rw [splice, characters, parts, ← String.length_toList, List.drop_left, String.ofList_append,
    String.ofList_append, String.ofList_toList, String.ofList_toList, String.ofList_toList]

theorem isValid_append (before after : String) :
    (String.Pos.Raw.mk before.utf8ByteSize).IsValid (before ++ after) :=
  String.Pos.Raw.isValid_iff_exists_append.2 ⟨before, after, rfl, rfl⟩

theorem bytes_append_exchange (before pattern after replacement : String) :
    bytes (before ++ replacement ++ after) =
      (bytes (before ++ pattern ++ after)).take before.utf8ByteSize ++ bytes replacement ++
        (bytes (before ++ pattern ++ after)).drop (before.utf8ByteSize + pattern.utf8ByteSize) := by
  rw [← length_bytes before, ← length_bytes pattern, ← List.length_append]
  simp only [bytes_append]
  rw [List.drop_left, List.append_assoc (bytes before) (bytes pattern), List.take_left]

theorem toList_eq_append_iff {text pattern : String} {before after : List Char} :
    text.toList = before ++ pattern.toList ++ after ↔
      text = String.ofList before ++ pattern ++ String.ofList after := by
  rw [← String.toList_inj, String.toList_append, String.toList_append, String.toList_ofList,
    String.toList_ofList]

section Instruction

variable {ι ω τ : Type} [Observer τ]

theorem exists_push {limit : Nat} (v : String) {m : Memory ι ω τ}
    (room : m.stack.toList.length < limit) :
    ∃ after : Memory ι ω τ, after.stack.toList = v :: m.stack.toList ∧
      (Memory.push limit v >>= fun _ => pure Effect.next) m = .ok .next after := by
  rw [Stack.length_toList] at room
  exact ⟨_, m.stack.toList_push v, bind_of_ok (if_pos room)⟩

variable [Source ι] [Sink ω]

theorem exists_perform_replaceOne (settings : Settings) (labels : LabelTable) {m : Memory ι ω τ}
    {text pattern replacement otherwise : String} {rest : List String}
    (top : m.stack.toList = text :: pattern :: replacement :: otherwise :: rest) :
    ∃ last : Memory ι ω τ, last.stack.toList = rest ∧
      perform settings labels .replaceOne m =
        match settings.engine.find pattern text with
        | some offset =>
          (Memory.push settings.maxStack (splice text offset pattern replacement) >>=
            fun _ => pure .next) last
        | none => jumpTo labels otherwise last := by
  obtain ⟨m₁, popped₁, seen₁⟩ := pop_of_cons (seen_at_first (m := m) top)
  obtain ⟨m₂, popped₂, seen₂⟩ := pop_of_cons seen₁
  obtain ⟨m₃, popped₃, seen₃⟩ := pop_of_cons seen₂
  obtain ⟨m₄, popped₄, seen₄⟩ := pop_of_cons seen₃
  refine ⟨m₄, congrArg ListMachine.Memory.stack seen₄, ?_⟩
  rw [perform, bind_of_ok popped₁, bind_of_ok popped₂, bind_of_ok popped₃, bind_of_ok popped₄]
  cases settings.engine.find pattern text with
  | some offset => rfl
  | none => rfl

/-- Whatever the engine, an offset that is found is the end of a character and so is the end of the
pattern there; exchanging the bytes between them gives a text, and in characters that is the text
with its first occurrence of the pattern replaced. Nothing is found exactly if the pattern does not
occur among the characters. The instruction puts that text in the place of its operands, or jumps
without them. -/
theorem replaceOne_on_characters (settings : Settings) (labels : LabelTable) (m : Memory ι ω τ)
    (text pattern replacement otherwise : String) (rest : List String) :
    (∀ k, settings.engine.find pattern text = some k →
      (String.Pos.Raw.mk k).IsValid text ∧
      (String.Pos.Raw.mk (k + pattern.utf8ByteSize)).IsValid text ∧
      bytes (splice text k pattern replacement) =
        (bytes text).take k ++ bytes replacement ++ (bytes text).drop (k + pattern.utf8ByteSize) ∧
      ∃ before after, text.toList = before ++ pattern.toList ++ after ∧
        (splice text k pattern replacement).toList = before ++ replacement.toList ++ after ∧
        ∀ sooner later, text.toList = sooner ++ pattern.toList ++ later →
        before.length ≤ sooner.length) ∧
    (settings.engine.find pattern text = none ↔
      ∀ before after, text.toList ≠ before ++ pattern.toList ++ after) ∧
    (m.stack.toList = text :: pattern :: replacement :: otherwise :: rest →
      rest.length < settings.maxStack →
      ∃ last : Memory ι ω τ,
        match settings.engine.find pattern text with
        | some k =>
          perform settings labels .replaceOne m = .ok .next last ∧
            last.stack.toList = splice text k pattern replacement :: rest
        | none => perform settings labels .replaceOne m = jumpTo labels otherwise last ∧
        last.stack.toList = rest) := by
  refine ⟨?_, ?_, ?_⟩
  · intro k found
    obtain ⟨before, after, rfl, rfl, least⟩ := Engine.exists_append_of_find found
    have ended : before.utf8ByteSize + pattern.utf8ByteSize = (before ++ pattern).utf8ByteSize :=
      (String.utf8ByteSize_append ..).symm
    rw [splice_append]
    refine ⟨?_, ended ▸ isValid_append (before ++ pattern) after, bytes_append_exchange ..,
      before.toList, after.toList,
      ?_, ?_, ?_⟩
    · rw [String.append_assoc]
      exact isValid_append before (pattern ++ after)
    · rw [String.toList_append, String.toList_append]
    · rw [String.toList_append, String.toList_append]
    · intro sooner later split
      have shorter := least _ _ (toList_eq_append_iff.1 split)
      rwa [String.length_ofList] at shorter
  · simp only [ne_eq, toList_eq_append_iff]
    rw [Engine.find_eq_none_iff]
    constructor
    · exact fun absent before after => absent _ _
    · intro absent before after split
      exact absent before.toList after.toList (by rwa [String.ofList_toList, String.ofList_toList])
  · intro top room
    obtain ⟨last, rfl, performed⟩ := exists_perform_replaceOne settings labels top
    rw [performed]
    cases settings.engine.find pattern text with
    | none => exact ⟨last, rfl, rfl⟩
    | some k =>
      obtain ⟨after, stack, pushed⟩ := exists_push (splice text k pattern replacement) room
      exact ⟨after, pushed, stack⟩

end Instruction

end StringStack
