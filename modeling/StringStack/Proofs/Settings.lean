import StringStack.Settings
import StringStack.Proofs.FirstError
import StringStack.Proofs.Text.Blank
import StringStack.Proofs.Text.Decimal
import StringStack.Proofs.Search.Names

namespace StringStack.Settings

open Text

/-- The variable holds nothing to be read. -/
inductive Silent (environment : Environment) (key : String) : Prop where
  | unset : environment key = none → Silent environment key
  | noText {contents : List UInt8} :
      environment key = some contents → (∀ text, bytes text ≠ contents) →
      Silent environment key
  | blank {value : String} : environment key = some (bytes value) →
      (∀ c ∈ value.toList, isBlank c = true) →
      Silent environment key

/-- The variable holds this text. Something is left of it without the blanks around it. -/
structure Holds (environment : Environment) (key value : String) (inner : List Char) : Prop where
  set : environment key = some (bytes value)
  trimmed : Trimmed value.toList inner
  filled : inner ≠ []

section Variables

variable {β : Type}

/-- The variable leaves its default, or what it holds means this. -/
inductive Supplies (environment : Environment) (key : String) (means : List Char → β → Prop)
    (default : β) :
    β → Prop where
  | default : Silent environment key → Supplies environment key means default default
  | value {value : String} {inner : List Char} {b : β} :
      Holds environment key value inner → means inner b →
      Supplies environment key means default b

inductive Rejects (environment : Environment) (key : String) (means : List Char → β → Prop)
    (explains : List Char → SettingFault → Prop) : SettingError → Prop where
  | value {value : String} {inner : List Char} {cause : SettingFault} :
      Holds environment key value inner →
      (∀ b, ¬ means inner b) → explains inner cause →
        Rejects environment key means explains ⟨key, value, cause⟩

end Variables

def NoLimit (inner : List Char) (cause : SettingFault) : Prop :=
  ∃ fault, Decimal.NoWord inner fault ∧ cause = .number fault

def Names (inner : List Char) (engine : Engine) : Prop := Engine.IsName (String.ofList inner) engine

def NoName (inner : List Char) (cause : SettingFault) : Prop :=
  cause = .engine ⟨String.ofList inner⟩

abbrev SuppliesLimit (environment : Environment) (key : String) : Nat → Prop :=
  Supplies environment key Decimal.IsWord (2 ^ 64 - 1)

abbrev RejectsLimit (environment : Environment) (key : String) : SettingError → Prop :=
  Rejects environment key Decimal.IsWord NoLimit

abbrev SuppliesEngine (environment : Environment) : Engine → Prop :=
  Supplies environment "ROBOT_SEARCH" Names .boyerMoore

abbrev RejectsEngine (environment : Environment) : SettingError → Prop :=
  Rejects environment "ROBOT_SEARCH" Names NoName

structure Configures (environment : Environment) (s : Settings) : Prop where
  maxOps : SuppliesLimit environment "ROBOT_MAX_OPS" s.maxOps
  maxStack : SuppliesLimit environment "ROBOT_MAX_STACK" s.maxStack
  engine : SuppliesEngine environment s.engine

/-- The first variable that is rejected; those before it are left at their defaults or supplied. -/
inductive FirstRejected (environment : Environment) (e : SettingError) : Prop where
  | maxOps : RejectsLimit environment "ROBOT_MAX_OPS" e → FirstRejected environment e
  | maxStack {maxOps : Nat} : SuppliesLimit environment "ROBOT_MAX_OPS" maxOps →
      RejectsLimit environment "ROBOT_MAX_STACK" e → FirstRejected environment e
  | engine {maxOps maxStack : Nat} : SuppliesLimit environment "ROBOT_MAX_OPS" maxOps →
      SuppliesLimit environment "ROBOT_MAX_STACK" maxStack → RejectsEngine environment e →
        FirstRejected environment e

section Variables

variable {β : Type} {environment : Environment} {key : String}
  {parse : String → Except SettingFault β} {default b : β}
  {means : List Char → β → Prop} {explains : List Char → SettingFault → Prop}

theorem silent_or_holds (environment : Environment) (key : String) :
    Silent environment key ∨ ∃ value inner, Holds environment key value inner := by
  cases found : environment key with
  | none => exact .inl (.unset found)
  | some contents =>
    cases decoded : ofBytes? contents with
    | none =>
      refine .inl (.noText found ?_)
      rintro text rfl
      rw [ofBytes?_bytes] at decoded
      cases decoded
    | some value =>
      rw [← bytes_of_ofBytes? decoded] at found
      cases left : trim value.toList with
      | nil => exact .inl (.blank found (trim_eq_nil_iff.1 left))
      | cons c inner =>
        exact .inr ⟨value, c :: inner, found, trim_eq_iff.1 left, List.cons_ne_nil c inner⟩

theorem Silent.setting_eq (silent : Silent environment key) :
    setting environment key parse default = .ok default := by
  unfold setting
  cases silent with
  | unset unset => rw [unset, Option.bind_none]
  | @noText contents set noText =>
    have decoded : ofBytes? contents = none :=
      Option.eq_none_iff_forall_not_mem.2 fun text decoded =>
        noText text (bytes_of_ofBytes? decoded)
    rw [set, Option.bind_some, decoded]
  | @blank value set blank =>
    simp only [set, Option.bind_some, ofBytes?_bytes, trim_eq_nil_iff.2 blank]

theorem Holds.setting_eq {value : String} {inner : List Char}
    (holds : Holds environment key value inner) :
    setting environment key parse default =
      (parse (String.ofList inner)).mapError (⟨key, value, ·⟩) := by
  unfold setting
  simp only [holds.set, Option.bind_some, ofBytes?_bytes, trim_eq_iff.2 holds.trimmed]
  split
  · exact absurd rfl holds.filled
  · rfl

theorem setting_eq_ok_iff
    (accepts : ∀ inner b, parse (String.ofList inner) = .ok b ↔ means inner b) :
    setting environment key parse default = .ok b ↔ Supplies environment key means default b := by
  constructor
  · intro read
    obtain silent | ⟨value, inner, holds⟩ := silent_or_holds environment key
    · rw [silent.setting_eq, Except.ok.injEq] at read
      exact read ▸ .default silent
    · rw [holds.setting_eq, mapError_eq_ok_iff, accepts] at read
      exact .value holds read
  · intro supplies
    cases supplies with
    | default silent => exact silent.setting_eq
    | value holds meant => rw [holds.setting_eq, mapError_eq_ok_iff, accepts]; exact meant

theorem Supplies.unique {b' : β}
    (accepts : ∀ inner b, parse (String.ofList inner) = .ok b ↔ means inner b)
    (one : Supplies environment key means default b)
    (other : Supplies environment key means default b') : b = b' :=
  Except.ok.inj (((setting_eq_ok_iff accepts).2 one).symm.trans
    ((setting_eq_ok_iff accepts).2 other))

theorem setting_eq_error_iff {e : SettingError}
    (refuses : ∀ inner cause, parse (String.ofList inner) = .error cause ↔
      (∀ b, ¬ means inner b) ∧ explains inner cause) :
    setting environment key parse default = .error e ↔
      Rejects environment key means explains e := by
  constructor
  · intro failed
    obtain silent | ⟨value, inner, holds⟩ := silent_or_holds environment key
    · rw [silent.setting_eq] at failed
      cases failed
    · rw [holds.setting_eq, mapError_eq_error_iff] at failed
      obtain ⟨cause, failed, rfl⟩ := failed
      obtain ⟨meaningless, explained⟩ := (refuses inner cause).1 failed
      exact .value holds meaningless explained
  · rintro ⟨holds, meaningless, explained⟩
    rw [holds.setting_eq, mapError_eq_error_iff]
    exact ⟨_, (refuses _ _).2 ⟨meaningless, explained⟩, rfl⟩

end Variables

theorem limit_eq_ok_iff {inner : List Char} {n : Nat} :
    limit (String.ofList inner) = .ok n ↔ Decimal.IsWord inner n := by
  rw [limit, mapError_eq_ok_iff, String.toList_ofList, Decimal.word_eq_ok_iff]

theorem limit_eq_error_iff {inner : List Char} {cause : SettingFault} :
    limit (String.ofList inner) = .error cause ↔
      (∀ n, ¬ Decimal.IsWord inner n) ∧ NoLimit inner cause := by
  rw [limit, mapError_eq_error_iff, String.toList_ofList]
  constructor
  · rintro ⟨fault, failed, rfl⟩
    refine ⟨fun n read => ?_, fault, Decimal.word_eq_error_iff.1 failed, rfl⟩
    rw [Decimal.word_eq_ok_iff.2 read] at failed
    cases failed
  · rintro ⟨-, fault, noWord, rfl⟩
    exact ⟨fault, Decimal.word_eq_error_iff.2 noWord, rfl⟩

theorem engineNamed_eq_ok_iff {inner : List Char} {engine : Engine} :
    engineNamed (String.ofList inner) = .ok engine ↔ Names inner engine := by
  rw [engineNamed, mapError_eq_ok_iff, Engine.ofName_eq_ok_iff, Names]

theorem engineNamed_eq_error_iff {inner : List Char} {cause : SettingFault} :
    engineNamed (String.ofList inner) = .error cause ↔
      (∀ engine, ¬ Names inner engine) ∧ NoName inner cause := by
  rw [engineNamed, mapError_eq_error_iff]
  constructor
  · rintro ⟨unknown, failed, rfl⟩
    obtain ⟨rfl, nameless⟩ := Engine.ofName_eq_error_iff.1 failed
    exact ⟨nameless, rfl⟩
  · rintro ⟨nameless, rfl⟩
    exact ⟨_, Engine.ofName_eq_error_iff.2 ⟨rfl, nameless⟩, rfl⟩

theorem ofEnvironment_eq_ok_iff {environment : Environment} {s : Settings} :
    ofEnvironment environment = .ok s ↔ Configures environment s := by
  simp only [ofEnvironment, bind_eq_ok_iff, setting_eq_ok_iff fun _ _ => limit_eq_ok_iff,
    setting_eq_ok_iff fun _ _ => engineNamed_eq_ok_iff]
  constructor
  · rintro ⟨maxOps, ops, maxStack, stack, engine, search, ⟨⟩⟩
    exact ⟨ops, stack, search⟩
  · rintro ⟨ops, stack, search⟩
    exact ⟨_, ops, _, stack, _, search, rfl⟩

theorem ofEnvironment_eq_error_iff {environment : Environment} {e : SettingError} :
    ofEnvironment environment = .error e ↔ FirstRejected environment e := by
  simp only [ofEnvironment, bind_eq_error_iff, setting_eq_ok_iff fun _ _ => limit_eq_ok_iff,
    setting_eq_ok_iff fun _ _ => engineNamed_eq_ok_iff,
    setting_eq_error_iff fun _ _ => limit_eq_error_iff,
    setting_eq_error_iff fun _ _ => engineNamed_eq_error_iff]
  constructor
  · rintro (rejected | ⟨maxOps, ops, rejected | ⟨maxStack, stack, rejected | ⟨_, _, ⟨⟩⟩⟩⟩)
    · exact .maxOps rejected
    · exact .maxStack ops rejected
    · exact .engine ops stack rejected
  · rintro (rejected | ⟨ops, rejected⟩ | ⟨ops, stack, rejected⟩)
    · exact .inl rejected
    · exact .inr ⟨_, ops, .inl rejected⟩
    · exact .inr ⟨_, ops, .inr ⟨_, stack, .inl rejected⟩⟩

/-- The settings are read exactly where each of the three variables leaves its default or supplies a
value, and they have these values. Otherwise the first variable that is rejected is reported, with
its name, all that it holds and the cause. -/
theorem settings_supplied_or_rejected (environment : Environment) :
    (∀ s, ofEnvironment environment = .ok s ↔ Configures environment s) ∧
    ∀ e, ofEnvironment environment = .error e ↔ FirstRejected environment e :=
  ⟨fun _ => ofEnvironment_eq_ok_iff, fun _ => ofEnvironment_eq_error_iff⟩

example :
    let of (ops search : String) : Environment := fun key =>
      if key = "ROBOT_MAX_OPS" then some (bytes ops)
      else if key = "ROBOT_SEARCH" then some (bytes search)
      else none
    ofEnvironment (of "\u2003+007\n" "Rk ") = .ok { maxOps := 7, engine := .rabinKarp } ∧
      ofEnvironment (of " 18446744073709551616" "kmp") =
        .error ⟨"ROBOT_MAX_OPS", " 18446744073709551616", .number .tooLarge⟩ := by
  decide +kernel

end StringStack.Settings
