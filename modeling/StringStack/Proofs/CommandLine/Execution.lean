import StringStack.CommandLine.Execution
import StringStack.Proofs.Settings
import StringStack.Proofs.Machine.OutputRoom

/-! What a command does. Settings, program and input are made ready in this order, and what keeps
one of them from being ready is reported before the next one is looked at. If nothing does, the
program runs, what it writes is all that is printed, and how it ends decides on the exit code. -/
namespace StringStack.CommandLine

open Text Settings

inductive Chosen {β : Type} (flag? : Option β) (supplied : β → Prop) : β → Prop where
  | flag {b : β} : flag? = some b → Chosen flag? supplied b
  | environment {b : β} : flag? = none → supplied b → Chosen flag? supplied b

/-- The settings that a request has in an environment. No variable may be rejected there, also if it
is not needed. -/
structure Chooses (r : Request) (environment : Environment) (s : Settings) : Prop where
  configured : ∃ c, Configures environment c
  maxOps : Chosen r.maxOps? (SuppliesLimit environment "ROBOT_MAX_OPS") s.maxOps
  maxStack : Chosen r.maxStack? (SuppliesLimit environment "ROBOT_MAX_STACK") s.maxStack
  engine : Chosen r.engine? (SuppliesEngine environment) s.engine

inductive Entry.NoText : Entry → DeviceFault → Prop where
  | missing : NoText .missing .notFound
  | directory : NoText .directory .isDirectory
  | unreadable (description : String) : NoText (.unreadable description) (.other description)
  | invalidUtf8 {contents : List UInt8} :
      (∀ text, bytes text ≠ contents) → NoText (.file contents) .invalidUtf8

/-- An entry as input. A directory can be opened, and fails when it is read. -/
inductive Entry.Opens : Entry → InputFile → Prop where
  | file (contents : List UInt8) : Opens (.file contents) (.lines ⟨contents⟩)
  | directory : Opens .directory (.broken .isDirectory)

inductive Entry.Unopened : Entry → DeviceFault → Prop where
  | missing : Unopened .missing .notFound
  | unreadable (description : String) : Unopened (.unreadable description) (.other description)

inductive Serves (r : Request) (world : World) : InputFile → Prop where
  | stdin : r.input? = none → Serves r world (.lines ⟨world.stdin⟩)
  | file {file : String} {input : InputFile} :
      r.input? = some file → (world.entry file).Opens input →
      Serves r world input

def Sources (r : Request) (world : World) (source : String) : Prop :=
  world.entry r.program = .file (bytes source)

structure Prepares (r : Request) (world : World) (setup : Setup) : Prop where
  settings : Chooses r world.environment setup.settings
  program : ∃ source, Sources r world source ∧ Program.loadText source = .ok setup.program
  input : Serves r world setup.input

/-- The first of settings, program and input that cannot be made ready. -/
inductive Prevents (r : Request) (world : World) : Failure → Prop where
  | settings {e : SettingError} : FirstRejected world.environment e → Prevents r world (.settings e)
  | unreadable {cause : DeviceFault} :
      (∃ s, Chooses r world.environment s) → (world.entry r.program).NoText cause →
      Prevents r world (.unreadable r.program cause)
  | load {source : String} {e : LoadError} :
      (∃ s, Chooses r world.environment s) → Sources r world source →
      Program.loadText source = .error e → Prevents r world (.load e)
  | unopened {source file : String} {p : Program} {cause : DeviceFault} :
      (∃ s, Chooses r world.environment s) →
      Sources r world source → Program.loadText source = .ok p → r.input? = some file →
        (world.entry file).Unopened cause → Prevents r world (.unopened file cause)

section Settings

variable {r : Request} {environment : Environment} {s : Settings}

theorem chosen_getD {β : Type} {flag? : Option β} {supplied : β → Prop} {b : β}
    (given : supplied b) :
    Chosen flag? supplied (flag?.getD b) := by
  cases flag? with
  | none => exact .environment rfl given
  | some v => exact .flag rfl

theorem Chosen.eq_getD {β : Type} {flag? : Option β} {supplied : β → Prop} {a b : β}
    (chosen : Chosen flag? supplied a) (only : ∀ c, supplied c → c = b) : a = flag?.getD b := by
  cases chosen with
  | flag given =>
    rw [given]
    rfl
  | environment absent given =>
    rw [absent, only a given]
    rfl

theorem settings_eq_ok_iff : r.settings environment = .ok s ↔ Chooses r environment s := by
  rw [Request.settings, map_eq_ok_iff]
  simp only [ofEnvironment_eq_ok_iff]
  constructor
  · rintro ⟨c, configures, rfl⟩
    exact ⟨⟨c, configures⟩, chosen_getD configures.maxOps, chosen_getD configures.maxStack,
      chosen_getD configures.engine⟩
  · rintro ⟨⟨c, configures⟩, maxOps, maxStack, engine⟩
    have ops :=
      maxOps.eq_getD fun _ other => other.unique (fun _ _ => limit_eq_ok_iff) configures.maxOps
    have stack :=
      maxStack.eq_getD fun _ other => other.unique (fun _ _ => limit_eq_ok_iff) configures.maxStack
    have search :=
      engine.eq_getD fun _ other =>
        other.unique (fun _ _ => engineNamed_eq_ok_iff) configures.engine
    exact ⟨c, configures, by rw [← ops, ← stack, ← search]⟩

theorem settings_eq_error_iff {e : SettingError} :
    r.settings environment = .error e ↔ FirstRejected environment e := by
  rw [Request.settings, map_eq_error_iff, ofEnvironment_eq_error_iff]

end Settings

section Entries

variable {entry : Entry}

theorem text_file (contents : List UInt8) :
    (∃ text, (Entry.file contents).text = .ok text ∧ contents = bytes text) ∨
      (Entry.file contents).text = .error .invalidUtf8 ∧ ∀ text, bytes text ≠ contents := by
  cases decoded : ofBytes? contents with
  | some text =>
    refine .inl ⟨text, ?_, (bytes_of_ofBytes? decoded).symm⟩
    simp only [Entry.text, decoded]
  | none =>
    refine .inr ⟨?_, ?_⟩
    · simp only [Entry.text, decoded]
    · rintro text rfl
      rw [ofBytes?_bytes] at decoded
      cases decoded

theorem text_eq_ok_iff {text : String} : entry.text = .ok text ↔ entry = .file (bytes text) := by
  cases entry with
  | file contents =>
    obtain ⟨found, read, rfl⟩ | ⟨refused, noText⟩ := text_file contents
    · rw [read, Except.ok.injEq, Entry.file.injEq]
      exact ⟨congrArg bytes, bytes_injective⟩
    · rw [refused]
      refine iff_of_false nofun ?_
      rintro ⟨⟩
      exact noText text rfl
  | _ => exact iff_of_false nofun nofun

theorem text_eq_error_iff {cause : DeviceFault} :
    entry.text = .error cause ↔ entry.NoText cause := by
  constructor
  · intro failed
    cases entry with
    | missing =>
      cases failed
      exact .missing
    | directory =>
      cases failed
      exact .directory
    | unreadable description =>
      cases failed
      exact .unreadable description
    | file contents =>
      obtain ⟨found, read, -⟩ | ⟨refused, noText⟩ := text_file contents
      · cases read.symm.trans failed
      · cases refused.symm.trans failed
        exact .invalidUtf8 noText
  · intro failed
    cases failed with
    | @invalidUtf8 contents noText =>
      obtain ⟨found, -, same⟩ | ⟨refused, -⟩ := text_file contents
      · exact absurd same.symm (noText found)
      · exact refused
    | _ => rfl

theorem input_eq_ok_iff {input : InputFile} : entry.input = .ok input ↔ entry.Opens input := by
  cases entry with
  | missing => exact iff_of_false nofun nofun
  | unreadable description => exact iff_of_false nofun nofun
  | directory =>
    constructor
    · rintro ⟨⟩
      exact .directory
    · rintro ⟨⟩
      rfl
  | file contents =>
    constructor
    · rintro ⟨⟩
      exact .file contents
    · rintro ⟨⟩
      rfl

theorem input_eq_error_iff {cause : DeviceFault} :
    entry.input = .error cause ↔ entry.Unopened cause := by
  cases entry with
  | missing =>
    constructor
    · rintro ⟨⟩
      exact .missing
    · rintro ⟨⟩
      rfl
  | unreadable description =>
    constructor
    · rintro ⟨⟩
      exact .unreadable description
    · rintro ⟨⟩
      rfl
  | directory => exact iff_of_false nofun nofun
  | file contents => exact iff_of_false nofun nofun

end Entries

section Preparing

variable {r : Request} {world : World}

theorem prepare_eq_ok_iff {setup : Setup} :
    r.prepare world = .ok setup ↔ Prepares r world setup := by
  simp only [Request.prepare, bind_eq_ok_iff, mapError_eq_ok_iff, settings_eq_ok_iff,
    text_eq_ok_iff]
  constructor
  · rintro ⟨s, chooses, source, sources, p, loaded, opened⟩
    split at opened
    · next absent =>
      cases opened
      exact ⟨chooses, ⟨source, sources, loaded⟩, .stdin absent⟩
    · next file given =>
      simp only [bind_eq_ok_iff, mapError_eq_ok_iff, input_eq_ok_iff] at opened
      obtain ⟨input, opens, ⟨⟩⟩ := opened
      exact ⟨chooses, ⟨source, sources, loaded⟩, .file given opens⟩
  · rintro ⟨chooses, ⟨source, sources, loaded⟩, serves⟩
    refine ⟨setup.settings, chooses, source, sources, setup.program, loaded, ?_⟩
    obtain ⟨s, p, input⟩ := setup
    cases serves with
    | stdin absent =>
      rw [absent]
      rfl
    | file given opens =>
      simp only [given, input_eq_ok_iff.2 opens]
      rfl

theorem prepare_eq_error_iff {cause : Failure} :
    r.prepare world = .error cause ↔ Prevents r world cause := by
  simp only [Request.prepare, bind_eq_error_iff, mapError_eq_ok_iff, mapError_eq_error_iff,
    settings_eq_ok_iff, settings_eq_error_iff, text_eq_ok_iff, text_eq_error_iff]
  constructor
  · rintro (⟨e, rejected, rfl⟩ |
      ⟨s, chooses, ⟨fault, noText, rfl⟩ | ⟨source, sources, ⟨e, stuck, rfl⟩ |
      ⟨p, loaded, opened⟩⟩⟩)
    · exact .settings rejected
    · exact .unreadable ⟨s, chooses⟩ noText
    · exact .load ⟨s, chooses⟩ sources stuck
    · split at opened
      · cases opened
      · next file given =>
        rw [bind_eq_error_iff, mapError_eq_error_iff] at opened
        obtain ⟨fault, unopened, rfl⟩ | ⟨_, _, ⟨⟩⟩ := opened
        exact .unopened ⟨s, chooses⟩ sources loaded given (input_eq_error_iff.1 unopened)
  · intro prevents
    cases prevents with
    | settings rejected => exact .inl ⟨_, rejected, rfl⟩
    | unreadable chooses noText =>
      obtain ⟨s, chooses⟩ := chooses
      exact .inr ⟨s, chooses, .inl ⟨_, noText, rfl⟩⟩
    | load chooses sources stuck =>
      obtain ⟨s, chooses⟩ := chooses
      exact .inr ⟨s, chooses, .inr ⟨_, sources, .inl ⟨_, stuck, rfl⟩⟩⟩
    | @unopened source file p cause chooses sources loaded given unopened =>
      obtain ⟨s, chooses⟩ := chooses
      refine .inr ⟨s, chooses, .inr ⟨source, sources, .inr ⟨p, loaded, ?_⟩⟩⟩
      simp only [given, input_eq_error_iff.2 unopened]
      rfl

theorem exists_prepares_iff :
    (∃ setup, Prepares r world setup) ↔ ∀ cause, ¬ Prevents r world cause := by
  simp only [← prepare_eq_ok_iff, ← prepare_eq_error_iff]
  cases r.prepare world with
  | ok setup => exact iff_of_true ⟨setup, rfl⟩ nofun
  | error cause => exact iff_of_false nofun fun none => none cause rfl

end Preparing

section Running

variable {ω τ : Type} [Sink ω] [Observer τ]

theorem transports_input (settings : Settings) :
    Transports (Memory.convert .lines id id : Memory LineInput ω τ → Memory InputFile ω τ)
      (fun _ => False) settings settings :=
  transports_convert settings (lifts_read (fun _ => rfl) (fun _ => rfl) fun _ _ => rfl)
    (lifts_write (fun _ => rfl) fun _ _ => rfl) fun _ _ => rfl

theorem run_input (settings : Settings) (p : Program) (input : LineInput) (output : ω)
    (observed : τ) :
    run settings p (InputFile.lines input) output observed =
      (run settings p input output observed).through (Memory.convert .lines id id) := by
  obtain ⟨_, _, _, _, never, -⟩ | same :=
    (transports_input settings).runFrom p (.start input output observed)
  · exact never.elim
  · exact same

end Running

section Reporting

variable {parse : ArgumentParser} {arguments : List String} {r : Request}
  (parsed : parse arguments = .ok r) {world : World}
include parsed

theorem execute_of_prevents {cause : Failure} (prevents : Prevents r world cause) :
    execute parse arguments world = ⟨1, [], some cause, none⟩ := by
  simp only [execute, parsed, Request.execute, prepare_eq_error_iff.2 prevents]

theorem execute_of_prepares {setup : Setup} (prepares : Prepares r world setup) :
    execute parse arguments world = .ofOutcome r.stats setup.run := by
  simp only [execute, parsed, Request.execute, prepare_eq_ok_iff.2 prepares]

end Reporting

namespace Report

variable (stats : Bool) (o : Outcome InputFile LineOutput Statistics)

theorem ofOutcome_stdout : (ofOutcome stats o).stdout = o.final.memory.output.written.toList := by
  unfold ofOutcome
  split <;> rfl

theorem ofOutcome_failure? : (ofOutcome stats o).failure? = o.failure?.map .run := by
  unfold ofOutcome
  split <;> simp only [*, Option.map_some, Option.map_none]

theorem ofOutcome_exitCode :
    (ofOutcome stats o).exitCode = if o.failure? = none then 0 else 1 := by
  unfold ofOutcome
  split <;> simp only [*, reduceCtorEq, if_true, if_false]

end Report

/-- However arguments are read: if they make a request, a command fails with the first of settings,
program and input that cannot be made ready, with exit code 1 and nothing on standard output. If
all of them are ready, standard output has the lines of what the run writes, also if the run fails
then; the exit code is 0 exactly if it does not. Standard input and files that hold lines are read
line by line. -/
theorem command_prepares_and_runs {parse : ArgumentParser} {arguments : List String} {r : Request}
    (parsed : parse arguments = .ok r) (world : World) :
    ((∃ setup, Prepares r world setup) ↔ ∀ cause, ¬ Prevents r world cause) ∧
    (∀ cause, Prevents r world cause →
      let report := execute parse arguments world
      report.exitCode = 1 ∧ report.stdout = [] ∧ report.failure? = some cause) ∧
    ∀ settings p input, Prepares r world ⟨settings, p, input⟩ →
      let outcome := run settings p input (⟨none, #[]⟩ : LineOutput) ({} : Statistics)
      let collecting := run settings p input (⟨#[]⟩ : Collected) ({} : Statistics)
      let report := execute parse arguments world
      report.stdout = outcome.final.memory.output.written.toList ∧
      report.stdout = collecting.final.memory.output.values.toList.flatMap LineOutput.line ∧
      (report.exitCode = 0 ↔ outcome.failure? = none) ∧
      (outcome.failure? ≠ none → report.exitCode = 1) ∧
      report.failure? = outcome.failure?.map .run ∧
      ∀ lines : LineInput, input = .lines lines →
        outcome = (run settings p lines (⟨none, #[]⟩ : LineOutput) ({} : Statistics)).through
          (Memory.convert .lines id id) := by
  refine ⟨exists_prepares_iff, ?_, ?_⟩
  · intro cause prevents report
    have failed : report = ⟨1, [], some cause, none⟩ := execute_of_prevents parsed prevents
    rw [failed]
    exact ⟨rfl, rfl, rfl⟩
  · intro settings p input prepares outcome collecting report
    have same : outcome = collecting.through (Memory.convert id Collected.lines id) :=
      run_lines settings p input ({} : Statistics)
    have written : outcome.final.memory.output.written.toList =
        collecting.final.memory.output.values.toList.flatMap LineOutput.line := by
      rw [same]
      rfl
    have ran : report = .ofOutcome r.stats outcome := execute_of_prepares parsed prepares
    have stdout : report.stdout = outcome.final.memory.output.written.toList :=
      ran ▸ Report.ofOutcome_stdout r.stats outcome
    have code : report.exitCode = if outcome.failure? = none then 0 else 1 :=
      ran ▸ Report.ofOutcome_exitCode r.stats outcome
    have failing (failed : outcome.failure? ≠ none) : report.exitCode = 1 :=
      code.trans (if_neg failed)
    refine ⟨stdout, stdout.trans written, ?_, failing,
      ran ▸ Report.ofOutcome_failure? r.stats outcome, ?_⟩
    · constructor
      · intro zero
        by_contra failed
        rw [failing failed] at zero
        cases zero
      · exact fun finished => code.trans (if_pos finished)
    · rintro lines rfl
      exact run_input settings p lines _ _

/-- Reads the name of a program and a limit behind it, as in `-l2`. -/
def limitParser : ArgumentParser
  | [program, flag] =>
    match flag.toList with
    | '-' :: 'l' :: digits =>
      match Decimal.word digits with
      | .ok limit => .ok ⟨program, none, none, some limit, none, false⟩
      | .error _ => .error ⟨2, []⟩
    | _ => .error ⟨2, []⟩
  | _ => .error ⟨2, []⟩

theorem command_limited_by_flag :
    let arguments := ["twice", "-l2"]
    let r : Request := ⟨"twice", none, none, some 2, none, false⟩
    let world (maxOps : Option (List UInt8)) : World :=
      ⟨fun _ => .file (bytes "PUSH 'é'\nWRITE\nWRITE"), [],
        fun key => if key = "ROBOT_MAX_OPS" then maxOps else none⟩
    let allowed := execute limitParser arguments (world none)
    let rejected := execute limitParser arguments (world (some (bytes "-1")))
    limitParser arguments = .ok r ∧
      allowed.stdout = [195, 169, 10] ∧ allowed.exitCode = 1 ∧
      allowed.failure? = some (.run (.tooLong 2)) ∧
      rejected.stdout = [] ∧ rejected.exitCode = 1 ∧
      rejected.failure? = some (.settings ⟨"ROBOT_MAX_OPS", "-1", .number .invalidDigit⟩) := by
  intro arguments r world allowed rejected
  have parsed : limitParser arguments = .ok r := rfl
  have configures : Configures (world none).environment {} :=
    ⟨.default (.unset rfl), .default (.unset rfl), .default (.unset rfl)⟩
  have prepares : Prepares r (world none)
      ⟨{ maxOps := 2 }, ⟨#[.push "é", .write, .write], .empty⟩, .lines ⟨[]⟩⟩ :=
    ⟨⟨⟨_, configures⟩, .flag rfl, .environment rfl configures.maxStack,
      .environment rfl configures.engine⟩, ⟨_, rfl, by decide +kernel⟩, .stdin rfl⟩
  have prevents : Prevents r (world (some (bytes "-1")))
      (.settings ⟨"ROBOT_MAX_OPS", "-1", .number .invalidDigit⟩) :=
    .settings (ofEnvironment_eq_error_iff.1 (by decide +kernel))
  obtain ⟨written, -, -, failed, failure, -⟩ :=
    (command_prepares_and_runs parsed (world none)).2.2 _ _ _ prepares
  obtain ⟨code, nothing, cause⟩ := (command_prepares_and_runs parsed _).2.1 _ prevents
  refine ⟨parsed, ?_, failed (by decide +kernel), ?_, nothing, code, cause⟩
  · exact written.trans (by decide +kernel)
  · exact failure.trans (by decide +kernel)

end StringStack.CommandLine
