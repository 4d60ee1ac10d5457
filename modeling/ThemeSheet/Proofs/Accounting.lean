import ThemeSheet.Load.Session
import ThemeSheet.Proofs.Metadata
import Mathlib.Data.List.DropRight

/-!
# What a session collects

A load that succeeds reports nothing but a unit size that is no vector, and one
that fails reports its failure and nothing else, or hands it back and reports
nothing.  So each request of a session adds a row of reports that does not
depend on the requests before it, and what is taken are the rows since the last
time.
-/

namespace ThemeSheet

/-! ## One load -/

section Load

variable {options : LoadOptions} {css source : String} {theme : Theme} {failure : Failure}

theorem Failure.isRecoverable_iff (failure : Failure) :
    failure.isRecoverable = true ↔ failure.kind = .invalidUnitSize := by
  cases failure <;> simp [Failure.isRecoverable, Failure.kind]

theorem diagnostics_append (front back : List Event) :
    diagnostics (front ++ back) = diagnostics front ++ diagnostics back := by
  rw [diagnostics, List.filterMap_append, List.map_append, diagnostics, diagnostics]

theorem diagnostics_report (options : LoadOptions) (source : String) (failure : Failure) :
    diagnostics [options.report source failure] = [.ofFailure source failure] :=
  rfl

theorem diagnostics_resolveUnitSize (options : LoadOptions) (source : String)
    (entry : Option String) :
    diagnostics (options.resolveUnitSize source entry).2 = [] ∨
      ∃ value, diagnostics (options.resolveUnitSize source entry).2 =
        [.ofFailure source (.invalidUnitSize value)] := by
  cases entry with
  | none => exact .inl rfl
  | some value =>
      rw [LoadOptions.resolveUnitSize]
      split
      next => exact .inl rfl
      next =>
        split
        next => exact .inl rfl
        next => exact .inr ⟨value, rfl⟩

theorem diagnostics_of_build_eq_ok {rules : List Rule}
    (hbuild : (options.build source rules).1 = .ok theme) :
    diagnostics (options.build source rules).2 = [] ∨
      ∃ value, diagnostics (options.build source rules).2 =
        [.ofFailure source (.invalidUnitSize value)] := by
  obtain ⟨name, hname⟩ := exists_name_of_build_eq_ok hbuild
  rw [diagnostics_of_name_eq_some hname]
  exact diagnostics_resolveUnitSize options source _

theorem isRecoverable_of_build_eq_error {rules : List Rule}
    (hbuild : (options.build source rules).1 = .error failure) :
    failure.isRecoverable = false := by
  by_cases hentries : themeEntries rules = []
  · rw [build_of_entries_eq_nil hentries] at hbuild
    cases hbuild
    rfl
  · cases hname : lastValue? (themeEntries rules) "Name" with
    | none =>
        rw [build_of_name_eq_none hentries hname] at hbuild
        cases hbuild
        rfl
    | some name =>
        rw [build_of_name_eq_some hname] at hbuild
        cases hbuild

/-- The failures of a load are syntax errors and those of the rules. -/
theorem attempt_cases (options : LoadOptions) (css source : String) :
    (∃ fault, options.attempt css source = (.error (.ofFault fault), [])) ∨
      ∃ rules, (options.attempt css source).1 = (options.build source rules).1 ∧
        diagnostics (options.attempt css source).2 =
          diagnostics (options.build source rules).2 := by
  rw [LoadOptions.attempt]
  cases readStylesheet css with
  | error fault => exact .inl ⟨fault, rfl⟩
  | ok rules => exact .inr ⟨rules, rfl, rfl⟩

theorem diagnostics_of_attempt_eq_ok
    (hload : (options.attempt css source).1 = .ok theme) :
    diagnostics (options.attempt css source).2 = [] ∨
      ∃ value, diagnostics (options.attempt css source).2 =
        [.ofFailure source (.invalidUnitSize value)] := by
  rcases attempt_cases options css source with ⟨fault, hfault⟩ | ⟨rules, hresult, hreports⟩
  · rw [hfault] at hload
    cases hload
  · rw [hreports]
    exact diagnostics_of_build_eq_ok (hresult.symm.trans hload)

theorem diagnostics_of_attempt_eq_error
    (hload : (options.attempt css source).1 = .error failure) :
    diagnostics (options.attempt css source).2 = [] := by
  rcases attempt_cases options css source with ⟨fault, hfault⟩ | ⟨rules, hresult, hreports⟩
  · rw [hfault]
    rfl
  · rw [hreports, events_of_build_eq_error (hresult.symm.trans hload)]
    rfl

theorem isRecoverable_of_attempt_eq_error
    (hload : (options.attempt css source).1 = .error failure) :
    failure.isRecoverable = false := by
  rcases attempt_cases options css source with ⟨fault, hfault⟩ | ⟨rules, hresult, -⟩
  · rw [hfault] at hload
    cases hload
    rfl
  · exact isRecoverable_of_build_eq_error (hresult.symm.trans hload)

theorem load_eq_some_iff (options : LoadOptions) (css source : String) (theme : Theme) :
    (options.load css source).1 = some theme ↔
      (options.attempt css source).1 = .ok theme := by
  rw [LoadOptions.load]
  rcases options.attempt css source with ⟨failure | found, events⟩
  · constructor <;> intro hload <;> cases hload
  · rw [LoadOptions.settle, Option.some.injEq, Except.ok.injEq]

theorem diagnostics_load_of_ok (hload : (options.attempt css source).1 = .ok theme) :
    diagnostics (options.load css source).2 =
      diagnostics (options.attempt css source).2 := by
  rw [LoadOptions.load]
  rcases hattempt : options.attempt css source with ⟨result, events⟩
  rw [hattempt] at hload
  obtain rfl : result = .ok theme := hload
  rfl

theorem diagnostics_load_of_error (hload : (options.attempt css source).1 = .error failure) :
    diagnostics (options.load css source).2 =
      diagnostics (options.attempt css source).2 ++ [.ofFailure source failure] := by
  rw [LoadOptions.load]
  rcases hattempt : options.attempt css source with ⟨result, events⟩
  rw [hattempt] at hload
  obtain rfl : result = .error failure := hload
  rw [LoadOptions.settle, diagnostics_append, diagnostics_report]

end Load

/-! ## The requests of a session -/

inductive Request where
  | load (css source : String)
  | attempt (css source : String)
  | take
deriving DecidableEq, Repr

/-- What a request adds to what is collected. -/
def Request.reports (options : LoadOptions) : Request → List Diagnostic
  | load css source => diagnostics (options.load css source).2
  | attempt css source => diagnostics (options.attempt css source).2
  | take => []

namespace Session

variable {options : LoadOptions} {css source : String}

def step (session : Session) : Request → Session
  | .load css source => (session.load css source).1
  | .attempt css source => (session.attempt css source).1
  | .take => session.take.1

def run (session : Session) (requests : List Request) : Session :=
  requests.foldl step session

@[simp] theorem run_append_singleton (session : Session) (requests : List Request)
    (request : Request) :
    session.run (requests ++ [request]) = (session.run requests).step request := by
  simp [run]

@[simp] theorem options_step (session : Session) (request : Request) :
    (session.step request).options = session.options := by
  cases request <;> rfl

@[simp] theorem options_run (session : Session) (requests : List Request) :
    (session.run requests).options = session.options := by
  induction requests using List.reverseRecOn with
  | nil => rfl
  | append_singleton requests request ih => rw [run_append_singleton, options_step, ih]

theorem pending_step (session : Session) {request : Request} (hrequest : request ≠ .take) :
    (session.step request).pending =
      session.pending ++ request.reports session.options := by
  cases request with
  | load css source => rfl
  | attempt css source => rfl
  | take => contradiction

theorem pending_step_take (session : Session) : (session.step .take).pending = [] := rfl

theorem snd_load (session : Session) (css source : String) :
    (session.load css source).2 = (session.options.load css source).1 := rfl

theorem snd_attempt (session : Session) (css source : String) :
    (session.attempt css source).2 = (session.options.attempt css source).1 := rfl

/-- What is collected are the reports since the last time they were taken. -/
theorem pending_run (options : LoadOptions) (requests : List Request) :
    ((start options).run requests).pending =
      (requests.rtakeWhile (· ≠ .take)).flatMap (Request.reports options) := by
  induction requests using List.reverseRecOn with
  | nil => rfl
  | append_singleton requests request ih =>
      rw [run_append_singleton]
      by_cases htake : request = .take
      · rw [htake, pending_step_take, List.rtakeWhile_concat_neg _ _ _ (by simp)]
        rfl
      · rw [pending_step _ htake, ih, options_run,
          List.rtakeWhile_concat_pos _ _ _ (by simpa using htake), List.flatMap_append,
          List.flatMap_singleton]
        rfl

end Session

/-- Whatever was requested before: a load answers as an attempt does, each adds
the reports that it should, and taking answers with what was added since. -/
theorem accounting_of_requests (options : LoadOptions) (requests others : List Request)
    (css source : String) :
    let session := (Session.start options).run requests
    (∀ theme, (session.load css source).2 = some theme ↔
      (((Session.start options).run others).attempt css source).2 = .ok theme) ∧
    (∀ request ≠ .take, (session.step request).pending =
      session.pending ++ request.reports options) ∧
    (∀ theme, (session.attempt css source).2 = .ok theme →
      (Request.load css source).reports options =
        (Request.attempt css source).reports options ∧
      ((Request.attempt css source).reports options = [] ∨
        ∃ warning, (Request.attempt css source).reports options = [warning] ∧
          warning.severity = .warning ∧ warning.kind = .invalidUnitSize)) ∧
    (∀ failure, (session.attempt css source).2 = .error failure →
      (Request.attempt css source).reports options = [] ∧
      (Request.load css source).reports options = [.ofFailure source failure] ∧
      (Diagnostic.ofFailure source failure).severity = .error ∧
      failure.isRecoverable = false ∧ failure.kind ≠ .invalidUnitSize) ∧
    session.take.2 =
      (requests.rtakeWhile (· ≠ .take)).flatMap (Request.reports options) := by
  intro session
  have hoptions : session.options = options := Session.options_run _ requests
  have hresult : (session.attempt css source).2 = (options.attempt css source).1 := by
    rw [Session.snd_attempt, hoptions]
  refine ⟨?_, ?_, ?_, ?_, Session.pending_run options requests⟩
  · intro theme
    rw [Session.snd_load, Session.snd_attempt, hoptions, Session.options_run]
    exact load_eq_some_iff options css source theme
  · intro request hrequest
    rw [Session.pending_step session hrequest, hoptions]
  · intro theme hload
    rw [hresult] at hload
    refine ⟨diagnostics_load_of_ok hload, ?_⟩
    rcases diagnostics_of_attempt_eq_ok hload with hnone | ⟨value, hwarning⟩
    · exact .inl hnone
    · exact .inr ⟨_, hwarning, rfl, rfl⟩
  · intro failure hload
    rw [hresult] at hload
    have hnone := diagnostics_of_attempt_eq_error hload
    have hfatal := isRecoverable_of_attempt_eq_error hload
    refine ⟨hnone, ?_, ?_, hfatal, ?_⟩
    · rw [Request.reports, diagnostics_load_of_error hload, hnone, List.nil_append]
    · rw [Diagnostic.ofFailure, hfatal]
      rfl
    · rw [Ne, ← Failure.isRecoverable_iff, hfatal]
      exact Bool.false_ne_true

/-- A sheet that is refused is reported once by a load, not by an attempt, and
not again once the reports were taken. -/
theorem accounting_of_requests_refusedSheet :
    ((Session.start {}).run [.load "A" "plain.css", .take, .attempt "A" "plain.css",
        .load "A" "plain.css"]).take.2 =
      [.ofFailure "plain.css" (.ofFault ⟨.expectedBlock, ⟨1, 2⟩⟩)] := by
  have hread : readStylesheet "A" = .error ⟨.expectedBlock, ⟨1, 2⟩⟩ := by decide +kernel
  have hattempt : ∀ session : Session, session.options = {} →
      (session.attempt "A" "plain.css").2 = .error (.ofFault ⟨.expectedBlock, ⟨1, 2⟩⟩) := by
    intro session hoptions
    rw [Session.snd_attempt, hoptions, LoadOptions.attempt, hread]
  obtain ⟨-, -, -, hfailed, htaken⟩ := accounting_of_requests {}
    [.load "A" "plain.css", .take, .attempt "A" "plain.css", .load "A" "plain.css"] []
    "A" "plain.css"
  obtain ⟨hattempted, hloaded, -⟩ := hfailed _ (hattempt _ rfl)
  have hsince : [Request.load "A" "plain.css", .take, .attempt "A" "plain.css",
      .load "A" "plain.css"].rtakeWhile (· ≠ .take) =
      [.attempt "A" "plain.css", .load "A" "plain.css"] := by decide
  rw [htaken, hsince, List.flatMap_cons, List.flatMap_singleton, hattempted, hloaded]
  rfl

end ThemeSheet
