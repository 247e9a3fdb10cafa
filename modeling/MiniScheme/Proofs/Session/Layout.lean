import MiniScheme.Proofs.Session.Widening

/-!
# Layout

White space, line breaks and comments between tokens change nothing but the places of tokens. Texts with the same
tokens are read to expressions that agree but for places. Sessions that run them come to the same answers, output and
errors and to stores that agree but for places, and whatever is run later comes to the same again. Only the line in a
syntax error may be another.

* `SameTokens a b` — the texts have the same tokens, perhaps in other places.
* `ReadsAlike` — what two such texts are read to.
* `Report.Agrees` — what they are reported with.
* `runAll_alike` — sessions of texts that are read alike.
* `runAll_errors` — the same texts fail in the same way, whatever the places in the store.
* `run_layout` — layout does not matter, now or later.
-/

namespace MiniScheme

open List (Forall₂)

/-! ## Reading -/

/-- Both results are expressions that agree but for places, or errors that agree but for the line. -/
inductive ReadsAlike : Except SyntaxError (List Code) → Except SyntaxError (List Code) → Prop where
  | expressions {es fs : List Code} (h : fs.map Expr.unplaced = es.map Expr.unplaced) : ReadsAlike (.ok es) (.ok fs)
  | error {line line' : Int} {cause : SyntaxError.Cause} : ReadsAlike (.error ⟨line, cause⟩) (.error ⟨line', cause⟩)

theorem ReadsAlike.refl (result : Except SyntaxError (List Code)) : ReadsAlike result result := by
  cases result with
  | ok es => exact .expressions rfl
  | error e => exact .error

namespace Expr

variable {α : Type}

theorem beforeEof_unplaced (ts : List (Token α)) :
    beforeEof (ts.map Token.unplaced) = (beforeEof ts).map Token.unplaced := by
  unfold beforeEof
  rw [List.takeWhile_map]
  rfl

/-- What is wrong does not depend on places. -/
theorem Failure.cause_unplaced (failure : Failure α) (line line' : Int) :
    (failure.unplaced.toError line').cause = (failure.toError line).cause := by
  obtain ⟨cause, unread⟩ := failure
  cases cause <;> cases unread <;> rfl

/-- Tokens that differ in their places only are read alike. -/
theorem ofTokens_alike {ts us : List (Token Atom)} (h : us.map Token.unplaced = ts.map Token.unplaced)
    (nesting : Nat) : ReadsAlike (ofTokens nesting ts) (ofTokens nesting us) := by
  have hprogram := program_unplaced nesting (beforeEof us)
  rw [← beforeEof_unplaced, h, beforeEof_unplaced, program_unplaced] at hprogram
  unfold ofTokens
  generalize program nesting (beforeEof ts) = result, program nesting (beforeEof us) = result' at hprogram
  cases result with
  | ok es =>
    cases result' with
    | ok fs => exact .expressions (Except.ok.inj hprogram).symm
    | error failure => cases hprogram
  | error failure =>
    cases result' with
    | ok fs => cases hprogram
    | error failure' =>
      have hfailure : failure.unplaced = failure'.unplaced := Except.error.inj hprogram
      have hcause : (failure'.toError (endLine us)).cause = (failure.toError (endLine ts)).cause := by
        rw [← failure.cause_unplaced (endLine ts) 0, hfailure, failure'.cause_unplaced (endLine us) 0]
      dsimp only
      generalize failure.toError (endLine ts) = e, failure'.toError (endLine us) = e' at hcause
      obtain ⟨line, cause⟩ := e
      obtain ⟨line', cause'⟩ := e'
      cases hcause
      exact .error

end Expr

/-! ## Values and stores -/

theorem Value.shown_unplaced (nesting : Nat) (v : Value) : v.unplaced.shown nesting = v.shown nesting := by
  have hprinted : v.unplaced.printed? nesting = v.printed? nesting := correspondence_unplaced.printed?_eq rfl
  cases v with
  | list | closure =>
    rw [Value.unplaced] at hprinted ⊢
    unfold Value.shown
    dsimp only
    rw [hprinted]
  | _ => rfl

theorem Store.unplacedAfter_congr {s t : Store} (h : t.unplaced = s.unplaced) (text : String) :
    t.unplacedAfter text = s.unplacedAfter text := by
  have houtput : t.output = s.output := by
    show t.unplaced.output = s.unplaced.output
    rw [h]
  unfold Store.unplacedAfter
  rw [h, houtput]

/-- What two texts of the same tokens are reported with: the same value but for places, which appears alike, the same
output and the same error, or syntax errors that differ at most in the line. -/
structure Report.Agrees (report report' : Report) : Prop where
  value : report'.value.map Value.unplaced = report.value.map Value.unplaced
  answer : ∀ nesting, report'.answer nesting = report.answer nesting
  output : report'.output = report.output
  errors : report'.errors = report.errors ∨ ∃ (cause : SyntaxError.Cause) (line line' : Int),
    report.errors = (SyntaxError.mk line cause).message ++ "\n" ∧
      report'.errors = (SyntaxError.mk line' cause).message ++ "\n"

theorem Report.answer_eq_of_value {report report' : Report} (nesting : Nat)
    (h : report'.value.map Value.unplaced = report.value.map Value.unplaced) :
    report'.answer nesting = report.answer nesting := by
  have hshown (r : Report) : r.answer nesting = (r.value.map Value.unplaced).map (Value.shown nesting) := by
    unfold Report.answer
    rw [Option.map_map]
    congr 1
    funext v
    exact (v.shown_unplaced nesting).symm
  rw [hshown, hshown, h]

namespace Session

/-- Both texts can be scanned, and their tokens agree in kind, literal and lexeme. -/
structure SameTokens (a b : String) : Prop where
  left : (Token.scan a).error = none
  right : (Token.scan b).error = none
  tokens : (Token.scan b).tokens.map Token.unplaced = (Token.scan a).tokens.map Token.unplaced

variable {a b : String} {limits : Limits} {s t : Store}

/-- **Texts of the same tokens are read alike.** -/
theorem SameTokens.readsAlike (h : SameTokens a b) (limits : Limits) : ReadsAlike (read limits a) (read limits b) := by
  unfold read
  dsimp only
  rw [h.left, h.right]
  exact Expr.ofTokens_alike h.tokens limits.nesting

/-! ## Running -/

/-- Expressions that agree but for places are evaluated alike, with the same runtime errors. -/
theorem report_alike {es fs : List Code} (h : fs.map Expr.unplaced = es.map Expr.unplaced)
    (hst : t.unplaced = s.unplaced) :
    Report.Agrees (report (evalAll limits es s)).1 (report (evalAll limits fs t)).1 ∧
      (report (evalAll limits fs t)).1.errors = (report (evalAll limits es s)).1.errors ∧
      (report (evalAll limits fs t)).2.unplaced = (report (evalAll limits es s)).2.unplaced := by
  have houtcome : (evalAll limits fs t).unplacedAfter Value.unplaced "" =
      (evalAll limits es s).unplacedAfter Value.unplaced "" := by
    unfold evalAll
    rw [← inOrder_unplaced, ← inOrder_unplaced, h, Store.unplacedAfter_congr hst]
  obtain ⟨hvalue, houtput, herrors, hstore⟩ := report_unplaced houtcome
  rw [String.empty_append] at houtput
  exact ⟨⟨hvalue, fun nesting => Report.answer_eq_of_value nesting hvalue, houtput, .inl herrors⟩, herrors, hstore⟩

/-- Texts that are read alike are reported alike, and leave stores that agree but for places. -/
theorem run_alike (h : ReadsAlike (read limits a) (read limits b)) (hst : t.unplaced = s.unplaced) :
    Report.Agrees (run limits a s).1 (run limits b t).1 ∧
      (run limits b t).2.unplaced = (run limits a s).2.unplaced ∧
      (∀ es, read limits a = .ok es → (run limits b t).1.errors = (run limits a s).1.errors) := by
  generalize ha : read limits a = result, hb : read limits b = result' at h
  cases h with
  | @error line line' cause =>
    unfold run
    rw [ha, hb]
    exact ⟨⟨rfl, fun _ => rfl, rfl, .inr ⟨cause, line, line', rfl, rfl⟩⟩, hst, nofun⟩
  | expressions hes =>
    obtain ⟨hreport, herrors, hstore⟩ := report_alike hes hst
    rw [run_eq_report ha, run_eq_report hb]
    exact ⟨hreport, hstore, fun _ _ => herrors⟩

/-- **Sessions of texts that are read alike go alike**, from stores that agree but for places. -/
theorem runAll_alike {sources sources' : List String}
    (h : Forall₂ (fun a b => ReadsAlike (read limits a) (read limits b)) sources sources')
    (hst : t.unplaced = s.unplaced) :
    Forall₂ Report.Agrees (runAll limits sources s).1 (runAll limits sources' t).1 ∧
      (runAll limits sources' t).2.unplaced = (runAll limits sources s).2.unplaced := by
  induction h generalizing s t with
  | nil => exact ⟨.nil, hst⟩
  | cons hread _ ih =>
    obtain ⟨hreport, hstores, -⟩ := run_alike hread hst
    obtain ⟨hreports, hlast⟩ := ih hstores
    exact ⟨.cons hreport hreports, hlast⟩

/-- What later texts are reported with as errors does not depend on the places in the store. -/
theorem runAll_errors (hst : t.unplaced = s.unplaced) (sources : List String) :
    (runAll limits sources t).1.map Report.errors = (runAll limits sources s).1.map Report.errors := by
  induction sources generalizing s t with
  | nil => rfl
  | cons source sources ih =>
    obtain ⟨-, hstores, herrors⟩ := run_alike (.refl (read limits source)) hst
    have hfirst : (run limits source t).1.errors = (run limits source s).1.errors := by
      cases hread : read limits source with
      | ok es => exact herrors es hread
      | error e =>
        -- the text is not run, so the stores do not come into it
        unfold run
        rw [hread]
    simp only [runAll, List.map_cons, hfirst, ih hstores]

/-- **Layout does not matter.** Texts of the same tokens are read to expressions that agree but for places, or fail to
for the same cause. Run from the same store, they are reported alike, and so is whatever is run after them; the stores
that are left agree but for places. The errors of a text that can be read are the very same, and so are all later
ones. -/
theorem run_layout (h : SameTokens a b) (limits : Limits) (later : List String) (s : Store) :
    ReadsAlike (read limits a) (read limits b) ∧
      Forall₂ Report.Agrees (runAll limits (a :: later) s).1 (runAll limits (b :: later) s).1 ∧
      (runAll limits (b :: later) s).2.unplaced = (runAll limits (a :: later) s).2.unplaced ∧
      (∀ es, read limits a = .ok es → (run limits b s).1.errors = (run limits a s).1.errors) ∧
      (runAll limits later (run limits b s).2).1.map Report.errors =
        (runAll limits later (run limits a s).2).1.map Report.errors := by
  have hread := h.readsAlike limits
  have hlater : Forall₂ (fun a b => ReadsAlike (read limits a) (read limits b)) later later :=
    List.forall₂_same.2 fun source _ => .refl (read limits source)
  obtain ⟨hreports, hstores⟩ := runAll_alike (.cons hread hlater) (rfl : s.unplaced = s.unplaced)
  obtain ⟨-, hrun, herrors⟩ := run_alike hread (rfl : s.unplaced = s.unplaced)
  exact ⟨hread, hreports, hstores, herrors, runAll_errors hrun later⟩

/-- A definition in one line, the same in two lines, and a text that uses it. -/
def twoLayoutsExample : String × String × String :=
  ("(define f (lambda () g)) f", "(define f ; g\n(lambda()g))f", "(define g #t) (display (f))")

theorem run_layout_twoLayouts :
    let (a, b, later) := twoLayoutsExample
    SameTokens a b ∧ (Token.scan a).tokens ≠ (Token.scan b).tokens ∧
      ∃ first second, (runAll ⟨10, 10⟩ [b, later] .initial).1 = [first, second] ∧
        first.answer 10 = some (.text "Procedure") ∧ second.output = "#t\n" := by
  have hsame : SameTokens twoLayoutsExample.1 twoLayoutsExample.2.1 := ⟨rfl, rfl, by decide +kernel⟩
  obtain ⟨-, hreports, -⟩ := run_layout hsame ⟨10, 10⟩ [twoLayoutsExample.2.2] .initial
  cases hreports with
  | cons hfirst hrest =>
    cases hrest with
    | cons hsecond _ =>
      exact ⟨hsame, by decide +kernel, _, _, rfl, (hfirst.answer 10).trans rfl, hsecond.output.trans rfl⟩

end Session
end MiniScheme
