import MiniScheme.Proofs.Session.Progress
import MiniScheme.Proofs.Session.Reachable
import MiniScheme.Proofs.Session.Widening

/-!
# What becomes of a text

A text that is run to an end has one of three courses. It cannot be read, and nothing happens; one of its expressions
fails, and those after it are left out; or all its expressions have values. Nothing else can happen, and the next text
is in the same position. In particular the host never fails, neither in a text that is run to an end nor in one that
runs for ever.

* `Session.Course` — the three courses, with what is reported and the store that is left.
* `Session.NeverFails` — no primitive that is called makes the host fail.
* `run_course` — running a text takes exactly one of the courses.
-/

namespace MiniScheme

open Eval Outcome

/-- The words that report a stop. There are none for the lack of fuel, which no program can notice. -/
def Stop.reason? : Stop → Option String
  | error e => some e.reason
  | nestingTooDeep => some "maximum recursion depth exceeded"
  | outOfFuel => none

/-! ## Expressions in order -/

section

variable {ev : Evaluator} {f : FrameId} {s s₁ s₂ : Store} {es before after : List Code} {e : Code} {vs : List Value}
  {why : Stop}

theorem each_append (ev : Evaluator) (f : FrameId) (es fs : List Code) (s : Store) :
    each ev f (es ++ fs) s =
      (each ev f es s).andThen fun vs s => (each ev f fs s).andThen fun ws s => .done (vs ++ ws) s := by
  induction es generalizing s with
  | nil =>
    simp only [List.nil_append, each, andThen_done]
    cases each ev f fs s <;> rfl
  | cons e es ih =>
    simp only [List.cons_append, each, ih, andThen_assoc, andThen_done]

/-- Of expressions in order the last value counts. -/
theorem inOrder_eq_each (ev : Evaluator) (f : FrameId) (last : Value) (es : List Code) (s : Store) :
    inOrder ev f last es s = (each ev f es s).andThen fun vs s => .done (vs.getLast?.getD last) s := by
  induction es generalizing last s with
  | nil => rfl
  | cons e es ih =>
    simp only [inOrder, each, ih, andThen_assoc, andThen_done]
    congr 1
    funext v s
    congr 1
    funext vs s
    cases vs <;> simp [List.getLast?_cons]

theorem each_of_stopped (hbefore : each ev f before s = .done vs s₁) (he : ev e f s₁ = .stopped why s₂) :
    each ev f (before ++ e :: after) s = .stopped why s₂ := by
  simp [each_append, hbefore, each, he]

/-- Expressions stop at the first that does. -/
theorem exists_of_each_stopped (h : each ev f es s = .stopped why s₂) :
    ∃ before e after vs s₁, es = before ++ e :: after ∧ each ev f before s = .done vs s₁ ∧
      ev e f s₁ = .stopped why s₂ := by
  induction es generalizing s with
  | nil => cases h
  | cons e es ih =>
    cases he : ev e f s with
    | stopped why' s' =>
      simp only [each, he, andThen_stopped, stopped.injEq] at h
      obtain ⟨rfl, rfl⟩ := h
      exact ⟨[], e, es, [], s, rfl, rfl, he⟩
    | done v s' =>
      cases hes : each ev f es s' with
      | done ws s'' => simp [each, he, hes] at h
      | stopped why' s'' =>
        simp only [each, he, hes, andThen_done, andThen_stopped, stopped.injEq] at h
        obtain ⟨rfl, rfl⟩ := h
        obtain ⟨before, e', after, vs, s₁, rfl, hbefore, he'⟩ := ih hes
        exact ⟨e :: before, e', after, v :: vs, s₁, rfl, by simp [each, he, hbefore], he'⟩

end

namespace Session

/-! ## Courses -/

/-- The text consists of these expressions. -/
def Reads (limits : Limits) (source : String) (es : List Code) : Prop :=
  (Token.scan source).error = none ∧ Expr.parse limits.nesting (Token.scan source).tokens = (es, [])

/-- The text cannot be scanned or parsed. -/
def Unreadable (limits : Limits) (source : String) (e : SyntaxError) : Prop :=
  (Token.scan source).error = some e ∨
    (Token.scan source).error = none ∧ Expr.parse limits.nesting (Token.scan source).tokens = ([], [e])

/-- What becomes of a text that is run to an end: what is reported, and which store is left. -/
inductive Course (limits : Limits) (source : String) (s : Store) : Report → Store → Prop where
  /-- The text is not read, so that nothing happens. -/
  | unreadable {e : SyntaxError} (h : Unreadable limits source e) :
    Course limits source s
      ⟨some .undefined, "", "SyntaxError: [line: " ++ toString e.line ++ "] " ++ e.cause.message ++ "\n"⟩ s
  /-- The expressions before one have values, and that one fails. -/
  | failed {before after : List Code} {e : Code} {vs : List Value} {s₁ s₂ : Store} {why : Stop} {reason : String}
    (hread : Reads limits source (before ++ e :: after))
    (hbefore : each (eval limits.fuel limits.nesting) Store.globalFrame before s = .done vs s₁)
    (hfails : eval limits.fuel limits.nesting e Store.globalFrame s₁ = .stopped why s₂)
    (hreason : why.reason? = some reason) :
    Course limits source s ⟨some .null, s₂.output, "Error: " ++ reason ++ "\n"⟩ { s₂ with output := "" }
  /-- All expressions have values. -/
  | completed {es : List Code} {vs : List Value} {s₁ : Store} (hread : Reads limits source es)
    (hall : each (eval limits.fuel limits.nesting) Store.globalFrame es s = .done vs s₁) :
    Course limits source s ⟨some (vs.getLast?.getD .undefined), s₁.output, ""⟩ { s₁ with output := "" }

variable {limits : Limits} {source : String} {es : List Code} {e : SyntaxError} {s : Store}

theorem reads_iff : Reads limits source es ↔ read limits source = .ok es := by
  simp only [Reads, read, Expr.parse]
  cases (Token.scan source).error with
  | some e => simp
  | none =>
    cases Expr.ofTokens limits.nesting (Token.scan source).tokens with
    | ok => simp
    | error => simp

theorem unreadable_iff : Unreadable limits source e ↔ read limits source = .error e := by
  simp only [Unreadable, read, Expr.parse]
  cases (Token.scan source).error with
  | some e => simp
  | none =>
    cases Expr.ofTokens limits.nesting (Token.scan source).tokens with
    | ok => simp
    | error => simp

/-! ## Running -/

theorem evalAll_of_done {vs : List Value} {s₁ : Store}
    (h : each (eval limits.fuel limits.nesting) Store.globalFrame es s = .done vs s₁) :
    evalAll limits es s = .done (vs.getLast?.getD .undefined) s₁ := by
  rw [evalAll, inOrder_eq_each, h, andThen_done]

theorem evalAll_of_stopped {why : Stop} {s₂ : Store}
    (h : each (eval limits.fuel limits.nesting) Store.globalFrame es s = .stopped why s₂) :
    evalAll limits es s = .stopped why s₂ := by
  rw [evalAll, inOrder_eq_each, h, andThen_stopped]

theorem conclude_of_reason {why : Stop} {reason : String} (h : why.reason? = some reason) (s : Store) :
    conclude (.stopped why s) = (some .null, "Error: " ++ reason ++ "\n") := by
  cases why with
  | error e =>
    cases h
    rfl
  | nestingTooDeep =>
    cases h
    rfl
  | outOfFuel => cases h

/-- A course is what running the text takes. -/
theorem Course.run_eq {report : Report} {s' : Store} (h : Course limits source s report s') :
    run limits source s = (report, s') := by
  cases h with
  | unreadable h =>
    unfold run
    rw [unreadable_iff.1 h]
    rfl
  | failed hread hbefore hfails hreason =>
    rw [run_eq_report (reads_iff.1 hread), evalAll_of_stopped (each_of_stopped hbefore hfails), report,
      conclude_of_reason hreason]
    rfl
  | completed hread hall =>
    rw [run_eq_report (reads_iff.1 hread), evalAll_of_done hall]
    rfl

/-- Running a text to an end takes a course. -/
theorem course_of_run (hends : (run limits source s).1.value ≠ none) :
    Course limits source s (run limits source s).1 (run limits source s).2 := by
  cases hread : read limits source with
  | error e =>
    have hcourse : Course limits source s _ s := .unreadable (unreadable_iff.2 hread)
    rwa [hcourse.run_eq]
  | ok es =>
    cases hall : each (eval limits.fuel limits.nesting) Store.globalFrame es s with
    | done vs s₁ =>
      have hcourse := Course.completed (reads_iff.2 hread) hall
      rwa [hcourse.run_eq]
    | stopped why s₂ =>
      obtain ⟨before, e, after, vs, s₁, rfl, hbefore, he⟩ := exists_of_each_stopped hall
      cases hreason : why.reason? with
      | some reason =>
        have hcourse := Course.failed (reads_iff.2 hread) hbefore he hreason
        rwa [hcourse.run_eq]
      | none =>
        cases why with
        | outOfFuel =>
          rw [run_eq_report hread, evalAll_of_stopped hall] at hends
          exact absurd rfl hends
        | _ => cases hreason

/-! ## Failures of the host -/

/-- Only errors of the program and the limits can end a text before it has a value. -/
structure NeverFails (limits : Limits) (source : String) (s : Store) : Prop where
  /-- Whenever a primitive is called, it does not make the host fail, under any limit. -/
  faultless : ∀ {es : List Code}, Reads limits source es →
    Task.Faultless (.body es Store.globalFrame .undefined) s
  /-- If no fuel is enough for the text, it goes on for ever. -/
  endless : (∀ fuel, (run ⟨fuel, limits.nesting⟩ source s).1.value = none) →
    ∃ es, Reads limits source es ∧ Task.Endless (.body es Store.globalFrame .undefined) s

/-- Expressions that have a result by the rules are run to an end, be it at the nesting limit. -/
theorem exists_value {fuel n : Nat} (hread : read ⟨fuel, n⟩ source = .ok es)
    (hresult : Task.HasResult (.body es Store.globalFrame .undefined) s) :
    ∃ fuel, (run ⟨fuel, n⟩ source s).1.value ≠ none := by
  obtain ⟨r, t, h⟩ := hresult
  obtain ⟨k, hk⟩ := h.ends
  have hwide : evalAll ⟨k, max k n⟩ es s = .ofExcept r t :=
    hk k (max k n + 1) (Nat.le_refl k) (Nat.le_succ_of_le (Nat.le_max_left k n))
  have hagain : read ⟨k, n⟩ source = .ok es := hread
  refine ⟨k, ?_⟩
  rw [run_eq_report hagain]
  by_cases hfits : ∀ s', evalAll ⟨k, n⟩ es s ≠ .stopped .nestingTooDeep s'
  · rw [← evalAll_wider (Nat.le_max_right k n) hfits, hwide]
    cases r <;> exact Option.some_ne_none _
  · obtain ⟨s', hstopped⟩ := not_forall_not.1 hfits
    rw [hstopped]
    exact Option.some_ne_none _

/-- **The host never fails** in a session. -/
theorem Reachable.neverFails (hs : Reachable s) (limits : Limits) (source : String) : NeverFails limits source s where
  faultless _ := hs.valid.faultless _
  endless hnever := by
    cases hread : read limits source with
    | error e =>
      have hcourse : Course ⟨0, limits.nesting⟩ source s _ s := .unreadable (unreadable_iff.2 hread)
      have hvalue := hnever 0
      rw [hcourse.run_eq] at hvalue
      cases hvalue
    | ok es =>
      refine ⟨es, reads_iff.2 hread, hs.valid.endless fun hresult => ?_⟩
      obtain ⟨fuel, hvalue⟩ := exists_value hread hresult
      exact hvalue (hnever fuel)

/-- **Every text takes exactly one of three courses.** If running it from a reachable store comes to an end, then what
is reported and left is that of the one course there is: the text cannot be read, an expression fails, or all have
values. In no text, whether it ends or not, does a primitive make the host fail. The store has then given away all
output, nothing in it dangles, and it is reachable, so that this holds again for the next text. -/
theorem run_course (hs : Reachable s) :
    ((run limits source s).1.value ≠ none →
        ∀ report s', Course limits source s report s' ↔ run limits source s = (report, s')) ∧
      NeverFails limits source s ∧ s.output = "" ∧ Reachable (run limits source s).2 ∧
      (run limits source s).2.Valid ∧ (run limits source s).2.output = "" := by
  have hagain : Reachable (run limits source s).2 := .run limits source hs
  refine ⟨fun hends report s' => ⟨Course.run_eq, fun h => ?_⟩, hs.neverFails limits source, hs.output_eq, hagain,
    hagain.valid, hagain.output_eq⟩
  have hcourse := course_of_run hends
  rwa [h] at hcourse

/-- A text that defines a name, writes what it is bound to, and then fails before it would define another. -/
def secondFailsExample : String := "(define a #t) ((display a) b) (define c a)"

theorem run_course_secondFails :
    Reachable .initial ∧ (run ⟨10, 10⟩ secondFailsExample .initial).1.value ≠ none ∧
      ∃ s', Course ⟨10, 10⟩ secondFailsExample .initial
          ⟨some .null, "#t\n", "Error: Unknown identifier: b\n"⟩ s' ∧
        (∃ es, Reads ⟨10, 10⟩ secondFailsExample es ∧
          Task.Faultless (.body es Store.globalFrame .undefined) .initial) ∧
        s'.Valid ∧ s'.find? "a" 0 = some 0 ∧ s'.find? "c" 0 = none := by
  have hends : (run ⟨10, 10⟩ secondFailsExample .initial).1.value ≠ none := nofun
  obtain ⟨hcourse, hnever, -, -, hvalid, -⟩ := @run_course ⟨10, 10⟩ secondFailsExample .initial .initial
  obtain ⟨es, hread⟩ : ∃ es, read ⟨10, 10⟩ secondFailsExample = .ok es := ⟨_, rfl⟩
  have hreads := reads_iff.2 hread
  exact ⟨.initial, hends, _, (hcourse hends _ _).2 rfl, ⟨es, hreads, hnever.faultless hreads⟩, hvalid, rfl, rfl⟩

end Session
end MiniScheme
