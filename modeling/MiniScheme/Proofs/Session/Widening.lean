import MiniScheme.Proofs.Session.Join

/-!
# Sessions under a wider nesting limit

Where the nesting limit lies matters only to a session that meets it. The limit is asked for in many places, by the
parser, the evaluator, comparisons and printing, but all that it ever does is to stop a text, and no text can tell how
far from it it was.

* `runAll` — the reports of a session of several texts and the store that is left.
* `Overflows`, `Fits` — the limit stops a text, and it stops no text of a session.
* `runAll_wider` — a session that fits is the same under every wider limit.
-/

namespace MiniScheme

/-- **A value that can be shown is shown alike under a wider limit.** -/
theorem Value.shown_wider {n m : Nat} (hle : n ≤ m) {v : Value} (hfits : v.shown n ≠ .nestingTooDeep) :
    v.shown m = v.shown n := by
  cases v with
  | undefined => rfl
  | _ =>
    unfold Value.shown at *
    dsimp only at *
    cases htext : Value.printed? n _ with
    | none =>
      rw [htext] at hfits
      exact absurd rfl hfits
    | some text => rw [Value.printed?_mono hle htext]

/-- How the value of a text appears as its result, if the text came to one. -/
def Report.answer (report : Report) (nesting : Nat) : Option Shown := report.value.map (Value.shown nesting)

theorem Report.answer_wider {n m : Nat} (hle : n ≤ m) {report : Report}
    (hfits : report.answer n ≠ some .nestingTooDeep) : report.answer m = report.answer n := by
  unfold answer at *
  cases hvalue : report.value with
  | none => rfl
  | some v =>
    rw [hvalue] at hfits
    exact congrArg some (Value.shown_wider hle fun h => hfits (congrArg some h))

namespace Session

/-- Runs texts one after the other. -/
def runAll (limits : Limits) : List String → Store → List Report × Store
  | [], store => ([], store)
  | source :: rest, store =>
    let (report, store) := run limits source store
    let (reports, store) := runAll limits rest store
    (report :: reports, store)

/-- The nesting limit stops the text: as it is read, or as it is evaluated, which includes what is compared and
displayed in the course of that. -/
inductive Overflows (limits : Limits) (source : String) (store : Store) : Prop where
  | reading {line : Int} (h : read limits source = .error ⟨line, .nestingTooDeep⟩)
  | evaluation {es : List Code} {s : Store} (h : read limits source = .ok es)
    (hstopped : evalAll limits es store = .stopped .nestingTooDeep s)

/-- The nesting limit stops none of the texts. -/
inductive Fits (limits : Limits) : List String → Store → Prop where
  | nil {store : Store} : Fits limits [] store
  | cons {source : String} {rest : List String} {store : Store} (h : ¬Overflows limits source store)
    (hs : Fits limits rest (run limits source store).2) : Fits limits (source :: rest) store

variable {limits : Limits} {fuel n m : Nat} {source : String} {store : Store}

theorem not_overflows {es : List Code} {o : Outcome Value} (hread : read limits source = .ok es)
    (ho : evalAll limits es store = o) (hfits : ∀ s, o ≠ .stopped .nestingTooDeep s) :
    ¬Overflows limits source store := by
  rintro (herror | ⟨hes, hstopped⟩)
  · cases hread.symm.trans herror
  · cases hread.symm.trans hes
    exact hfits _ (ho.symm.trans hstopped)

/-- **A text is read alike under a wider limit**, unless the narrower one stops it. -/
theorem read_wider (hle : n ≤ m) (hfits : ∀ line, read ⟨fuel, n⟩ source ≠ .error ⟨line, .nestingTooDeep⟩) :
    read ⟨fuel, m⟩ source = read ⟨fuel, n⟩ source := by
  unfold read Expr.ofTokens at *
  dsimp only at *
  cases herror : (Token.scan source).error with
  | some e => rfl
  | none =>
    rw [herror] at hfits
    dsimp only at hfits ⊢
    rcases Expr.program_widens hle (Expr.beforeEof (Token.scan source).tokens) with heq | ⟨unread, heq⟩
    · rw [heq]
    · rw [heq] at hfits
      exact absurd rfl (hfits _)

/-- **Expressions of a text are evaluated alike under a wider limit**, unless the narrower one stops them. -/
theorem evalAll_wider (hle : n ≤ m) {es : List Code}
    (hfits : ∀ s, evalAll ⟨fuel, n⟩ es store ≠ .stopped .nestingTooDeep s) :
    evalAll ⟨fuel, m⟩ es store = evalAll ⟨fuel, n⟩ es store := by
  have heval : Evaluator.WidensTo (· = .nestingTooDeep) (eval fuel n) (eval fuel m) :=
    eval_widens _ (.inl rfl) (.inr ⟨rfl, hle⟩)
  rcases Eval.inOrder_widens heval Store.globalFrame .undefined es store with heq | ⟨why, s, rfl, hstopped⟩
  · exact heq
  · exact absurd hstopped (hfits s)

theorem run_wider (hle : n ≤ m) (hfits : ¬Overflows ⟨fuel, n⟩ source store) :
    run ⟨fuel, m⟩ source store = run ⟨fuel, n⟩ source store := by
  have hread : read ⟨fuel, m⟩ source = read ⟨fuel, n⟩ source := read_wider hle fun line h => hfits (.reading h)
  cases hes : read ⟨fuel, n⟩ source with
  | error e =>
    unfold run
    rw [hread, hes]
  | ok es =>
    rw [run_eq_report (hread.trans hes), run_eq_report hes, evalAll_wider hle fun s h => hfits (.evaluation hes h)]

/-- **Where the nesting limit lies matters only to sessions that meet it.** If it stops none of the texts that are run
one after the other, as they are read or evaluated, then under a wider limit every text comes to the same value, output
and errors, and the same store is left; and every result that could be shown is shown alike. -/
theorem runAll_wider (hle : n ≤ m) {sources : List String} (hfits : Fits ⟨fuel, n⟩ sources store) :
    runAll ⟨fuel, m⟩ sources store = runAll ⟨fuel, n⟩ sources store ∧
      ∀ report ∈ (runAll ⟨fuel, n⟩ sources store).1, report.answer n ≠ some .nestingTooDeep →
        report.answer m = report.answer n := by
  refine ⟨?_, fun report _ hshown => Report.answer_wider hle hshown⟩
  induction hfits with
  | nil => rfl
  | cons h _ ih => simp only [runAll, run_wider hle h, ih]

/-- A text that defines a list of lists, and one that displays it, compares it with itself and calls it. -/
def callListExample : List String :=
  ["(define l (list (list #t) car))", "(display l) (display (<= l (list (car l) car))) (l)"]

theorem runAll_wider_callList :
    5 ≤ 2500 ∧ Fits ⟨20, 5⟩ callListExample .initial ∧
      (runAll ⟨20, 2500⟩ callListExample .initial).1.map (·.output) = ["", "((#t) PrimitiveProcedure)\n#t\n"] ∧
      (runAll ⟨20, 2500⟩ callListExample .initial).1.map (·.errors) =
        ["", "Error: Cannot call ((#t) PrimitiveProcedure)\n"] := by
  have hfits : Fits ⟨20, 5⟩ callListExample .initial :=
    .cons (not_overflows rfl rfl nofun) (.cons (not_overflows rfl rfl nofun) .nil)
  have hwider := (runAll_wider (by decide : 5 ≤ 2500) hfits).1
  rw [hwider]
  exact ⟨by decide, hfits, rfl, rfl⟩

end Session
end MiniScheme
