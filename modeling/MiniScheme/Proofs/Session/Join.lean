import MiniScheme.Proofs.Eval.Calls
import MiniScheme.Proofs.Eval.Places
import MiniScheme.Proofs.Expr.Parsing
import MiniScheme.Proofs.Token.Join
import MiniScheme.Session

/-!
# One text or two

Running two texts one after the other does what running them as one text does, with a line break between them. The
tokens of the joined text are those of the two, the expressions are read from either part for itself, and the
evaluation of the second goes on in the store that the first has left.

* `read_join` — the expressions of the joined text.
* `run_join` — what the joined text does.
-/

namespace MiniScheme

/-! ## Reading -/

section Tokens

variable {α : Type}

theorem beforeEof_append {ts : List (Token α)} (h : ∀ t ∈ ts, t.kind.isEof = false) (us : List (Token α)) :
    Expr.beforeEof (ts ++ us) = ts ++ Expr.beforeEof us := by
  unfold Expr.beforeEof
  refine List.takeWhile_append_of_pos fun t ht => ?_
  rw [h t ht]
  rfl

theorem beforeEof_moved (p l : Nat) (ts : List (Token Atom)) :
    Expr.beforeEof (ts.map (Token.moved p l)) = (Expr.beforeEof ts).map (Token.moved p l) := by
  unfold Expr.beforeEof
  rw [List.takeWhile_map]
  rfl

theorem map_unplaced_moved (p l : Nat) (ts : List (Token Atom)) :
    (ts.map (Token.moved p l)).map Token.unplaced = ts.map Token.unplaced := by
  rw [List.map_map]
  rfl

end Tokens

namespace Session

/-- What a text that can be read is made of. -/
theorem read_eq_ok {limits : Limits} {source : String} {es : List Code} (h : read limits source = .ok es) :
    (Token.scan source).error = none ∧
      Expr.program limits.nesting (Expr.beforeEof (Token.scan source).tokens) = .ok es := by
  unfold read at h
  dsimp only at h
  cases herror : (Token.scan source).error with
  | some e =>
    rw [herror] at h
    cases h
  | none =>
    rw [herror] at h
    unfold Expr.ofTokens at h
    dsimp only at h
    refine ⟨rfl, ?_⟩
    cases hprogram : Expr.program limits.nesting (Expr.beforeEof (Token.scan source).tokens) with
    | ok fs =>
      rw [hprogram] at h
      exact congrArg Except.ok (Except.ok.inj h)
    | error failure =>
      rw [hprogram] at h
      cases h

/-- **A joined text has the expressions of its parts**, but for the places of the later ones. -/
theorem read_join {limits : Limits} {a b : String} {es fs : List Code} (ha : read limits a = .ok es)
    (hclosed : (Token.scan a).endsOpen = false) (hb : read limits b = .ok fs) :
    ∃ gs, read limits (a ++ "\n" ++ b) = .ok (es ++ gs) ∧ gs.map Expr.unplaced = fs.map Expr.unplaced := by
  obtain ⟨haerror, haprogram⟩ := read_eq_ok ha
  obtain ⟨hberror, hbprogram⟩ := read_eq_ok hb
  obtain ⟨ts, last, htokens, hscan⟩ := Token.scan_join b haerror hclosed
  have hts := Token.scan_isEof htokens
  rw [htokens, beforeEof_append hts] at haprogram
  have heof : Expr.beforeEof [Token.endOfInput (α := Atom) (last : Nat)] = [] := rfl
  rw [heof, List.append_nil] at haprogram
  obtain ⟨gs, hgs, hplaces⟩ := Expr.program_of_unplaced (map_unplaced_moved (a.length + 1) (last + 1) _) hbprogram
  refine ⟨gs, ?_, hplaces⟩
  unfold read
  rw [hscan]
  unfold Token.Scan.after Token.Scan.moved
  dsimp only
  rw [hberror]
  dsimp only [Option.map_none]
  unfold Expr.ofTokens
  rw [beforeEof_append hts, beforeEof_moved, Expr.program_append haprogram hgs]

/-! ## Running -/

/-- Of expressions in order, the last counts, if there is one. -/
theorem inOrder_last {ev : Evaluator} {f : FrameId} {es : List Code} (hne : es ≠ []) (v w : Value) (s : Store) :
    Eval.inOrder ev f v es s = Eval.inOrder ev f w es s := by
  cases es with
  | nil => exact absurd rfl hne
  | cons e es => rfl

/-- Evaluation goes on alike after the output has been taken out of the store. -/
theorem inOrder_drained {limits : Limits} {fs gs : List Code} (hplaces : gs.map Expr.unplaced = fs.map Expr.unplaced)
    (s : Store) :
    (evalAll limits gs s).unplacedAfter Value.unplaced "" =
      (evalAll limits fs (drain s).2).unplacedAfter Value.unplaced s.output := by
  have hgs := inOrder_unplaced "" limits.fuel limits.nesting Store.globalFrame .undefined gs s
  have hfs := inOrder_unplaced s.output limits.fuel limits.nesting Store.globalFrame .undefined fs (drain s).2
  have hstore : (drain s).2.unplacedAfter s.output = s.unplacedAfter "" := by
    unfold drain Store.unplacedAfter Store.unplaced
    dsimp only
    rw [String.append_empty, String.empty_append]
  rw [hstore, ← hplaces, hgs] at hfs
  exact hfs

/-- The report of an outcome and the store that it leaves. -/
def report (outcome : Outcome Value) : Report × Store :=
  (⟨(conclude outcome).1, (drain outcome.store).1, (conclude outcome).2⟩, (drain outcome.store).2)

theorem run_eq_report {limits : Limits} {source : String} {es : List Code} (h : read limits source = .ok es)
    (store : Store) : run limits source store = report (evalAll limits es store) := by
  unfold run
  rw [h]
  rfl

/-- Outcomes that agree but for places, and for the text in front of the output, are reported so. -/
theorem report_unplaced {outcome outcome' : Outcome Value} {text : String}
    (h : outcome.unplacedAfter Value.unplaced "" = outcome'.unplacedAfter Value.unplaced text) :
    (report outcome).1.value.map Value.unplaced = (report outcome').1.value.map Value.unplaced ∧
      (report outcome).1.output = text ++ (report outcome').1.output ∧
      (report outcome).1.errors = (report outcome').1.errors ∧
      (report outcome).2.unplaced = (report outcome').2.unplaced := by
  have hstores : ∀ {s s' : Store}, s.unplacedAfter "" = s'.unplacedAfter text →
      s.output = text ++ s'.output ∧ (drain s).2.unplaced = (drain s').2.unplaced := by
    intro s s' hs
    have houtput := congrArg Store.output hs
    have hframes := congrArg Store.frames hs
    have hfresh := congrArg Store.fresh hs
    unfold Store.unplacedAfter Store.unplaced at houtput hframes hfresh
    dsimp only at houtput hframes hfresh
    rw [String.empty_append] at houtput
    refine ⟨houtput, ?_⟩
    unfold drain Store.unplaced
    dsimp only
    rw [hframes, hfresh]
  cases outcome with
  | done v s =>
    cases outcome' with
    | done v' s' =>
      injection h with hv hs
      exact ⟨congrArg some hv, (hstores hs).1, rfl, (hstores hs).2⟩
    | stopped why' s' => cases h
  | stopped why s =>
    cases outcome' with
    | done v' s' => cases h
    | stopped why' s' =>
      injection h with hwhy hs
      subst hwhy
      refine ⟨?_, (hstores hs).1, ?_, (hstores hs).2⟩
      · cases why <;> rfl
      · cases why <;> rfl

/-- **Running two texts is running the one text that joins them.** If the first is read and evaluated without an
error and leaves no string open, and the second is read to some expression, then one after the other they come to the
value, the output, the errors and the store that the joined text comes to, but for the places of names; also if the
second fails. -/
theorem run_join {limits : Limits} {a b : String} {store s : Store} {es fs : List Code} {v : Value}
    (ha : read limits a = .ok es) (hclosed : (Token.scan a).endsOpen = false)
    (hrun : evalAll limits es store = .done v s) (hb : read limits b = .ok fs) (hne : fs ≠ []) :
    let first := run limits a store
    let second := run limits b first.2
    let joined := run limits (a ++ "\n" ++ b) store
    joined.1.value.map Value.unplaced = second.1.value.map Value.unplaced ∧
      joined.1.output = first.1.output ++ second.1.output ∧
      joined.1.errors = first.1.errors ++ second.1.errors ∧
      joined.2.unplaced = second.2.unplaced := by
  obtain ⟨gs, hjoin, hplaces⟩ := read_join ha hclosed hb
  have hgs : gs ≠ [] := by
    rintro rfl
    exact hne (List.map_eq_nil_iff.1 hplaces.symm)
  have hjoined : evalAll limits (es ++ gs) store = evalAll limits gs s := by
    unfold evalAll at hrun ⊢
    rw [inOrder_append, hrun]
    exact inOrder_last hgs v .undefined s
  dsimp only
  rw [run_eq_report hjoin, run_eq_report ha, run_eq_report hb, hjoined, hrun]
  obtain ⟨hvalue, houtput, herrors, hstore⟩ := report_unplaced (inOrder_drained hplaces s)
  exact ⟨hvalue, houtput, herrors.trans String.empty_append.symm, hstore⟩

/-- A text that defines and calls a procedure, and one that calls it again and then fails. -/
def callTwiceExample : String × String :=
  ("(define f (lambda () (display \x22one\x22))) (f) ; twice", "(f) (car f) (f)")

theorem run_join_secondFails :
    ∃ es fs s v, read ⟨10, 10⟩ callTwiceExample.1 = .ok es ∧ (Token.scan callTwiceExample.1).endsOpen = false ∧
      evalAll ⟨10, 10⟩ es .initial = .done v s ∧ read ⟨10, 10⟩ callTwiceExample.2 = .ok fs ∧ fs ≠ [] ∧
      (run ⟨10, 10⟩ (callTwiceExample.1 ++ "\n" ++ callTwiceExample.2) .initial).1.output = "one\none\n" ∧
      (run ⟨10, 10⟩ (callTwiceExample.1 ++ "\n" ++ callTwiceExample.2) .initial).1.errors =
        "Error: car expects a list, got Procedure\n" := by
  have hjoin (es fs : List Code) (s : Store) (v : Value) (ha : read ⟨10, 10⟩ callTwiceExample.1 = .ok es)
      (hrun : evalAll ⟨10, 10⟩ es .initial = .done v s) (hb : read ⟨10, 10⟩ callTwiceExample.2 = .ok fs)
      (hne : fs ≠ []) := run_join ha rfl hrun hb hne
  obtain ⟨-, houtput, herrors, -⟩ := hjoin _ _ _ _ rfl rfl rfl nofun
  exact ⟨_, _, _, _, rfl, rfl, rfl, rfl, nofun, houtput.trans rfl, herrors.trans rfl⟩

end Session
end MiniScheme
