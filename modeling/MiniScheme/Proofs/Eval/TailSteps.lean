import MiniScheme.Proofs.Eval.Calls
import MiniScheme.Proofs.Store.Frames

/-!
# Tail steps

A tail step leads from an expression to the one in its tail position: the chosen branch of an `if`, the last expression
of the body of a `let`, or that of a closure which is called. It may cross from closure to closure and from frame to
frame. Whatever else a step evaluates is nested in it and has to fit within the nesting limit; the step itself is free,
so that the limit which lets one step pass lets any number of them pass.

* `TailStep n p q`, `TailSteps n k p q` — one step, and `k` steps, from where evaluation stands to where it goes on.
* `Nests n p o` — the computation `o` is nested in the step from `p`.
* `tailSteps_free` — evaluation ends as it does from wherever tail steps lead, and the nesting limit stops it only by
  stopping something nested in one of the steps.
-/

namespace MiniScheme

open Eval Outcome

/-! ## Enough fuel -/

/-- With enough fuel the computation ends in the outcome. -/
def Settles {α : Type} (o : (fuel : Nat) → Outcome α) (outcome : Outcome α) : Prop :=
  ∃ enough, ∀ fuel, enough ≤ fuel → o fuel = outcome

/-- More fuel changes only what the lack of it has stopped. -/
def Steady {α : Type} (o : (fuel : Nat) → Outcome α) : Prop :=
  ∀ fuel fuel', fuel ≤ fuel' → (o fuel).WidensTo (· = .outOfFuel) (o fuel')

namespace Settles

variable {α β : Type} {o : Nat → Outcome α} {next : Nat → α → Store → Outcome β} {a : α} {s : Store}

theorem const (outcome : Outcome α) : Settles (fun _ => outcome) outcome := ⟨0, fun _ _ => rfl⟩

/-- A computation that asks for one more unit of fuel settles too. -/
theorem of_succ {outcome : Outcome α} (enough : Nat) (h : ∀ fuel, enough ≤ fuel → o (fuel + 1) = outcome) :
    Settles o outcome := by
  refine ⟨enough + 1, fun fuel hfuel => ?_⟩
  obtain ⟨fuel, rfl⟩ : ∃ k, fuel = k + 1 := ⟨fuel - 1, by omega⟩
  exact h fuel (by omega)

theorem unique {outcome outcome' : Outcome α} (h : Settles o outcome) (h' : Settles o outcome') :
    outcome = outcome' := by
  obtain ⟨k, hk⟩ := h
  obtain ⟨k', hk'⟩ := h'
  rw [← hk (max k k') (Nat.le_max_left k k'), hk' (max k k') (Nat.le_max_right k k')]

theorem andThen {outcome : Outcome β} (h : Settles o (.done a s))
    (hnext : Settles (fun fuel => next fuel a s) outcome) :
    Settles (fun fuel => (o fuel).andThen (next fuel)) outcome := by
  obtain ⟨k, hk⟩ := h
  obtain ⟨k', hk'⟩ := hnext
  refine ⟨max k k', fun fuel hfuel => ?_⟩
  dsimp only
  rw [hk fuel (by omega), andThen_done]
  exact hk' fuel (by omega)

theorem andThen_stopped {why : Stop} (h : Settles o (.stopped why s)) :
    Settles (fun fuel => (o fuel).andThen (next fuel)) (.stopped why s) := by
  obtain ⟨k, hk⟩ := h
  refine ⟨k, fun fuel hfuel => ?_⟩
  dsimp only
  rw [hk fuel hfuel, Outcome.andThen_stopped]

end Settles

/-- A computation that has ended settles. -/
theorem Steady.settles {α : Type} {o : Nat → Outcome α} (h : Steady o) {fuel : Nat} {outcome : Outcome α}
    (ho : o fuel = outcome) (hended : ∀ s, outcome ≠ .stopped .outOfFuel s) : Settles o outcome := by
  refine ⟨fuel, fun fuel' hle => ?_⟩
  rcases h fuel fuel' hle with heq | ⟨why, s, rfl, hout⟩
  · rw [heq, ho]
  · exact absurd (ho.symm.trans hout) (hended s)

theorem Steady.settles_done {α : Type} {o : Nat → Outcome α} (h : Steady o) {fuel : Nat} {a : α} {s : Store}
    (ho : o fuel = .done a s) : Settles o (.done a s) := h.settles ho nofun

theorem Steady.settles_tooDeep {α : Type} {o : Nat → Outcome α} (h : Steady o) {fuel : Nat} {s : Store}
    (ho : o fuel = .stopped .nestingTooDeep s) : Settles o (.stopped .nestingTooDeep s) := h.settles ho nofun

theorem inner_of_le {fuel fuel' : Nat} (h : fuel ≤ fuel') : Inner (· = .outOfFuel) (eval fuel) (eval fuel') :=
  fun _ _ hnm => eval_widens _ (.inr ⟨rfl, h⟩) hnm

section

variable (n : Nat) (f : FrameId) (s : Store)

theorem nested_steady (e : Code) : Steady fun fuel => nested (eval fuel) n e f s :=
  fun _ _ h => nested_widens (inner_of_le h) (.inl rfl) e f s

theorem each_steady (es : List Code) : Steady fun fuel => each (nested (eval fuel) n) f es s :=
  fun _ _ h => each_widens (nested_widens (inner_of_le h) (.inl rfl)) f es s

theorem inOrder_steady (last : Value) (es : List Code) :
    Steady fun fuel => inOrder (nested (eval fuel) n) f last es s :=
  fun _ _ h => inOrder_widens (nested_widens (inner_of_le h) (.inl rfl)) f last es s

theorem quoted_steady (e : Code) : Steady fun fuel => quoted (eval fuel) n e f s :=
  fun _ _ h => quoted_widens (inner_of_le h) (.inl rfl) e f s

theorem each_quoted_steady (es : List Code) : Steady fun fuel => each (quoted (eval fuel) n) f es s :=
  fun _ _ h => each_widens (quoted_widens (inner_of_le h) (.inl rfl)) f es s

theorem call_steady (p : Value) (vs : List Value) : Steady fun fuel => call (eval fuel) n p vs s :=
  fun _ _ h => call_widens (inner_of_le h) (.inl rfl) p vs s

end

/-! ## Steps -/

/-- Where evaluation stands: an expression to be evaluated, and what it is evaluated in. -/
structure Position where
  expr : Code
  frame : FrameId
  store : Store

/-- Evaluation from a position. -/
def Position.run (p : Position) (nesting fuel : Nat) : Outcome Value := eval fuel nesting p.expr p.frame p.store

/-- The turn of evaluation that starts at a position. -/
def Position.turn (p : Position) (nesting fuel : Nat) : Outcome Next :=
  Eval.turn (eval fuel) nesting p.expr p.frame p.store

/-- The expression in tail position is next, and all that is nested in the step has a value under the limit. -/
inductive TailStep (n : Nat) : Position → Position → Prop where
  | chosen {test chosen : Code} {otherwise : Option Code} {f : FrameId} {s s₁ : Store} {v : Value}
    (htest : Settles (fun fuel => nested (eval fuel) n test f s) (.done v s₁)) (hv : v.isTrue = true) :
    TailStep n ⟨.cond test chosen otherwise, f, s⟩ ⟨chosen, f, s₁⟩
  | otherwise {test chosen other : Code} {f : FrameId} {s s₁ : Store} {v : Value}
    (htest : Settles (fun fuel => nested (eval fuel) n test f s) (.done v s₁)) (hv : v.isTrue = false) :
    TailStep n ⟨.cond test chosen (some other), f, s⟩ ⟨other, f, s₁⟩
  | letBody {names : List Name} {values body : List Code} {last : Code} {f : FrameId} {s s₁ s₂ : Store}
    {vs : List Value} {w : Value}
    (hvalues : Settles (fun fuel => each (nested (eval fuel) n) f values s) (.done vs s₁))
    (hbody : Settles (fun fuel => inOrder (nested (eval fuel) n) (s₁.enter (.fixed names) vs f).1 .undefined body
      (s₁.enter (.fixed names) vs f).2) (.done w s₂)) :
    TailStep n ⟨.letIn names values (body ++ [last]), f, s⟩ ⟨last, (s₁.enter (.fixed names) vs f).1, s₂⟩
  | callBody {callee : Code} {args : List Code} {f g : FrameId} {s s₁ s₂ s₃ : Store} {i : Nat} {params : Params}
    {body : List Code} {last : Code} {vs : List Value} {w : Value}
    (hcallee : Settles (fun fuel => nested (eval fuel) n callee f s)
      (.done (.closure i ⟨params, body ++ [last]⟩ g) s₁))
    (hargs : Settles (fun fuel => each (nested (eval fuel) n) f args s₁) (.done vs s₂))
    (hbody : Settles (fun fuel => inOrder (nested (eval fuel) n) (s₂.enter params vs g).1 .undefined body
      (s₂.enter params vs g).2) (.done w s₃)) :
    TailStep n ⟨.call callee args, f, s⟩ ⟨last, (s₂.enter params vs g).1, s₃⟩

/-- So many tail steps lead from one position to the other. -/
inductive TailSteps (n : Nat) : Nat → Position → Position → Prop where
  | zero {p : Position} : TailSteps n 0 p p
  | succ {k : Nat} {p q r : Position} (h : TailStep n p q) (hs : TailSteps n k q r) : TailSteps n (k + 1) p r

/-- The computation is nested in the step from a position. What comes before it in the step has a value. -/
inductive Nests (n : Nat) : {α : Type} → Position → ((fuel : Nat) → Outcome α) → Prop where
  | defined {name : Name} {value : Code} {f : FrameId} {s : Store} :
    Nests n ⟨.define name value, f, s⟩ fun fuel => nested (eval fuel) n value f s
  | assigned {name : Name} {value : Code} {f : FrameId} {s : Store} :
    Nests n ⟨.assign name value, f, s⟩ fun fuel => nested (eval fuel) n value f s
  | test {test chosen : Code} {otherwise : Option Code} {f : FrameId} {s : Store} :
    Nests n ⟨.cond test chosen otherwise, f, s⟩ fun fuel => nested (eval fuel) n test f s
  | values {names : List Name} {values body : List Code} {f : FrameId} {s : Store} :
    Nests n ⟨.letIn names values body, f, s⟩ fun fuel => each (nested (eval fuel) n) f values s
  | letBody {names : List Name} {values body : List Code} {f : FrameId} {s s₁ : Store} {vs : List Value}
    (hvalues : Settles (fun fuel => each (nested (eval fuel) n) f values s) (.done vs s₁)) :
    Nests n ⟨.letIn names values body, f, s⟩ fun fuel =>
      inOrder (nested (eval fuel) n) (s₁.enter (.fixed names) vs f).1 .undefined body.dropLast
        (s₁.enter (.fixed names) vs f).2
  | datum {datum : Code} {f : FrameId} {s : Store} :
    Nests n ⟨.quote datum, f, s⟩ fun fuel => quoted (eval fuel) n datum f s
  | items {items : List Code} {f : FrameId} {s : Store} :
    Nests n ⟨.list items, f, s⟩ fun fuel => each (quoted (eval fuel) n) f items s
  | callee {callee : Code} {args : List Code} {f : FrameId} {s : Store} :
    Nests n ⟨.call callee args, f, s⟩ fun fuel => nested (eval fuel) n callee f s
  | args {callee : Code} {args : List Code} {f : FrameId} {s s₁ : Store} {p : Value}
    (hcallee : Settles (fun fuel => nested (eval fuel) n callee f s) (.done p s₁)) :
    Nests n ⟨.call callee args, f, s⟩ fun fuel => each (nested (eval fuel) n) f args s₁
  | callBody {callee : Code} {args : List Code} {f g : FrameId} {s s₁ s₂ : Store} {i : Nat} {l : Lambda}
    {vs : List Value}
    (hcallee : Settles (fun fuel => nested (eval fuel) n callee f s) (.done (.closure i l g) s₁))
    (hargs : Settles (fun fuel => each (nested (eval fuel) n) f args s₁) (.done vs s₂)) :
    Nests n ⟨.call callee args, f, s⟩ fun fuel =>
      inOrder (nested (eval fuel) n) (s₂.enter l.params vs g).1 .undefined l.body.dropLast (s₂.enter l.params vs g).2
  /-- What is called is a primitive, or no procedure. -/
  | called {callee : Code} {args : List Code} {f : FrameId} {s s₁ s₂ : Store} {p : Value} {vs : List Value}
    (hcallee : Settles (fun fuel => nested (eval fuel) n callee f s) (.done p s₁))
    (hargs : Settles (fun fuel => each (nested (eval fuel) n) f args s₁) (.done vs s₂))
    (hp : ∀ i l g, p ≠ .closure i l g) :
    Nests n ⟨.call callee args, f, s⟩ fun fuel => call (eval fuel) n p vs s₂

variable {n k fuel : Nat} {p q : Position} {s' : Store}

/-! ## Turns and steps -/

theorem allButLast_settles {f : FrameId} {body : List Code} {last : Code} {s : Store} {w : Value}
    (h : Settles (fun fuel => inOrder (nested (eval fuel) n) f .undefined body s) (.done w s')) :
    Settles (fun fuel => allButLast (nested (eval fuel) n) f (body ++ [last]) s) (.done (.tail last f) s') := by
  simp only [allButLast_concat]
  exact h.andThen (.const _)

/-- The turn comes to where the step leads. -/
theorem TailStep.settles (h : TailStep n p q) : Settles (p.turn n) (.done (.tail q.expr q.frame) q.store) := by
  cases h with
  | chosen htest hv =>
    refine htest.andThen ?_
    simp only [hv, if_true]
    exact .const _
  | otherwise htest hv =>
    refine htest.andThen ?_
    simp only [hv, Bool.false_eq_true, if_false]
    exact .const _
  | letBody hvalues hbody => exact hvalues.andThen (allButLast_settles hbody)
  | callBody hcallee hargs hbody => exact hcallee.andThen (hargs.andThen (allButLast_settles hbody))

/-- A turn is stopped by what stops something nested in it. -/
theorem Nests.settles {α : Type} {o : Nat → Outcome α} {why : Stop} (h : Nests n p o)
    (ho : Settles o (.stopped why s')) : Settles (p.turn n) (.stopped why s') := by
  cases h with
  | defined | assigned | test | values | datum | items | callee => exact ho.andThen_stopped
  | letBody hvalues => exact hvalues.andThen ho.andThen_stopped
  | args hcallee => exact hcallee.andThen ho.andThen_stopped
  | callBody hcallee hargs => exact hcallee.andThen (hargs.andThen ho.andThen_stopped)
  | @called _ _ _ _ _ _ p _ hcallee hargs hp =>
    refine hcallee.andThen (hargs.andThen ?_)
    cases p with
    | closure i l g => exact absurd rfl (hp i l g)
    | _ => exact ho.andThen_stopped

/-! ### The other way round -/

section

variable {s : Store}

theorem finish_ne_tail {o : Outcome Value} {e : Code} {f : FrameId} : finish o ≠ .done (.tail e f) s := by
  cases o <;> nofun

theorem stopped_of_finish {o : Outcome Value} {why : Stop} (h : finish o = .stopped why s) : o = .stopped why s := by
  rcases stopped_of_andThen h with h | ⟨_, _, -, h⟩
  · exact h
  · cases h

end

/-- What a body leaves to be done is its last expression. -/
theorem exists_of_allButLast_tail {ev : Evaluator} {f g : FrameId} {body : List Code} {e : Code} {s : Store}
    (h : allButLast ev f body s = .done (.tail e g) s') :
    g = f ∧ ∃ before w, body = before ++ [e] ∧ inOrder ev f .undefined before s = .done w s' := by
  rcases List.eq_nil_or_concat body with rfl | ⟨before, last, rfl⟩
  · cases h
  · simp only [List.concat_eq_append, allButLast_concat] at h
    obtain ⟨w, s₁, hbefore, h⟩ := exists_of_andThen_done h
    cases h
    exact ⟨rfl, before, w, List.concat_eq_append, hbefore⟩

theorem inOrder_of_allButLast_stopped {ev : Evaluator} {f : FrameId} {body : List Code} {s : Store} {why : Stop}
    (h : allButLast ev f body s = .stopped why s') :
    inOrder ev f .undefined body.dropLast s = .stopped why s' := by
  rcases stopped_of_andThen h with h | ⟨w, s₁, -, h⟩
  · exact h
  · cases hlast : body.getLast? <;> rw [hlast] at h <;> cases h

section

variable {e e' : Code} {f g : FrameId} {s : Store}

/-- **A turn that leaves something to be done makes a tail step.** -/
theorem TailStep.of_turn (h : turn (eval fuel) n e f s = .done (.tail e' g) s') :
    TailStep n ⟨e, f, s⟩ ⟨e', g, s'⟩ := by
  cases e with
  | literal | empty => cases h
  | symbol => exact absurd h finish_ne_tail
  | lambda => cases h
  | quote => exact absurd h finish_ne_tail
  | define =>
    obtain ⟨_, _, -, h⟩ := exists_of_andThen_done h
    cases h
  | assign name value =>
    obtain ⟨v, s₁, -, h⟩ := exists_of_andThen_done h
    split at h <;> cases h
  | list =>
    obtain ⟨_, _, -, h⟩ := exists_of_andThen_done h
    exact absurd h finish_ne_tail
  | cond test chosen otherwise =>
    obtain ⟨v, s₁, htest, h⟩ := exists_of_andThen_done h
    have htested := (nested_steady n f s test).settles_done htest
    cases hv : v.isTrue with
    | true =>
      simp only [hv, if_true] at h
      cases h
      exact .chosen htested hv
    | false =>
      simp only [hv, Bool.false_eq_true, if_false] at h
      cases otherwise with
      | none => cases h
      | some other =>
        cases h
        exact .otherwise htested hv
  | letIn names values body =>
    obtain ⟨vs, s₁, hvalues, h⟩ := exists_of_andThen_done h
    obtain ⟨rfl, before, w, rfl, hbefore⟩ := exists_of_allButLast_tail h
    exact .letBody ((each_steady n f s values).settles_done hvalues)
      ((inOrder_steady n _ _ _ before).settles_done hbefore)
  | call callee args =>
    obtain ⟨procedure, s₁, hcallee, h⟩ := exists_of_andThen_done h
    obtain ⟨vs, s₂, hargs, h⟩ := exists_of_andThen_done h
    cases procedure with
    | closure i l k =>
      obtain ⟨params, body⟩ := l
      obtain ⟨rfl, before, w, rfl, hbefore⟩ := exists_of_allButLast_tail h
      exact .callBody ((nested_steady n f s callee).settles_done hcallee)
        ((each_steady n f s₁ args).settles_done hargs) ((inOrder_steady n _ _ _ before).settles_done hbefore)
    | _ => exact absurd h finish_ne_tail

/-- **A turn that the nesting limit stops nests something that the limit stops.** -/
theorem Nests.of_turn (h : turn (eval fuel) n e f s = .stopped .nestingTooDeep s') :
    ∃ (α : Type) (o : Nat → Outcome α), Nests n ⟨e, f, s⟩ o ∧ Settles o (.stopped .nestingTooDeep s') := by
  cases e with
  | literal | empty | lambda => cases h
  | symbol name =>
    have hget := stopped_of_finish h
    cases hvalue : s.get name.lexeme f <;> rw [hvalue] at hget <;> cases hget
  | quote datum => exact ⟨_, _, .datum, (quoted_steady n f s datum).settles_tooDeep (stopped_of_finish h)⟩
  | define name value =>
    rcases stopped_of_andThen h with h | ⟨_, _, -, h⟩
    · exact ⟨_, _, .defined, (nested_steady n f s value).settles_tooDeep h⟩
    · cases h
  | assign name value =>
    rcases stopped_of_andThen h with h | ⟨_, _, -, h⟩
    · exact ⟨_, _, .assigned, (nested_steady n f s value).settles_tooDeep h⟩
    · split at h <;> cases h
  | list items =>
    rcases stopped_of_andThen h with h | ⟨_, _, -, h⟩
    · exact ⟨_, _, .items, (each_quoted_steady n f s items).settles_tooDeep h⟩
    · cases stopped_of_finish h
  | cond test chosen otherwise =>
    rcases stopped_of_andThen h with h | ⟨v, s₁, -, h⟩
    · exact ⟨_, _, .test, (nested_steady n f s test).settles_tooDeep h⟩
    · cases otherwise <;> dsimp only at h <;> split at h <;> cases h
  | letIn names values body =>
    rcases stopped_of_andThen h with h | ⟨vs, s₁, hvalues, h⟩
    · exact ⟨_, _, .values, (each_steady n f s values).settles_tooDeep h⟩
    · have hbody := inOrder_of_allButLast_stopped h
      exact ⟨_, _, .letBody ((each_steady n f s values).settles_done hvalues),
        (inOrder_steady n _ _ _ _).settles_tooDeep hbody⟩
  | call callee args =>
    rcases stopped_of_andThen h with h | ⟨procedure, s₁, hcallee, h⟩
    · exact ⟨_, _, .callee, (nested_steady n f s callee).settles_tooDeep h⟩
    have hcalled := (nested_steady n f s callee).settles_done hcallee
    rcases stopped_of_andThen h with h | ⟨vs, s₂, hargs, h⟩
    · exact ⟨_, _, .args hcalled, (each_steady n f s₁ args).settles_tooDeep h⟩
    have hgiven := (each_steady n f s₁ args).settles_done hargs
    cases procedure with
    | closure i l k =>
      have hbody := inOrder_of_allButLast_stopped h
      exact ⟨_, _, .callBody hcalled hgiven, (inOrder_steady n _ _ _ _).settles_tooDeep hbody⟩
    | _ =>
      have hcall := stopped_of_finish h
      exact ⟨_, _, .called hcalled hgiven nofun, (call_steady n _ _ _).settles_tooDeep hcall⟩

end

/-! ## Runs -/

theorem Position.run_succ (p : Position) (n fuel : Nat) :
    p.run n (fuel + 1) = (p.turn n fuel).andThen (resume (eval fuel n)) := rfl

/-- A tail step costs fuel only. -/
theorem TailStep.run_eq (h : TailStep n p q) : ∃ enough, ∀ fuel, enough ≤ fuel → p.run n (fuel + 1) = q.run n fuel := by
  obtain ⟨enough, hturn⟩ := h.settles
  refine ⟨enough, fun fuel hfuel => ?_⟩
  rw [Position.run_succ, hturn fuel hfuel]
  rfl

/-- **A run ends as it does from where tail steps lead**, under the same limit. -/
theorem TailSteps.settles_iff (h : TailSteps n k p q) (o : Outcome Value) :
    Settles (p.run n) o ↔ Settles (q.run n) o := by
  induction h with
  | zero => exact Iff.rfl
  | @succ k p q r hstep _ ih =>
    obtain ⟨enough, heq⟩ := hstep.run_eq
    refine Iff.trans ⟨?_, ?_⟩ ih
    · rintro ⟨j, hj⟩
      refine ⟨max enough j, fun fuel hfuel => ?_⟩
      rw [← heq fuel (by omega)]
      exact hj (fuel + 1) (by omega)
    · rintro ⟨j, hj⟩
      refine .of_succ (max enough j) fun fuel hfuel => ?_
      rw [heq fuel (by omega)]
      exact hj fuel (by omega)

/-- The nesting limit stops nothing that is nested in the step from the position. -/
def StepFits (n : Nat) (p : Position) : Prop :=
  ∀ (α : Type) (o : Nat → Outcome α) (s : Store), Nests n p o → ¬Settles o (.stopped .nestingTooDeep s)

/-- The limit does not stop a run if it stops none of its steps, however many there are. -/
theorem run_ne_tooDeep (hsteps : ∀ k q, TailSteps n k p q → StepFits n q) (fuel : Nat) :
    p.run n fuel ≠ .stopped .nestingTooDeep s' := by
  induction fuel generalizing p with
  | zero => nofun
  | succ fuel ih =>
    intro hdeep
    rw [Position.run_succ] at hdeep
    rcases stopped_of_andThen hdeep with hturn | ⟨next, s₁, hturn, hdeep⟩
    · obtain ⟨α, o, hnests, ho⟩ := Nests.of_turn hturn
      exact hsteps 0 p .zero α o s' hnests ho
    · cases next with
      | value v => cases hdeep
      | tail e f =>
        have hstep : TailStep n p ⟨e, f, s₁⟩ := .of_turn hturn
        exact ih (fun k q hq => hsteps (k + 1) q (.succ hstep hq)) hdeep

/-- The limit stops a run that leads to a step which does not fit. -/
theorem TailSteps.stepFits (h : TailSteps n k p q) (hfits : FitsWithin n p.expr p.frame p.store) : StepFits n q := by
  intro α o s hnests ho
  obtain ⟨enough, hturn⟩ := hnests.settles ho
  have hq : Settles (q.run n) (.stopped .nestingTooDeep s) := by
    refine .of_succ enough fun fuel hfuel => ?_
    rw [Position.run_succ, hturn fuel hfuel, Outcome.andThen_stopped]
  obtain ⟨j, hj⟩ := (h.settles_iff _).2 hq
  exact hfits j s (hj j (Nat.le_refl j))

/-- **Tail steps cost no nesting.** Take any number of tail steps, of whatever kind and from whichever closure to the
next, from one position to another. Evaluation ends from the one as it does from the other, under the same nesting
limit; and the limit does not stop it exactly if, at every position that tail steps lead to, it stops nothing that is
nested in the step from there. -/
theorem tailSteps_free (n : Nat) (p : Position) :
    (∀ k q o, TailSteps n k p q → (Settles (p.run n) o ↔ Settles (q.run n) o)) ∧
      (FitsWithin n p.expr p.frame p.store ↔ ∀ k q, TailSteps n k p q → StepFits n q) :=
  ⟨fun _ _ o h => h.settles_iff o, fun hfits _ _ h => h.stepFits hfits, fun hsteps fuel _ => run_ne_tooDeep hsteps fuel⟩

/-! ### A run without end -/

namespace SelfApplication

/-- `f` -/
def parameter : Name := ⟨"f", 0, 0⟩

/-- `(f f)` -/
def body : Code := .call (.symbol parameter) [.symbol parameter]

/-- `(lambda (f) (f f))`, made in a frame. -/
def closure (i : Nat) (g : FrameId) : Value := .closure i ⟨.fixed [parameter], [body]⟩ g

/-- The body is next, in a frame where the parameter is such a closure. -/
inductive Again : Position → Prop where
  | mk {i : Nat} {f g : FrameId} {s : Store} (h : s.get parameter.lexeme f = .ok (closure i g)) : Again ⟨body, f, s⟩

/-- Where the call of the closure with itself leads. -/
def entered (i : Nat) (g : FrameId) (s : Store) : Position :=
  ⟨body, (s.enter (.fixed [parameter]) [closure i g] g).1, (s.enter (.fixed [parameter]) [closure i g] g).2⟩

theorem again_entered (i : Nat) (g : FrameId) (s : Store) : Again (entered i g s) :=
  .mk (Store.get_of_binds (Store.getElem?_push.trans (if_pos rfl)) rfl)

section

variable {i : Nat} {f g : FrameId} {s : Store}

theorem symbol_settles (h : s.get parameter.lexeme f = .ok (closure i g)) :
    Settles (fun fuel => nested (eval fuel) 1 (.symbol parameter) f s) (.done (closure i g) s) := by
  refine .of_succ 0 fun fuel _ => ?_
  simp only [nested, eval, turn, h]
  rfl

theorem args_settles (h : s.get parameter.lexeme f = .ok (closure i g)) :
    Settles (fun fuel => each (nested (eval fuel) 1) f [.symbol parameter] s) (.done [closure i g] s) :=
  (symbol_settles h).andThen (.const _)

end

/-- The body always leads to the body, and nothing nested in it is stopped. -/
theorem Again.step (hp : Again p) :
    (∃ q, TailStep 1 p q) ∧ (∀ q, TailStep 1 p q → Again q) ∧ StepFits 1 p := by
  obtain @⟨i, f, g, s, hget⟩ := hp
  have hcallee' := symbol_settles hget
  have hargs' := args_settles hget
  have hstep' : TailStep 1 ⟨.call (.symbol parameter) [.symbol parameter], f, s⟩ (entered i g s) :=
    @TailStep.callBody 1 _ _ f g s s s _ i _ [] _ _ _ hcallee' hargs' (.const _)
  unfold body
  refine ⟨⟨_, hstep'⟩, fun q hstep => ?_, ?_⟩
  · cases hstep with
    | callBody hcallee hargs hbody =>
      injection hcallee.unique hcallee' with hclosure hs
      injection hclosure with _ hlambda hg
      injection hlambda with hparams hlast
      obtain ⟨rfl, hlast⟩ | ⟨_, hnone⟩ := List.append_eq_singleton_iff.1 hlast
      case inr => cases hnone
      cases hlast
      cases hparams
      cases hs
      cases hg
      cases hargs.unique hargs'
      cases hbody.unique (.const _)
      exact again_entered _ _ _
  · intro α o s' hnests ho
    cases hnests with
    | callee => cases ho.unique hcallee'
    | args hcallee =>
      cases hcallee.unique hcallee'
      cases ho.unique hargs'
    | callBody hcallee hargs =>
      cases hcallee.unique hcallee'
      cases hargs.unique hargs'
      cases ho.unique (.const _)
    | called hcallee _ hp =>
      cases hcallee.unique hcallee'
      exact hp _ _ _ rfl

theorem Again.stepsFit (hp : Again p) (h : TailSteps 1 k p q) : StepFits 1 q := by
  induction h with
  | zero => exact hp.step.2.2
  | succ hstep _ ih => exact ih (hp.step.2.1 _ hstep)

theorem Again.exists_steps (hp : Again p) (k : Nat) : ∃ q, TailSteps 1 k p q := by
  induction k generalizing p with
  | zero => exact ⟨p, .zero⟩
  | succ k ih =>
    obtain ⟨⟨q, hstep⟩, hagain, -⟩ := hp.step
    obtain ⟨r, hsteps⟩ := ih (hagain q hstep)
    exact ⟨r, .succ hstep hsteps⟩

end SelfApplication

/-- `(f f)`, where `f` is `(lambda (f) (f f))`, in a session that has done nothing else. -/
def selfApplicationExample : Position := SelfApplication.entered 0 Store.globalFrame { Store.initial with fresh := 1 }

theorem tailSteps_free_selfApplication :
    (∀ k, ∃ q, TailSteps 1 k selfApplicationExample q) ∧
      FitsWithin 1 selfApplicationExample.expr selfApplicationExample.frame selfApplicationExample.store := by
  have hagain : SelfApplication.Again selfApplicationExample := SelfApplication.again_entered _ _ _
  exact ⟨hagain.exists_steps, (tailSteps_free 1 selfApplicationExample).2.2 fun _ _ h => hagain.stepsFit h⟩

end MiniScheme
