import MiniScheme.Proofs.Eval.BigStep
import MiniScheme.Proofs.Eval.Widening

/-!
# The loop and the natural semantics agree

* `Task.run` — what the evaluator makes of a task under given limits.
* `turn_sound`, `run_sound` — what the evaluator comes to can be derived.
* `run_complete` — what can be derived is what the evaluator comes to, once both limits are wide enough.
* `eval_iff_bigStep` — under a nesting limit that stops nothing, the loop ends with exactly the results that can be
  derived, and it goes on for ever exactly if there are none.
-/

namespace MiniScheme

open Eval Outcome

/-- The evaluator for each manner. -/
def Manner.evaluator (fuel nesting : Nat) : Manner → Evaluator
  | plain => nested (eval fuel) nesting
  | quoted => Eval.quoted (eval fuel) nesting

/-- What the evaluator makes of a task. -/
def Task.run (fuel nesting : Nat) {α : Type} (task : Task α) (store : Store) : Outcome α :=
  match task with
  | .value manner expr frame => manner.evaluator fuel nesting expr frame store
  | .values manner exprs frame => each (manner.evaluator fuel nesting) frame exprs store
  | .body exprs frame last => inOrder (nested (eval fuel) nesting) frame last exprs store
  | .apply procedure args => call (eval fuel) nesting procedure args store

/-- A chain of two computations ends where the second ends, or with the error of the first. -/
theorem of_andThen_eq_ofExcept {α β : Type} {o : Outcome α} {next : α → Store → Outcome β}
    {r : Except RuntimeError β} {s' : Store} (h : o.andThen next = ofExcept r s') :
    (∃ v s, o = ofExcept (.ok v) s ∧ next v s = ofExcept r s') ∨
      ∃ e, o = ofExcept (.error e) s' ∧ r = .error e := by
  cases o with
  | done v s => exact .inl ⟨v, s, rfl, h⟩
  | stopped why s =>
    cases r with
    | ok v => cases h
    | error e => cases h; exact .inr ⟨e, rfl, rfl⟩

theorem ofExcept_inj {α : Type} {r r' : Except RuntimeError α} {s s' : Store} (h : ofExcept r s = ofExcept r' s') :
    r = r' ∧ s = s' := by
  cases r <;> cases r' <;> cases h <;> exact ⟨rfl, rfl⟩

/-! ## Soundness -/

/-- Whatever an evaluator comes to can be derived. -/
def Sound (manner : Manner) (ev : Evaluator) : Prop :=
  ∀ ⦃e f s r s'⦄, ev e f s = ofExcept r s' → BigStep (.value manner e f) s r s'

/-- What is left of a turn can be derived to come to a result. -/
def Leads (o : Outcome Next) (r : Except RuntimeError Value) (s' : Store) : Prop :=
  match o with
  | .done (.value v) s => r = .ok v ∧ s' = s
  | .done (.tail e f) s => BigStep (.value .plain e f) s r s'
  | .stopped (.error e) s => r = .error e ∧ s' = s
  | .stopped _ _ => False

theorem Leads.of_andThen {α : Type} {o : Outcome α} {next : α → Store → Outcome Next}
    {r : Except RuntimeError Value} {s' : Store} (h : Leads (o.andThen next) r s') :
    (∃ v s, o = ofExcept (.ok v) s ∧ Leads (next v s) r s') ∨ ∃ e, o = ofExcept (.error e) s' ∧ r = .error e := by
  cases o with
  | done v s => exact .inl ⟨v, s, rfl, h⟩
  | stopped why s =>
    cases why with
    | error e => obtain ⟨rfl, rfl⟩ := h; exact .inr ⟨e, rfl, rfl⟩
    | _ => exact h.elim

theorem Leads.of_finish {o : Outcome Value} {r : Except RuntimeError Value} {s' : Store}
    (h : Leads (finish o) r s') : o = ofExcept r s' := by
  rcases Leads.of_andThen h with ⟨v, s, rfl, rfl, rfl⟩ | ⟨e, rfl, rfl⟩ <;> rfl

theorem each_sound {m : Manner} {ev : Evaluator} (hev : Sound m ev) {f : FrameId} :
    ∀ {es : List Code} {s r s'}, each ev f es s = ofExcept r s' → BigStep (.values m es f) s r s'
  | [], s, r, s', h => by
    obtain ⟨rfl, rfl⟩ := ofExcept_inj (r := .ok []) h
    exact .nil
  | e :: es, s, r, s', h => by
    unfold each at h
    rcases of_andThen_eq_ofExcept h with ⟨v, s₁, hv, h⟩ | ⟨err, he, rfl⟩
    · rcases of_andThen_eq_ofExcept h with ⟨vs, s₂, hvs, h⟩ | ⟨err, he, rfl⟩
      · obtain ⟨rfl, rfl⟩ := ofExcept_inj (r := .ok (v :: vs)) h
        exact .cons (hev hv) (each_sound hev hvs)
      · exact .tailError (hev hv) (each_sound hev he)
    · exact .headError (hev he)

theorem inOrder_sound {ev : Evaluator} (hev : Sound .plain ev) {f : FrameId} :
    ∀ {es : List Code} {last s r s'}, inOrder ev f last es s = ofExcept r s' → BigStep (.body es f last) s r s'
  | [], last, s, r, s', h => by
    obtain ⟨rfl, rfl⟩ := ofExcept_inj (r := .ok last) h
    exact .bodyEnd
  | e :: es, last, s, r, s', h => by
    unfold inOrder at h
    rcases of_andThen_eq_ofExcept h with ⟨v, s₁, hv, h⟩ | ⟨err, he, rfl⟩
    · exact .bodyStep (hev hv) (inOrder_sound hev h)
    · exact .bodyError (hev he)

/-- A body of one expression is that expression. -/
theorem BigStep.body_singleton {e : Code} {f : FrameId} {last : Value} {s s' : Store}
    {r : Except RuntimeError Value} (h : BigStep (.value .plain e f) s r s') : BigStep (.body [e] f last) s r s' := by
  cases r with
  | ok v => exact .bodyStep h .bodyEnd
  | error err => exact .bodyError h

/-- The value that a body starts with does not matter to what is done after it. -/
theorem inOrder_andThen_const {β : Type} (ev : Evaluator) (f : FrameId) (v w : Value) (es : List Code) (s : Store)
    (next : Store → Outcome β) :
    ((inOrder ev f v es s).andThen fun _ s => next s) = (inOrder ev f w es s).andThen fun _ s => next s := by
  cases es <;> rfl

theorem allButLast_cons_cons (ev : Evaluator) (f : FrameId) (e e' : Code) (es : List Code) (s : Store) :
    allButLast ev f (e :: e' :: es) s = (ev e f s).andThen fun _ s => allButLast ev f (e' :: es) s := by
  unfold allButLast
  rw [List.dropLast_cons_cons, List.getLast?_cons_cons, inOrder]
  cases ev e f s with
  | done v s₁ => exact inOrder_andThen_const ev f v .undefined _ s₁ _
  | stopped why s₁ => rfl

theorem allButLast_cons_sound {ev : Evaluator} (hev : Sound .plain ev) {f : FrameId} :
    ∀ {e : Code} {es : List Code} {last s r s'}, Leads (allButLast ev f (e :: es) s) r s' →
      BigStep (.body (e :: es) f last) s r s'
  | e, [], last, s, r, s', h => .body_singleton h
  | e, e' :: es, last, s, r, s', h => by
    rw [allButLast_cons_cons] at h
    rcases h.of_andThen with ⟨v, s₁, hv, h⟩ | ⟨err, he, rfl⟩
    · exact .bodyStep (hev hv) (allButLast_cons_sound hev h)
    · exact .bodyError (hev he)

theorem allButLast_sound {ev : Evaluator} (hev : Sound .plain ev) {f : FrameId} {body : List Code} {s s' : Store}
    {r : Except RuntimeError Value} (h : Leads (allButLast ev f body s) r s') :
    BigStep (.body body f .undefined) s r s' := by
  cases body with
  | nil => obtain ⟨rfl, rfl⟩ := h; exact .bodyEnd
  | cons e es => exact allButLast_cons_sound hev h

theorem nested_sound {ev : Nat → Evaluator} (hev : ∀ n, Sound .plain (ev n)) (n : Nat) :
    Sound .plain (nested ev n) := by
  intro e f s r s' h
  cases n with
  | zero => cases r <;> cases h
  | succ n => exact hev n h

theorem quoted_sound {ev : Nat → Evaluator} (hev : ∀ n, Sound .plain (ev n)) (n : Nat) :
    Sound .quoted (Eval.quoted ev n) := by
  induction n with
  | zero => intro e f s r s' h; cases r <;> cases h
  | succ n ih =>
    intro e f s r s' h
    cases e with
    | call c es =>
      rcases of_andThen_eq_ofExcept h with ⟨vs, s₁, hvs, h⟩ | ⟨err, he, rfl⟩
      · obtain ⟨rfl, rfl⟩ := ofExcept_inj (r := .ok (s₁.newList vs).1) h
        exact .quotedCall (each_sound ih hvs)
      · exact .quotedCallError (each_sound ih he)
    | list es =>
      rcases of_andThen_eq_ofExcept h with ⟨vs, s₁, hvs, h⟩ | ⟨err, he, rfl⟩
      · obtain ⟨rfl, rfl⟩ := ofExcept_inj (r := .ok (s₁.newList vs).1) h
        exact .list (each_sound ih hvs)
      · exact .listError (each_sound ih he)
    | _ => exact .quotedOther (fun _ _ => nofun) (fun _ => nofun) (hev n h)

theorem call_sound {ev : Nat → Evaluator} (hev : ∀ n, Sound .plain (ev n)) {n : Nat} {p : Value}
    {args : List Value} {s s' : Store} {r : Except RuntimeError Value} (h : call ev n p args s = ofExcept r s') :
    BigStep (.apply p args) s r s' := by
  induction n using Nat.strongRecOn generalizing p args s with
  | ind n ih =>
    cases p with
    | closure i lambda enclosing =>
      rw [call_closure] at h
      exact .closure (inOrder_sound (nested_sound hev n) h)
    | primitive p =>
      rw [call_primitive] at h
      cases hr : p.run n args with
      | value v =>
        rw [hr] at h
        obtain ⟨rfl, rfl⟩ := ofExcept_inj (r := .ok v) h
        exact .primitiveValue hr
      | newList items =>
        rw [hr] at h
        obtain ⟨rfl, rfl⟩ := ofExcept_inj (r := .ok (s.newList items).1) h
        exact .primitiveList hr
      | newNaN =>
        rw [hr] at h
        obtain ⟨rfl, rfl⟩ := ofExcept_inj (r := .ok s.newNaN.1) h
        exact .primitiveNaN hr
      | line text =>
        rw [hr] at h
        obtain ⟨rfl, rfl⟩ := ofExcept_inj (r := .ok Value.undefined) h
        exact .primitiveLine hr
      | call q ws =>
        rw [hr] at h
        cases n with
        | zero => cases r <;> cases h
        | succ n => exact .primitiveCall hr (ih n (by omega) h)
      | failed err =>
        rw [hr] at h
        obtain ⟨rfl, rfl⟩ := ofExcept_inj (r := .error err) h
        exact .primitiveError hr
      | nestingTooDeep | fault =>
        rw [hr] at h
        cases r <;> cases h
    | _ =>
      rw [call_notProcedure _ _ rfl] at h
      cases hp : Value.printed? n _ with
      | none => rw [hp] at h; cases r <;> cases h
      | some shown =>
        rw [hp] at h
        obtain ⟨rfl, rfl⟩ := ofExcept_inj (r := .error (.notProcedure shown)) h
        exact .notProcedure rfl hp

theorem callInTail_sound {ev : Nat → Evaluator} (hev : ∀ n, Sound .plain (ev n)) {n : Nat} {p : Value}
    {args : List Value} {s s' : Store} {r : Except RuntimeError Value} (h : Leads (callInTail ev n p args s) r s') :
    BigStep (.apply p args) s r s' := by
  cases p with
  | closure i lambda enclosing => exact .closure (allButLast_sound (nested_sound hev n) h)
  | _ => exact call_sound hev h.of_finish

/-- **What one turn comes to, followed by what is left to be done, can be derived.** -/
theorem turn_sound {ev : Nat → Evaluator} (hev : ∀ n, Sound .plain (ev n)) {n : Nat} {e : Code} {f : FrameId}
    {s s' : Store} {r : Except RuntimeError Value} (h : Leads (turn ev n e f s) r s') :
    BigStep (.value .plain e f) s r s' := by
  have hin := nested_sound hev n
  cases e with
  | literal a => obtain ⟨rfl, rfl⟩ := h; exact .literal
  | empty => obtain ⟨rfl, rfl⟩ := h; exact .empty
  | symbol name =>
    obtain ⟨rfl, rfl⟩ := ofExcept_inj h.of_finish
    exact .symbol
  | lambda params body =>
    obtain ⟨rfl, rfl⟩ := ofExcept_inj (r := .ok (s.newClosure ⟨params, body⟩ f).1) h.of_finish
    exact .lambda
  | define name value =>
    rcases h.of_andThen with ⟨v, s₁, hv, rfl, rfl⟩ | ⟨err, he, rfl⟩
    · exact .define (hin hv)
    · exact .defineError (hin he)
  | assign name value =>
    rcases h.of_andThen with ⟨v, s₁, hv, h⟩ | ⟨err, he, rfl⟩
    · cases ha : s₁.assign name.lexeme v f with
      | ok s₂ =>
        rw [ha] at h
        obtain ⟨rfl, rfl⟩ := h
        exact .assign (hin hv) ha
      | error err =>
        rw [ha] at h
        obtain ⟨rfl, rfl⟩ := h
        exact .assignUnbound (hin hv) ha
    · exact .assignError (hin he)
  | cond test chosen otherwise =>
    rcases h.of_andThen with ⟨v, s₁, hv, h⟩ | ⟨err, he, rfl⟩
    · cases ht : v.isTrue with
      | true => rw [ht] at h; exact .condTrue (hin hv) ht h
      | false =>
        rw [ht] at h
        cases otherwise with
        | some other => exact .condFalse (hin hv) ht h
        | none => obtain ⟨rfl, rfl⟩ := h; exact .condNone (hin hv) ht
    · exact .condError (hin he)
  | letIn names values body =>
    rcases h.of_andThen with ⟨vs, s₁, hvs, h⟩ | ⟨err, he, rfl⟩
    · exact .letIn (each_sound hin hvs) (allButLast_sound hin h)
    · exact .letError (each_sound hin he)
  | quote datum => exact .quote (quoted_sound hev n h.of_finish)
  | list items =>
    rcases h.of_andThen with ⟨vs, s₁, hvs, h⟩ | ⟨err, he, rfl⟩
    · obtain ⟨rfl, rfl⟩ := ofExcept_inj (r := .ok (s₁.newList vs).1) h.of_finish
      exact .list (each_sound (quoted_sound hev n) hvs)
    · exact .listError (each_sound (quoted_sound hev n) he)
  | call callee args =>
    rcases h.of_andThen with ⟨p, s₁, hp, h⟩ | ⟨err, he, rfl⟩
    · rcases h.of_andThen with ⟨vs, s₂, hvs, h⟩ | ⟨err, he, rfl⟩
      · exact .call (hin hp) (each_sound hin hvs) (callInTail_sound hev h)
      · exact .argsError (hin hp) (each_sound hin he)
    · exact .calleeError (hin he)

/-- **What the loop comes to can be derived.** -/
theorem eval_sound (fuel n : Nat) : Sound .plain (eval fuel n) := by
  induction fuel generalizing n with
  | zero => intro e f s r s' h; cases r <;> cases h
  | succ fuel ih =>
    intro e f s r s' h
    refine turn_sound ih (n := n) ?_
    rcases of_andThen_eq_ofExcept h with ⟨next, s₁, hn, h⟩ | ⟨err, he, rfl⟩
    · rw [hn]
      cases next with
      | value v =>
        obtain ⟨rfl, rfl⟩ := ofExcept_inj (r := .ok v) h
        exact ⟨rfl, rfl⟩
      | tail e f => exact ih n h
    · rw [he]
      exact ⟨rfl, rfl⟩

/-! ## Completeness -/

/-- A task comes to a result whenever both limits are wide enough. -/
def Ends {α : Type} (task : Task α) (s : Store) (r : Except RuntimeError α) (s' : Store) : Prop :=
  ∃ k, ∀ fuel n, k ≤ fuel → k ≤ n → task.run fuel n s = ofExcept r s'

/-- A body comes to the same if its last expression is evaluated in tail position. -/
theorem allButLast_resume {fuel n : Nat} {f : FrameId} :
    ∀ {body : List Code} {s s' : Store} {r : Except RuntimeError Value},
      inOrder (nested (eval fuel) n) f .undefined body s = ofExcept r s' →
        (allButLast (nested (eval fuel) n) f body s).andThen (resume (eval fuel n)) = ofExcept r s'
  | [], s, s', r, h => h
  | [e], s, s', r, h => by
    have he : nested (eval fuel) n e f s = ofExcept r s' := by
      rcases of_andThen_eq_ofExcept h with ⟨v, s₁, hv, h⟩ | ⟨err, he, rfl⟩
      · rw [hv]
        exact h
      · exact he
    cases n with
    | zero => cases r <;> cases he
    | succ n => exact eval_ofExcept_mono (Nat.le_refl fuel) (Nat.le_succ n) he
  | e :: e' :: es, s, s', r, h => by
    rw [allButLast_cons_cons]
    rcases of_andThen_eq_ofExcept h with ⟨v, s₁, hv, h⟩ | ⟨err, he, rfl⟩
    · rw [hv]
      exact allButLast_resume h
    · rw [he]
      rfl

theorem finish_resume (o : Outcome Value) (ev : Evaluator) : (finish o).andThen (resume ev) = o := by
  cases o <;> rfl

theorem callInTail_resume {fuel n : Nat} {p : Value} {args : List Value} {s s' : Store}
    {r : Except RuntimeError Value} (h : call (eval fuel) n p args s = ofExcept r s') :
    (callInTail (eval fuel) n p args s).andThen (resume (eval fuel n)) = ofExcept r s' := by
  cases p with
  | closure i lambda enclosing =>
    rw [call_closure] at h
    exact allButLast_resume h
  | _ => exact (finish_resume _ _).trans h

/-- Both limits of a turn are wide enough for what is evaluated inside it. -/
theorem Ends.of_eval {e : Code} {f : FrameId} {s s' : Store} {r : Except RuntimeError Value} (k : Nat)
    (h : ∀ fuel n, k ≤ fuel → k ≤ n →
      (turn (eval fuel) n e f s).andThen (resume (eval fuel n)) = ofExcept r s') :
    Ends (.value .plain e f) s r s' := by
  refine ⟨k + 1, fun fuel n hf hn => ?_⟩
  obtain ⟨fuel, rfl⟩ : ∃ j, fuel = j + 1 := ⟨fuel - 1, by omega⟩
  obtain ⟨n, rfl⟩ : ∃ j, n = j + 1 := ⟨n - 1, by omega⟩
  exact h fuel n (by omega) (by omega)

theorem andThen_of_ok {α β : Type} {o : Outcome α} {v : α} {s : Store} (h : o = ofExcept (.ok v) s)
    (next : α → Store → Outcome β) : o.andThen next = next v s := by
  rw [h]
  rfl

theorem andThen_of_error {α β : Type} {o : Outcome α} {e : RuntimeError} {s : Store}
    (h : o = ofExcept (.error e) s) (next : α → Store → Outcome β) : o.andThen next = ofExcept (.error e) s := by
  rw [h]
  rfl

/-- A turn goes on from the value of what is evaluated inside it. -/
theorem resume_of_ok {α : Type} {o : Outcome α} {v : α} {s : Store} (h : o = ofExcept (.ok v) s)
    (next : α → Store → Outcome Next) (ev : Evaluator) :
    (o.andThen next).andThen (resume ev) = (next v s).andThen (resume ev) := by
  rw [andThen_of_ok h]

theorem resume_of_error {α : Type} {o : Outcome α} {e : RuntimeError} {s : Store}
    (h : o = ofExcept (.error e) s) (next : α → Store → Outcome Next) (ev : Evaluator) :
    (o.andThen next).andThen (resume ev) = ofExcept (.error e) s := by
  rw [andThen_of_error h]
  rfl

theorem Ends.of_quoted {e : Code} {f : FrameId} {s s' : Store} {r : Except RuntimeError Value} (k : Nat)
    (h : ∀ fuel n, k ≤ fuel → k ≤ n → Eval.quoted (eval fuel) (n + 1) e f s = ofExcept r s') :
    Ends (.value .quoted e f) s r s' := by
  refine ⟨k + 1, fun fuel n hf hn => ?_⟩
  obtain ⟨n, rfl⟩ : ∃ j, n = j + 1 := ⟨n - 1, by omega⟩
  exact h fuel n (by omega) (by omega)

theorem quoted_other (ev : Nat → Evaluator) (n : Nat) {e : Code} (hc : ∀ c es, e ≠ .call c es)
    (hl : ∀ es, e ≠ .list es) (f : FrameId) (s : Store) : Eval.quoted ev (n + 1) e f s = ev n e f s := by
  cases e with
  | call c es => exact absurd rfl (hc c es)
  | list es => exact absurd rfl (hl es)
  | _ => rfl

theorem run_of_le {n m : Nat} (h : n ≤ m) {p : Primitive} {args : List Value} {reply : Reply}
    (hr : p.run n args = reply) (hne : reply ≠ .nestingTooDeep) : p.run m args = reply := by
  rcases Primitive.run_widens h p args with hw | hw
  · rw [hw, hr]
  · exact absurd (hr.symm.trans hw) hne

/-- **What can be derived is what the evaluator comes to, once both limits are wide enough.** -/
theorem BigStep.ends {α : Type} {task : Task α} {s s' : Store} {r : Except RuntimeError α}
    (h : BigStep task s r s') : Ends task s r s' := by
  induction h with
  | literal | empty | lambda => exact .of_eval 0 fun _ _ _ _ => rfl
  | symbol => exact .of_eval 0 fun _ _ _ _ => finish_resume _ _
  | define _ ih =>
    obtain ⟨k, hk⟩ := ih
    exact .of_eval k fun fuel n hf hn => resume_of_ok (hk fuel n hf hn) _ _
  | assign _ bound ih =>
    obtain ⟨k, hk⟩ := ih
    refine .of_eval k fun fuel n hf hn => (resume_of_ok (hk fuel n hf hn) _ _).trans ?_
    simp only [bound]
    rfl
  | assignUnbound _ unbound ih =>
    obtain ⟨k, hk⟩ := ih
    refine .of_eval k fun fuel n hf hn => (resume_of_ok (hk fuel n hf hn) _ _).trans ?_
    simp only [unbound]
    rfl
  | condTrue _ true _ ih₁ ih₂ =>
    obtain ⟨k₁, h₁⟩ := ih₁
    obtain ⟨k₂, h₂⟩ := ih₂
    refine .of_eval (max k₁ k₂) fun fuel n hf hn => (resume_of_ok (h₁ fuel n (by omega) (by omega)) _ _).trans ?_
    simp only [true, if_true]
    exact h₂ fuel (n + 1) (by omega) (by omega)
  | condFalse _ false _ ih₁ ih₂ =>
    obtain ⟨k₁, h₁⟩ := ih₁
    obtain ⟨k₂, h₂⟩ := ih₂
    refine .of_eval (max k₁ k₂) fun fuel n hf hn => (resume_of_ok (h₁ fuel n (by omega) (by omega)) _ _).trans ?_
    simp only [false, Bool.false_eq_true, if_false]
    exact h₂ fuel (n + 1) (by omega) (by omega)
  | condNone _ false ih =>
    obtain ⟨k, hk⟩ := ih
    refine .of_eval k fun fuel n hf hn => (resume_of_ok (hk fuel n hf hn) _ _).trans ?_
    simp only [false, Bool.false_eq_true, if_false]
    rfl
  | letIn _ _ ih₁ ih₂ =>
    obtain ⟨k₁, h₁⟩ := ih₁
    obtain ⟨k₂, h₂⟩ := ih₂
    refine .of_eval (max k₁ k₂) fun fuel n hf hn => (resume_of_ok (h₁ fuel n (by omega) (by omega)) _ _).trans ?_
    exact allButLast_resume (h₂ fuel n (by omega) (by omega))
  | quote _ ih =>
    obtain ⟨k, hk⟩ := ih
    exact .of_eval k fun fuel n hf hn => (finish_resume _ _).trans (hk fuel n hf hn)
  | @list m _ _ _ _ _ _ ih =>
    obtain ⟨k, hk⟩ := ih
    cases m with
    | plain => exact .of_eval k fun fuel n hf hn => resume_of_ok (hk fuel n hf hn) _ _
    | quoted => exact .of_quoted k fun fuel n hf hn => andThen_of_ok (hk fuel n hf hn) _
  | @listError m _ _ _ _ _ _ ih =>
    obtain ⟨k, hk⟩ := ih
    cases m with
    | plain => exact .of_eval k fun fuel n hf hn => resume_of_error (hk fuel n hf hn) _ _
    | quoted => exact .of_quoted k fun fuel n hf hn => andThen_of_error (hk fuel n hf hn) _
  | quotedCall _ ih =>
    obtain ⟨k, hk⟩ := ih
    exact .of_quoted k fun fuel n hf hn => andThen_of_ok (hk fuel n hf hn) _
  | quotedCallError _ ih =>
    obtain ⟨k, hk⟩ := ih
    exact .of_quoted k fun fuel n hf hn => andThen_of_error (hk fuel n hf hn) _
  | quotedOther noCall noList _ ih =>
    obtain ⟨k, hk⟩ := ih
    refine .of_quoted k fun fuel n hf hn => (quoted_other _ n noCall noList _ _).trans ?_
    exact hk fuel (n + 1) hf (by omega)
  | call _ _ _ ih₁ ih₂ ih₃ =>
    obtain ⟨k₁, h₁⟩ := ih₁
    obtain ⟨k₂, h₂⟩ := ih₂
    obtain ⟨k₃, h₃⟩ := ih₃
    refine .of_eval (max k₁ (max k₂ k₃)) fun fuel n hf hn => ?_
    refine (resume_of_ok (h₁ fuel n (by omega) (by omega)) _ _).trans ?_
    refine (resume_of_ok (h₂ fuel n (by omega) (by omega)) _ _).trans ?_
    exact callInTail_resume (h₃ fuel n (by omega) (by omega))
  | argsError _ _ ih₁ ih₂ =>
    obtain ⟨k₁, h₁⟩ := ih₁
    obtain ⟨k₂, h₂⟩ := ih₂
    refine .of_eval (max k₁ k₂) fun fuel n hf hn => ?_
    refine (resume_of_ok (h₁ fuel n (by omega) (by omega)) _ _).trans ?_
    exact resume_of_error (h₂ fuel n (by omega) (by omega)) _ _
  | defineError _ ih | assignError _ ih | condError _ ih | letError _ ih | calleeError _ ih =>
    obtain ⟨k, hk⟩ := ih
    exact .of_eval k fun fuel n hf hn => resume_of_error (hk fuel n hf hn) _ _
  | nil | bodyEnd => exact ⟨0, fun _ _ _ _ => rfl⟩
  | cons _ _ ih₁ ih₂ =>
    obtain ⟨k₁, h₁⟩ := ih₁
    obtain ⟨k₂, h₂⟩ := ih₂
    refine ⟨max k₁ k₂, fun fuel n hf hn => ?_⟩
    refine (andThen_of_ok (h₁ fuel n (by omega) (by omega)) _).trans ?_
    exact andThen_of_ok (h₂ fuel n (by omega) (by omega)) _
  | tailError _ _ ih₁ ih₂ =>
    obtain ⟨k₁, h₁⟩ := ih₁
    obtain ⟨k₂, h₂⟩ := ih₂
    refine ⟨max k₁ k₂, fun fuel n hf hn => ?_⟩
    refine (andThen_of_ok (h₁ fuel n (by omega) (by omega)) _).trans ?_
    exact andThen_of_error (h₂ fuel n (by omega) (by omega)) _
  | bodyStep _ _ ih₁ ih₂ =>
    obtain ⟨k₁, h₁⟩ := ih₁
    obtain ⟨k₂, h₂⟩ := ih₂
    refine ⟨max k₁ k₂, fun fuel n hf hn => ?_⟩
    refine (andThen_of_ok (h₁ fuel n (by omega) (by omega)) _).trans ?_
    exact h₂ fuel n (by omega) (by omega)
  | headError _ ih | bodyError _ ih =>
    obtain ⟨k, hk⟩ := ih
    exact ⟨k, fun fuel n hf hn => andThen_of_error (hk fuel n hf hn) _⟩
  | closure _ ih =>
    obtain ⟨k, hk⟩ := ih
    exact ⟨k, fun fuel n hf hn => (call_closure _ n _ _ _ _ _).trans (hk fuel n hf hn)⟩
  | @primitiveValue k _ _ _ _ reply | @primitiveList k _ _ _ _ reply | @primitiveLine k _ _ _ _ reply
  | @primitiveNaN k _ _ _ reply | @primitiveError k _ _ _ _ reply =>
    refine ⟨k, fun fuel n _ hn => ?_⟩
    have hr := run_of_le hn reply nofun
    refine (call_primitive _ n _ _ _).trans ?_
    rw [hr]
    rfl
  | @primitiveCall k _ _ _ _ _ _ _ reply _ ih =>
    obtain ⟨j, hj⟩ := ih
    refine ⟨max (k + 1) (j + 1), fun fuel n hf hn => ?_⟩
    obtain ⟨n, rfl⟩ : ∃ i, n = i + 1 := ⟨n - 1, by omega⟩
    have hr := run_of_le (by omega : k ≤ n + 1) reply nofun
    refine (call_primitive _ (n + 1) _ _ _).trans ?_
    rw [hr]
    exact hj fuel n (by omega) (by omega)
  | @notProcedure k _ _ _ _ noProcedure printed =>
    refine ⟨k, fun fuel n _ hn => ?_⟩
    refine (call_notProcedure _ n noProcedure _ _).trans ?_
    rw [Value.printed?_mono hn printed]
    rfl

/-! ## The loop against the rules -/

/-- The nesting limit does not stop the evaluation of an expression, however much fuel there is. -/
def FitsWithin (nesting : Nat) (e : Code) (f : FrameId) (s : Store) : Prop :=
  ∀ fuel s', eval fuel nesting e f s ≠ .stopped .nestingTooDeep s'

theorem FitsWithin.of_eval {fuel nesting : Nat} {e : Code} {f : FrameId} {s s' : Store}
    {r : Except RuntimeError Value} (h : eval fuel nesting e f s = ofExcept r s') : FitsWithin nesting e f s := by
  intro fuel' s'' hdeep
  rcases Nat.le_total fuel fuel' with hle | hle
  · rw [eval_ofExcept_mono hle (Nat.le_refl nesting) h] at hdeep
    cases r <;> cases hdeep
  · rcases eval_widens (· = .outOfFuel) (.inr ⟨rfl, hle⟩) (.inl rfl) e f s with hw | ⟨why, t, rfl, hw⟩
    · rw [hw, hdeep] at h
      cases r <;> cases h
    · rw [hw] at hdeep
      cases hdeep

theorem FitsWithin.eval_of_bigStep {nesting : Nat} {e : Code} {f : FrameId} {s s' : Store}
    {r : Except RuntimeError Value} (hfits : FitsWithin nesting e f s)
    (h : BigStep (.value .plain e f) s r s') : ∃ fuel, eval fuel nesting e f s = ofExcept r s' := by
  obtain ⟨k, hk⟩ := h.ends
  have hwide : eval k (max k nesting) e f s = ofExcept r s' := hk k (max k nesting + 1) (by omega) (by omega)
  refine ⟨k, ?_⟩
  rcases eval_widens (· = .nestingTooDeep) (.inl rfl) (.inr ⟨rfl, Nat.le_max_right k nesting⟩) e f s with
    hw | ⟨why, t, rfl, hw⟩
  · rw [← hw, hwide]
  · exact absurd hw (hfits k t)

/-- **The loop comes to exactly what can be derived.** Under a nesting limit that does not stop it, it ends with a
value or an error, and a store, exactly if the rules derive these; and it goes on for ever just if they derive
nothing. -/
theorem eval_iff_bigStep {nesting : Nat} {e : Code} {f : FrameId} {s : Store} (hfits : FitsWithin nesting e f s) :
    (∀ r s', (∃ fuel, eval fuel nesting e f s = .ofExcept r s') ↔ BigStep (.value .plain e f) s r s') ∧
      ((∀ fuel, ∃ s', eval fuel nesting e f s = .stopped .outOfFuel s') ↔
        ¬∃ r s', BigStep (.value .plain e f) s r s') := by
  refine ⟨fun r s' => ⟨fun ⟨fuel, h⟩ => eval_sound fuel nesting h, hfits.eval_of_bigStep⟩, ?_, ?_⟩
  · rintro hloop ⟨r, s', h⟩
    obtain ⟨fuel, hr⟩ := hfits.eval_of_bigStep h
    obtain ⟨s'', hs⟩ := hloop fuel
    rw [hr] at hs
    cases r <;> cases hs
  · intro hnone fuel
    cases ho : eval fuel nesting e f s with
    | done v s' => exact absurd ⟨.ok v, s', eval_sound fuel nesting ho⟩ hnone
    | stopped why s' =>
      cases why with
      | error err => exact absurd ⟨.error err, s', eval_sound fuel nesting ho⟩ hnone
      | nestingTooDeep => exact absurd ho (hfits fuel s')
      | outOfFuel => exact ⟨s', rfl⟩

/-- `((lambda (f) (if f (f f f))) (lambda rest (let ((x rest)) x)))` -/
def tailCallExample : Code :=
  let name (lexeme : String) : Name := ⟨lexeme, 0, 0⟩
  let f : Code := .symbol (name "f")
  .call (.lambda (.fixed [name "f"]) [.cond f (.call f [f, f]) none])
    [.lambda (.variadic (name "rest")) [.letIn [name "x"] [.symbol (name "rest")] [.symbol (name "x")]]]

theorem eval_iff_bigStep_tailCall :
    FitsWithin 3 tailCallExample Store.globalFrame .initial ∧
      ∃ i j k l s', BigStep (.value .plain tailCallExample Store.globalFrame) .initial
        (.ok (.list i [.closure j k l, .closure j k l])) s' := by
  have h : eval 9 3 tailCallExample Store.globalFrame .initial = .ofExcept (.ok _) _ := rfl
  have hfits := FitsWithin.of_eval h
  exact ⟨hfits, _, _, _, _, _, ((eval_iff_bigStep hfits).1 _ _).1 ⟨9, h⟩⟩

end MiniScheme
