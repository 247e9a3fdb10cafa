import MiniScheme.Proofs.Eval.Adequacy

/-!
# The two ways to call a procedure

A call expression leaves the last expression of a closure's body to the next turn of its own loop, and `apply` runs the
whole body one level further down. Both come to the same, except that the second needs one more level of nesting.

* `Eval.evalCall` — what a call expression comes to once its callee and its arguments have values (`eval_call`).
* `Eval.Deeper k` — two computations that differ in the nesting they need, by `k` levels at most.
* `evalCall_agrees` — the two ways to call, also a call through `apply`.
-/

namespace MiniScheme

open Eval Outcome

/-- The nesting limit stopped the computation. -/
def Stop.TooDeep (why : Stop) : Prop := why = .nestingTooDeep

theorem Stop.tooDeep : TooDeep .nestingTooDeep := rfl

namespace Eval

/-- Calls a procedure as a call expression does, and goes on with what it leaves to be done. -/
def evalCall (fuel nesting : Nat) (procedure : Value) (args : List Value) (store : Store) : Outcome Value :=
  (callInTail (eval fuel) nesting procedure args store).andThen (resume (eval fuel nesting))

/-- The first computation comes to what the second comes to under the same nesting limit, unless the limit stops it; and
with `k` levels more it does so unless the limit stops the second. -/
def Deeper {α : Type} (k : Nat) (o o' : (nesting : Nat) → Outcome α) : Prop :=
  ∀ n, (o n).WidensTo Stop.TooDeep (o' n) ∧ (o' n).WidensTo Stop.TooDeep (o (n + k))

end Eval

theorem Outcome.andThen_assoc {α β γ : Type} (o : Outcome α) (next : α → Store → Outcome β)
    (next' : β → Store → Outcome γ) :
    (o.andThen next).andThen next' = o.andThen fun v s => (next v s).andThen next' := by
  cases o <;> rfl

/-- A chain has a result through one of its first computation. -/
theorem Outcome.exists_of_andThen_done {α β : Type} {o : Outcome α} {next : α → Store → Outcome β} {b : β} {s : Store}
    (h : o.andThen next = .done b s) : ∃ a s₁, o = .done a s₁ ∧ next a s₁ = .done b s := by
  cases o with
  | done a s₁ => exact ⟨a, s₁, rfl, h⟩
  | stopped => cases h

/-- A chain is stopped in its first or in its second computation. -/
theorem Outcome.stopped_of_andThen {α β : Type} {o : Outcome α} {next : α → Store → Outcome β} {why : Stop} {s : Store}
    (h : o.andThen next = .stopped why s) :
    o = .stopped why s ∨ ∃ a s₁, o = .done a s₁ ∧ next a s₁ = .stopped why s := by
  cases o with
  | done a s₁ => exact .inr ⟨a, s₁, rfl, h⟩
  | stopped => exact .inl (by cases h; rfl)

theorem Outcome.WidensTo.trans {α : Type} {limits : Stop → Prop} {o o' o'' : Outcome α} (h : WidensTo limits o o')
    (h' : WidensTo limits o' o'') : WidensTo limits o o'' := by
  rcases h with rfl | hstopped
  · exact h'
  · exact .inr hstopped

/-- **A call expression evaluates its callee, then its arguments, and then calls.** -/
theorem eval_call (fuel n : Nat) (callee : Code) (args : List Code) (f : FrameId) (s : Store) :
    eval (fuel + 1) n (.call callee args) f s =
      (nested (eval fuel) n callee f s).andThen fun procedure s =>
        (each (nested (eval fuel) n) f args s).andThen fun args s => evalCall fuel n procedure args s := by
  simp only [eval, turn, evalCall, andThen_assoc]

/-! ## Bodies -/

theorem inOrder_append (ev : Evaluator) (f : FrameId) (last : Value) (es fs : List Code) (s : Store) :
    inOrder ev f last (es ++ fs) s = (inOrder ev f last es s).andThen fun v s => inOrder ev f v fs s := by
  induction es generalizing last s with
  | nil => rfl
  | cons e es ih =>
    simp only [List.cons_append, inOrder, andThen_assoc]
    cases ev e f s with
    | done v s => exact ih v s
    | stopped => rfl

theorem inOrder_concat (ev : Evaluator) (f : FrameId) (last : Value) (es : List Code) (e : Code) (s : Store) :
    inOrder ev f last (es ++ [e]) s = (inOrder ev f last es s).andThen fun _ s => ev e f s := by
  have hone (v : Value) (s : Store) : inOrder ev f v [e] s = ev e f s := by
    simp only [inOrder]
    cases ev e f s <;> rfl
  simp only [inOrder_append, hone]

theorem allButLast_concat (ev : Evaluator) (f : FrameId) (es : List Code) (e : Code) (s : Store) :
    allButLast ev f (es ++ [e]) s = (inOrder ev f .undefined es s).andThen fun _ s => .done (.tail e f) s := by
  simp [allButLast]

/-- One level further down comes to the same, if the limit allows it. -/
theorem nested_widensTo_eval (fuel n : Nat) :
    Evaluator.WidensTo Stop.TooDeep (nested (eval fuel) n) (eval fuel n) := by
  intro e f s
  cases n with
  | zero => exact .stopped Stop.tooDeep _ _
  | succ n => exact eval_widens _ (.inl rfl) (.inr ⟨Stop.tooDeep, Nat.le_succ n⟩) e f s

theorem nested_widensTo_succ (fuel n : Nat) :
    Evaluator.WidensTo Stop.TooDeep (nested (eval fuel) n) (nested (eval fuel) (n + 1)) :=
  nested_widensTo_eval fuel n

/-- A body run as a whole needs one more level than one whose last expression is left to the next turn. -/
theorem body_deeper (fuel : Nat) (f : FrameId) (body : List Code) (s : Store) :
    Deeper 1 (fun n => inOrder (nested (eval fuel) n) f .undefined body s)
      fun n => (allButLast (nested (eval fuel) n) f body s).andThen (resume (eval fuel n)) := by
  intro n
  rcases List.eq_nil_or_concat body with rfl | ⟨es, e, rfl⟩
  · exact ⟨.refl _, .refl _⟩
  · -- only the last expression is evaluated on another level
    simp only [List.concat_eq_append, inOrder_concat, allButLast_concat, andThen_assoc, andThen_done]
    constructor
    · exact (WidensTo.refl _).andThen fun _ s => nested_widensTo_eval fuel n e f s
    · exact (inOrder_widens (nested_widensTo_succ fuel n) f _ es s).andThen fun _ s => .refl _

/-! ## Calls -/

variable {fuel n : Nat} {p : Value} {args : List Value} {s : Store}

theorem Eval.Deeper.trans {α : Type} {k l : Nat} {o o' o'' : Nat → Outcome α} (h : Deeper k o o')
    (h' : Deeper l o' o'') : Deeper (l + k) o o'' := by
  intro n
  rw [← Nat.add_assoc]
  exact ⟨(h n).1.trans (h' n).1, (h' n).2.trans (h (n + l)).2⟩

/-- Nothing but closures has a body to leave for the next turn. -/
theorem evalCall_eq_call (hp : ∀ i l f, p ≠ .closure i l f) :
    evalCall fuel n p args s = call (eval fuel) n p args s := by
  cases p with
  | closure i l f => exact absurd rfl (hp i l f)
  | _ => exact finish_resume _ _

theorem call_widensTo_succ (fuel n : Nat) (p : Value) (args : List Value) (s : Store) :
    WidensTo Stop.TooDeep (call (eval fuel) n p args s) (call (eval fuel) (n + 1) p args s) :=
  call_widens (fun _ _ h => eval_widens _ (.inl rfl) h) (.inr ⟨Stop.tooDeep, Nat.le_succ n⟩) p args s

theorem call_deeper (fuel : Nat) (p : Value) (args : List Value) (s : Store) :
    Deeper 1 (fun n => call (eval fuel) n p args s) fun n => evalCall fuel n p args s := by
  by_cases hp : ∃ i l f, p = .closure i l f
  · obtain ⟨i, l, f, rfl⟩ := hp
    intro n
    simp only [call_closure]
    exact body_deeper fuel _ l.body _ n
  · have heq (n : Nat) : evalCall fuel n p args s = call (eval fuel) n p args s :=
      evalCall_eq_call fun i l f h => hp ⟨i, l, f, h⟩
    intro n
    simp only [heq]
    exact ⟨.refl _, call_widensTo_succ fuel n p args s⟩

/-- `apply` calls with the items of its list, one level further down. -/
theorem call_apply {list : Value} (hlist : list.items? = some args) (rest : List Value) :
    call (eval fuel) (n + 1) (.primitive .apply) (p :: list :: rest) s = call (eval fuel) n p args s := by
  rw [call_primitive]
  simp only [Primitive.run, Primitive.onList_of_items hlist]

theorem apply_deeper {list : Value} (hlist : list.items? = some args) (rest : List Value) :
    Deeper 1 (fun n => evalCall fuel n (.primitive .apply) (p :: list :: rest) s)
      fun n => call (eval fuel) n p args s := by
  have hprimitive (n : Nat) : evalCall fuel n (.primitive .apply) (p :: list :: rest) s =
      call (eval fuel) n (.primitive .apply) (p :: list :: rest) s := evalCall_eq_call (by simp)
  intro n
  simp only [hprimitive, call_apply hlist]
  refine ⟨?_, .refl _⟩
  cases n with
  | zero =>
    rw [call_primitive]
    simp only [Primitive.run, Primitive.onList_of_items hlist]
    exact .stopped Stop.tooDeep _ _
  | succ n =>
    rw [call_apply hlist]
    exact call_widensTo_succ fuel n p args s

theorem call_stopped_notProcedure (hp : p.isProcedure = false) {shown : String} (hshown : p.printed? n = some shown) :
    call (eval fuel) n p args s = .stopped (.error (.notProcedure shown)) s := by
  rw [call_notProcedure _ _ hp, hshown]

/-- **The two ways to call agree.** From any store and for any arguments, a call expression and `Eval.call` come to the
same value or error, with the same output and the same frames; of what is no procedure both say that it cannot be
called; and to call through `apply`, with the arguments in a list, is to call directly. The indirect ways need more
nesting, which is all that may come between. -/
theorem evalCall_agrees (fuel : Nat) (p : Value) (args : List Value) (s : Store) :
    Deeper 1 (fun n => call (eval fuel) n p args s) (fun n => evalCall fuel n p args s) ∧
      (∀ n shown, p.isProcedure = false → p.printed? n = some shown →
        evalCall fuel n p args s = .stopped (.error (.notProcedure shown)) s ∧
          call (eval fuel) n p args s = .stopped (.error (.notProcedure shown)) s) ∧
      ∀ list rest, list.items? = some args →
        Deeper 2 (fun n => evalCall fuel n (.primitive .apply) (p :: list :: rest) s)
          (fun n => evalCall fuel n p args s) := by
  refine ⟨call_deeper fuel p args s, fun n shown hp hshown => ?_, fun list rest hlist => ?_⟩
  · have hclosure : ∀ i l f, p ≠ .closure i l f := by
      rintro i l f rfl
      cases hp
    rw [evalCall_eq_call hclosure]
    exact ⟨call_stopped_notProcedure hp hshown, call_stopped_notProcedure hp hshown⟩
  · exact (apply_deeper hlist rest).trans (call_deeper fuel p args s)

/-- `(lambda rest (display rest) rest)` in the global frame. -/
def displayAllExample : Value :=
  let name (lexeme : String) : Name := ⟨lexeme, 0, 0⟩
  .closure 0 ⟨.variadic (name "rest"), [.call (.symbol (name "display")) [.symbol (name "rest")],
    .symbol (name "rest")]⟩ Store.globalFrame

theorem evalCall_agrees_displayAll :
    (Value.list 1 [.boolean true]).items? = some [.boolean true] ∧
      Deeper 2 (fun n => evalCall 5 n (.primitive .apply) [displayAllExample, .list 1 [.boolean true]] .initial)
        (fun n => evalCall 5 n displayAllExample [.boolean true] .initial) ∧
      (evalCall 5 3 (.primitive .apply) [displayAllExample, .list 1 [.boolean true]] .initial).store.output = "(#t)\n" ∧
      Value.isProcedure .null = false ∧ Value.null.printed? 3 = some "()" ∧
      evalCall 5 3 .null [] .initial = .stopped (.error (.notProcedure "()")) .initial := by
  obtain ⟨-, -, happly⟩ := evalCall_agrees 5 displayAllExample [.boolean true] .initial
  obtain ⟨-, hnot, -⟩ := evalCall_agrees 5 .null [] .initial
  exact ⟨rfl, happly (.list 1 [.boolean true]) [] rfl, rfl, rfl, rfl, (hnot 3 "()" rfl rfl).1⟩

end MiniScheme
