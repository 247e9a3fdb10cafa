import MiniScheme.Eval
import MiniScheme.Proofs.Value.Nesting

/-!
# Wider limits

Evaluation is stopped by two limits, the fuel and the nesting. Widening one of them changes only what that limit
stopped.

* `WidensTo limits narrow wide` — the outcome `narrow` is that of a computation, and `wide` its outcome when the limits
  behind the stops in `limits` are wider.
* `run_widens` — what a primitive replies, `turn_widens` — what a turn of evaluation comes to.
* `eval_widens` — evaluation under two pairs of limits, of which the second is nowhere narrower.
-/

namespace MiniScheme

/-- The same outcome, unless one of the limits stopped the first. -/
def Outcome.WidensTo {α : Type} (limits : Stop → Prop) (narrow wide : Outcome α) : Prop :=
  wide = narrow ∨ ∃ why store, limits why ∧ narrow = .stopped why store

/-- The same limit, or a wider one where it may be wider. -/
def Wider (free : Prop) (n m : Nat) : Prop := n = m ∨ (free ∧ n ≤ m)

/-- The same for two evaluators, whatever they are given. -/
def Evaluator.WidensTo (limits : Stop → Prop) (narrow wide : Evaluator) : Prop :=
  ∀ expr frame store, Outcome.WidensTo limits (narrow expr frame store) (wide expr frame store)

namespace Outcome

variable {α β : Type} {limits : Stop → Prop}

theorem WidensTo.refl (o : Outcome α) : WidensTo limits o o := .inl rfl

theorem WidensTo.stopped {why : Stop} (h : limits why) (store : Store) (wide : Outcome α) :
    WidensTo limits (stopped why store) wide := .inr ⟨why, store, h, rfl⟩

theorem WidensTo.andThen {o o' : Outcome α} {next next' : α → Store → Outcome β} (ho : WidensTo limits o o')
    (hnext : ∀ v s, WidensTo limits (next v s) (next' v s)) :
    WidensTo limits (o.andThen next) (o'.andThen next') := by
  rcases ho with rfl | ⟨why, store, hw, rfl⟩
  · cases o' with
    | done v s => exact hnext v s
    | stopped why s => exact .refl _
  · exact .stopped hw _ _

/-- A result, or an error of the program, is the same under wider limits. -/
theorem WidensTo.eq_ofExcept {o o' : Outcome α} (h : WidensTo limits o o') (herror : ∀ e, ¬limits (.error e))
    {result : Except RuntimeError α} {store : Store} (ho : o = ofExcept result store) :
    o' = ofExcept result store := by
  rcases h with rfl | ⟨why, s, hw, hs⟩
  · exact ho
  · rw [ho] at hs
    cases result with
    | ok v => cases hs
    | error e =>
      cases hs
      exact absurd hw (herror e)

end Outcome

theorem Wider.succ {free : Prop} {n m : Nat} (h : Wider free (n + 1) m) : ∃ k, m = k + 1 ∧ Wider free n k := by
  rcases h with rfl | ⟨hf, hnm⟩
  · exact ⟨n, rfl, .inl rfl⟩
  · exact ⟨m - 1, by omega, .inr ⟨hf, by omega⟩⟩

theorem Wider.le {free : Prop} {n m : Nat} (h : Wider free n m) : n ≤ m := by
  rcases h with rfl | h
  · exact Nat.le_refl n
  · exact h.2

namespace Primitive

open Value

theorem reject_widens {n m : Nat} (h : n ≤ m) (v : Value) (error : String → RuntimeError) :
    reject m v error = reject n v error ∨ reject n v error = .nestingTooDeep := by
  unfold reject
  cases hp : v.printed? n with
  | none => exact .inr rfl
  | some text => rw [printed?_mono h hp]; exact .inl rfl

theorem truth_widens {p : Primitive} {d : Direction} {n m : Nat} (h : n ≤ m) (args : List Value) :
    truth p (pairwise (compare d m) args) = truth p (pairwise (compare d n) args) ∨
      truth p (pairwise (compare d n) args) = .nestingTooDeep := by
  by_cases hd : pairwise (compare d n) args = .error .nestingTooDeep
  · exact .inr (by rw [hd]; rfl)
  · exact .inl (by rw [pairwise_mono (fun a b hab => compare_mono h hab) hd])

theorem attempt_widens {α : Type} {result : Except Fault α} {narrow wide : α → Reply}
    (h : ∀ a, wide a = narrow a ∨ narrow a = .nestingTooDeep) :
    attempt result wide = attempt result narrow ∨ attempt result narrow = .nestingTooDeep := by
  cases result with
  | ok a => exact h a
  | error fault => exact .inl rfl

theorem onNumbers_widens {n m : Nat} (h : n ≤ m) (p : Primitive) (args : List Value)
    (compute : List Number → Except Fault Computed) :
    onNumbers m p args compute = onNumbers n p args compute ∨ onNumbers n p args compute = .nestingTooDeep := by
  unfold onNumbers
  split
  · exact reject_widens h _ _
  · exact .inl rfl

theorem onList_widens {n m : Nat} (h : n ≤ m) (p : Primitive) (args : List Value)
    (reply : Value → List Value → Reply) :
    onList m p args reply = onList n p args reply ∨ onList n p args reply = .nestingTooDeep := by
  unfold onList
  split
  · exact .inl rfl
  · refine attempt_widens fun first => attempt_widens fun second => ?_
    split
    · exact .inl rfl
    · exact reject_widens h _ _

/-- **Under a wider nesting limit a primitive replies the same, unless the narrower one stopped it.** -/
theorem run_widens {n m : Nat} (h : n ≤ m) (p : Primitive) (args : List Value) :
    p.run m args = p.run n args ∨ p.run n args = .nestingTooDeep := by
  cases p <;> unfold run <;> dsimp only
  case multiply | add | remainder | round | abs => exact onNumbers_widens h _ _ _
  case subtract | divide =>
    split
    · exact .inl rfl
    · exact onNumbers_widens h _ _ _
  case atMost | atLeast => exact truth_widens h args
  case stringLength =>
    split
    · exact .inl rfl
    · split
      · exact .inl rfl
      · exact reject_widens h _ _
  case car | cdr =>
    split
    · exact .inl rfl
    · exact .inl rfl
    · exact .inl rfl
    · exact reject_widens h _ _
  case stringAppend =>
    split
    · exact .inl rfl
    · split
      · exact reject_widens h _ _
      · exact .inl rfl
  case cons | apply => exact onList_widens h _ _ _
  case display =>
    cases hp : (arg args 0).printed? n with
    | none => exact .inr rfl
    | some text => rw [printed?_mono h hp]; exact .inl rfl
  all_goals exact .inl rfl

end Primitive

namespace Eval

open Outcome

variable {limits : Stop → Prop} {narrow wide : Nat → Evaluator} {n m : Nat}

theorem each_widens {ev ev' : Evaluator} (h : Evaluator.WidensTo limits ev ev') (frame : FrameId) :
    ∀ (exprs : List Code) (store : Store),
      Outcome.WidensTo limits (each ev frame exprs store) (each ev' frame exprs store)
  | [], _ => .refl _
  | expr :: rest, store =>
    (h expr frame store).andThen fun _ s => (each_widens h frame rest s).andThen fun _ _ => .refl _

theorem inOrder_widens {ev ev' : Evaluator} (h : Evaluator.WidensTo limits ev ev') (frame : FrameId) :
    ∀ (last : Value) (exprs : List Code) (store : Store),
      Outcome.WidensTo limits (inOrder ev frame last exprs store) (inOrder ev' frame last exprs store)
  | _, [], _ => .refl _
  | _, expr :: rest, store => (h expr frame store).andThen fun v s => inOrder_widens h frame v rest s

theorem allButLast_widens {ev ev' : Evaluator} (h : Evaluator.WidensTo limits ev ev') (frame : FrameId)
    (body : List Code) (store : Store) :
    Outcome.WidensTo limits (allButLast ev frame body store) (allButLast ev' frame body store) :=
  (inOrder_widens h frame _ _ store).andThen fun _ _ => .refl _

/-- The same for two families of evaluators, where the nesting limit may be widened too. -/
def Inner (limits : Stop → Prop) (narrow wide : Nat → Evaluator) : Prop :=
  ∀ n m, Wider (limits .nestingTooDeep) n m → Evaluator.WidensTo limits (narrow n) (wide m)

theorem nested_widens (h : Inner limits narrow wide) (hnm : Wider (limits .nestingTooDeep) n m) :
    Evaluator.WidensTo limits (nested narrow n) (nested wide m) := by
  intro expr frame store
  cases n with
  | zero =>
    rcases hnm with rfl | ⟨hf, _⟩
    · exact .refl _
    · exact .stopped hf _ _
  | succ n =>
    obtain ⟨k, rfl, hk⟩ := hnm.succ
    exact h n k hk expr frame store

theorem quoted_widens (h : Inner limits narrow wide) (hnm : Wider (limits .nestingTooDeep) n m) :
    Evaluator.WidensTo limits (quoted narrow n) (quoted wide m) := by
  induction n generalizing m with
  | zero =>
    intro expr frame store
    rcases hnm with rfl | ⟨hf, _⟩
    · exact .refl _
    · exact .stopped hf _ _
  | succ n ih =>
    intro expr frame store
    obtain ⟨k, rfl, hk⟩ := hnm.succ
    cases expr with
    | call callee args => exact (each_widens (ih hk) frame _ store).andThen fun _ _ => .refl _
    | list items => exact (each_widens (ih hk) frame _ store).andThen fun _ _ => .refl _
    | _ => exact h n k hk _ frame store

theorem run_eq_or_free {free : Prop} (hnm : Wider free n m) (p : Primitive) (args : List Value) :
    p.run m args = p.run n args ∨ (free ∧ p.run n args = .nestingTooDeep) := by
  rcases hnm with rfl | ⟨hf, hle⟩
  · exact .inl rfl
  · exact (Primitive.run_widens hle p args).imp id fun hr => ⟨hf, hr⟩

theorem call_primitive_widens (hnm : Wider (limits .nestingTooDeep) n m)
    (ih : ∀ k j, n = k + 1 → Wider (limits .nestingTooDeep) k j → ∀ procedure args store,
      Outcome.WidensTo limits (call narrow k procedure args store) (call wide j procedure args store))
    (p : Primitive) (args : List Value) (store : Store) :
    Outcome.WidensTo limits (call narrow n (.primitive p) args store) (call wide m (.primitive p) args store) := by
  rw [call_primitive, call_primitive]
  rcases run_eq_or_free hnm p args with hr | ⟨hf, hr⟩
  · rw [hr]
    cases p.run n args with
    | call procedure args =>
      cases n with
      | zero =>
        rcases hnm with rfl | ⟨hf, _⟩
        · exact .refl _
        · exact .stopped hf _ _
      | succ n =>
        obtain ⟨k, rfl, hk⟩ := hnm.succ
        exact ih n k rfl hk procedure args store
    | _ => exact .refl _
  · rw [hr]
    exact .stopped hf _ _

theorem call_widens (h : Inner limits narrow wide) (hnm : Wider (limits .nestingTooDeep) n m)
    (procedure : Value) (args : List Value) (store : Store) :
    Outcome.WidensTo limits (call narrow n procedure args store) (call wide m procedure args store) := by
  induction n using Nat.strongRecOn generalizing m procedure args store with
  | ind n ih =>
    cases procedure with
    | closure i lambda enclosing =>
      rw [call_closure, call_closure]
      exact inOrder_widens (nested_widens h hnm) _ _ _ _
    | primitive p =>
      exact call_primitive_widens hnm (fun k j hk hkj => ih k (by omega) hkj) p args store
    | _ =>
      rw [call_notProcedure _ _ rfl, call_notProcedure _ _ rfl]
      rcases hnm with rfl | ⟨hf, hle⟩
      · exact .refl _
      · cases hp : Value.printed? n _ with
        | none => exact .stopped hf _ _
        | some shown => rw [Value.printed?_mono hle hp]; exact .refl _

theorem callInTail_widens (h : Inner limits narrow wide) (hnm : Wider (limits .nestingTooDeep) n m)
    (procedure : Value) (args : List Value) (store : Store) :
    Outcome.WidensTo limits (callInTail narrow n procedure args store)
      (callInTail wide m procedure args store) := by
  cases procedure with
  | closure i lambda enclosing => exact allButLast_widens (nested_widens h hnm) _ _ _
  | _ => exact (call_widens h hnm _ args store).andThen fun _ _ => .refl _

/-- **A turn under wider limits comes to the same, unless the narrower ones stopped it.** -/
theorem turn_widens (h : Inner limits narrow wide) (hnm : Wider (limits .nestingTooDeep) n m) (expr : Code)
    (frame : FrameId) (store : Store) :
    Outcome.WidensTo limits (turn narrow n expr frame store) (turn wide m expr frame store) := by
  have hin := nested_widens h hnm
  cases expr with
  | literal a => exact .refl _
  | empty => exact .refl _
  | symbol name => exact .refl _
  | lambda params body => exact .refl _
  | define name value => exact (hin value frame store).andThen fun _ _ => .refl _
  | assign name value => exact (hin value frame store).andThen fun _ _ => .refl _
  | cond test chosen otherwise => exact (hin test frame store).andThen fun _ _ => .refl _
  | letIn names values body =>
    exact (each_widens hin frame values store).andThen fun _ _ => allButLast_widens hin _ _ _
  | quote datum => exact (quoted_widens h hnm datum frame store).andThen fun _ _ => .refl _
  | list items => exact (each_widens (quoted_widens h hnm) frame items store).andThen fun _ _ => .refl _
  | call callee args =>
    exact (hin callee frame store).andThen fun procedure s =>
      (each_widens hin frame args s).andThen fun vs s => callInTail_widens h hnm procedure vs s

end Eval

/-- **Evaluation under wider limits comes to the same, unless the narrower ones stopped it.** -/
theorem eval_widens (limits : Stop → Prop) {fuel fuel' n m : Nat} (hfuel : Wider (limits .outOfFuel) fuel fuel')
    (hnm : Wider (limits .nestingTooDeep) n m) : Evaluator.WidensTo limits (eval fuel n) (eval fuel' m) := by
  induction fuel generalizing fuel' n m with
  | zero =>
    intro expr frame store
    rcases hfuel with rfl | ⟨hf, _⟩
    · exact .refl _
    · exact .stopped hf _ _
  | succ fuel ih =>
    intro expr frame store
    obtain ⟨fuel', rfl, hk⟩ := hfuel.succ
    refine (Eval.turn_widens (fun _ _ => ih hk) hnm expr frame store).andThen fun next s => ?_
    cases next with
    | value v => exact .refl _
    | tail expr frame => exact ih hk hnm expr frame s

/-- Under wider limits every result stays. -/
theorem eval_ofExcept_mono {fuel fuel' n m : Nat} (hfuel : fuel ≤ fuel') (hnm : n ≤ m) {expr : Code}
    {frame : FrameId} {store store' : Store} {result : Except RuntimeError Value}
    (h : eval fuel n expr frame store = .ofExcept result store') :
    eval fuel' m expr frame store = .ofExcept result store' := by
  have hw := eval_widens (fun why => ∀ e, why ≠ .error e) (.inr ⟨by simp, hfuel⟩) (.inr ⟨by simp, hnm⟩)
    expr frame store
  exact hw.eq_ofExcept (fun e he => he e rfl) h

end MiniScheme
