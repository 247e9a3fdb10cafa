import Mathlib.Order.CompleteBooleanAlgebra
import Mathlib.Order.CompletePartialOrder
import MiniScheme.Proofs.Eval.Calls
import MiniScheme.Proofs.Expr.Parts
import MiniScheme.Proofs.Value.Correspondence

/-!
# Simulations

Two evaluations run side by side if all that they do to their stores corresponds. What that means is a family of
relations, indexed by worlds that grow as both go on. Evaluation then relates whatever its operations on the store
relate, so the induction over whole evaluations is made here once.

* `Outcome.Corresponds` — outcomes of the same kind with stores and results related in a later world.
* `Simulation` — the relations, and what each operation on the store has to keep.
* `Simulation.eval_corresponds`, `Simulation.call_corresponds` — evaluations and calls then correspond.
-/

namespace MiniScheme

open List (Forall₂)
open Eval Outcome

/-! ## Outcomes -/

/-- The two outcomes are both results or the same stop, and related in a world that comes after `w`. -/
inductive Outcome.Corresponds {W α β : Type} [Preorder W] (stores : W → Store → Store → Prop)
    (results : W → α → β → Prop) (w : W) : Outcome α → Outcome β → Prop where
  | done {u : W} {a : α} {b : β} {s t : Store} (le : w ≤ u) (hstores : stores u s t) (hresults : results u a b) :
    Corresponds stores results w (.done a s) (.done b t)
  | stopped {u : W} {s t : Store} (why : Stop) (le : w ≤ u) (hstores : stores u s t) :
    Corresponds stores results w (.stopped why s) (.stopped why t)

namespace Outcome.Corresponds

variable {W α β γ δ : Type} [Preorder W] {stores : W → Store → Store → Prop} {results : W → α → β → Prop}
  {results' : W → γ → δ → Prop} {w u : W} {o : Outcome α} {o' : Outcome β}

theorem of_le (hle : w ≤ u) (h : Corresponds stores results u o o') : Corresponds stores results w o o' := by
  cases h with
  | done le hstores hresults => exact .done (le_trans hle le) hstores hresults
  | stopped why le hstores => exact .stopped why (le_trans hle le) hstores

/-- What corresponding computations go on with corresponds, if it does so from every later world. -/
theorem andThen {next : α → Store → Outcome γ} {next' : β → Store → Outcome δ}
    (h : Corresponds stores results w o o')
    (hnext : ∀ u a b s t, w ≤ u → stores u s t → results u a b → Corresponds stores results' u (next a s) (next' b t)) :
    Corresponds stores results' w (o.andThen next) (o'.andThen next') := by
  cases h with
  | done le hstores hresults => exact (hnext _ _ _ _ _ le hstores hresults).of_le le
  | stopped why le hstores => exact .stopped why le hstores

end Outcome.Corresponds

/-! ## Simulations -/

/-- Relations between two runs, and what the operations on the store do to them. -/
structure Simulation (W : Type) [Preorder W] where
  stores : W → Store → Store → Prop
  values : W → Value → Value → Prop
  /-- An expression in a frame of one run goes with an expression in a frame of the other. -/
  runs : W → Code → FrameId → Code → FrameId → Prop
  values_mono : ∀ {w u v v'}, w ≤ u → values w v v' → values u v v'
  runs_mono : ∀ {w u e f e' g}, w ≤ u → runs w e f e' g → runs u e f e' g
  correspondence : ∀ w, Value.Correspondence (values w)
  alike : ∀ {w e f e' g}, runs w e f e' g → Expr.Alike (fun d d' => runs w d f d' g) e e'
  get : ∀ {w s t x f y g}, stores w s t → runs w (.symbol x) f (.symbol y) g →
    Corresponds stores values w (.ofExcept (s.get x.lexeme f) s) (.ofExcept (t.get y.lexeme g) t)
  newList : ∀ {w s t vs vs'}, stores w s t → Forall₂ (values w) vs vs' →
    Corresponds stores values w (.ofPair (s.newList vs)) (.ofPair (t.newList vs'))
  newNaN : ∀ {w s t}, stores w s t → Corresponds stores values w (.ofPair s.newNaN) (.ofPair t.newNaN)
  newClosure : ∀ {w s t ps b f qs c g}, stores w s t → runs w (.lambda ps b) f (.lambda qs c) g →
    Corresponds stores values w (.ofPair (s.newClosure ⟨ps, b⟩ f)) (.ofPair (t.newClosure ⟨qs, c⟩ g))
  define : ∀ {w s t x e f y e' g v v'}, stores w s t → runs w (.define x e) f (.define y e') g → values w v v' →
    ∃ u, w ≤ u ∧ stores u (s.define x.lexeme v f) (t.define y.lexeme v' g)
  assign : ∀ {w s t x e f y e' g v v'}, stores w s t → runs w (.assign x e) f (.assign y e') g → values w v v' →
    (∃ u s' t', w ≤ u ∧ s.assign x.lexeme v f = .ok s' ∧ t.assign y.lexeme v' g = .ok t' ∧ stores u s' t') ∨
      ∃ err, s.assign x.lexeme v f = .error err ∧ t.assign y.lexeme v' g = .error err
  writeLine : ∀ {w s t} (text : String), stores w s t → ∃ u, w ≤ u ∧ stores u (s.writeLine text) (t.writeLine text)
  enterLet : ∀ {w s t xs es b f ys ds c g vs vs'}, stores w s t → runs w (.letIn xs es b) f (.letIn ys ds c) g →
    Forall₂ (values w) vs vs' →
    ∃ u, w ≤ u ∧ stores u (s.enter (.fixed xs) vs f).2 (t.enter (.fixed ys) vs' g).2 ∧
      Forall₂ (fun d d' => runs u d (s.enter (.fixed xs) vs f).1 d' (t.enter (.fixed ys) vs' g).1) b c
  enterClosure : ∀ {w s t i l f j m g vs vs'}, stores w s t → values w (.closure i l f) (.closure j m g) →
    Forall₂ (values w) vs vs' →
    ∃ u, w ≤ u ∧ stores u (s.enter l.params vs f).2 (t.enter m.params vs' g).2 ∧
      Forall₂ (fun d d' => runs u d (s.enter l.params vs f).1 d' (t.enter m.params vs' g).1) l.body m.body

namespace Simulation

variable {W : Type} [Preorder W] (sim : Simulation W)

/-- Lists of related values. -/
def lists (w : W) : List Value → List Value → Prop := Forall₂ (sim.values w)

/-- What is left of two turns goes together. -/
inductive Nexts (w : W) : Next → Next → Prop where
  | value {v v' : Value} (h : sim.values w v v') : Nexts w (.value v) (.value v')
  | tail {e e' : Code} {f g : FrameId} (h : sim.runs w e f e' g) : Nexts w (.tail e f) (.tail e' g)

/-- The evaluator relates whatever it makes of related expressions. -/
def Respects (ev : Evaluator) : Prop :=
  ∀ ⦃w s t e f e' g⦄, sim.stores w s t → sim.runs w e f e' g →
    Corresponds sim.stores sim.values w (ev e f s) (ev e' g t)

variable {sim} {w u : W} {s t : Store} {f g : FrameId}

theorem runs_all_mono {es es' : List Code} (hle : w ≤ u) (h : Forall₂ (fun d d' => sim.runs w d f d' g) es es') :
    Forall₂ (fun d d' => sim.runs u d f d' g) es es' :=
  h.imp fun _ _ => sim.runs_mono hle

/-- A value that comes with a store, and one that ends a turn. -/
theorem finish_corresponds {o o' : Outcome Value} (h : Corresponds sim.stores sim.values w o o') :
    Corresponds sim.stores sim.Nexts w (finish o) (finish o') :=
  h.andThen fun _ _ _ _ _ _ hst hv => .done le_rfl hst (.value hv)

theorem undefined_corresponds (hle : w ≤ u) (hst : sim.stores u s t) :
    Corresponds sim.stores sim.Nexts w (.done (.value .undefined) s) (.done (.value .undefined) t) :=
  .done hle hst (.value ((sim.correspondence u).plain rfl))

/-! ## Sequences of expressions -/

theorem each_corresponds {ev : Evaluator} (hev : sim.Respects ev) {es es' : List Code} (hst : sim.stores w s t)
    (h : Forall₂ (fun d d' => sim.runs w d f d' g) es es') :
    Corresponds sim.stores sim.lists w (each ev f es s) (each ev g es' t) := by
  induction es generalizing w s t es' with
  | nil =>
    cases h
    exact .done le_rfl hst .nil
  | cons e es ih =>
    cases h with
    | cons he hes =>
      refine (hev hst he).andThen fun u v v' s t hle hst hv => ?_
      refine (ih hst (runs_all_mono hle hes)).andThen fun u' vs vs' s t hle' hst hvs => ?_
      exact .done le_rfl hst (.cons (sim.values_mono hle' hv) hvs)

theorem inOrder_corresponds {ev : Evaluator} (hev : sim.Respects ev) {es es' : List Code} {last last' : Value}
    (hst : sim.stores w s t) (hlast : sim.values w last last')
    (h : Forall₂ (fun d d' => sim.runs w d f d' g) es es') :
    Corresponds sim.stores sim.values w (inOrder ev f last es s) (inOrder ev g last' es' t) := by
  induction es generalizing w s t es' last last' with
  | nil =>
    cases h
    exact .done le_rfl hst hlast
  | cons e es ih =>
    cases h with
    | cons he hes =>
      refine (hev hst he).andThen fun u v v' s t hle hst hv => ?_
      exact ih hst hv (runs_all_mono hle hes)

theorem allButLast_corresponds {ev : Evaluator} (hev : sim.Respects ev) {body body' : List Code}
    (hst : sim.stores w s t) (h : Forall₂ (fun d d' => sim.runs w d f d' g) body body') :
    Corresponds sim.stores sim.Nexts w (allButLast ev f body s) (allButLast ev g body' t) := by
  induction body generalizing w s t body' with
  | nil =>
    cases h
    exact undefined_corresponds le_rfl hst
  | cons e es ih =>
    cases h with
    | cons he hes =>
      cases es with
      | nil =>
        cases hes
        exact .done le_rfl hst (.tail he)
      | cons e₂ es =>
        cases hes with
        | cons he₂ hes =>
          rw [allButLast_cons_cons, allButLast_cons_cons]
          refine (hev hst he).andThen fun u _ _ s t hle hst _ => ?_
          exact ih hst (runs_all_mono hle (.cons he₂ hes))

/-! ## Turns -/

section

variable {ev : Nat → Evaluator} (hev : ∀ n, sim.Respects (ev n))

include hev

theorem nested_respects (n : Nat) : sim.Respects (nested ev n) := by
  intro w s t e f e' g hst h
  cases n with
  | zero => exact .stopped .nestingTooDeep le_rfl hst
  | succ n => exact hev n hst h

theorem quoted_respects (n : Nat) : sim.Respects (quoted ev n) := by
  induction n with
  | zero =>
    intro w s t e f e' g hst h
    exact .stopped .nestingTooDeep le_rfl hst
  | succ n ih =>
    intro w s t e f e' g hst h
    cases sim.alike h with
    | call hcallee hargs =>
      exact (each_corresponds ih hst (.cons hcallee hargs)).andThen fun u vs vs' s t _ hst hvs => sim.newList hst hvs
    | list hitems =>
      exact (each_corresponds ih hst hitems).andThen fun u vs vs' s t _ hst hvs => sim.newList hst hvs
    | _ => exact hev n hst h

/-- Calls correspond if those one level further down do, which only `apply` asks for. -/
theorem call_corresponds_of (n : Nat)
    (hdown : ∀ m, n = m + 1 → ∀ {w s t p q vs vs'}, sim.stores w s t → sim.values w p q → sim.lists w vs vs' →
      Corresponds sim.stores sim.values w (call ev m p vs s) (call ev m q vs' t))
    {p q : Value} {vs vs' : List Value} (hst : sim.stores w s t) (hpq : sim.values w p q) (hvs : sim.lists w vs vs') :
    Corresponds sim.stores sim.values w (call ev n p vs s) (call ev n q vs' t) := by
  have hvalues := sim.correspondence w
  cases hvalues.alike hpq with
  | closure =>
    obtain ⟨u, hle, hst, hbody⟩ := sim.enterClosure hst hpq hvs
    rw [call_closure, call_closure]
    exact (inOrder_corresponds (nested_respects hev n) hst ((sim.correspondence u).plain rfl) hbody).of_le hle
  | list | nan =>
    rw [call_notProcedure ev n rfl, call_notProcedure ev n rfl, hvalues.printed?_eq hpq]
    split
    · exact .stopped _ le_rfl hst
    · exact .stopped _ le_rfl hst
  | plain hp =>
    cases p with
    | primitive p =>
      have hreply := Primitive.run_corresponds hvalues n p hvs
      rw [call_primitive, call_primitive]
      generalize p.run n vs = reply, p.run n vs' = reply' at hreply
      cases hreply with
      | value h => exact .done le_rfl hst h
      | newList h => exact sim.newList hst h
      | newNaN => exact sim.newNaN hst
      | line text =>
        obtain ⟨u, hle, hst⟩ := sim.writeLine text hst
        exact .done hle hst ((sim.correspondence u).plain rfl)
      | call h hs =>
        cases n with
        | zero => exact .stopped .nestingTooDeep le_rfl hst
        | succ n => exact hdown n rfl hst h hs
      | failed e => exact .stopped (.error e) le_rfl hst
      | nestingTooDeep => exact .stopped .nestingTooDeep le_rfl hst
      | fault => exact .stopped .outOfFuel le_rfl hst
    | closure => cases hp
    | _ =>
      rw [call_notProcedure ev n rfl, call_notProcedure ev n rfl]
      split
      · exact .stopped _ le_rfl hst
      · exact .stopped _ le_rfl hst

theorem call_respects (n : Nat) {p q : Value} {vs vs' : List Value} (hst : sim.stores w s t)
    (hpq : sim.values w p q) (hvs : sim.lists w vs vs') :
    Corresponds sim.stores sim.values w (call ev n p vs s) (call ev n q vs' t) := by
  induction n generalizing w s t p q vs vs' with
  | zero => exact call_corresponds_of hev 0 nofun hst hpq hvs
  | succ n ih =>
    refine call_corresponds_of hev (n + 1) ?_ hst hpq hvs
    intro m hm
    cases hm
    exact ih

theorem callInTail_corresponds (n : Nat) {p q : Value} {vs vs' : List Value} (hst : sim.stores w s t)
    (hpq : sim.values w p q) (hvs : sim.lists w vs vs') :
    Corresponds sim.stores sim.Nexts w (callInTail ev n p vs s) (callInTail ev n q vs' t) := by
  have hcall := finish_corresponds (call_respects hev n hst hpq hvs)
  cases (sim.correspondence w).alike hpq with
  | closure =>
    obtain ⟨u, hle, hst, hbody⟩ := sim.enterClosure hst hpq hvs
    exact (allButLast_corresponds (nested_respects hev n) hst hbody).of_le hle
  | list | nan => exact hcall
  | plain hp =>
    cases p with
    | closure => cases hp
    | _ => exact hcall

/-- **A turn of one run corresponds to that of the other.** -/
theorem turn_corresponds (n : Nat) {e e' : Code} (hst : sim.stores w s t) (h : sim.runs w e f e' g) :
    Corresponds sim.stores sim.Nexts w (turn ev n e f s) (turn ev n e' g t) := by
  have hin := nested_respects hev n
  cases sim.alike h with
  | @literal a => exact .done le_rfl hst (.value ((sim.correspondence w).plain (by cases a <;> rfl)))
  | empty => exact .done le_rfl hst (.value ((sim.correspondence w).plain rfl))
  | symbol => exact finish_corresponds (sim.get hst h)
  | lambda => exact finish_corresponds (sim.newClosure hst h)
  | define hvalue =>
    refine (hin hst hvalue).andThen fun u v v' s t hle hst hv => ?_
    obtain ⟨u', hle', hst⟩ := sim.define hst (sim.runs_mono hle h) hv
    exact undefined_corresponds hle' hst
  | assign hvalue =>
    refine (hin hst hvalue).andThen fun u v v' s t hle hst hv => ?_
    rcases sim.assign hst (sim.runs_mono hle h) hv with ⟨u', s', t', hle', hs, ht, hst'⟩ | ⟨err, hs, ht⟩
    · rw [hs, ht]
      exact undefined_corresponds hle' hst'
    · rw [hs, ht]
      exact .stopped (.error err) le_rfl hst
  | cond htest hchosen hotherwise =>
    refine (hin hst htest).andThen fun u v v' s t hle hst hv => ?_
    rw [(sim.correspondence u).isTrue_eq hv]
    split
    · exact .done le_rfl hst (.tail (sim.runs_mono hle hchosen))
    · cases hotherwise with
      | none => exact undefined_corresponds le_rfl hst
      | some hother => exact .done le_rfl hst (.tail (sim.runs_mono hle hother))
  | letIn hvalues =>
    refine (each_corresponds hin hst hvalues).andThen fun u vs vs' s t hle hst hvs => ?_
    obtain ⟨u', hle', hst, hbody⟩ := sim.enterLet hst (sim.runs_mono hle h) hvs
    exact (allButLast_corresponds hin hst hbody).of_le hle'
  | quote hdatum => exact finish_corresponds (quoted_respects hev n hst hdatum)
  | list hitems =>
    refine (each_corresponds (quoted_respects hev n) hst hitems).andThen fun u vs vs' s t _ hst hvs => ?_
    exact finish_corresponds (sim.newList hst hvs)
  | call hcallee hargs =>
    refine (hin hst hcallee).andThen fun u p q s t hle hst hpq => ?_
    refine (each_corresponds hin hst (runs_all_mono hle hargs)).andThen fun u' vs vs' s t hle' hst hvs => ?_
    exact callInTail_corresponds hev n hst (sim.values_mono hle' hpq) hvs

end

/-! ## Evaluation -/

theorem resume_corresponds {ev : Evaluator} (hev : sim.Respects ev) {next next' : Next} (hst : sim.stores w s t)
    (h : sim.Nexts w next next') : Corresponds sim.stores sim.values w (resume ev next s) (resume ev next' t) := by
  cases h with
  | value hv => exact .done le_rfl hst hv
  | tail htail => exact hev hst htail

variable (sim)

/-- **Related expressions come to related results**, whatever the limits. -/
theorem eval_corresponds (fuel n : Nat) : sim.Respects (eval fuel n) := by
  induction fuel generalizing n with
  | zero =>
    intro w s t e f e' g hst h
    exact .stopped .outOfFuel le_rfl hst
  | succ fuel ih =>
    intro w s t e f e' g hst h
    exact (turn_corresponds ih n hst h).andThen fun u next next' s t _ hst hnext => resume_corresponds (ih n) hst hnext

/-- **Calls of related procedures with related arguments come to related results.** -/
theorem call_corresponds (fuel n : Nat) {p q : Value} {vs vs' : List Value} (hst : sim.stores w s t)
    (hpq : sim.values w p q) (hvs : sim.lists w vs vs') :
    Corresponds sim.stores sim.values w (call (eval fuel) n p vs s) (call (eval fuel) n q vs' t) :=
  call_respects (sim.eval_corresponds fuel) n hst hpq hvs

theorem evalCall_corresponds (fuel n : Nat) {p q : Value} {vs vs' : List Value} (hst : sim.stores w s t)
    (hpq : sim.values w p q) (hvs : sim.lists w vs vs') :
    Corresponds sim.stores sim.values w (evalCall fuel n p vs s) (evalCall fuel n q vs' t) := by
  refine (callInTail_corresponds (sim.eval_corresponds fuel) n hst hpq hvs).andThen ?_
  intro u next next' s t _ hst hnext
  exact resume_corresponds (sim.eval_corresponds fuel n) hst hnext

end Simulation
end MiniScheme
