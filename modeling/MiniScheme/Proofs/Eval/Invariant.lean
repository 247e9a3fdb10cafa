import MiniScheme.Proofs.Eval.Simulation
import MiniScheme.Proofs.Store.Frames

/-!
# Invariants of evaluation

What every operation on the store keeps, evaluation keeps. An invariant is a simulation of a run by itself, so that its
proof for whole evaluations is that of simulations, read on the diagonal.

* `Invariant` — what holds of stores, values and expressions in a world, and what each operation has to keep.
* `Invariant.eval_keeps`, `Invariant.call_keeps` — evaluations and calls keep it, also if they are stopped.
-/

namespace MiniScheme

open List (Forall₂)
open Eval Outcome

/-- What holds in every world, and how the operations on the store lead on to later worlds. -/
structure Invariant (W : Type) [Preorder W] where
  store : W → Store → Prop
  value : W → Value → Prop
  /-- The expression may be evaluated in the frame. -/
  runs : W → Code → FrameId → Prop
  value_mono : ∀ {w u v}, w ≤ u → value w v → value u v
  runs_mono : ∀ {w u e f}, w ≤ u → runs w e f → runs u e f
  plain : ∀ {w} {v : Value}, v.isPlain = true → value w v
  item : ∀ {w i items v}, value w (.list i items) → v ∈ items → value w v
  part : ∀ {w e d f}, runs w e f → d ∈ e.parts → runs w d f
  get : ∀ {w s x f v}, store w s → runs w (.symbol x) f → s.get x.lexeme f = .ok v → value w v
  newList : ∀ {w s items}, store w s → (∀ v ∈ items, value w v) →
    ∃ u, w ≤ u ∧ store u (s.newList items).2 ∧ value u (s.newList items).1
  newNaN : ∀ {w s}, store w s → ∃ u, w ≤ u ∧ store u s.newNaN.2 ∧ value u s.newNaN.1
  newClosure : ∀ {w s ps b f}, store w s → runs w (.lambda ps b) f →
    ∃ u, w ≤ u ∧ store u (s.newClosure ⟨ps, b⟩ f).2 ∧ value u (s.newClosure ⟨ps, b⟩ f).1
  define : ∀ {w s x e f v}, store w s → runs w (.define x e) f → value w v →
    ∃ u, w ≤ u ∧ store u (s.define x.lexeme v f)
  assign : ∀ {w s x e f v s'}, store w s → runs w (.assign x e) f → value w v → s.assign x.lexeme v f = .ok s' →
    ∃ u, w ≤ u ∧ store u s'
  writeLine : ∀ {w s} (text : String), store w s → ∃ u, w ≤ u ∧ store u (s.writeLine text)
  enterLet : ∀ {w s xs es b f vs}, store w s → runs w (.letIn xs es b) f → (∀ v ∈ vs, value w v) →
    ∃ u, w ≤ u ∧ store u (s.enter (.fixed xs) vs f).2 ∧ ∀ d ∈ b, runs u d (s.enter (.fixed xs) vs f).1
  /-- A variadic parameter is a fixed one for a list, so fixed parameters are enough. -/
  enterClosure : ∀ {w s i l f vs} (names : List Name), store w s → value w (.closure i l f) → (∀ v ∈ vs, value w v) →
    ∃ u, w ≤ u ∧ store u (s.enter (.fixed names) vs f).2 ∧ ∀ d ∈ l.body, runs u d (s.enter (.fixed names) vs f).1

namespace Invariant

/-- Lists related on the diagonal are equal, and all their members have the property. -/
theorem forall₂_diagonal {α : Type} {P : α → Prop} {as bs : List α} (h : Forall₂ (fun a b => b = a ∧ P a) as bs) :
    bs = as ∧ ∀ a ∈ as, P a := by
  induction h with
  | nil => exact ⟨rfl, nofun⟩
  | cons hab _ ih =>
    obtain ⟨rfl, hP⟩ := hab
    obtain ⟨rfl, hrest⟩ := ih
    exact ⟨rfl, List.forall_mem_cons.2 ⟨hP, hrest⟩⟩

theorem diagonal_forall₂ {α : Type} {P : α → Prop} {as : List α} (h : ∀ a ∈ as, P a) :
    Forall₂ (fun a b => b = a ∧ P a) as as :=
  List.forall₂_same.2 fun a ha => ⟨rfl, h a ha⟩

variable {W : Type} [Preorder W] (inv : Invariant W)

theorem correspondence (w : W) : Value.Correspondence fun v v' => v' = v ∧ inv.value w v where
  alike := by
    rintro _ v ⟨rfl, hv⟩
    cases v with
    | list i items => exact .list (diagonal_forall₂ fun v hmem => inv.item hv hmem)
    | closure => exact .closure
    | number x => exact Value.alike_number x
    | _ => exact .plain rfl
  plain hv := ⟨rfl, inv.plain hv⟩
  same := by
    rintro v _ v' _ ⟨rfl, -⟩ ⟨rfl, -⟩
    rfl
  nan := by
    rintro i _ i' _ ⟨⟨⟩, -⟩ ⟨⟨⟩, -⟩
    rfl

theorem enter_keeps {w : W} {s : Store} {i : Nat} {l : Lambda} {f : FrameId} {vs : List Value} (hs : inv.store w s)
    (hp : inv.value w (.closure i l f)) (hvs : ∀ v ∈ vs, inv.value w v) :
    ∃ u, w ≤ u ∧ inv.store u (s.enter l.params vs f).2 ∧ ∀ d ∈ l.body, inv.runs u d (s.enter l.params vs f).1 := by
  cases hparams : l.params with
  | fixed names => exact inv.enterClosure names hs hp hvs
  | variadic name =>
    obtain ⟨u, hle, hs, hlist⟩ := inv.newList hs hvs
    have hone : ∀ v ∈ [(s.newList vs).1], inv.value u v := by simpa using hlist
    obtain ⟨u', hle', hs, hbody⟩ := inv.enterClosure [name] hs (inv.value_mono hle hp) hone
    rw [Store.enter_variadic]
    exact ⟨u', hle.trans hle', hs, hbody⟩

/-- The simulation of a run by itself. -/
def toSimulation : Simulation W where
  stores w s t := t = s ∧ inv.store w s
  values w v v' := v' = v ∧ inv.value w v
  runs w e f e' g := (e' = e ∧ g = f) ∧ inv.runs w e f
  values_mono hle h := ⟨h.1, inv.value_mono hle h.2⟩
  runs_mono hle h := ⟨h.1, inv.runs_mono hle h.2⟩
  correspondence := inv.correspondence
  alike := by
    rintro w e f _ _ ⟨⟨rfl, rfl⟩, h⟩
    exact .of_parts fun d hd => ⟨⟨rfl, rfl⟩, inv.part h hd⟩
  get := by
    rintro w _ s x _ _ f ⟨rfl, hs⟩ ⟨⟨hx, rfl⟩, h⟩
    cases hx
    cases hget : s.get x.lexeme f with
    | ok v => exact .done le_rfl ⟨rfl, hs⟩ ⟨rfl, inv.get hs h hget⟩
    | error err => exact .stopped (.error err) le_rfl ⟨rfl, hs⟩
  newList := by
    rintro w s _ vs vs' ⟨rfl, hs⟩ hvs
    obtain ⟨rfl, hvs⟩ := forall₂_diagonal hvs
    obtain ⟨u, hle, hs, hv⟩ := inv.newList hs hvs
    exact .done hle ⟨rfl, hs⟩ ⟨rfl, hv⟩
  newNaN := by
    rintro w s _ ⟨rfl, hs⟩
    obtain ⟨u, hle, hs, hv⟩ := inv.newNaN hs
    exact .done hle ⟨rfl, hs⟩ ⟨rfl, hv⟩
  newClosure := by
    rintro w s _ ps b f _ _ _ ⟨rfl, hs⟩ ⟨⟨hx, rfl⟩, h⟩
    cases hx
    obtain ⟨u, hle, hs, hv⟩ := inv.newClosure hs h
    exact .done hle ⟨rfl, hs⟩ ⟨rfl, hv⟩
  define := by
    rintro w s _ x e f _ _ _ v _ ⟨rfl, hs⟩ ⟨⟨hx, rfl⟩, h⟩ ⟨rfl, hv⟩
    cases hx
    obtain ⟨u, hle, hs⟩ := inv.define hs h hv
    exact ⟨u, hle, rfl, hs⟩
  assign := by
    rintro w _ s x e _ _ _ f _ v ⟨rfl, hs⟩ ⟨⟨hx, rfl⟩, h⟩ ⟨rfl, hv⟩
    cases hx
    cases hassign : s.assign x.lexeme v f with
    | ok s' =>
      obtain ⟨u, hle, hs⟩ := inv.assign hs h hv hassign
      exact .inl ⟨u, s', s', hle, rfl, rfl, rfl, hs⟩
    | error err => exact .inr ⟨err, rfl, rfl⟩
  writeLine := by
    rintro w s _ text ⟨rfl, hs⟩
    obtain ⟨u, hle, hs⟩ := inv.writeLine text hs
    exact ⟨u, hle, rfl, hs⟩
  enterLet := by
    rintro w s _ xs es b f _ _ _ _ vs _ ⟨rfl, hs⟩ ⟨⟨hx, rfl⟩, h⟩ hvs
    cases hx
    obtain ⟨rfl, hvs⟩ := forall₂_diagonal hvs
    obtain ⟨u, hle, hs, hbody⟩ := inv.enterLet hs h hvs
    exact ⟨u, hle, ⟨rfl, hs⟩, List.forall₂_same.2 fun d hd => ⟨⟨rfl, rfl⟩, hbody d hd⟩⟩
  enterClosure := by
    rintro w s _ i l f _ _ _ vs _ ⟨rfl, hs⟩ ⟨hx, hv⟩ hvs
    cases hx
    obtain ⟨rfl, hvs⟩ := forall₂_diagonal hvs
    obtain ⟨u, hle, hs, hbody⟩ := inv.enter_keeps hs hv hvs
    exact ⟨u, hle, ⟨rfl, hs⟩, List.forall₂_same.2 fun d hd => ⟨⟨rfl, rfl⟩, hbody d hd⟩⟩

/-- The outcome has a store, and a value if there is one, of a world that comes after `w`. -/
def Keeps (w : W) (o : Outcome Value) : Prop :=
  ∃ u, w ≤ u ∧ inv.store u o.store ∧ ∀ v s, o = .done v s → inv.value u v

variable {inv} {w : W} {s : Store}

theorem Keeps.of_corresponds {o : Outcome Value}
    (h : Corresponds inv.toSimulation.stores inv.toSimulation.values w o o) : inv.Keeps w o := by
  cases h with
  | done hle hstores hvalues =>
    refine ⟨_, hle, hstores.2, fun v s hdone => ?_⟩
    cases hdone
    exact hvalues.2
  | stopped why hle hstores => exact ⟨_, hle, hstores.2, nofun⟩

variable (inv)

/-- Expressions that may be evaluated run side by side with themselves. -/
theorem runs_all {es : List Code} {f : FrameId} (h : ∀ e ∈ es, inv.runs w e f) :
    Forall₂ (fun d d' => inv.toSimulation.runs w d f d' f) es es :=
  List.forall₂_same.2 fun e he => ⟨⟨rfl, rfl⟩, h e he⟩

/-- **Evaluation keeps the invariant**, whatever the limits and however it ends. -/
theorem eval_keeps (fuel n : Nat) {e : Code} {f : FrameId} (hs : inv.store w s) (h : inv.runs w e f) :
    inv.Keeps w (eval fuel n e f s) :=
  .of_corresponds (inv.toSimulation.eval_corresponds fuel n ⟨rfl, hs⟩ ⟨⟨rfl, rfl⟩, h⟩)

theorem inOrder_keeps (fuel n : Nat) {es : List Code} {f : FrameId} {last : Value} (hs : inv.store w s)
    (hlast : inv.value w last) (h : ∀ e ∈ es, inv.runs w e f) : inv.Keeps w (inOrder (eval fuel n) f last es s) := by
  exact .of_corresponds
    (Simulation.inOrder_corresponds (inv.toSimulation.eval_corresponds fuel n) ⟨rfl, hs⟩ ⟨rfl, hlast⟩ (inv.runs_all h))

/-- Items of a quoted list have values of a later world. -/
theorem each_quoted_keeps (fuel n : Nat) {es : List Code} {f : FrameId} {vs : List Value} {t : Store}
    (hs : inv.store w s) (h : ∀ e ∈ es, inv.runs w e f) (hdone : each (quoted (eval fuel) n) f es s = .done vs t) :
    ∃ u, w ≤ u ∧ inv.store u t ∧ ∀ v ∈ vs, inv.value u v := by
  have hcorresponds := Simulation.each_corresponds
    (Simulation.quoted_respects (inv.toSimulation.eval_corresponds fuel) n) ⟨rfl, hs⟩ (inv.runs_all h)
  rw [hdone] at hcorresponds
  cases hcorresponds with
  | done hle hstores hvalues => exact ⟨_, hle, hstores.2, (forall₂_diagonal hvalues).2⟩

/-- **Calls keep the invariant.** -/
theorem call_keeps (fuel n : Nat) {p : Value} {vs : List Value} (hs : inv.store w s) (hp : inv.value w p)
    (hvs : ∀ v ∈ vs, inv.value w v) : inv.Keeps w (call (eval fuel) n p vs s) :=
  .of_corresponds (inv.toSimulation.call_corresponds fuel n ⟨rfl, hs⟩ ⟨rfl, hp⟩ (diagonal_forall₂ hvs))

theorem evalCall_keeps (fuel n : Nat) {p : Value} {vs : List Value} (hs : inv.store w s) (hp : inv.value w p)
    (hvs : ∀ v ∈ vs, inv.value w v) : inv.Keeps w (evalCall fuel n p vs s) :=
  .of_corresponds (inv.toSimulation.evalCall_corresponds fuel n ⟨rfl, hs⟩ ⟨rfl, hp⟩ (diagonal_forall₂ hvs))

end Invariant
end MiniScheme
