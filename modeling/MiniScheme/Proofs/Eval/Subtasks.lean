import MiniScheme.Proofs.Eval.Adequacy
import MiniScheme.Proofs.Eval.Invariant

/-!
# What evaluation asks for on its way

An evaluation asks for others, those ask for more, and so on. What comes up on the way, whether or not the whole comes
to an end, are tasks with the stores that they start from. An invariant holds of all of them: of the store at each
moment and of everything that is passed.

* `Task.Asks` — one task asks for another, once what has to come before is done.
* `Task.Reaches` — a task comes up in the course of another.
* `Task.Yields` — what holds of the values that a task comes to.
* `Invariant.task_keeps`, `Invariant.reaches_keeps` — an invariant holds of whatever comes up, and of its result.
-/

namespace MiniScheme

open Eval Outcome

/-! ## Tasks on the way -/

/-- Doing the first task from its store asks for the second from the store that is then reached. -/
inductive Task.Asks : {α β : Type} → Task α → Store → Task β → Store → Prop where
  | define {name : Name} {e : Code} {f : FrameId} {s : Store} :
    Asks (.value .plain (.define name e) f) s (.value .plain e f) s
  | assign {name : Name} {e : Code} {f : FrameId} {s : Store} :
    Asks (.value .plain (.assign name e) f) s (.value .plain e f) s
  | test {t c : Code} {o : Option Code} {f : FrameId} {s : Store} :
    Asks (.value .plain (.cond t c o) f) s (.value .plain t f) s
  | chosen {t c : Code} {o : Option Code} {f : FrameId} {s s₁ : Store} {v : Value}
    (test : BigStep (.value .plain t f) s (.ok v) s₁) (true : v.isTrue = true) :
    Asks (.value .plain (.cond t c o) f) s (.value .plain c f) s₁
  | otherwise {t c e : Code} {f : FrameId} {s s₁ : Store} {v : Value}
    (test : BigStep (.value .plain t f) s (.ok v) s₁) (false : v.isTrue = false) :
    Asks (.value .plain (.cond t c (some e)) f) s (.value .plain e f) s₁
  | letValues {names : List Name} {es body : List Code} {f : FrameId} {s : Store} :
    Asks (.value .plain (.letIn names es body) f) s (.values .plain es f) s
  | letBody {names : List Name} {es body : List Code} {f : FrameId} {s s₁ : Store} {vs : List Value}
    (values : BigStep (.values .plain es f) s (.ok vs) s₁) :
    Asks (.value .plain (.letIn names es body) f) s (.body body (s₁.enter (.fixed names) vs f).1 .undefined)
      (s₁.enter (.fixed names) vs f).2
  | quote {d : Code} {f : FrameId} {s : Store} : Asks (.value .plain (.quote d) f) s (.value .quoted d f) s
  | list {m : Manner} {es : List Code} {f : FrameId} {s : Store} :
    Asks (.value m (.list es) f) s (.values .quoted es f) s
  | quotedCall {c : Code} {es : List Code} {f : FrameId} {s : Store} :
    Asks (.value .quoted (.call c es) f) s (.values .quoted (c :: es) f) s
  | quotedOther {e : Code} {f : FrameId} {s : Store} (noCall : ∀ c es, e ≠ .call c es) (noList : ∀ es, e ≠ .list es) :
    Asks (.value .quoted e f) s (.value .plain e f) s
  | callee {c : Code} {es : List Code} {f : FrameId} {s : Store} :
    Asks (.value .plain (.call c es) f) s (.value .plain c f) s
  | args {c : Code} {es : List Code} {f : FrameId} {s s₁ : Store} {p : Value}
    (callee : BigStep (.value .plain c f) s (.ok p) s₁) :
    Asks (.value .plain (.call c es) f) s (.values .plain es f) s₁
  | apply {c : Code} {es : List Code} {f : FrameId} {s s₁ s₂ : Store} {p : Value} {vs : List Value}
    (callee : BigStep (.value .plain c f) s (.ok p) s₁) (args : BigStep (.values .plain es f) s₁ (.ok vs) s₂) :
    Asks (.value .plain (.call c es) f) s (.apply p vs) s₂
  | head {m : Manner} {e : Code} {es : List Code} {f : FrameId} {s : Store} :
    Asks (.values m (e :: es) f) s (.value m e f) s
  | tail {m : Manner} {e : Code} {es : List Code} {f : FrameId} {s s₁ : Store} {v : Value}
    (head : BigStep (.value m e f) s (.ok v) s₁) : Asks (.values m (e :: es) f) s (.values m es f) s₁
  | first {e : Code} {es : List Code} {f : FrameId} {v : Value} {s : Store} :
    Asks (.body (e :: es) f v) s (.value .plain e f) s
  | rest {e : Code} {es : List Code} {f : FrameId} {v w : Value} {s s₁ : Store}
    (first : BigStep (.value .plain e f) s (.ok w) s₁) : Asks (.body (e :: es) f v) s (.body es f w) s₁
  | closure {i : Nat} {l : Lambda} {k : FrameId} {vs : List Value} {s : Store} :
    Asks (.apply (.closure i l k) vs) s (.body l.body (s.enter l.params vs k).1 .undefined) (s.enter l.params vs k).2
  | primitive {n : Nat} {p : Primitive} {vs ws : List Value} {q : Value} {s : Store}
    (reply : p.run n vs = .call q ws) : Asks (.apply (.primitive p) vs) s (.apply q ws) s

/-- Doing the first task from its store leads to the second, from the store that is then reached. -/
inductive Task.Reaches {α : Type} (task : Task α) (s : Store) : {β : Type} → Task β → Store → Prop where
  | refl : Reaches task s task s
  | step {β γ : Type} {task' : Task β} {task'' : Task γ} {t u : Store} (h : Reaches task s task' t)
    (asks : task'.Asks t task'' u) : Reaches task s task'' u

/-- The values that a task has come to have the property. -/
def Task.Yields (P : Value → Prop) {α : Type} : Task α → α → Prop
  | .value .., v => P v
  | .values .., vs => ∀ v ∈ vs, P v
  | .body .., v => P v
  | .apply .., v => P v

theorem Task.Yields.imp {P Q : Value → Prop} (hPQ : ∀ v, P v → Q v) {α : Type} {task : Task α} {r : α}
    (h : task.Yields P r) : task.Yields Q r := by
  cases task with
  | value => exact hPQ r h
  | values => exact fun v hv => hPQ v (h v hv)
  | body => exact hPQ r h
  | apply => exact hPQ r h

/-! ## Invariants on the way -/

namespace Invariant

variable {W : Type} [Preorder W] (inv : Invariant W)

/-- The task may be done: its expressions may be evaluated, and the values that it is given have the property. -/
def Allows (w : W) {α : Type} : Task α → Prop
  | .value _ e f => inv.runs w e f
  | .values _ es f => ∀ e ∈ es, inv.runs w e f
  | .body es f last => (∀ e ∈ es, inv.runs w e f) ∧ inv.value w last
  | .apply p vs => inv.value w p ∧ ∀ v ∈ vs, inv.value w v

variable {inv} {w : W} {s t : Store} {α β : Type} {task : Task α} {task' : Task β}

theorem respects_manner (m : Manner) (k : Nat) : inv.toSimulation.Respects (m.evaluator k k) := by
  have heval := inv.toSimulation.eval_corresponds k
  cases m with
  | plain => exact Simulation.nested_respects heval k
  | quoted => exact Simulation.quoted_respects heval k

theorem yields_of_corresponds {o : Outcome Value} {v : Value} (ho : o = .done v t)
    (h : Corresponds inv.toSimulation.stores inv.toSimulation.values w o o) :
    ∃ u, w ≤ u ∧ inv.store u t ∧ inv.value u v := by
  subst ho
  cases h with
  | done hle hstores hvalues => exact ⟨_, hle, hstores.2, hvalues.2⟩

/-- **A task that is done keeps the invariant**, and its result has the property. -/
theorem task_keeps {r : α} (h : BigStep task s (.ok r) t) (hs : inv.store w s) (htask : inv.Allows w task) :
    ∃ u, w ≤ u ∧ inv.store u t ∧ task.Yields (inv.value u) r := by
  obtain ⟨k, hk⟩ := h.ends
  have hrun : task.run k k s = .done r t := hk k k le_rfl le_rfl
  have heval := inv.toSimulation.eval_corresponds k
  have hst : inv.toSimulation.stores w s s := ⟨rfl, hs⟩
  cases task with
  | value m e f => exact yields_of_corresponds hrun (respects_manner m k hst ⟨⟨rfl, rfl⟩, htask⟩)
  | values m es f =>
    have hcorresponds := Simulation.each_corresponds (respects_manner m k) hst (inv.runs_all htask)
    have hdone : each (m.evaluator k k) f es s = .done r t := hrun
    rw [hdone] at hcorresponds
    cases hcorresponds with
    | done hle hstores hvalues => exact ⟨_, hle, hstores.2, (forall₂_diagonal hvalues).2⟩
  | body es f last =>
    exact yields_of_corresponds hrun
      (Simulation.inOrder_corresponds (Simulation.nested_respects heval k) hst ⟨rfl, htask.2⟩ (inv.runs_all htask.1))
  | apply p vs =>
    exact yields_of_corresponds hrun
      (Simulation.call_respects heval k hst ⟨rfl, htask.1⟩ (diagonal_forall₂ htask.2))

/-- **A task that is asked for is met by the invariant.** -/
theorem asks_keeps (h : task.Asks s task' t) (hs : inv.store w s) (htask : inv.Allows w task) :
    ∃ u, w ≤ u ∧ inv.store u t ∧ inv.Allows u task' := by
  cases h with
  | define | assign | test | quote => exact ⟨w, le_rfl, hs, inv.part htask (by simp [Expr.parts])⟩
  | callee => exact ⟨w, le_rfl, hs, inv.part htask (by simp [Expr.parts])⟩
  | chosen test =>
    obtain ⟨u, hle, hs', -⟩ := task_keeps test hs (inv.part htask (by simp [Expr.parts]))
    exact ⟨u, hle, hs', inv.runs_mono hle (inv.part htask (by simp [Expr.parts]))⟩
  | otherwise test =>
    obtain ⟨u, hle, hs', -⟩ := task_keeps test hs (inv.part htask (by simp [Expr.parts]))
    exact ⟨u, hle, hs', inv.runs_mono hle (inv.part htask (by simp [Expr.parts]))⟩
  | letValues | list | quotedCall => exact ⟨w, le_rfl, hs, fun e he => inv.part htask he⟩
  | letBody values =>
    obtain ⟨u, hle, hs', hvs⟩ := task_keeps values hs fun e he => inv.part htask he
    obtain ⟨u', hle', hs'', hbody⟩ := inv.enterLet hs' (inv.runs_mono hle htask) hvs
    exact ⟨u', hle.trans hle', hs'', hbody, inv.plain rfl⟩
  | quotedOther => exact ⟨w, le_rfl, hs, htask⟩
  | args callee =>
    obtain ⟨u, hle, hs', -⟩ := task_keeps callee hs (inv.part htask (by simp [Expr.parts]))
    exact ⟨u, hle, hs', fun e he => inv.runs_mono hle (inv.part htask (by simp [Expr.parts, he]))⟩
  | apply callee args =>
    obtain ⟨u, hle, hs', hp⟩ := task_keeps callee hs (inv.part htask (by simp [Expr.parts]))
    obtain ⟨u', hle', hs'', hvs⟩ := task_keeps args hs' fun e he =>
      inv.runs_mono hle (inv.part htask (by simp [Expr.parts, he]))
    exact ⟨u', hle.trans hle', hs'', inv.value_mono hle' hp, hvs⟩
  | head => exact ⟨w, le_rfl, hs, htask _ List.mem_cons_self⟩
  | tail head =>
    obtain ⟨u, hle, hs', -⟩ := task_keeps head hs (htask _ List.mem_cons_self)
    exact ⟨u, hle, hs', fun e he => inv.runs_mono hle (htask e (List.mem_cons_of_mem _ he))⟩
  | first => exact ⟨w, le_rfl, hs, htask.1 _ List.mem_cons_self⟩
  | rest first =>
    obtain ⟨u, hle, hs', hw⟩ := task_keeps first hs (htask.1 _ List.mem_cons_self)
    exact ⟨u, hle, hs', fun e he => inv.runs_mono hle (htask.1 e (List.mem_cons_of_mem _ he)), hw⟩
  | closure =>
    obtain ⟨u, hle, hs', hbody⟩ := inv.enter_keeps hs htask.1 htask.2
    exact ⟨u, hle, hs', hbody, inv.plain rfl⟩
  | @primitive n p vs ws q s reply =>
    have hreply := Primitive.run_corresponds (inv.correspondence w) n p (diagonal_forall₂ htask.2)
    rw [reply] at hreply
    cases hreply with
    | call hq hws => exact ⟨w, le_rfl, hs, hq.2, (forall₂_diagonal hws).2⟩

/-- **An invariant holds of whatever comes up in the course of a task.** -/
theorem reaches_keeps (h : task.Reaches s task' t) (hs : inv.store w s) (htask : inv.Allows w task) :
    ∃ u, w ≤ u ∧ inv.store u t ∧ inv.Allows u task' := by
  induction h with
  | refl => exact ⟨w, le_rfl, hs, htask⟩
  | step _ asks ih =>
    obtain ⟨u, hle, hs', hallows⟩ := ih
    obtain ⟨u', hle', hs'', hallows'⟩ := asks_keeps asks hs' hallows
    exact ⟨u', hle.trans hle', hs'', hallows'⟩

end Invariant
end MiniScheme
