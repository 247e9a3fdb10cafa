import Mathlib.Order.OrderIsoNat
import MiniScheme.Proofs.Binary64.HalfUp
import MiniScheme.Proofs.Session.EmptyList
import MiniScheme.Proofs.Value.Sameness

/-!
# The host never fails

Primitives take items out of lists, unpack lists, compute with values and round doubles to whole numbers, and the host
fails where it cannot do that. Before most of these operations stands a test. `car` takes the first item of any list
but `null`, and relies on there being one. Since the empty list is `null` alone, there always is: no primitive that is
called makes the host fail. So evaluation never gets stuck, and what has no result goes on for ever.

* `Reply.Proper` — a primitive has replied without a failure of the host.
* `Primitive.run_proper` — so it does to canonical arguments, and no limit stops it that is wide enough for them.
* `Task.Faultless`, `Task.Endless` — the host never fails in the course of a task, and the task goes on for ever.
* `Store.Valid.faultless`, `Store.Valid.endless` — what becomes of expressions in a valid store.
-/

namespace MiniScheme

open Value (depthAll depth_le_depthAll)

/-! ## Replies -/

/-- The reply is no failure of the host. It says that the limit was met only where that may be. -/
inductive Reply.Proper (mayStop : Prop) : Reply → Prop where
  | value (v : Value) : Proper mayStop (.value v)
  | newList (items : List Value) : Proper mayStop (.newList items)
  | newNaN : Proper mayStop .newNaN
  | line (text : String) : Proper mayStop (.line text)
  | call (p : Value) (args : List Value) : Proper mayStop (.call p args)
  | failed (e : RuntimeError) : Proper mayStop (.failed e)
  | nestingTooDeep (h : mayStop) : Proper mayStop .nestingTooDeep

theorem Reply.Proper.ne_fault {mayStop : Prop} {reply : Reply} (h : reply.Proper mayStop) (why : Fault) :
    reply ≠ .fault why := by
  rintro rfl
  cases h

namespace Primitive

variable {args : List Value} {v : Value} {n k : Nat} {mayStop : Prop}

/-! ### Operations that do not fail -/

theorem exists_divided (x y : Float) : ∃ c, divided x y = .ok c := by
  unfold divided
  split
  · split
    · exact ⟨_, rfl⟩
    · exact ⟨_, rfl⟩
  · next hy =>
    rw [quotient, if_neg hy]
    exact ⟨_, rfl⟩

theorem exists_reduce {f : Float → Float → Except Fault Computed} (hf : ∀ x y, ∃ c, f x y = .ok c)
    {xs : List Number} (hne : xs ≠ []) : ∃ c, reduce f xs = .ok c := by
  obtain ⟨x, rest, rfl⟩ := List.exists_cons_of_ne_nil hne
  rw [reduce]
  clear hne
  generalize Computed.old x = result
  induction rest generalizing result with
  | nil => exact ⟨result, rfl⟩
  | cons y rest ih =>
    obtain ⟨c, hc⟩ := hf result.toFloat y.toFloat
    obtain ⟨c', hc'⟩ := ih c
    refine ⟨c', ?_⟩
    rw [List.foldlM_cons, hc]
    exact hc'

theorem exists_remaining (x y : Number) : ∃ c, remaining [x, y] = .ok c := by
  rw [remaining]
  split
  · exact ⟨_, rfl⟩
  · exact ⟨_, rfl⟩

theorem exists_rounded (x : Number) : ∃ c, rounded [x] = .ok c := by
  by_cases hx : Binary64.IsFinite x.toFloat
  · exact ⟨_, Binary64.rounded_eq hx⟩
  · exact ⟨_, Binary64.rounded_of_not_finite hx⟩

theorem item_eq {items : List Value} {i : Nat} (hi : i < items.length) : item items i = .ok items[i] := by
  rw [item, List.getElem?_eq_getElem hi, orFault]

/-! ### Parts of primitives -/

theorem proper_attempt {α : Type} {result : Except Fault α} {a : α} {reply : α → Reply} (h : result = .ok a)
    (hreply : (reply a).Proper mayStop) : (attempt result reply).Proper mayStop := by
  rw [h, attempt]
  exact hreply

theorem proper_reply (c : Computed) : c.reply.Proper mayStop := by
  cases c with
  | old x => exact .value _
  | new x =>
    rw [Computed.reply]
    split
    · exact .newNaN
    · exact .value _

/-- Printing meets the limit only if it is too narrow for the value. -/
theorem stops_of_printed (hdepth : v.depth ≤ k + 1) (hnone : v.printed? n = none) : n ≤ k := by
  refine Nat.le_of_not_lt fun hlt => ?_
  obtain ⟨text, htext⟩ := Value.exists_printed (Nat.le_trans hdepth hlt)
  cases hnone.symm.trans htext

theorem proper_reject (hdepth : v.depth ≤ k + 1) (error : String → RuntimeError) :
    (reject n v error).Proper (n ≤ k) := by
  unfold reject
  split
  · exact .failed _
  · next hnone => exact .nestingTooDeep (stops_of_printed hdepth hnone)

theorem proper_onNumbers (p : Primitive) {compute : List Number → Except Fault Computed}
    (hdepth : depthAll args ≤ k + 1)
    (hcompute : ∀ xs : List Number, xs.length = args.length → ∃ c, compute xs = .ok c) :
    (onNumbers n p args compute).Proper (n ≤ k) := by
  unfold onNumbers
  split
  · next v hv => exact proper_reject (Nat.le_trans (depth_le_depthAll (List.mem_of_find?_eq_some hv)) hdepth) _
  · next hnone =>
    obtain ⟨xs, rfl⟩ := exists_numbers hnone
    obtain ⟨c, hc⟩ := hcompute xs (List.length_map _).symm
    rw [mapM_operand]
    exact proper_attempt hc (proper_reply c)

theorem proper_onList (p : Primitive) {reply : Value → List Value → Reply} (hdepth : depthAll args ≤ k + 1)
    (hreply : ∀ v vs, (reply v vs).Proper (n ≤ k)) : (onList n p args reply).Proper (n ≤ k) := by
  match args, hdepth with
  | [], _ | [_], _ => exact .failed _
  | first :: second :: rest, hdepth =>
    cases hitems : second.items? with
    | some items =>
      rw [onList_of_items hitems]
      exact hreply first items
    | none =>
      have hmem : second ∈ first :: second :: rest := List.mem_cons_of_mem _ List.mem_cons_self
      rw [onList_of_not_list hitems]
      exact proper_reject (Nat.le_trans (depth_le_depthAll hmem) hdepth) _

theorem proper_truth (p : Primitive) {result : Except Value.Obstacle Bool}
    (h : result = .error .nestingTooDeep → mayStop) : (truth p result).Proper mayStop := by
  unfold truth
  split
  · exact .value _
  · exact .failed _
  · exact .nestingTooDeep (h rfl)

theorem depth_arg (args : List Value) (i : Nat) : (arg args i).depth ≤ depthAll args + 1 := by
  unfold arg
  cases hv : args[i]? with
  | none => exact Nat.le_add_left 1 _
  | some v => exact Nat.le_succ_of_le (depth_le_depthAll (List.mem_of_getElem? hv))

theorem canonical_arg (hargs : ∀ v ∈ args, v.Canonical) (i : Nat) : (arg args i).Canonical := by
  unfold arg
  cases hv : args[i]? with
  | none => exact .plain rfl
  | some v => exact hargs v (List.mem_of_getElem? hv)

/-- Comparing neighbours meets the limit only if it is too narrow for them. -/
theorem stops_of_pairwise {d : Value.Direction} (h : Value.pairwise (Value.compare d n) args = .error .nestingTooDeep) :
    n ≤ depthAll args :=
  Nat.le_of_lt (Nat.lt_of_not_le fun hle => Value.pairwise_of_depth hle h)

/-! ### The table -/

/-- Whatever is measured has passed the test for a string. -/
theorem run_stringLength_proper (hdepth : (arg args 0).depth ≤ k + 1) : (run n stringLength args).Proper (n ≤ k) := by
  have hreject := proper_reject (n := n) hdepth (.notString stringLength)
  simp only [run]
  split
  · exact .value _
  · split
    · next hstring =>
      cases hshape : arg args 0 with
      | string s => exact .value _
      | _ => rw [hshape] at hstring; cases hstring
    · exact hreject

/-- Whatever is joined has passed the test for strings. -/
theorem run_stringAppend_proper (hdepth : depthAll args ≤ k + 1) : (run n stringAppend args).Proper (n ≤ k) := by
  simp only [run]
  split
  · exact .failed _
  · split
    · next v hv => exact proper_reject (Nat.le_trans (depth_le_depthAll (List.mem_of_find?_eq_some hv)) hdepth) _
    · next hnone =>
      obtain ⟨ss, rfl⟩ := exists_strings hnone
      exact proper_attempt (mapM_text ss) (.value _)

/-- A list has a first item because the empty list is `null` alone. -/
theorem run_car_proper (h0 : (arg args 0).Canonical) (hdepth : (arg args 0).depth ≤ k + 1) :
    (run n car args).Proper (n ≤ k) := by
  have hreject := proper_reject (n := n) hdepth (.notList car)
  simp only [run]
  generalize arg args 0 = v at h0 hreject
  cases v with
  | undefined | null => exact .value _
  | list i items =>
    obtain ⟨hnull, -⟩ | ⟨_, x, rest, hlist, -, -⟩ := h0.list_cases rfl
    · cases hnull
    · cases hlist
      exact proper_attempt (item_eq (Nat.zero_lt_succ _)) (.value _)
  | _ => exact hreject

/-- **No primitive makes the host fail**, if the empty list is `null` alone. -/
theorem run_proper (n : Nat) (p : Primitive) (hargs : ∀ v ∈ args, v.Canonical) :
    (run n p args).Proper (n ≤ depthAll args) := by
  have hdepth : depthAll args ≤ depthAll args + 1 := Nat.le_succ _
  have harg := depth_arg args
  have hpair : depthAll [arg args 0, arg args 1] ≤ depthAll args + 1 :=
    Nat.max_le.2 ⟨harg 0, Nat.max_le.2 ⟨harg 1, Nat.zero_le _⟩⟩
  have hsingle : depthAll [arg args 0] ≤ depthAll args + 1 := Nat.max_le.2 ⟨harg 0, Nat.zero_le _⟩
  have hsome {xs : List Number} (hempty : ¬args.isEmpty = true) (hxs : xs.length = args.length) : xs ≠ [] := by
    rintro rfl
    exact hempty (List.isEmpty_iff_length_eq_zero.2 hxs.symm)
  cases p with
  | stringLength => exact run_stringLength_proper (harg 0)
  | stringAppend => exact run_stringAppend_proper hdepth
  | car => exact run_car_proper (canonical_arg hargs 0) (harg 0)
  | multiply | add => exact proper_onNumbers _ hdepth fun xs _ => ⟨_, rfl⟩
  | subtract =>
    simp only [run]
    split
    · exact .failed _
    · next hempty =>
      exact proper_onNumbers _ hdepth fun xs hxs => exists_reduce (fun x y => ⟨_, rfl⟩) (hsome hempty hxs)
  | divide =>
    simp only [run]
    split
    · exact .failed _
    · next hempty => exact proper_onNumbers _ hdepth fun xs hxs => exists_reduce exists_divided (hsome hempty hxs)
  | equal =>
    obtain ⟨answer, hanswer, -⟩ := Value.pairwise_same args
    simp only [run]
    rw [hanswer]
    exact .value _
  | atMost | atLeast => exact proper_truth _ stops_of_pairwise
  | list => exact .newList _
  | isNull | isList | isNumber | isProcedure | quote | same | negation => exact .value _
  | cdr =>
    have hreject := proper_reject (n := n) (harg 0) (.notList cdr)
    simp only [run]
    generalize arg args 0 = v at hreject
    cases v with
    | undefined | null => exact .value _
    | list i items => exact .newList _
    | _ => exact hreject
  | cons => exact proper_onList _ hdepth fun v vs => .newList _
  | apply => exact proper_onList _ hdepth fun v vs => .call _ _
  | remainder =>
    refine proper_onNumbers _ hpair fun xs hxs => ?_
    obtain ⟨x, y, rfl⟩ := List.length_eq_two.1 hxs
    exact exists_remaining x y
  | sequence =>
    simp only [run]
    split
    · exact .value _
    · next hempty =>
      have hpos : 0 < args.length := List.length_pos_iff.2 (mt List.isEmpty_iff.2 hempty)
      exact proper_attempt (item_eq (Nat.sub_one_lt_of_lt hpos)) (.value _)
  | round =>
    refine proper_onNumbers _ hsingle fun xs hxs => ?_
    obtain ⟨x, rfl⟩ := List.length_eq_one_iff.1 hxs
    exact exists_rounded x
  | abs =>
    refine proper_onNumbers _ hsingle fun xs hxs => ?_
    obtain ⟨x, rfl⟩ := List.length_eq_one_iff.1 hxs
    exact ⟨_, rfl⟩
  | display =>
    simp only [run]
    split
    · exact .line _
    · next hnone => exact .nestingTooDeep (stops_of_printed (harg 0) hnone)

/-- Of an empty list that is not `null` there is no first item to take. -/
example : run 9 car [.list 0 []] = .fault .badIndex := rfl

end Primitive

/-! ## Tasks -/

namespace Task

/-- The arguments that a task passes. -/
def args {α : Type} : Task α → List Value
  | .apply _ args => args
  | _ => []

variable {α β : Type} {task : Task α} {task' : Task β} {s t : Store} {e : Code}

/-- The task comes to a value or to an error of the program. -/
def HasResult (task : Task α) (s : Store) : Prop := ∃ r t, BigStep task s r t

/-- The task has a result, or it asks for a task that has none. -/
def Progresses (task : Task α) (s : Store) : Prop :=
  task.HasResult s ∨ ∃ (β : Type) (task' : Task β) (t : Store), task.Asks s task' t ∧ ¬task'.HasResult t

/-- The host never fails in the course of the task. -/
def Faultless (task : Task α) (s : Store) : Prop :=
  ∀ {p : Primitive} {vs : List Value} {t : Store}, task.Reaches s (.apply (.primitive p) vs) t →
    ∀ n why, p.run n vs ≠ .fault why

/-- A task and the store that it starts from. -/
abbrev Pending := Σ α : Type, Task α × Store

def Pending.Asks (x y : Pending) : Prop := x.2.1.Asks x.2.2 y.2.1 y.2.2

/-- The task goes on for ever: it asks for a task, that one asks for another, and so on. -/
def Endless (task : Task α) (s : Store) : Prop :=
  ∃ chain : Nat → Pending, chain 0 = ⟨α, task, s⟩ ∧ ∀ i, (chain i).Asks (chain (i + 1))

theorem result_cases (task : Task α) (s : Store) :
    (∃ v t, BigStep task s (.ok v) t) ∨ (∃ e t, BigStep task s (.error e) t) ∨ ¬task.HasResult s := by
  by_cases h : task.HasResult s
  · obtain ⟨e | v, t, h⟩ := h
    · exact .inr (.inl ⟨e, t, h⟩)
    · exact .inl ⟨v, t, h⟩
  · exact .inr (.inr h)

theorem Progresses.of_asks (h : task.Asks s task' t) (hnone : ¬task'.HasResult t) : task.Progresses s :=
  .inr ⟨β, task', t, h, hnone⟩

/-- A task has a result if it asks for one task that has, and its own result follows. -/
theorem Progresses.of_result (h : task.Asks s task' t)
    (hfollows : ∀ r u, BigStep task' t r u → task.HasResult s) : task.Progresses s := by
  by_cases hresult : task'.HasResult t
  · obtain ⟨r, u, hr⟩ := hresult
    exact .inl (hfollows r u hr)
  · exact .of_asks h hresult

theorem list_progresses (m : Manner) (es : List Code) (f : FrameId) (s : Store) :
    (Task.value m (.list es) f).Progresses s := by
  refine .of_result .list fun r u h => ?_
  cases r with
  | ok vs => exact ⟨_, _, .list h⟩
  | error e => exact ⟨_, _, .listError h⟩

theorem call_progresses (c : Code) (es : List Code) (f : FrameId) (s : Store) :
    (Task.value .plain (.call c es) f).Progresses s := by
  rcases result_cases (.value .plain c f) s with ⟨p, s₁, hc⟩ | ⟨e, s₁, hc⟩ | hnone
  · rcases result_cases (.values .plain es f) s₁ with ⟨vs, s₂, hes⟩ | ⟨e, s₂, hes⟩ | hnone
    · exact .of_result (.apply hc hes) fun r u h => ⟨r, u, .call hc hes h⟩
    · exact .inl ⟨_, _, .argsError hc hes⟩
    · exact .of_asks (.args hc) hnone
  · exact .inl ⟨_, _, .calleeError hc⟩
  · exact .of_asks .callee hnone

theorem cond_progresses (c d : Code) (o : Option Code) (f : FrameId) (s : Store) :
    (Task.value .plain (.cond c d o) f).Progresses s := by
  rcases result_cases (.value .plain c f) s with ⟨v, s₁, hc⟩ | ⟨e, s₁, hc⟩ | hnone
  · cases hv : v.isTrue with
    | true => exact .of_result (.chosen hc hv) fun r u h => ⟨r, u, .condTrue hc hv h⟩
    | false =>
      cases o with
      | none => exact .inl ⟨_, _, .condNone hc hv⟩
      | some e => exact .of_result (.otherwise hc hv) fun r u h => ⟨r, u, .condFalse hc hv h⟩
  · exact .inl ⟨_, _, .condError hc⟩
  · exact .of_asks .test hnone

theorem value_progresses (e : Code) (f : FrameId) (s : Store) : (Task.value .plain e f).Progresses s := by
  cases e with
  | literal => exact .inl ⟨_, _, .literal⟩
  | empty => exact .inl ⟨_, _, .empty⟩
  | symbol => exact .inl ⟨_, _, .symbol⟩
  | lambda => exact .inl ⟨_, _, .lambda⟩
  | define name e =>
    refine .of_result .define fun r u h => ?_
    cases r with
    | ok v => exact ⟨_, _, .define h⟩
    | error e => exact ⟨_, _, .defineError h⟩
  | assign name e =>
    refine .of_result .assign fun r u h => ?_
    cases r with
    | ok v =>
      cases hbound : u.assign name.lexeme v f with
      | ok => exact ⟨_, _, .assign h hbound⟩
      | error => exact ⟨_, _, .assignUnbound h hbound⟩
    | error e => exact ⟨_, _, .assignError h⟩
  | cond c d o => exact cond_progresses c d o f s
  | letIn names es body =>
    rcases result_cases (.values .plain es f) s with ⟨vs, s₁, hes⟩ | ⟨e, s₁, hes⟩ | hnone
    · exact .of_result (.letBody hes) fun r u h => ⟨r, u, .letIn hes h⟩
    · exact .inl ⟨_, _, .letError hes⟩
    · exact .of_asks .letValues hnone
  | quote d => exact .of_result .quote fun r u h => ⟨r, u, .quote h⟩
  | list es => exact list_progresses .plain es f s
  | call c es => exact call_progresses c es f s

theorem quotedOther_progresses (hcall : ∀ c es, e ≠ .call c es) (hlist : ∀ es, e ≠ .list es) (f : FrameId) (s : Store) :
    (Task.value .quoted e f).Progresses s :=
  .of_result (.quotedOther hcall hlist) fun r u h => ⟨r, u, .quotedOther hcall hlist h⟩

theorem quoted_progresses (e : Code) (f : FrameId) (s : Store) : (Task.value .quoted e f).Progresses s := by
  cases e with
  | call c es =>
    refine .of_result .quotedCall fun r u h => ?_
    cases r with
    | ok vs => exact ⟨_, _, .quotedCall h⟩
    | error e => exact ⟨_, _, .quotedCallError h⟩
  | list es => exact list_progresses .quoted es f s
  | _ => exact quotedOther_progresses (by rintro c es ⟨⟩) (by rintro es ⟨⟩) f s

theorem values_progress (m : Manner) (es : List Code) (f : FrameId) (s : Store) :
    (Task.values m es f).Progresses s := by
  cases es with
  | nil => exact .inl ⟨_, _, .nil⟩
  | cons e es =>
    rcases result_cases (.value m e f) s with ⟨v, s₁, he⟩ | ⟨err, s₁, he⟩ | hnone
    · refine .of_result (.tail he) fun r u h => ?_
      cases r with
      | ok vs => exact ⟨_, _, .cons he h⟩
      | error err => exact ⟨_, _, .tailError he h⟩
    · exact .inl ⟨_, _, .headError he⟩
    · exact .of_asks .head hnone

theorem body_progresses (es : List Code) (f : FrameId) (last : Value) (s : Store) :
    (Task.body es f last).Progresses s := by
  cases es with
  | nil => exact .inl ⟨_, _, .bodyEnd⟩
  | cons e es =>
    rcases result_cases (.value .plain e f) s with ⟨v, s₁, he⟩ | ⟨err, s₁, he⟩ | hnone
    · exact .of_result (.rest he) fun r u h => ⟨r, u, .bodyStep he h⟩
    · exact .inl ⟨_, _, .bodyError he⟩
    · exact .of_asks .first hnone

/-- A call is where a failure of the host would be the end. -/
theorem apply_progresses (p : Value) {vs : List Value} (hvs : ∀ v ∈ vs, v.Canonical) (s : Store) :
    (Task.apply p vs).Progresses s := by
  have hother (hp : p.isProcedure = false) : (Task.apply p vs).Progresses s := by
    obtain ⟨shown, hshown⟩ := Value.exists_printed (Nat.le_refl p.depth)
    exact .inl ⟨_, _, .notProcedure hp hshown⟩
  cases p with
  | closure i l k => exact .of_result .closure fun r u h => ⟨r, u, .closure h⟩
  | primitive p =>
    have hproper := Primitive.run_proper (depthAll vs + 1) p hvs
    generalize hreply : p.run (depthAll vs + 1) vs = reply at hproper
    cases hproper with
    | value => exact .inl ⟨_, _, .primitiveValue hreply⟩
    | newList => exact .inl ⟨_, _, .primitiveList hreply⟩
    | newNaN => exact .inl ⟨_, _, .primitiveNaN hreply⟩
    | line => exact .inl ⟨_, _, .primitiveLine hreply⟩
    | call => exact .of_result (.primitive hreply) fun r u h => ⟨r, u, .primitiveCall hreply h⟩
    | failed => exact .inl ⟨_, _, .primitiveError hreply⟩
    | nestingTooDeep h => exact absurd h (Nat.not_succ_le_self _)
  | _ => exact hother rfl

/-- **No task gets stuck** on canonical arguments. -/
theorem progresses (task : Task α) (s : Store) (hargs : ∀ v ∈ task.args, v.Canonical) : task.Progresses s := by
  cases task with
  | value m e f =>
    cases m with
    | plain => exact value_progresses e f s
    | quoted => exact quoted_progresses e f s
  | values m es f => exact values_progress m es f s
  | body es f last => exact body_progresses es f last s
  | apply p vs => exact apply_progresses p hargs s

/-- **What has no result goes on for ever**, if all that is passed on the way is canonical. -/
theorem endless_of_not_hasResult
    (hargs : ∀ {β : Type} {task' : Task β} {t : Store}, task.Reaches s task' t → ∀ v ∈ task'.args, v.Canonical)
    (hnone : ¬task.HasResult s) : task.Endless s := by
  refine (not_acc_iff_exists_descending_chain (r := fun y x : Pending => x.Asks y)).1 fun hacc => ?_
  -- were there no endless chain, the tasks would have results from the last one back
  have hresult : ∀ x : Pending, Acc (fun y x => x.Asks y) x → task.Reaches s x.2.1 x.2.2 → x.2.1.HasResult x.2.2 := by
    intro x hx
    induction hx with
    | intro x _ ih =>
      intro hreaches
      rcases progresses x.2.1 x.2.2 (hargs hreaches) with h | ⟨β, task', t, hasks, hno⟩
      · exact h
      · exact absurd (ih ⟨β, task', t⟩ hasks (.step hreaches hasks)) hno
  exact hnone (hresult _ hacc .refl)

end Task

/-! ## Stores -/

namespace Store

variable {s : Store} {es : List Code}

theorem StaysCanonical.args (h : s.StaysCanonical es) {β : Type} {task : Task β} {t : Store}
    (hreaches : Task.Reaches (.body es globalFrame .undefined) s task t) : ∀ v ∈ task.args, v.Canonical := by
  cases task with
  | apply p vs => exact (h.passed hreaches).2
  | _ => exact fun v hv => absurd hv List.not_mem_nil

/-- **The host never fails** in the course of evaluating expressions in a valid store. -/
theorem Valid.faultless (h : s.Valid) (es : List Code) : Task.Faultless (.body es globalFrame .undefined) s :=
  fun hreaches n why => (Primitive.run_proper n _ ((h.staysCanonical es).args hreaches)).ne_fault why

/-- **Expressions that come to no value and no error go on for ever.** -/
theorem Valid.endless (h : s.Valid) (hnone : ¬Task.HasResult (.body es globalFrame .undefined) s) :
    Task.Endless (.body es globalFrame .undefined) s :=
  Task.endless_of_not_hasResult (h.staysCanonical es).args hnone

end Store
end MiniScheme
