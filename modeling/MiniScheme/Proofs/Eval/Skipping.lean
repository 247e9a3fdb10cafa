import MiniScheme.Proofs.Store.Mapping
import MiniScheme.Proofs.Store.Valid

/-!
# Skipped identities, and `let` as a call

Nothing in a program can see which identity a list or a closure has. If one identity is skipped, evaluation comes to the
same, with all later identities one higher. A `let` and the call of a lambda with the same names, values and body differ
by no more than that, as the lambda gets an identity.

* `Store.skipping k` — the store if the identity `k` had been skipped.
* `skippingSimulation k` — a run and the one that has skipped `k` go along with each other.
* `eval_skipping` — evaluation commutes with skipping an identity.
* `eval_letIn` — a `let` is the call of a lambda.
-/

namespace MiniScheme

open List (Forall₂)
open Eval Outcome

/-! ## Values -/

/-- The identity that is given out in place of `i` if `k` is skipped. -/
def skipIdentity (k i : Nat) : Nat := if i < k then i else i + 1

theorem skipIdentity_of_lt {k i : Nat} (h : i < k) : skipIdentity k i = i := if_pos h

theorem skipIdentity_of_le {k i : Nat} (h : k ≤ i) : skipIdentity k i = i + 1 := if_neg (Nat.not_lt.2 h)

theorem skipIdentity_inj {k i j : Nat} : skipIdentity k i = skipIdentity k j ↔ i = j := by
  unfold skipIdentity
  constructor
  · intro h
    split at h <;> split at h <;> omega
  · intro h
    rw [h]

/-- The number if the identity `k` had been skipped. -/
def Number.skipping (k : Nat) : Number → Number
  | plain x => plain x
  | nan i => nan (skipIdentity k i)

@[simp] theorem Number.toFloat_skipping (k : Nat) (x : Number) : (x.skipping k).toFloat = x.toFloat := by
  cases x <;> rfl

namespace Value

mutual
/-- The value if the identity `k` had been skipped. -/
def skipping (k : Nat) : Value → Value
  | undefined => undefined
  | boolean b => boolean b
  | number x => number (x.skipping k)
  | string s => string s
  | null => null
  | list i items => list (skipIdentity k i) (skippingAll k items)
  | primitive p => primitive p
  | closure i lambda frame => closure (skipIdentity k i) lambda frame
/-- The values if the identity `k` had been skipped. -/
def skippingAll (k : Nat) : List Value → List Value
  | [] => []
  | v :: vs => v.skipping k :: skippingAll k vs
end

variable {k : Nat}

@[simp] theorem skippingAll_eq_map (vs : List Value) : skippingAll k vs = vs.map (skipping k) := by
  induction vs with
  | nil => rfl
  | cons v vs ih => rw [skippingAll, ih, List.map_cons]

theorem skipping_list (i : Nat) (items : List Value) :
    (list i items).skipping k = list (skipIdentity k i) (items.map (skipping k)) := by
  rw [skipping, skippingAll_eq_map]

theorem skipping_of_isPlain {v : Value} (hv : v.isPlain = true) : v.skipping k = v := by
  cases v with
  | list | closure => cases hv
  | number x =>
    cases x with
    | plain => rfl
    | nan => cases hv
  | _ => rfl

/-- What has only identities below the one that is skipped is as it was. -/
theorem skipping_of_valid {frames : Nat} {v : Value} (h : v.Valid frames k) : v.skipping k = v := by
  induction h with
  | plain hv => exact skipping_of_isPlain hv
  | @list i items hi hne hitems ih =>
    have hmap : items.map (skipping k) = items := by
      rw [List.map_congr_left ih, List.map_id']
    rw [skipping_list, hmap, skipIdentity_of_lt hi]
  | closure hi hf => rw [skipping, skipIdentity_of_lt hi]
  | nan hi => rw [skipping, Number.skipping, skipIdentity_of_lt hi]

theorem same_skipping (v w : Value) : (v.skipping k).same (w.skipping k) = v.same w := by
  have hidentity (i j : Nat) : (skipIdentity k i == skipIdentity k j) = (i == j) := by
    rw [Bool.eq_iff_iff, beq_iff_eq, beq_iff_eq, skipIdentity_inj]
  cases v <;> cases w <;> simp only [skipping, same, hidentity, Number.toFloat_skipping]

/-- **Nothing that is made of a value depends on its identities.** -/
theorem correspondence_skipping (k : Nat) : Correspondence fun v w => w = v.skipping k where
  alike := by
    intro v w h
    subst h
    cases v with
    | list i items =>
      rw [skipping_list]
      exact .list (List.forall₂_map_right_iff.2 (List.forall₂_same.2 fun _ _ => rfl))
    | closure => exact .closure
    | number x =>
      cases x with
      | plain => exact .plain rfl
      | nan => exact .nan
    | _ => exact .plain rfl
  plain hv := (skipping_of_isPlain hv).symm
  same := by
    intro v w v' w' h h'
    subst h h'
    exact same_skipping v v'
  nan := by
    rintro i _ i' _ ⟨⟩ ⟨⟩
    exact skipIdentity_inj

end Value

/-! ## Stores -/

namespace Store

/-- The store if the identity `k` had been skipped. -/
def skipping (k : Nat) (s : Store) : Store :=
  { s with frames := s.frames.map (Frame.mapValues (Value.skipping k)), fresh := s.fresh + 1 }

variable {k : Nat} {s t : Store}

theorem mapped_skipping (k : Nat) (s : Store) : Mapped (Value.skipping k) s (s.skipping k) := rfl

theorem eq_skipping (h : Mapped (Value.skipping k) s t) (hfresh : t.fresh = s.fresh + 1)
    (houtput : t.output = s.output) : t = s.skipping k := by
  obtain ⟨frames, fresh, output⟩ := t
  cases h
  cases hfresh
  cases houtput
  rfl

/-- A valid store has no identity beyond the next one, so skipping that changes nothing in its frames. -/
theorem Valid.skipping_eq (h : s.Valid) : s.skipping s.fresh = { s with fresh := s.fresh + 1 } := by
  have hframe {f : FrameId} {frame : Frame} (hf : s.frames[f]? = some frame) :
      frame.mapValues (Value.skipping s.fresh) = frame := by
    have hentry : ∀ b ∈ frame.bindings, (b.1, b.2.skipping s.fresh) = b := by
      intro b hb
      rw [Value.skipping_of_valid (h.bindings hf b hb)]
    unfold Frame.mapValues Bindings.mapValues
    rw [List.map_congr_left hentry, List.map_id']
  have hframes : s.frames.map (Frame.mapValues (Value.skipping s.fresh)) = s.frames := by
    apply Array.ext_getElem?
    intro f
    rw [Array.getElem?_map]
    cases hf : s.frames[f]? with
    | none => rfl
    | some frame => rw [Option.map_some, hframe hf]
  unfold skipping
  rw [hframes]

/-- The store has skipped `k`, which had not been given out. -/
structure Skips (k : Nat) (s t : Store) : Prop where
  eq : t = s.skipping k
  le : k ≤ s.fresh

namespace Skips

variable {f : FrameId} {vs : List Value}

theorem of_mapped (h : Skips k s t) {s' t' : Store} (hmapped : Mapped (Value.skipping k) s' t')
    (hfresh : s'.fresh = s.fresh) (hfresh' : t'.fresh = t.fresh) (houtput : t'.output = s'.output) :
    Skips k s' t' where
  eq := eq_skipping hmapped (by rw [hfresh', h.eq, hfresh]; rfl) houtput
  le := hfresh ▸ h.le

theorem mapped (h : Skips k s t) : Mapped (Value.skipping k) s t := h.eq ▸ mapped_skipping k s

theorem output (h : Skips k s t) : t.output = s.output := h.eq ▸ rfl

theorem nextIdentity (h : Skips k s t) : Skips k { s with fresh := s.fresh + 1 } { t with fresh := t.fresh + 1 } where
  eq := by
    rw [h.eq]
    rfl
  le := Nat.le_succ_of_le h.le

theorem fresh_eq (h : Skips k s t) : t.fresh = skipIdentity k s.fresh := by
  rw [skipIdentity_of_le h.le, h.eq]
  rfl

theorem newList (h : Skips k s t) (vs : List Value) :
    (t.newList (vs.map (Value.skipping k))).1 = (s.newList vs).1.skipping k ∧
      Skips k (s.newList vs).2 (t.newList (vs.map (Value.skipping k))).2 := by
  cases vs with
  | nil => exact ⟨rfl, h⟩
  | cons v vs =>
    refine ⟨?_, h.nextIdentity⟩
    unfold Store.newList
    dsimp only [List.map_cons]
    rw [h.fresh_eq, Value.skipping_list]
    rfl

theorem enter_fixed (h : Skips k s t) (names : List Name) (vs : List Value) (f : FrameId) :
    (t.enter (.fixed names) (vs.map (Value.skipping k)) f).1 = (s.enter (.fixed names) vs f).1 ∧
      Skips k (s.enter (.fixed names) vs f).2 (t.enter (.fixed names) (vs.map (Value.skipping k)) f).2 := by
  obtain ⟨hframe, hmapped⟩ := h.mapped.enter_fixed rfl rfl vs f
  exact ⟨hframe, h.of_mapped hmapped rfl rfl h.output⟩

theorem enter (h : Skips k s t) (params : Params) (vs : List Value) (f : FrameId) :
    (t.enter params (vs.map (Value.skipping k)) f).1 = (s.enter params vs f).1 ∧
      Skips k (s.enter params vs f).2 (t.enter params (vs.map (Value.skipping k)) f).2 := by
  cases params with
  | fixed names => exact h.enter_fixed names vs f
  | variadic name =>
    obtain ⟨hlist, hstore⟩ := h.newList vs
    rw [enter_variadic, enter_variadic, hlist]
    exact hstore.enter_fixed [name] [(s.newList vs).1] f

end Skips
end Store

/-! ## Evaluation -/

/-- The outcome if the identity `k` had been skipped. -/
def Outcome.skipping (k : Nat) : Outcome Value → Outcome Value
  | done value store => done (value.skipping k) (store.skipping k)
  | stopped why store => stopped why (store.skipping k)

theorem Outcome.eq_skipping {k : Nat} {o o' : Outcome Value}
    (h : Corresponds (fun _ => Store.Skips k) (fun _ v v' => v' = v.skipping k) () o o') : o' = o.skipping k := by
  cases h with
  | done _ hstores hv => rw [hstores.eq, hv, skipping]
  | stopped why _ hstores => rw [hstores.eq, skipping]

/-- A run goes along with the one that has skipped an identity. -/
def skippingSimulation (k : Nat) : Simulation Unit where
  stores _ := Store.Skips k
  values _ v v' := v' = v.skipping k
  runs _ e f e' g := e' = e ∧ g = f
  values_mono _ h := h
  runs_mono _ h := h
  correspondence _ := Value.correspondence_skipping k
  alike := by
    rintro _ e f _ _ ⟨rfl, rfl⟩
    exact .of_parts fun d _ => ⟨rfl, rfl⟩
  get := by
    rintro _ s t x _ _ f hst ⟨hx, rfl⟩
    cases hx
    rw [hst.mapped.get]
    cases s.get x.lexeme f with
    | ok v => exact .done le_rfl hst rfl
    | error e => exact .stopped (.error e) le_rfl hst
  newList := by
    intro _ s t vs vs' hst hvs
    obtain ⟨hlist, hstore⟩ := hst.newList vs
    rw [← eq_map_of_forall₂ hvs] at hlist hstore
    exact .done le_rfl hstore hlist
  newNaN := by
    rintro _ s t hst
    refine .done le_rfl hst.nextIdentity ?_
    unfold Store.newNaN
    dsimp only
    rw [hst.fresh_eq]
    rfl
  newClosure := by
    rintro _ s t ps b _ _ _ f hst ⟨hx, rfl⟩
    cases hx
    refine .done le_rfl hst.nextIdentity ?_
    unfold Store.newClosure
    dsimp only
    rw [hst.fresh_eq]
    rfl
  define := by
    rintro _ s t x e _ _ _ f v _ hst ⟨hx, rfl⟩ rfl
    cases hx
    exact ⟨(), le_rfl, hst.of_mapped (hst.mapped.define x.lexeme v f) rfl rfl hst.output⟩
  assign := by
    rintro _ s t x e _ _ _ f v _ hst ⟨hx, rfl⟩ rfl
    cases hx
    rcases hst.mapped.assign x.lexeme v f with ⟨holder, hs, ht⟩ | ⟨err, hs, ht⟩
    · have hstores := hst.of_mapped (hst.mapped.define x.lexeme v holder) rfl rfl hst.output
      exact .inl ⟨(), _, _, le_rfl, hs, ht, hstores⟩
    · exact .inr ⟨err, hs, ht⟩
  writeLine := by
    intro _ s t line hst
    refine ⟨(), le_rfl, hst.of_mapped hst.mapped rfl rfl ?_⟩
    unfold Store.writeLine
    dsimp only
    rw [hst.output]
  enterLet := by
    rintro _ s t xs es b _ _ _ _ f vs vs' hst ⟨hx, rfl⟩ hvs
    cases hx
    obtain ⟨hframe, hstore⟩ := hst.enter_fixed xs vs f
    rw [← eq_map_of_forall₂ hvs] at hframe hstore
    exact ⟨(), le_rfl, hstore, List.forall₂_same.2 fun d _ => ⟨rfl, hframe⟩⟩
  enterClosure := by
    rintro _ s t i l f _ _ _ vs vs' hst hp hvs
    cases hp
    obtain ⟨hframe, hstore⟩ := hst.enter l.params vs f
    rw [← eq_map_of_forall₂ hvs] at hframe hstore
    exact ⟨(), le_rfl, hstore, List.forall₂_same.2 fun d _ => ⟨rfl, hframe⟩⟩

variable {s : Store} {f : FrameId}

/-- **Evaluation comes to the same if an identity is skipped**, with all later ones one higher. -/
theorem eval_skipping {k : Nat} (hk : k ≤ s.fresh) (fuel n : Nat) (e : Code) (f : FrameId) :
    eval fuel n e f (s.skipping k) = (eval fuel n e f s).skipping k :=
  eq_skipping ((skippingSimulation k).eval_corresponds fuel n ⟨rfl, hk⟩ ⟨rfl, rfl⟩)

/-- The call of a lambda is the `let` with the same names, values and body, once the lambda has its identity. -/
theorem eval_call_lambda (fuel n : Nat) (names : List Name) (values body : List Code) (f : FrameId) (s : Store) :
    eval (fuel + 2) (n + 1) (.call (.lambda (.fixed names) body) values) f s =
      eval (fuel + 2) (n + 1) (.letIn names values body) f { s with fresh := s.fresh + 1 } := by
  have hlambda : nested (eval (fuel + 1)) (n + 1) (.lambda (.fixed names) body) f s =
    .done (.closure s.fresh ⟨.fixed names, body⟩ f) { s with fresh := s.fresh + 1 } := rfl
  unfold eval turn
  dsimp only
  rw [hlambda]
  rfl

/-- **A `let` is the call of a lambda** with its names as parameters, its body and its values as arguments, in any frame
of a store in which nothing dangles, as that of a session never does. Both come to the same value or error, write the
same and leave the same in all frames, but that the lambda takes an identity and all later ones are one higher. Only a
call for which the limits leave no room stops at once. -/
theorem eval_letIn (hs : s.Valid) (fuel n : Nat) (names : List Name) (values body : List Code) (f : FrameId) :
    eval fuel n (.call (.lambda (.fixed names) body) values) f s =
        (eval fuel n (.letIn names values body) f s).skipping s.fresh ∨
      (n = 0 ∨ fuel < 2) ∧ ∃ why ∈ [Stop.nestingTooDeep, .outOfFuel],
        eval fuel n (.call (.lambda (.fixed names) body) values) f s = .stopped why s := by
  match fuel, n with
  | 0, _ => exact .inr ⟨.inr (by omega), .outOfFuel, by simp, rfl⟩
  | fuel + 1, 0 => exact .inr ⟨.inl rfl, .nestingTooDeep, by simp, rfl⟩
  | 1, n + 1 => exact .inr ⟨.inr (by omega), .outOfFuel, by simp, rfl⟩
  | fuel + 2, n + 1 =>
    left
    rw [eval_call_lambda, ← hs.skipping_eq, eval_skipping le_rfl]

/-- The names, values and body of `(let ((x #t) (x (lambda () x))) (define y '(#t)) (lambda () y))`. -/
def repeatedNameExample : List Name × List Code × List Code :=
  let x : Name := ⟨"x", 0, 0⟩
  let y : Name := ⟨"y", 0, 0⟩
  ([x, x], [.literal (.boolean true), .lambda (.fixed []) [.symbol x]],
    [.define y (.quote (.list [.literal (.boolean true)])), .lambda (.fixed []) [.symbol y]])

theorem eval_letIn_repeatedName :
    let (names, values, body) := repeatedNameExample
    let result (i : Nat) : Value := .closure i ⟨.fixed [], [.symbol ⟨"y", 0, 0⟩]⟩ 1
    ∃ t, eval 5 5 (.letIn names values body) 0 .initial = .done (result 2) t ∧
      t.valueIn? "y" 1 = some (.list 1 [.boolean true]) ∧
      eval 5 5 (.call (.lambda (.fixed names) body) values) 0 .initial = .done (result 3) (t.skipping 0) ∧
      (t.skipping 0).valueIn? "y" 1 = some (.list 2 [.boolean true]) := by
  have hcall := eval_letIn Store.initial_valid 5 5 repeatedNameExample.1 repeatedNameExample.2.1
    repeatedNameExample.2.2 0
  let t := (eval 5 5 (.letIn repeatedNameExample.1 repeatedNameExample.2.1 repeatedNameExample.2.2) 0 .initial).store
  refine ⟨t, rfl, rfl, ?_, ?_⟩
  · rcases hcall with hcall | ⟨hlimits, -⟩
    · exact hcall
    · omega
  · simp only [Store.valueIn?, (Store.mapped_skipping 0 t).getElem?]
    rfl

end MiniScheme
