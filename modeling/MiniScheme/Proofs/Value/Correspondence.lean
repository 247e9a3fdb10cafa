import Mathlib.Data.List.Forall2
import MiniScheme.Primitive.Run
import MiniScheme.Proofs.Value.Nesting

/-!
# Corresponding values

Two runs that should come to the same may still number their lists, closures and frames differently. A correspondence
relates the values of one run to those of the other: it looks into lists, leaves everything plain as it is, and never
mixes up identities. What is printed, compared or computed from corresponding values then agrees.

* `Value.Alike R` — two values of the same kind, plain ones equal, lists with items related by `R`.
* `Value.Correspondence R` — what a relation has to respect.
* `printed?_eq`, `compare_eq` — printing and comparing do not tell corresponding values apart.
* `Primitive.run_corresponds` — primitives reply to corresponding arguments with corresponding replies.
-/

namespace MiniScheme

open List (Forall₂)

/-- Related options are both empty or hold related values. -/
theorem rel_option_cases {α β : Type} {r : α → β → Prop} {a : Option α} {b : Option β} (h : Option.Rel r a b) :
    (a = none ∧ b = none) ∨ ∃ x y, a = some x ∧ b = some y ∧ r x y := by
  cases h with
  | none => exact .inl ⟨rfl, rfl⟩
  | some h => exact .inr ⟨_, _, rfl, rfl, h⟩

theorem rel_option_imp {α β : Type} {r r' : α → β → Prop} {a : Option α} {b : Option β} (h : Option.Rel r a b)
    (hr : ∀ {x y}, r x y → r' x y) : Option.Rel r' a b := by
  cases h with
  | none => exact .none
  | some h => exact .some (hr h)

theorem rel_option_flip {α β : Type} {r : α → β → Prop} {a : Option α} {b : Option β} (h : Option.Rel r a b) :
    Option.Rel (fun y x => r x y) b a := by
  cases h with
  | none => exact .none
  | some h => exact .some h

namespace Value

/-- A plain value holds neither values nor a frame, and has no identity. -/
def isPlain : Value → Bool
  | list .. | closure .. | number (.nan _) => false
  | _ => true

/-- A plain value is no NaN that a computation has made. -/
theorem sameNaN_of_isPlain {v : Value} (hv : v.isPlain = true) (i : Nat) : v.sameNaN (number (.nan i)) = false := by
  cases v with
  | number x =>
    cases x with
    | plain => rfl
    | nan => cases hv
  | _ => rfl

theorem sameNaN_comm (a b : Value) : a.sameNaN b = b.sameNaN a := by
  cases a <;> cases b <;> first | rfl | exact Number.sameNaN_comm _ _

/-- Two values of the same kind that differ at most in identities, frames, code and the items of lists. -/
inductive Alike (R : Value → Value → Prop) : Value → Value → Prop where
  | plain {v : Value} (hv : v.isPlain = true) : Alike R v v
  | list {i j : Nat} {vs ws : List Value} (items : Forall₂ R vs ws) : Alike R (list i vs) (list j ws)
  | closure {i j : Nat} {l m : Lambda} {f g : FrameId} : Alike R (closure i l f) (closure j m g)
  | nan {i j : Nat} : Alike R (number (.nan i)) (number (.nan j))

theorem alike_number {R : Value → Value → Prop} (x : Number) : Alike R (number x) (number x) := by
  cases x with
  | plain => exact .plain rfl
  | nan => exact .nan

/-- A relation of values that primitives respect. -/
structure Correspondence (R : Value → Value → Prop) : Prop where
  alike : ∀ {v w}, R v w → Alike R v w
  plain : ∀ {v : Value}, v.isPlain = true → R v v
  same : ∀ {v w v' w'}, R v w → R v' w' → w.same w' = v.same v'
  nan : ∀ {i j i' j'}, R (number (.nan i)) (number (.nan j)) → R (number (.nan i')) (number (.nan j')) →
    (j = j' ↔ i = i')

namespace Correspondence

variable {R : Value → Value → Prop} {v w v' w' : Value} {vs ws : List Value} {n : Nat}

/-! ## Tests -/

theorem isTrue_eq (hR : Correspondence R) (h : R v w) : w.isTrue = v.isTrue := by
  cases hR.alike h <;> rfl

theorem isNull_eq (hR : Correspondence R) (h : R v w) : w.isNull = v.isNull := by
  cases hR.alike h <;> rfl

theorem isNumber_eq (hR : Correspondence R) (h : R v w) : w.isNumber = v.isNumber := by
  cases hR.alike h <;> rfl

theorem isString_eq (hR : Correspondence R) (h : R v w) : w.isString = v.isString := by
  cases hR.alike h <;> rfl

theorem isProcedure_eq (hR : Correspondence R) (h : R v w) : w.isProcedure = v.isProcedure := by
  cases hR.alike h <;> rfl

theorem magnitude?_eq (hR : Correspondence R) (h : R v w) : w.magnitude? = v.magnitude? := by
  cases hR.alike h <;> rfl

theorem items?_rel (hR : Correspondence R) (h : R v w) : Option.Rel (Forall₂ R) v.items? w.items? := by
  cases hR.alike h with
  | plain hv =>
    cases v <;> first | exact .none | exact .some .nil | cases hv
  | list items => exact .some items
  | closure | nan => exact .none

/-! ## Printing -/

theorem mapM_eq {f g : Value → Option String} (h : Forall₂ R vs ws) (hfg : ∀ v w, R v w → g w = f v) :
    ws.mapM g = vs.mapM f := by
  induction h with
  | nil => rfl
  | cons hvw _ ih => simp only [List.mapM_cons, hfg _ _ hvw, ih]

/-- **Corresponding values have the same text.** -/
theorem printed?_eq (hR : Correspondence R) (h : R v w) : w.printed? n = v.printed? n := by
  induction n generalizing v w with
  | zero => cases hR.alike h <;> rfl
  | succ n ih =>
    cases hR.alike h with
    | list items =>
      unfold printed?
      rw [mapM_eq items fun _ _ => ih]
    | _ => rfl

/-! ## Comparing -/

theorem equalAtoms_eq (hR : Correspondence R) (h : R v w) (h' : R v' w') : w.equalAtoms w' = v.equalAtoms v' := by
  unfold equalAtoms
  rw [hR.magnitude?_eq h, hR.magnitude?_eq h', hR.same h h']

/-- Two values are one NaN if the corresponding two are. -/
theorem sameNaN_eq (hR : Correspondence R) (h : R v w) (h' : R v' w') : w.sameNaN w' = v.sameNaN v' := by
  cases hR.alike h with
  | nan =>
    cases hR.alike h' with
    | nan => exact Bool.eq_iff_iff.2 (by simpa [sameNaN, Number.sameNaN] using hR.nan h h')
    | plain hv' => rw [sameNaN_comm, sameNaN_of_isPlain hv', sameNaN_comm, sameNaN_of_isPlain hv']
    | _ => rfl
  | plain hv =>
    cases hR.alike h' with
    | nan => rw [sameNaN_of_isPlain hv, sameNaN_of_isPlain hv]
    | plain => rfl
    | _ => cases v <;> rfl
  | _ => cases hR.alike h' <;> rfl

theorem allEqual?_eq {eq : Value → Value → Option Bool} {vs' ws' : List Value} (h : Forall₂ R vs ws)
    (h' : Forall₂ R vs' ws') (heq : ∀ v w v' w', R v w → R v' w' → eq w w' = eq v v') :
    allEqual? eq ws ws' = allEqual? eq vs vs' := by
  induction h generalizing vs' ws' with
  | nil => rfl
  | cons hvw _ ih =>
    cases h' with
    | nil => rfl
    | cons hvw' hrest => simp only [allEqual?, heq _ _ _ _ hvw hvw', ih hrest]

/-- Two values are lists if the corresponding two are. -/
theorem lists_or_neither (hR : Correspondence R) (h : R v w) (h' : R v' w') :
    (∃ i as j bs i' as' j' bs', (v = list i as ∧ w = list j bs ∧ Forall₂ R as bs) ∧
        v' = list i' as' ∧ w' = list j' bs' ∧ Forall₂ R as' bs') ∨
      (∀ i as j bs, ¬(v = list i as ∧ v' = list j bs)) ∧ ∀ i as j bs, ¬(w = list i as ∧ w' = list j bs) := by
  rcases lists_or_not v v' with ⟨i, as, j, bs, rfl, rfl⟩ | hl
  · cases hR.alike h with
    | plain hv => cases hv
    | list items =>
      cases hR.alike h' with
      | plain hv => cases hv
      | list items' => exact .inl ⟨_, _, _, _, _, _, _, _, ⟨rfl, rfl, items⟩, rfl, rfl, items'⟩
  · refine .inr ⟨hl, ?_⟩
    rintro i as j bs ⟨rfl, rfl⟩
    cases hR.alike h with
    | plain hv => cases hv
    | list =>
      cases hR.alike h' with
      | plain hv => cases hv
      | list => exact hl _ _ _ _ ⟨rfl, rfl⟩

/-- Two lists have the same identity if the corresponding two have. -/
theorem identity_iff (hR : Correspondence R) {i j i' j' : Nat} {as bs as' bs' : List Value}
    (h : R (list i as) (list j bs)) (h' : R (list i' as') (list j' bs')) : j = j' ↔ i = i' := by
  have hsame : (j == j') = (i == i') := hR.same h h'
  rw [← beq_iff_eq, hsame, beq_iff_eq]

theorem equal?_eq (hR : Correspondence R) (h : R v w) (h' : R v' w') : equal? n w w' = equal? n v v' := by
  induction n generalizing v w v' w' with
  | zero =>
    rcases hR.lists_or_neither h h' with ⟨_, _, _, _, _, _, _, _, ⟨rfl, rfl, _⟩, rfl, rfl, _⟩ | ⟨hv, hw⟩
    · simp only [equal?_lists, hR.identity_iff h h']
    · rw [equal?_atoms hv, equal?_atoms hw, hR.sameNaN_eq h h', hR.equalAtoms_eq h h']
  | succ n ih =>
    rcases hR.lists_or_neither h h' with ⟨_, _, _, _, _, _, _, _, ⟨rfl, rfl, items⟩, rfl, rfl, items'⟩ | ⟨hv, hw⟩
    · simp only [equal?_lists, hR.identity_iff h h', ← items.length_eq, ← items'.length_eq,
        allEqual?_eq items items' fun _ _ _ _ => ih]
    · rw [equal?_atoms hv, equal?_atoms hw, hR.sameNaN_eq h h', hR.equalAtoms_eq h h']

/-- The first difference of two lists is in the same place as that of the corresponding two. -/
theorem firstDifference?_rel {eq : Value → Value → Option Bool} {vs' ws' : List Value} (h : Forall₂ R vs ws)
    (h' : Forall₂ R vs' ws') (heq : ∀ v w v' w', R v w → R v' w' → eq w w' = eq v v') :
    Option.Rel (Option.Rel fun p q => R p.1 q.1 ∧ R p.2 q.2) (firstDifference? eq vs vs')
      (firstDifference? eq ws ws') := by
  induction h generalizing vs' ws' with
  | nil => exact .some .none
  | cons hvw _ ih =>
    cases h' with
    | nil => exact .some .none
    | cons hvw' hrest =>
      simp only [firstDifference?, heq _ _ _ _ hvw hvw']
      split
      · exact ih hrest
      · exact .some (.some ⟨hvw, hvw'⟩)
      · exact .none

theorem compare_atoms_eq (hR : Correspondence R) (h : R v w) (h' : R v' w')
    (hv : ∀ i as j bs, ¬(v = list i as ∧ v' = list j bs)) (d : Direction) :
    compare d n w w' = compare d n v v' := by
  rw [compare.eq_def, compare.eq_def d n v v']
  cases hR.alike h with
  | plain =>
    cases hR.alike h' with
    | plain => rfl
    | closure | nan => cases v <;> rfl
    | list =>
      cases v with
      | list => exact absurd ⟨rfl, rfl⟩ (hv _ _ _ _)
      | _ => rfl
  | closure | nan =>
    cases hR.alike h' with
    | plain => cases v' <;> rfl
    | _ => rfl
  | list =>
    cases hR.alike h' with
    | plain =>
      cases v' with
      | list => exact absurd ⟨rfl, rfl⟩ (hv _ _ _ _)
      | _ => rfl
    | closure | nan => rfl
    | list => exact absurd ⟨rfl, rfl⟩ (hv _ _ _ _)

/-- **Corresponding values compare alike.** -/
theorem compare_eq (hR : Correspondence R) (d : Direction) (h : R v w) (h' : R v' w') :
    compare d n w w' = compare d n v v' := by
  induction n generalizing v w v' w' with
  | zero =>
    rcases hR.lists_or_neither h h' with ⟨_, _, _, _, _, _, _, _, ⟨rfl, rfl, _⟩, rfl, rfl, _⟩ | ⟨hv, _⟩
    · rw [compare_lists, compare_lists]
    · exact hR.compare_atoms_eq h h' hv d
  | succ n ih =>
    rcases hR.lists_or_neither h h' with ⟨_, _, _, _, _, _, _, _, ⟨rfl, rfl, items⟩, rfl, rfl, items'⟩ | ⟨hv, _⟩
    · have hdiff := firstDifference?_rel items items' fun _ _ _ _ => hR.equal?_eq (n := n)
      simp only [compare_lists, ← items.length_eq, ← items'.length_eq]
      rcases rel_option_cases hdiff with ⟨hv, hw⟩ | ⟨d, d', hv, hw, hd⟩
      · rw [hv, hw]
      · rw [hv, hw]
        cases hd with
        | none => rfl
        | some hpair => exact ih hpair.1 hpair.2
    · exact hR.compare_atoms_eq h h' hv d

theorem pairwise_eq {test : Value → Value → Except Obstacle Bool} (h : Forall₂ R vs ws)
    (htest : ∀ v w v' w', R v w → R v' w' → test w w' = test v v') : pairwise test ws = pairwise test vs := by
  induction h with
  | nil => rfl
  | cons hvw hrest ih =>
    cases hrest with
    | nil => rfl
    | cons hvw' hrest => simp only [pairwise, htest _ _ _ _ hvw hvw', ih]

end Correspondence
end Value

/-! ## Primitives -/

/-- Replies of the same kind with related values. -/
inductive Reply.Corresponds (R : Value → Value → Prop) : Reply → Reply → Prop where
  | value {v w : Value} (h : R v w) : Corresponds R (.value v) (.value w)
  | newList {vs ws : List Value} (h : Forall₂ R vs ws) : Corresponds R (.newList vs) (.newList ws)
  | newNaN : Corresponds R .newNaN .newNaN
  | line (text : String) : Corresponds R (.line text) (.line text)
  | call {p q : Value} {vs ws : List Value} (h : R p q) (hs : Forall₂ R vs ws) : Corresponds R (.call p vs) (.call q ws)
  | failed (e : RuntimeError) : Corresponds R (.failed e) (.failed e)
  | nestingTooDeep : Corresponds R .nestingTooDeep .nestingTooDeep
  | fault (why : Fault) : Corresponds R (.fault why) (.fault why)

/-- Arithmetic has come to the same new number, or to related old ones. -/
inductive Computed.Corresponds (R : Value → Value → Prop) : Computed → Computed → Prop where
  | new (x : Float) : Corresponds R (.new x) (.new x)
  | old {x y : Number} (h : R (.number x) (.number y)) : Corresponds R (.old x) (.old y)

namespace Primitive

open Value (Correspondence)

/-- The host fails alike, or has related results. -/
inductive Attempted {α β : Type} (r : α → β → Prop) : Except Fault α → Except Fault β → Prop where
  | ok {a : α} {b : β} (h : r a b) : Attempted r (.ok a) (.ok b)
  | error (fault : Fault) : Attempted r (.error fault) (.error fault)

variable {R : Value → Value → Prop} {v w : Value} {vs ws : List Value} {n : Nat}

/-! ### Arguments -/

theorem getElem?_rel (h : Forall₂ R vs ws) (i : Nat) : Option.Rel R vs[i]? ws[i]? := by
  induction h generalizing i with
  | nil => exact .none
  | cons hvw _ ih =>
    cases i with
    | zero => exact .some hvw
    | succ i => exact ih i

theorem arg_rel (hR : Correspondence R) (h : Forall₂ R vs ws) (i : Nat) : R (arg vs i) (arg ws i) := by
  unfold arg
  rcases rel_option_cases (getElem?_rel h i) with ⟨hv, hw⟩ | ⟨v, w, hv, hw, hvw⟩
  · rw [hv, hw]
    exact hR.plain rfl
  · rw [hv, hw]
    exact hvw

theorem find?_rel (test : Value → Bool) (htest : ∀ {v w}, R v w → test w = test v) (h : Forall₂ R vs ws) :
    Option.Rel R (vs.find? test) (ws.find? test) := by
  induction h with
  | nil => exact .none
  | cons hvw _ ih =>
    simp only [List.find?_cons, htest hvw]
    split
    · exact .some hvw
    · exact ih

theorem reject_corresponds (hR : Correspondence R) (h : R v w) (error : String → RuntimeError) :
    Reply.Corresponds R (reject n v error) (reject n w error) := by
  unfold reject
  rw [hR.printed?_eq h]
  split
  · exact .failed _
  · exact .nestingTooDeep

/-- Numbers correspond to numbers. -/
theorem numbers_rel (hR : Correspondence R) {xs : List Number} (h : Forall₂ R (xs.map .number) ws) :
    ∃ ys : List Number, ws = ys.map .number ∧ Forall₂ (fun x y => R (.number x) (.number y)) xs ys := by
  induction xs generalizing ws with
  | nil =>
    cases h
    exact ⟨[], rfl, .nil⟩
  | cons x xs ih =>
    obtain ⟨w, ws', hw, hws, rfl⟩ := List.forall₂_cons_left_iff.1 h
    obtain ⟨ys, rfl, hys⟩ := ih hws
    obtain ⟨y, rfl⟩ : ∃ y, w = .number y := by
      cases hR.alike hw with
      | plain => exact ⟨x, rfl⟩
      | nan => exact ⟨_, rfl⟩
    exact ⟨y :: ys, rfl, .cons hw hys⟩

/-- A string corresponds to itself alone. -/
theorem strings_eq (hR : Correspondence R) {ss : List String} (h : Forall₂ R (ss.map .string) ws) :
    ws = ss.map .string := by
  induction ss generalizing ws with
  | nil =>
    cases h
    rfl
  | cons s ss ih =>
    obtain ⟨w, ws', hw, hws, rfl⟩ := List.forall₂_cons_left_iff.1 h
    rw [ih hws]
    cases hR.alike hw
    rfl

/-! ### What the host is asked for -/

theorem orFault_rel {α β : Type} {r : α → β → Prop} {a : Option α} {b : Option β} (fault : Fault)
    (h : Option.Rel r a b) : Attempted r (orFault fault a) (orFault fault b) := by
  cases h with
  | none => exact .error fault
  | some h => exact .ok h

theorem item_rel (h : Forall₂ R vs ws) (i : Nat) : Attempted R (item vs i) (item ws i) :=
  orFault_rel .badIndex (getElem?_rel h i)

theorem attempt_corresponds {α β : Type} {r : α → β → Prop} {a : Except Fault α} {b : Except Fault β} {f : α → Reply}
    {g : β → Reply} (h : Attempted r a b) (hreply : ∀ {a b}, r a b → Reply.Corresponds R (f a) (g b)) :
    Reply.Corresponds R (attempt a f) (attempt b g) := by
  cases h with
  | ok h => exact hreply h
  | error fault => exact .fault fault

/-! ### Arithmetic -/

theorem reply_corresponds (hR : Correspondence R) {a b : Computed} (h : Computed.Corresponds R a b) :
    Reply.Corresponds R a.reply b.reply := by
  cases h with
  | new x =>
    dsimp only [Computed.reply]
    split
    · exact .newNaN
    · exact .value (hR.plain rfl)
  | old h => exact .value h

theorem toFloat_eq (hR : Correspondence R) {x y : Number} (h : R (.number x) (.number y)) : y.toFloat = x.toFloat := by
  cases hR.alike h <;> rfl

/-- Numbers of related lists. -/
abbrev Numbers (R : Value → Value → Prop) : List Number → List Number → Prop :=
  Forall₂ fun x y => R (.number x) (.number y)

variable {xs ys : List Number}

theorem foldl_eq (hR : Correspondence R) (h : Numbers R xs ys) (f : Float → Float → Float) (a : Float) :
    ys.foldl (fun result y => f result y.toFloat) a = xs.foldl (fun result x => f result x.toFloat) a := by
  induction h generalizing a with
  | nil => rfl
  | cons hxy _ ih => rw [List.foldl_cons, List.foldl_cons, toFloat_eq hR hxy, ih]

theorem foldlM_rel (hR : Correspondence R) {f : Float → Float → Except Fault Computed}
    (hf : ∀ x y, Attempted (Computed.Corresponds R) (f x y) (f x y)) (h : Numbers R xs ys) {a b : Computed}
    (hab : Computed.Corresponds R a b) :
    Attempted (Computed.Corresponds R) (xs.foldlM (fun result x => f result.toFloat x.toFloat) a)
      (ys.foldlM (fun result y => f result.toFloat y.toFloat) b) := by
  induction h generalizing a b with
  | nil => exact .ok hab
  | @cons x y _ _ hxy _ ih =>
    have hfloat : b.toFloat = a.toFloat := by
      cases hab with
      | new => rfl
      | old h => exact toFloat_eq hR h
    have hresult := hf a.toFloat x.toFloat
    rw [List.foldlM_cons, List.foldlM_cons, hfloat, toFloat_eq hR hxy]
    cases hcomputed : f a.toFloat x.toFloat with
    | error fault => exact .error fault
    | ok c =>
      rw [hcomputed] at hresult
      cases hresult with
      | ok hc => exact ih hc

theorem reduce_rel (hR : Correspondence R) {f : Float → Float → Except Fault Computed}
    (hf : ∀ x y, Attempted (Computed.Corresponds R) (f x y) (f x y)) (h : Numbers R xs ys) :
    Attempted (Computed.Corresponds R) (reduce f xs) (reduce f ys) := by
  cases h with
  | nil => exact .error .badUnpacking
  | cons hxy hrest => exact foldlM_rel hR hf hrest (.old hxy)

theorem divided_rel (hR : Correspondence R) (x y : Float) :
    Attempted (Computed.Corresponds R) (divided x y) (divided x y) := by
  unfold divided quotient
  split
  · split
    · exact .ok (.old (hR.plain rfl))
    · exact .ok (.new _)
  · exact .ok (.new _)

theorem remaining_rel (hR : Correspondence R) (h : Numbers R xs ys) :
    Attempted (Computed.Corresponds R) (remaining xs) (remaining ys) := by
  rcases h with - | ⟨hx, - | ⟨hy, - | -⟩⟩
  · exact .error _
  · exact .error _
  · unfold remaining
    dsimp only
    rw [toFloat_eq hR hx, toFloat_eq hR hy]
    split
    · exact .ok (.new _)
    · exact .ok (.old (hR.plain rfl))
  · exact .error _

theorem rounded_rel (hR : Correspondence R) (h : Numbers R xs ys) :
    Attempted (Computed.Corresponds R) (rounded xs) (rounded ys) := by
  rcases h with - | ⟨hx, - | -⟩
  · exact .error _
  · unfold rounded
    dsimp only
    rw [toFloat_eq hR hx]
    split
    · cases floor _ >>= ofInt with
      | ok y => exact .ok (.new y)
      | error fault => exact .error fault
    · exact .ok (.old hx)
  · exact .error _

theorem magnitude_rel (hR : Correspondence R) (h : Numbers R xs ys) :
    Attempted (Computed.Corresponds R) (magnitude xs) (magnitude ys) := by
  rcases h with - | ⟨hx, - | -⟩
  · exact .error _
  · unfold magnitude
    dsimp only
    rw [toFloat_eq hR hx]
    exact .ok (.new _)
  · exact .error _

/-! ### Replies -/

theorem onNumbers_corresponds (hR : Correspondence R) (p : Primitive) (h : Forall₂ R vs ws)
    {compute : List Number → Except Fault Computed}
    (hcompute : ∀ {xs ys}, Numbers R xs ys → Attempted (Computed.Corresponds R) (compute xs) (compute ys)) :
    Reply.Corresponds R (onNumbers n p vs compute) (onNumbers n p ws compute) := by
  unfold onNumbers
  have hfound := find?_rel (!·.isNumber) (fun hvw => by rw [hR.isNumber_eq hvw]) h
  rcases rel_option_cases hfound with ⟨hv, hw⟩ | ⟨v, w, hv, hw, hvw⟩
  · obtain ⟨xs, rfl⟩ := exists_numbers hv
    obtain ⟨ys, rfl, hxys⟩ := numbers_rel hR h
    rw [hv, hw, mapM_operand, mapM_operand]
    exact attempt_corresponds (hcompute hxys) (reply_corresponds hR)
  · rw [hv, hw]
    exact reject_corresponds hR hvw _

theorem onList_corresponds (hR : Correspondence R) (p : Primitive) (h : Forall₂ R vs ws)
    {reply : Value → List Value → Reply}
    (hreply : ∀ {v w vs ws}, R v w → Forall₂ R vs ws → Reply.Corresponds R (reply v vs) (reply w ws)) :
    Reply.Corresponds R (onList n p vs reply) (onList n p ws reply) := by
  unfold onList
  rw [h.length_eq]
  split
  · exact .failed _
  · refine attempt_corresponds (item_rel h 0) fun hfirst => attempt_corresponds (item_rel h 1) fun hsecond => ?_
    rcases rel_option_cases (hR.items?_rel hsecond) with ⟨hv, hw⟩ | ⟨_, _, hv, hw, hitems⟩
    · rw [hv, hw]
      exact reject_corresponds hR hsecond _
    · rw [spread, spread, hv, hw]
      exact hreply hfirst hitems

theorem truth_corresponds (hR : Correspondence R) (p : Primitive) (result : Except Value.Obstacle Bool) :
    Reply.Corresponds R (truth p result) (truth p result) := by
  unfold truth
  split
  · exact .value (hR.plain rfl)
  · exact .failed _
  · exact .nestingTooDeep

theorem isEmpty_eq (h : Forall₂ R vs ws) : ws.isEmpty = vs.isEmpty := by
  cases h <;> rfl

/-- **Primitives reply to corresponding arguments with corresponding replies.** -/
theorem run_corresponds (hR : Correspondence R) (n : Nat) (p : Primitive) (h : Forall₂ R vs ws) :
    Reply.Corresponds R (run n p vs) (run n p ws) := by
  have harg (i : Nat) : R (arg vs i) (arg ws i) := arg_rel hR h i
  have hplain {v : Value} (hv : v.isPlain = true) : Reply.Corresponds R (.value v) (.value v) := .value (hR.plain hv)
  unfold run
  cases p with
  | multiply | add =>
    exact onNumbers_corresponds hR _ h fun hxys => by rw [foldl_eq hR hxys]; exact .ok (.new _)
  | subtract =>
    dsimp only
    rw [isEmpty_eq h]
    split
    · exact .failed _
    · exact onNumbers_corresponds hR _ h (reduce_rel hR fun x y => .ok (.new (x - y)))
  | divide =>
    dsimp only
    rw [isEmpty_eq h]
    split
    · exact .failed _
    · exact onNumbers_corresponds hR _ h (reduce_rel hR (divided_rel hR))
  | equal =>
    dsimp only
    rw [Correspondence.pairwise_eq h fun _ _ _ _ hvw hvw' => by rw [hR.same hvw hvw']]
    exact truth_corresponds hR _ _
  | atMost =>
    dsimp only
    rw [Correspondence.pairwise_eq h fun _ _ _ _ => hR.compare_eq .atMost]
    exact truth_corresponds hR _ _
  | atLeast =>
    dsimp only
    rw [Correspondence.pairwise_eq h fun _ _ _ _ => hR.compare_eq .atLeast]
    exact truth_corresponds hR _ _
  | stringLength =>
    have h0 := harg 0
    dsimp only
    generalize arg vs 0 = v, arg ws 0 = w at h0
    cases hR.alike h0 with
    | plain =>
      cases v with
      | undefined | string => exact hplain rfl
      | _ => exact reject_corresponds hR h0 _
    | _ => exact reject_corresponds hR h0 _
  | stringAppend =>
    dsimp only
    rw [isEmpty_eq h]
    split
    · exact .failed _
    · have hfound := find?_rel (!·.isString) (fun hvw => by rw [hR.isString_eq hvw]) h
      rcases rel_option_cases hfound with ⟨hv, hw⟩ | ⟨v, w, hv, hw, hvw⟩
      · obtain ⟨ss, rfl⟩ := exists_strings hv
        obtain rfl := strings_eq hR h
        rw [hv, mapM_text]
        exact hplain rfl
      · rw [hv, hw]
        exact reject_corresponds hR hvw _
  | list => exact .newList h
  | isNull => exact hR.isNull_eq (harg 0) ▸ hplain rfl
  | isList =>
    dsimp only
    rcases rel_option_cases (hR.items?_rel (harg 0)) with ⟨hv, hw⟩ | ⟨_, _, hv, hw, _⟩
    · rw [hv, hw]
      exact hplain rfl
    · rw [hv, hw]
      exact hplain rfl
  | isNumber => exact hR.isNumber_eq (harg 0) ▸ hplain rfl
  | isProcedure => exact hR.isProcedure_eq (harg 0) ▸ hplain rfl
  | car =>
    have h0 := harg 0
    dsimp only
    generalize arg vs 0 = v, arg ws 0 = w at h0
    cases hR.alike h0 with
    | plain hv =>
      cases v with
      | undefined | null => exact hplain rfl
      | list => cases hv
      | _ => exact reject_corresponds hR h0 _
    | list items => exact attempt_corresponds (item_rel items 0) .value
    | closure | nan => exact reject_corresponds hR h0 _
  | cdr =>
    have h0 := harg 0
    dsimp only
    generalize arg vs 0 = v, arg ws 0 = w at h0
    cases hR.alike h0 with
    | plain hv =>
      cases v with
      | undefined | null => exact hplain rfl
      | list => cases hv
      | _ => exact reject_corresponds hR h0 _
    | list items =>
      cases items with
      | nil => exact .newList .nil
      | cons _ htail => exact .newList htail
    | closure | nan => exact reject_corresponds hR h0 _
  | cons => exact onList_corresponds hR _ h fun hhead hitems => .newList (.cons hhead hitems)
  | remainder => exact onNumbers_corresponds hR _ (.cons (harg 0) (.cons (harg 1) .nil)) (remaining_rel hR)
  | quote => exact .value (harg 0)
  | sequence =>
    dsimp only
    rw [isEmpty_eq h, h.length_eq]
    split
    · exact hplain rfl
    · exact attempt_corresponds (item_rel h _) .value
  | same => exact hR.same (harg 0) (harg 1) ▸ hplain rfl
  | negation => exact hR.isTrue_eq (harg 0) ▸ hplain rfl
  | round => exact onNumbers_corresponds hR _ (.cons (harg 0) .nil) (rounded_rel hR)
  | abs => exact onNumbers_corresponds hR _ (.cons (harg 0) .nil) (magnitude_rel hR)
  | display =>
    dsimp only
    rw [hR.printed?_eq (harg 0)]
    split
    · exact .line _
    · exact .nestingTooDeep
  | apply => exact onList_corresponds hR _ h .call

end Primitive
end MiniScheme
