import MiniScheme.Proofs.Session.Join
import MiniScheme.Proofs.Value.Readable

/-!
# Quoting a printed value

The text of a value that reads back, quoted by the form or by the sign, evaluates to that value again. The numbers come
back to the bit, the lists with the same items but with identities of their own, and nothing else changes.

* `Eval.quoted_code` — what is made of the expression of a printed value under a quotation.
* `run_quotation` — what running the quoted text comes to.
-/

namespace MiniScheme

/-! ## Reading -/

namespace Value

open Token (ScansAs)
open MiniScheme.Expr (Spells)

/-- The sign in front of the text of a value. -/
theorem Legible.tick {v : Value} {text : String} (h : v.Legible text) {n : Nat} (hpos : 0 < n)
    (hdepth : v.depth ≤ n + 1) :
    ScansAs ("'" ++ text).toList fun ts => Spells (n + 1) .expression ts v.datum := by
  have htext : ("'" ++ text).toList = '\x27' :: text.toList := by
    rw [String.toList_append]
    rfl
  rw [htext]
  refine (ScansAs.mark Token.Piece.first_tick rfl h).imp ?_
  rintro ts ⟨t, us, rfl, ht, hus⟩
  exact .tick ht (hus.datum hpos hdepth)

/-- The form around the text of a value. -/
theorem Legible.form {v : Value} {text : String} (h : v.Legible text) {n : Nat} (hpos : 0 < n)
    (hdepth : v.depth ≤ n + 1) :
    ScansAs ("(quote " ++ text ++ ")").toList fun ts => Spells (n + 1) .expression ts (.quote v.datum) := by
  have htext : ("(quote " ++ text ++ ")").toList =
      '(' :: 'q' :: ("uote".toList ++ ' ' :: (text.toList ++ [')'])) := by
    rw [String.append_assoc, String.toList_append, String.toList_append]
    rfl
  have hclose := ScansAs.append h (ScansAs.nil.mark Token.Piece.first_rightBracket rfl)
    fun rest _ => Token.stopsNumber_cons (by decide) rest
  have hword (rest : List Char) (_ : Token.StopsNumber rest) :
      Token.Piece.first 'q' ("uote".toList ++ (' ' :: (text.toList ++ [')']) ++ rest)) =
        .token .symbol "uote".toList.length := Token.Piece.first_quote _
  rw [htext]
  refine (ScansAs.mark Token.Piece.first_leftBracket rfl (hclose.blank.piece hword rfl)).imp ?_
  rintro ts ⟨o, _, rfl, ho, w, _, rfl, hw, hlexeme, us, _, rfl, hus, c, _, rfl, hc, rfl⟩
  have hkeyword : Expr.keyword? w = some .quote := by
    unfold Expr.keyword?
    rw [hw, hlexeme]
    rfl
  exact .brackets ho (.special hkeyword (.quote (hus.datum hpos hdepth))) hc

end Value

/-! ## Evaluation -/

namespace Eval

open Value (Readable depth depthAll shape shapeAll code codes datum)

/-- The outcome is a value of the same shape, and no more than identities has been taken from the store. -/
def Reproduces (v : Value) (store : Store) (outcome : Outcome Value) : Prop :=
  ∃ w fresh, outcome = .done w { store with fresh } ∧ w.shape = v.shape

/-- The outcome is values of the same shapes, and no more than identities has been taken from the store. -/
def ReproducesAll (vs : List Value) (store : Store) (outcome : Outcome (List Value)) : Prop :=
  ∃ ws fresh, outcome = .done ws { store with fresh } ∧ shapeAll ws = shapeAll vs

/-- Items that come back one by one come back together. -/
theorem each_reproducesAll {ev : Evaluator} {f : FrameId} {vs : List Value}
    (h : ∀ v ∈ vs, ∀ store, Reproduces v store (ev v.code f store)) (store : Store) :
    ReproducesAll vs store (each ev f (codes vs) store) := by
  induction vs generalizing store with
  | nil => exact ⟨[], store.fresh, rfl, rfl⟩
  | cons v vs ih =>
    obtain ⟨w, fresh, hw, hshape⟩ := h v List.mem_cons_self store
    obtain ⟨ws, fresh', hws, hshapes⟩ := ih (fun u hu => h u (List.mem_cons_of_mem v hu)) { store with fresh }
    refine ⟨w :: ws, fresh', ?_, ?_⟩
    · unfold codes each
      rw [hw]
      simp only [Outcome.andThen_done, hws]
    · unfold shapeAll
      rw [hshape, hshapes]

/-- Items that come back make the list again, but for its identity. -/
theorem newList_reproduces {i : Nat} {items : List Value} (hne : items ≠ []) {store : Store}
    {outcome : Outcome (List Value)} (h : ReproducesAll items store outcome) :
    Reproduces (.list i items) store (outcome.andThen fun items store => .ofPair (store.newList items)) := by
  obtain ⟨ws, fresh, rfl, hshapes⟩ := h
  cases ws with
  | nil =>
    cases items with
    | nil => exact absurd rfl hne
    | cons v vs => cases hshapes
  | cons w ws =>
    refine ⟨.list fresh (w :: ws), fresh + 1, rfl, ?_⟩
    unfold shape
    rw [hshapes]

/-- **A printed value under a quotation comes back.** The brackets in it are calls, which a quotation turns into
lists. -/
theorem quoted_code {v : Value} (hv : Readable v) {n : Nat} (hdepth : v.depth ≤ n) (fuel : Nat) (f : FrameId)
    (store : Store) : Reproduces v store (quoted (eval (fuel + 1)) n v.code f store) := by
  induction hv generalizing n store with
  | boolean | null | zero | number =>
    obtain ⟨m, rfl⟩ := Nat.exists_eq_add_one.2 (Nat.lt_of_lt_of_le (Value.depth_pos _) hdepth)
    exact ⟨_, store.fresh, rfl, rfl⟩
  | @list i items hne hitems ih =>
    obtain ⟨m, rfl⟩ := Nat.exists_eq_add_one.2 (Nat.lt_of_lt_of_le (Value.depth_pos _) hdepth)
    unfold depth at hdepth
    have hall := each_reproducesAll (fun u hu store => ih u hu
      (Nat.le_trans (Value.depth_le_depthAll hu) (Nat.le_of_succ_le_succ hdepth)) store) store
    have h := newList_reproduces (i := i) hne hall
    cases items with
    | nil => exact absurd rfl hne
    | cons v vs => exact h

/-- The items of a printed list under a quotation come back. -/
theorem each_quoted {items : List Value} (hitems : ∀ v ∈ items, Readable v) {n : Nat} (hdepth : depthAll items ≤ n)
    (fuel : Nat) (f : FrameId) (store : Store) :
    ReproducesAll items store (each (quoted (eval (fuel + 1)) n) f (codes items) store) :=
  each_reproducesAll (fun v hv store =>
    quoted_code (hitems v hv) (Nat.le_trans (Value.depth_le_depthAll hv) hdepth) fuel f store) store

/-- A turn that ends with what is made of an outcome ends with what the outcome and that come to. -/
theorem andThen_finish {α : Type} (outcome : Outcome α) (next : α → Store → Outcome Value) :
    (outcome.andThen fun a store => finish (next a store)) = finish (outcome.andThen next) := by
  cases outcome <;> rfl

/-- What is quoted by the form comes back. -/
theorem eval_quote {v : Value} (hv : Readable v) {n : Nat} (hdepth : v.depth ≤ n) (fuel : Nat) (f : FrameId)
    (store : Store) : Reproduces v store (eval (fuel + 2) n (.quote v.datum) f store) := by
  obtain ⟨m, rfl⟩ := Nat.exists_eq_add_one.2 (Nat.lt_of_lt_of_le (Value.depth_pos _) hdepth)
  cases hv with
  | boolean | null | zero | number => exact ⟨_, store.fresh, rfl, rfl⟩
  | @list i items hne hitems =>
    unfold depth at hdepth
    obtain ⟨w, fresh, hw, hshape⟩ := newList_reproduces (i := i) hne
      (each_quoted hitems (Nat.le_of_succ_le_succ hdepth) fuel f store)
    refine ⟨w, fresh, ?_, hshape⟩
    have hquoted : quoted (eval (fuel + 1)) (m + 1) (.list (codes items)) f store = .done w { store with fresh } := hw
    show (finish (quoted (eval (fuel + 1)) (m + 1) (.list (codes items)) f store)).andThen _ = _
    rw [hquoted]
    rfl

/-- What is quoted by the sign comes back. -/
theorem eval_datum {v : Value} (hv : Readable v) {n : Nat} (hdepth : v.depth ≤ n) (fuel : Nat) (f : FrameId)
    (store : Store) : Reproduces v store (eval (fuel + 2) n v.datum f store) := by
  cases hv with
  | boolean | null | zero | number => exact ⟨_, store.fresh, rfl, rfl⟩
  | @list i items hne hitems =>
    unfold depth at hdepth
    obtain ⟨w, fresh, hw, hshape⟩ := newList_reproduces (i := i) hne
      (each_quoted hitems (Nat.le_trans (Nat.le_succ _) hdepth) fuel f store)
    refine ⟨w, fresh, ?_, hshape⟩
    show ((each (quoted (eval (fuel + 1)) n) f (codes items) store).andThen fun items store =>
      finish (.ofPair (store.newList items))).andThen _ = _
    rw [andThen_finish, hw]
    rfl

end Eval

/-! ## Running -/

namespace Session

open Token (ScansAs)

/-- A text whose tokens spell an expression reads as that expression. -/
theorem read_scansAs {limits : Limits} {source : String} {e : Code}
    (h : ScansAs source.toList fun ts => Expr.Spells limits.nesting .expression ts e) :
    read limits source = .ok [e] := by
  obtain ⟨ts, hspells, hkinds, hscan⟩ := Token.scan_scansAs h
  have hbefore : Expr.beforeEof (ts ++ [Token.endOfInput (0 : Nat)]) = ts := by
    rw [beforeEof_append hkinds]
    exact List.append_nil ts
  have hprogram : Expr.Spells limits.nesting .expressions ts [e] := by
    rw [← List.append_nil ts]
    exact .consExpression hspells .noExpressions
  unfold read Expr.ofTokens
  rw [hscan]
  dsimp only
  rw [hbefore, Expr.program_eq_ok_iff.2 hprogram]

/-- The report of an expression that reproduces a value. -/
theorem run_reproduces {limits : Limits} {source : String} {e : Code} (hread : read limits source = .ok [e])
    {v : Value} {store : Store}
    (h : Eval.Reproduces v store (eval limits.fuel limits.nesting e Store.globalFrame store)) :
    ∃ w fresh, run limits source store = (⟨some w, store.output, ""⟩, ⟨store.frames, fresh, ""⟩) ∧
      w.shape = v.shape := by
  obtain ⟨w, fresh, hw, hshape⟩ := h
  have houtcome : evalAll limits [e] store = .done w { store with fresh } := by
    unfold evalAll Eval.inOrder
    rw [hw]
    rfl
  refine ⟨w, fresh, ?_, hshape⟩
  rw [run_eq_report hread, houtcome]
  rfl

/-- **A printed value that is quoted comes back.** The text of a value, quoted by the form or by the sign, runs without
errors to a value of the same shape. It writes nothing, and the frames are as they were. What is no list still needs a
second level and a second unit of fuel, the first being the quotation's. -/
theorem run_quotation {limits : Limits} (hfuel : 2 ≤ limits.fuel) (hnesting : 2 ≤ limits.nesting) {v : Value}
    (hv : v.Readable) (hdepth : v.depth ≤ limits.nesting) (store : Store) :
    ∃ text, v.printed? limits.nesting = some text ∧
      ∀ source ∈ ["(quote " ++ text ++ ")", "'" ++ text], ∃ w fresh,
        run limits source store = (⟨some w, store.output, ""⟩, ⟨store.frames, fresh, ""⟩) ∧ w.shape = v.shape := by
  obtain ⟨text, htext, hlegible⟩ := hv.legible hdepth
  obtain ⟨fuel, hfuelEq⟩ : ∃ fuel, limits.fuel = fuel + 2 := ⟨limits.fuel - 2, by omega⟩
  obtain ⟨n, hn⟩ : ∃ n, limits.nesting = n + 1 := ⟨limits.nesting - 1, by omega⟩
  refine ⟨text, htext, ?_⟩
  intro source hsource
  rcases List.mem_cons.1 hsource with rfl | hsource
  · have hread : read limits ("(quote " ++ text ++ ")") = .ok [.quote v.datum] := by
      apply read_scansAs
      rw [hn]
      exact hlegible.form (by omega) (by omega)
    apply run_reproduces hread
    rw [hfuelEq]
    exact Eval.eval_quote hv hdepth fuel Store.globalFrame store
  · rw [List.mem_singleton.1 hsource]
    have hread : read limits ("'" ++ text) = .ok [v.datum] := by
      apply read_scansAs
      rw [hn]
      exact hlegible.tick (by omega) (by omega)
    apply run_reproduces hread
    rw [hfuelEq]
    exact Eval.eval_datum hv hdepth fuel Store.globalFrame store

/-- A list in a list, with a half, the empty list and a boolean. -/
theorem run_quotation_nestedList :
    (∃ w fresh, run .standard "(quote (0.5 (() #t)))" .initial =
        (⟨some w, "", ""⟩, ⟨Store.initial.frames, fresh, ""⟩) ∧
      w.shape = .list 0 [.number (0.5 : Float), .list 0 [.null, .boolean true]]) ∧
    (∃ w fresh, run .standard "'(0.5 (() #t))" .initial =
        (⟨some w, "", ""⟩, ⟨Store.initial.frames, fresh, ""⟩) ∧
      w.shape = .list 0 [.number (0.5 : Float), .list 0 [.null, .boolean true]]) := by
  have hinner : (Value.list 4 [.null, .boolean true]).Readable := by
    refine .list 4 (List.cons_ne_nil _ _) fun v hv => ?_
    rcases List.mem_cons.1 hv with rfl | hv
    · exact .null
    · rw [List.mem_singleton.1 hv]
      exact .boolean true
  have hreadable : (Value.list 7 [.number (0.5 : Float), .list 4 [.null, .boolean true]]).Readable := by
    refine .list 7 (List.cons_ne_nil _ _) fun v hv => ?_
    rcases List.mem_cons.1 hv with rfl | hv
    · exact .number (by decide +kernel) (by decide +kernel)
    · rw [List.mem_singleton.1 hv]
      exact hinner
  have hprinted :
      (Value.list 7 [.number (0.5 : Float), .list 4 [.null, .boolean true]]).printed? Limits.standard.nesting =
    some "(0.5 (() #t))" := by decide +kernel
  obtain ⟨text, htext, h⟩ := @run_quotation .standard (by decide) (by decide) _ hreadable (by decide) .initial
  rw [hprinted] at htext
  cases htext
  exact ⟨h _ List.mem_cons_self, h _ (List.mem_cons_of_mem _ List.mem_cons_self)⟩

end Session
end MiniScheme
