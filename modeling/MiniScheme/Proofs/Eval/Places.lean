import MiniScheme.Proofs.Eval.Simulation
import MiniScheme.Proofs.Store.Frames
import MiniScheme.Proofs.Store.Mapping
import MiniScheme.Proofs.Value.Places

/-!
# Places do not matter to evaluation

Neither the places of names in the source nor what was written before have any bearing on evaluation. It comes to the
same if the expression and the store are stripped of the places and some text is put in front of the output.

* `Store.unplacedAfter text` — the store without places, with `text` written before everything else.
* `placesSimulation text` — a run and the one without places, after `text`, go along with each other.
* `eval_unplaced`, `inOrder_unplaced` — evaluation commutes with that.
-/

namespace MiniScheme

open List (Forall₂)
open Eval Outcome

/-! ## Stores -/

/-- The bindings without the places of the names in closures. -/
def Bindings.unplaced (bindings : Bindings) : Bindings := bindings.map fun entry => (entry.1, entry.2.unplaced)

/-- The frame without the places of the names in closures. -/
def Frame.unplaced (frame : Frame) : Frame := { frame with bindings := frame.bindings.unplaced }

namespace Store

/-- The store without the places of the names in closures. -/
def unplaced (store : Store) : Store := { store with frames := store.frames.map Frame.unplaced }

/-- The store without the places, with `text` written before everything else. -/
def unplacedAfter (text : String) (store : Store) : Store :=
  { store.unplaced with output := text ++ store.output }

end Store

namespace Store

variable (text : String) (store : Store)

theorem mapped_unplacedAfter : Mapped Value.unplaced store (store.unplacedAfter text) := rfl

variable {text store}

theorem eq_unplacedAfter {s : Store} (h : Mapped Value.unplaced store s) (hfresh : s.fresh = store.fresh)
    (houtput : s.output = text ++ store.output) : s = store.unplacedAfter text := by
  obtain ⟨frames, fresh, output⟩ := s
  cases h
  cases hfresh
  cases houtput
  rfl

variable (text store)

theorem newList_unplacedAfter (items : List Value) :
    (store.unplacedAfter text).newList (items.map Value.unplaced) =
      ((store.newList items).1.unplaced, (store.newList items).2.unplacedAfter text) := by
  cases items with
  | nil => rfl
  | cons item items =>
    unfold newList
    dsimp only [List.map_cons]
    rw [Value.unplaced_list]
    rfl

theorem enter_unplacedAfter (params : Params) (args : List Value) (enclosing : FrameId) :
    (store.unplacedAfter text).enter params.unplaced (args.map Value.unplaced) enclosing =
      ((store.enter params args enclosing).1, (store.enter params args enclosing).2.unplacedAfter text) := by
  have hfixed (s : Store) (names : List Name) (values : List Value) :
      (s.unplacedAfter text).enter (.fixed (names.map Name.unplaced)) (values.map Value.unplaced) enclosing =
        ((s.enter (.fixed names) values enclosing).1,
          (s.enter (.fixed names) values enclosing).2.unplacedAfter text) := by
    have hnames : (names.map Name.unplaced).map (·.lexeme) = names.map (·.lexeme) := List.map_map
    obtain ⟨hframe, hmapped⟩ := (mapped_unplacedAfter text s).enter_fixed rfl hnames values enclosing
    exact Prod.ext hframe (eq_unplacedAfter hmapped rfl rfl)
  cases params with
  | fixed names => exact hfixed store names args
  | variadic name =>
    rw [Params.unplaced, enter_variadic, enter_variadic, newList_unplacedAfter]
    exact hfixed _ [name] [(store.newList args).1]

theorem writeLine_unplacedAfter (line : String) :
    (store.unplacedAfter text).writeLine line = (store.writeLine line).unplacedAfter text := by
  unfold writeLine unplacedAfter unplaced
  dsimp only
  rw [String.append_assoc, String.append_assoc, String.append_assoc]

end Store

/-! ## Outcomes -/

namespace Outcome

/-- The outcome with its store stripped of places and written after `text`; `f` strips the result. -/
def unplacedAfter {α : Type} (f : α → α) (text : String) : Outcome α → Outcome α
  | done value store => done (f value) (store.unplacedAfter text)
  | stopped why store => stopped why (store.unplacedAfter text)

/-- What corresponds to an outcome, if values lose their places and stores are written after another text, is that
outcome without places. -/
theorem eq_unplacedAfter {text : String} {o o' : Outcome Value}
    (h : Corresponds (fun _ s t => t = s.unplacedAfter text) (fun _ v v' => v' = v.unplaced) () o o') :
    o' = o.unplacedAfter Value.unplaced text := by
  cases h with
  | done _ hstores hv => rw [hstores, hv, unplacedAfter]
  | stopped why _ hstores => rw [hstores, unplacedAfter]

end Outcome

/-! ## Evaluation -/

theorem Expr.alike_unplaced {R : Code → Code → Prop} (h : ∀ d, R d d.unplaced) (e : Code) : Alike R e e.unplaced := by
  have hmap (es : List Code) : Forall₂ R es (unplacedAll es) := by
    rw [unplacedAll_eq_map]
    exact List.forall₂_map_right_iff.2 (List.forall₂_same.2 fun d _ => h d)
  cases e with
  | symbol | literal | empty | lambda => constructor
  | call callee args => exact .call (h callee) (hmap args)
  | define | assign | quote =>
    constructor
    exact h _
  | cond test chosen otherwise =>
    cases otherwise with
    | none => exact .cond (h test) (h chosen) .none
    | some other => exact .cond (h test) (h chosen) (.some (h other))
  | letIn names values body => exact .letIn (hmap values)
  | list items => exact .list (hmap items)

/-- A run goes along with the one without places that starts after another text. -/
def placesSimulation (text : String) : Simulation Unit where
  stores _ s t := t = s.unplacedAfter text
  values _ v v' := v' = v.unplaced
  runs _ e f e' g := e' = e.unplaced ∧ g = f
  values_mono _ h := h
  runs_mono _ h := h
  correspondence _ := Value.correspondence_unplaced
  alike := by
    rintro _ e _ _ f ⟨rfl, rfl⟩
    exact Expr.alike_unplaced (fun d => ⟨rfl, rfl⟩) e
  get := by
    rintro _ s _ x _ y f rfl ⟨hx, rfl⟩
    cases hx
    rw [Name.unplaced_lexeme, (Store.mapped_unplacedAfter text s).get]
    cases s.get x.lexeme f with
    | ok v => exact .done le_rfl rfl rfl
    | error e => exact .stopped (.error e) le_rfl rfl
  newList := by
    rintro _ s _ vs _ rfl hvs
    rw [eq_map_of_forall₂ hvs, Store.newList_unplacedAfter]
    exact .done le_rfl rfl rfl
  newNaN := by
    rintro _ s _ rfl
    exact .done le_rfl rfl rfl
  newClosure := by
    rintro _ s _ ps b _ _ _ f rfl ⟨hx, rfl⟩
    rw [Expr.unplaced, Expr.unplacedAll_eq_map] at hx
    cases hx
    exact .done le_rfl rfl rfl
  define := by
    rintro _ s _ x e _ _ _ f v _ rfl ⟨hx, rfl⟩ rfl
    cases hx
    have hdefined := (Store.mapped_unplacedAfter text s).define x.lexeme v f
    exact ⟨(), le_rfl, Store.eq_unplacedAfter hdefined rfl rfl⟩
  assign := by
    rintro _ s _ x e _ _ _ f v _ rfl ⟨hx, rfl⟩ rfl
    cases hx
    rcases (Store.mapped_unplacedAfter text s).assign x.lexeme v f with ⟨holder, hs, ht⟩ | ⟨e, hs, ht⟩
    · have hdefined := (Store.mapped_unplacedAfter text s).define x.lexeme v holder
      exact .inl ⟨(), _, _, le_rfl, hs, ht, Store.eq_unplacedAfter hdefined rfl rfl⟩
    · exact .inr ⟨e, hs, ht⟩
  writeLine := by
    rintro _ s _ line rfl
    exact ⟨(), le_rfl, Store.writeLine_unplacedAfter text s line⟩
  enterLet := by
    rintro _ s _ xs es b _ _ _ _ f vs _ rfl ⟨hx, rfl⟩ hvs
    rw [Expr.unplaced, Expr.unplacedAll_eq_map, Expr.unplacedAll_eq_map] at hx
    cases hx
    have henter := Store.enter_unplacedAfter text s (.fixed xs) vs f
    rw [Params.unplaced, ← eq_map_of_forall₂ hvs] at henter
    rw [henter]
    exact ⟨(), le_rfl, rfl, List.forall₂_map_right_iff.2 (List.forall₂_same.2 fun d _ => ⟨rfl, rfl⟩)⟩
  enterClosure := by
    rintro _ s _ i l f _ _ _ vs _ rfl hp hvs
    cases hp
    have henter := Store.enter_unplacedAfter text s l.params vs f
    rw [← eq_map_of_forall₂ hvs] at henter
    rw [Lambda.unplaced, henter]
    exact ⟨(), le_rfl, rfl, List.forall₂_map_right_iff.2 (List.forall₂_same.2 fun d _ => ⟨rfl, rfl⟩)⟩

/-- **Evaluation comes to the same wherever names stand and whatever has been written.** -/
theorem eval_unplaced (text : String) (fuel n : Nat) (e : Code) (f : FrameId) (s : Store) :
    eval fuel n e.unplaced f (s.unplacedAfter text) = (eval fuel n e f s).unplacedAfter Value.unplaced text :=
  eq_unplacedAfter ((placesSimulation text).eval_corresponds fuel n rfl ⟨rfl, rfl⟩)

theorem inOrder_unplaced (text : String) (fuel n : Nat) (f : FrameId) (last : Value) (es : List Code) (s : Store) :
    inOrder (eval fuel n) f last.unplaced (es.map Expr.unplaced) (s.unplacedAfter text) =
      (inOrder (eval fuel n) f last es s).unplacedAfter Value.unplaced text := by
  have hes : Forall₂ (fun d d' => (placesSimulation text).runs () d f d' f) es (es.map Expr.unplaced) :=
    List.forall₂_map_right_iff.2 (List.forall₂_same.2 fun d _ => ⟨rfl, rfl⟩)
  exact eq_unplacedAfter
    (Simulation.inOrder_corresponds ((placesSimulation text).eval_corresponds fuel n) rfl rfl hes)

end MiniScheme
