import MiniScheme.Proofs.Eval.Subtasks
import MiniScheme.Proofs.Expr.Respelling
import MiniScheme.Proofs.Store.Lookup

/-!
# Quoting data

Under a quotation the brackets of a call are the brackets of a list, and so are those inside it, however deep. What is
made of only brackets, names and literals is therefore no more than looked through: no procedure is called for it, and
the store stays as it is but for the identities of new lists.

* `Expr.Inert` — expressions of brackets, names and literals.
* `Store.Mirrors` — a value has the shape of such an expression, with the values of the names.
* `Eval.Settles` — an outcome is this value, or the first name without one is reported.
* `Eval.quoted_data` — what quoting such an expression comes to, and what it leaves alone.
-/

namespace MiniScheme

open Eval Outcome
open List (Forall₂)

/-! ## Expressions that are data -/

namespace Expr

/-- A quotation of the expression is a list. -/
inductive Listed : Code → Prop where
  | call (callee : Code) (args : List Code) : Listed (.call callee args)
  | list (items : List Code) : Listed (.list items)

/-- Expressions of brackets, names and literals. -/
inductive Inert : Code → Prop where
  | symbol (name : Name) : Inert (.symbol name)
  | literal (a : Atom) : Inert (.literal a)
  | empty : Inert .empty
  | call {callee : Code} {args : List Code} (hcallee : Inert callee) (hargs : ∀ e ∈ args, Inert e) :
    Inert (.call callee args)
  | list {items : List Code} (hitems : ∀ e ∈ items, Inert e) : Inert (.list items)

mutual
/-- How deep the brackets of an expression are nested. What has none counts as one level. -/
def depth : Code → Nat
  | call callee args => max callee.depth (depthAll args) + 1
  | list items => depthAll items + 1
  | _ => 1
/-- How deep the brackets of the deepest expression are nested. -/
def depthAll : List Code → Nat
  | [] => 0
  | e :: es => max e.depth (depthAll es)
end

variable {e d : Code} {es : List Code}

theorem depth_pos (e : Code) : 0 < e.depth := by
  unfold depth
  split <;> omega

theorem depth_le_depthAll (he : e ∈ es) : e.depth ≤ depthAll es := by
  induction es with
  | nil => cases he
  | cons d es ih =>
    unfold depthAll
    rcases List.mem_cons.1 he with rfl | he
    · exact le_max_left _ _
    · exact (ih he).trans (le_max_right _ _)

namespace Listed

theorem depth_eq (h : e.Listed) : e.depth = depthAll e.parts + 1 := by
  cases h <;> simp only [depth, parts, depthAll]

theorem lexemes_eq (h : e.Listed) : e.lexemes = lexemesAll e.parts := by
  cases h <;> simp only [lexemes, parts, lexemesAll]

end Listed

namespace Inert

theorem parts (h : e.Inert) (hd : d ∈ e.parts) : d.Inert := by
  cases h with
  | symbol | literal | empty => cases hd
  | call hcallee hargs =>
    rcases List.mem_cons.1 hd with rfl | hd
    · exact hcallee
    · exact hargs d hd
  | list hitems => exact hitems d hd

end Inert
end Expr

/-- The value has the shape of the expression: brackets are lists, with new identities unless they are empty, literals
are their values, and names have the values that are seen from the frame. -/
inductive Store.Mirrors (s : Store) (f : FrameId) : Code → Value → Prop where
  | symbol {name : Name} {v : Value} (h : s.get name.lexeme f = .ok v) : Mirrors s f (.symbol name) v
  | literal (a : Atom) : Mirrors s f (.literal a) (.ofAtom a)
  | empty : Mirrors s f .empty .null
  | call {callee : Code} {args : List Code} {i : Nat} {vs : List Value} (hi : s.fresh ≤ i)
    (hitems : Forall₂ (Mirrors s f) (callee :: args) vs) : Mirrors s f (.call callee args) (.list i vs)
  | emptyList : Mirrors s f (.list []) .null
  | list {items : List Code} {i : Nat} {vs : List Value} (hne : items ≠ []) (hi : s.fresh ≤ i)
    (hitems : Forall₂ (Mirrors s f) items vs) : Mirrors s f (.list items) (.list i vs)

namespace Eval

variable {α β : Type} {s : Store} {f : FrameId} {e : Code} {es : List Code} {wide narrow : Prop} {n : Nat}

/-! ## What quoting comes to -/

theorem quoted_listed (he : e.Listed) (ev : Nat → Evaluator) (n : Nat) (f : FrameId) (s : Store) :
    quoted ev (n + 1) e f s =
      (each (quoted ev n) f e.parts s).andThen fun items s => .ofPair (s.newList items) := by
  cases he <;> rfl

theorem quoted_leaf (he : ¬e.Listed) (ev : Nat → Evaluator) (n : Nat) (f : FrameId) (s : Store) :
    quoted ev (n + 1) e f s = ev n e f s := by
  cases e with
  | call callee args => exact absurd (.call callee args) he
  | list items => exact absurd (.list items) he
  | _ => rfl

/-- The outcome reports the name that has no value, if there is one, and else is a result with the property. Of the
store no more than identities is taken. If the limits are not wide enough, one of them may end it before. -/
inductive Settles (s : Store) (wide : Prop) (P : α → Prop) : (missing : Option String) → Outcome α → Prop where
  | done {a : α} {fresh : Nat} (hfresh : s.fresh ≤ fresh) (ha : P a) :
    Settles s wide P none (.done a { s with fresh })
  | unbound {name : String} {fresh : Nat} (hfresh : s.fresh ≤ fresh) :
    Settles s wide P (some name) (.stopped (.error (.unbound name)) { s with fresh })
  | limit {missing : Option String} {why : Stop} {fresh : Nat} (hfresh : s.fresh ≤ fresh) (hnarrow : ¬wide)
    (hlimit : ∀ err, why ≠ .error err) : Settles s wide P missing (.stopped why { s with fresh })

namespace Settles

variable {P : α → Prop} {Q : β → Prop} {missing missing' : Option String} {o : Outcome α} {next : α → Store → Outcome β}

theorem mono (h : Settles s narrow P missing o) (hwide : wide → narrow) : Settles s wide P missing o := by
  cases h with
  | done hfresh ha => exact .done hfresh ha
  | unbound hfresh => exact .unbound hfresh
  | limit hfresh hnarrow hlimit => exact .limit hfresh (fun h => hnarrow (hwide h)) hlimit

/-- The first part that lacks a value decides. -/
theorem andThen (h : Settles s wide P missing o)
    (hnext : ∀ a fresh, P a → s.fresh ≤ fresh → Settles s wide Q missing' (next a { s with fresh })) :
    Settles s wide Q (missing.or missing') (o.andThen next) := by
  cases h with
  | done hfresh ha => exact hnext _ _ ha hfresh
  | unbound hfresh => exact .unbound hfresh
  | limit hfresh hnarrow hlimit => exact .limit hfresh hnarrow hlimit

theorem map (h : Settles s wide P missing o)
    (hnext : ∀ a fresh, P a → s.fresh ≤ fresh → Settles s wide Q none (next a { s with fresh })) :
    Settles s wide Q missing (o.andThen next) := by
  have h' := h.andThen hnext
  rwa [Option.or_none] at h'

theorem exists_done (h : Settles s wide P none o) (hwide : wide) : ∃ a t, o = .done a t ∧ P a := by
  cases h with
  | done _ ha => exact ⟨_, _, rfl, ha⟩
  | limit _ hnarrow => exact absurd hwide hnarrow

theorem exists_unbound {name : String} (h : Settles s wide P (some name) o) (hwide : wide) :
    ∃ t, o = .stopped (.error (.unbound name)) t := by
  cases h with
  | unbound => exact ⟨_, rfl⟩
  | limit _ hnarrow => exact absurd hwide hnarrow

theorem frames_eq (h : Settles s wide P missing o) : o.store.frames = s.frames := by
  cases h <;> rfl

theorem output_eq (h : Settles s wide P missing o) : o.store.output = s.output := by
  cases h <;> rfl

end Settles

/-- The first of the names that no frame on the chain binds. -/
def firstUnbound? (s : Store) (f : FrameId) (names : List String) : Option String :=
  names.find? fun name => (s.find? name f).isNone

theorem firstUnbound?_append (names names' : List String) :
    firstUnbound? s f (names ++ names') = (firstUnbound? s f names).or (firstUnbound? s f names') :=
  List.find?_append

theorem firstUnbound?_eq_none {names : List String} :
    firstUnbound? s f names = none ↔ ∀ name ∈ names, (s.find? name f).isSome := by
  simp [firstUnbound?, List.find?_eq_none, Option.isSome_iff_ne_none]

theorem firstUnbound?_eq_some {before after : List String} {name : String}
    (hbefore : ∀ other ∈ before, (s.find? other f).isSome) (hname : s.find? name f = none) :
    firstUnbound? s f (before ++ name :: after) = some name := by
  rw [firstUnbound?_append, firstUnbound?_eq_none.2 hbefore, Option.none_or, firstUnbound?,
    List.find?_cons_of_pos (by rw [hname]; rfl)]

/-- A name is looked up without further ado. -/
theorem settles_symbol (name : Name) (fuel n : Nat) {fresh : Nat} (hfresh : s.fresh ≤ fresh) :
    Settles s (0 < fuel) (s.Mirrors f (.symbol name)) (firstUnbound? s f [name.lexeme])
      (eval fuel n (.symbol name) f { s with fresh }) := by
  cases fuel with
  | zero => exact .limit hfresh (lt_irrefl 0) fun _ h => nomatch h
  | succ fuel =>
    have heval : eval (fuel + 1) n (.symbol name) f { s with fresh } =
        .ofExcept (s.get name.lexeme f) { s with fresh } := by
      rw [← @Store.get_of_frames s { s with fresh } rfl]
      exact finish_resume _ _
    rw [heval]
    cases hfind : s.find? name.lexeme f with
    | none =>
      rw [Store.get_of_find?_eq_none hfind, firstUnbound?, List.find?_singleton, hfind]
      exact .unbound hfresh
    | some holder =>
      obtain ⟨v, -, hv⟩ := Store.get_of_find?_eq_some hfind
      rw [hv, firstUnbound?, List.find?_singleton, hfind]
      exact .done hfresh (.symbol hv)

/-- A symbol, a literal or empty brackets. -/
theorem settles_leaf (he : e.Inert) (hleaf : ¬e.Listed) (fuel n : Nat) {fresh : Nat} (hfresh : s.fresh ≤ fresh) :
    Settles s (0 < fuel) (s.Mirrors f e) (firstUnbound? s f e.lexemes) (eval fuel n e f { s with fresh }) := by
  cases he with
  | symbol name => exact settles_symbol name fuel n hfresh
  | literal a =>
    cases fuel with
    | zero => exact .limit hfresh (lt_irrefl 0) fun _ h => nomatch h
    | succ fuel => exact .done hfresh (.literal a)
  | empty =>
    cases fuel with
    | zero => exact .limit hfresh (lt_irrefl 0) fun _ h => nomatch h
    | succ fuel => exact .done hfresh .empty
  | call => exact absurd (.call _ _) hleaf
  | list => exact absurd (.list _) hleaf

/-- Expressions that settle one by one settle together, from left to right. -/
theorem settles_each {ev : Evaluator}
    (h : ∀ e ∈ es, ∀ fresh, s.fresh ≤ fresh →
      Settles s wide (s.Mirrors f e) (firstUnbound? s f e.lexemes) (ev e f { s with fresh }))
    {fresh : Nat} (hfresh : s.fresh ≤ fresh) :
    Settles s wide (Forall₂ (s.Mirrors f) es) (firstUnbound? s f (Expr.lexemesAll es))
      (each ev f es { s with fresh }) := by
  induction es generalizing fresh with
  | nil => exact .done hfresh .nil
  | cons e es ih =>
    rw [Expr.lexemesAll, firstUnbound?_append]
    refine (h e List.mem_cons_self fresh hfresh).andThen fun v fresh' hv hfresh' => ?_
    refine (ih (fun d hd => h d (List.mem_cons_of_mem e hd)) hfresh').map fun vs fresh'' hvs hfresh'' => ?_
    exact .done hfresh'' (.cons hv hvs)

/-- A new list of what the parts are mirrors the whole. -/
theorem settles_newList (he : e.Listed) {vs : List Value} (hvs : Forall₂ (s.Mirrors f) e.parts vs) {fresh : Nat}
    (hfresh : s.fresh ≤ fresh) :
    Settles s wide (s.Mirrors f e) none (.ofPair (Store.newList { s with fresh } vs)) := by
  cases he with
  | call callee args =>
    cases hvs with
    | cons hcallee hargs => exact .done (hfresh.trans (Nat.le_succ _)) (.call hfresh (.cons hcallee hargs))
  | list items =>
    cases hvs with
    | nil => exact .done hfresh .emptyList
    | cons hitem hitems =>
      exact .done (hfresh.trans (Nat.le_succ _)) (.list (List.cons_ne_nil _ _) hfresh (.cons hitem hitems))

/-- **Quoted data settle**, in whatever way they are nested: no call in them is ever made. -/
theorem quoted_settles (he : e.Inert) (fuel : Nat) {fresh : Nat} (hfresh : s.fresh ≤ fresh) :
    Settles s (0 < fuel ∧ e.depth ≤ n) (s.Mirrors f e) (firstUnbound? s f e.lexemes)
      (quoted (eval fuel) n e f { s with fresh }) := by
  induction n generalizing e fresh with
  | zero =>
    have hnarrow : ¬(0 < fuel ∧ e.depth ≤ 0) := fun h => h.2.not_gt e.depth_pos
    unfold quoted
    exact .limit hfresh hnarrow fun _ h => nomatch h
  | succ n ih =>
    by_cases hlisted : e.Listed
    · -- the parts are data again, and are quoted one level further down
      rw [quoted_listed hlisted, hlisted.lexemes_eq, hlisted.depth_eq]
      refine (settles_each (fun d hd fresh hfresh => ?_) hfresh).map fun vs fresh' hvs hfresh' =>
        settles_newList hlisted hvs hfresh'
      refine (ih (he.parts hd) hfresh).mono fun ⟨hfuel, hdepth⟩ => ⟨hfuel, ?_⟩
      exact (Expr.depth_le_depthAll hd).trans (Nat.le_of_succ_le_succ hdepth)
    · rw [quoted_leaf hlisted]
      exact (settles_leaf he hlisted fuel n hfresh).mono And.left

/-! ## What is done for it -/

theorem each_congr {ev ev' : Evaluator} (h : ∀ e ∈ es, ev e = ev' e) (s : Store) :
    each ev f es s = each ev' f es s := by
  induction es generalizing s with
  | nil => rfl
  | cons e es ih =>
    unfold each
    rw [h e List.mem_cons_self]
    simp only [ih fun d hd => h d (List.mem_cons_of_mem e hd)]

/-- Only names and literals are given to the evaluator. -/
theorem quoted_congr {ev ev' : Nat → Evaluator} (he : e.Inert)
    (h : ∀ m (d : Code), d.Inert → ¬d.Listed → ev m d = ev' m d) : quoted ev n e = quoted ev' n e := by
  induction n generalizing e with
  | zero => rfl
  | succ n ih =>
    funext f s
    by_cases hlisted : e.Listed
    · rw [quoted_listed hlisted, quoted_listed hlisted, each_congr fun d hd => ih (he.parts hd)]
    · rw [quoted_leaf hlisted, quoted_leaf hlisted, h n e he hlisted]

end Eval

/-- Tasks that only look through data: under a quotation whatever is data, else no brackets. -/
def Task.Harmless : {α : Type} → Task α → Prop
  | _, .value .quoted e _ => e.Inert
  | _, .value .plain e _ => e.Inert ∧ ¬e.Listed
  | _, .values .quoted es _ => ∀ e ∈ es, e.Inert
  | _, .values .plain .. | _, .body .. | _, .apply .. => False

namespace Task

variable {α β : Type} {task : Task α} {task' : Task β} {s t : Store}

theorem Asks.harmless (h : task.Asks s task' t) (htask : task.Harmless) : task'.Harmless := by
  cases h with
  | @list m es f s =>
    cases m with
    | plain => exact absurd (.list es) htask.2
    | quoted => exact fun e he => Expr.Inert.parts htask he
  | quotedCall => exact fun e he => Expr.Inert.parts htask he
  | quotedOther noCall noList =>
    refine ⟨htask, ?_⟩
    rintro (⟨c, es⟩ | ⟨es⟩)
    · exact noCall c es rfl
    · exact noList es rfl
  | @head m e es f s =>
    cases m with
    | plain => exact htask.elim
    | quoted => exact htask e List.mem_cons_self
  | @tail m e es f s s₁ v =>
    cases m with
    | plain => exact htask.elim
    | quoted => exact fun d hd => htask d (List.mem_cons_of_mem e hd)
  | first | rest | closure | primitive => exact htask.elim
  | callee | args | apply => exact absurd (.call _ _) htask.2
  | define | assign | test | chosen | otherwise | letValues | letBody | quote => cases htask.1

theorem Reaches.harmless (h : task.Reaches s task' t) (htask : task.Harmless) : task'.Harmless := by
  induction h with
  | refl => exact htask
  | step _ asks ih => exact asks.harmless ih

end Task

namespace Eval

variable {s : Store} {e : Code}

/-- **Quoted data are only looked through.** Let an expression be made of brackets, names and literals, nested in any
way. However it ends, to quote it leaves the frames and what has been written as they are; no procedure is called on the
way, and nothing but names and literals is evaluated, so that any evaluator that knows these would do. With fuel and
levels for the nesting, if all its names are bound, this comes to a value of the same shape; else the first name from
the left that is not bound is reported. -/
theorem quoted_data (he : e.Inert) (fuel n : Nat) (f : FrameId) (s : Store) :
    let o := quoted (eval fuel) n e f s
    (o.store.frames = s.frames ∧ o.store.output = s.output) ∧
      (∀ p vs t, ¬(Task.value .quoted e f).Reaches s (.apply p vs) t) ∧
      (∀ ev : Nat → Evaluator, (∀ m (d : Code), d.Inert → ¬d.Listed → ev m d = eval fuel m d) →
        quoted ev n e f s = o) ∧
      (0 < fuel → e.depth ≤ n →
        ((∀ x ∈ e.lexemes, (s.find? x f).isSome) → ∃ v t, o = .done v t ∧ s.Mirrors f e v) ∧
          ∀ before x after, e.lexemes = before ++ x :: after → (∀ y ∈ before, (s.find? y f).isSome) →
            s.find? x f = none → ∃ t, o = .stopped (.error (.unbound x)) t) := by
  have hsettles := quoted_settles (f := f) (n := n) he fuel (le_refl s.fresh)
  refine ⟨⟨hsettles.frames_eq, hsettles.output_eq⟩, fun p vs t h => h.harmless he, fun ev hev => ?_,
    fun hfuel hdepth => ⟨fun hbound => ?_, fun before x after hsplit hbefore hx => ?_⟩⟩
  · rw [quoted_congr he hev]
  · rw [firstUnbound?_eq_none.2 hbound] at hsettles
    exact hsettles.exists_done ⟨hfuel, hdepth⟩
  · rw [hsplit, firstUnbound?_eq_some hbefore hx] at hsettles
    exact hsettles.exists_unbound ⟨hfuel, hdepth⟩

/-- `(f (#t (f)) () y x)`, quoted. -/
def nestedCallExample : Code :=
  let symbol (lexeme : String) : Code := .symbol ⟨lexeme, 0, 0⟩
  .list [symbol "f", .call (.literal (.boolean true)) [.call (symbol "f") []], .empty, symbol "y", symbol "x"]

/-- A frame that binds `f` to a procedure that writes and `y` to a string. -/
def writerExample : Store :=
  { frames := #[⟨[("f", .primitive .display), ("y", .string "a")], none⟩], fresh := 4, output := "" }

theorem quoted_data_nestedCall :
    let o := quoted (eval 1) 4 nestedCallExample 0 writerExample
    let bound := writerExample.define "x" .null 0
    nestedCallExample.Inert ∧ nestedCallExample.depth ≤ 4 ∧ o.store.frames = writerExample.frames ∧
      (∃ t, o = .stopped (.error (.unbound "x")) t) ∧
      ∃ v t, quoted (eval 1) 4 nestedCallExample 0 bound = .done v t ∧ bound.Mirrors 0 nestedCallExample v := by
  have hinert : nestedCallExample.Inert := by
    have hcall : Expr.Inert (.call (.literal (.boolean true)) [.call (.symbol ⟨"f", 0, 0⟩) []]) := by
      refine .call (.literal _) fun e he => ?_
      rw [List.mem_singleton.1 he]
      exact .call (.symbol _) (by simp)
    refine .list fun e he => ?_
    simp only [List.mem_cons, List.not_mem_nil, or_false] at he
    rcases he with rfl | rfl | rfl | rfl | rfl
    · exact .symbol _
    · exact hcall
    · exact .empty
    · exact .symbol _
    · exact .symbol _
  have hdepth : nestedCallExample.depth ≤ 4 := by decide
  have hbefore : ∀ y ∈ ["f", "f", "y"], (writerExample.find? y 0).isSome := by decide
  obtain ⟨⟨hframes, -⟩, -, -, hsettles⟩ := quoted_data hinert 1 4 0 writerExample
  obtain ⟨-, -, -, hbound⟩ := quoted_data hinert 1 4 0 (writerExample.define "x" .null 0)
  exact ⟨hinert, hdepth, hframes, (hsettles (by decide) hdepth).2 ["f", "f", "y"] "x" [] rfl hbefore (by decide),
    (hbound (by decide) hdepth).1 (by decide)⟩

end Eval
end MiniScheme
