import MiniScheme.Proofs.Eval.Quoting
import MiniScheme.Proofs.Session.Arising
import MiniScheme.Proofs.Value.Sameness

/-!
# Identities of lists

`equal?` looks at nothing of two lists but their identities. That is sound since identities are never given out twice:
lists of one identity are one list, and whoever makes a list makes one that is the same as none before.

* `Store.MakesList` — a list has come about that is none of those there were.
* `Store.Identifies` — identities tell lists apart, and everything that makes lists makes new ones.
* `Value.Equality` — what `equal?` and `=` decide, and that values which they find the same are printed alike.
* `Session.identities_sound` — both hold at any time in the course of a session.
-/

namespace MiniScheme

open Eval Outcome

namespace Store

/-- The list came about, in this store, after all that was made before and after its own items, with an identity that no
list had by then. -/
def MakesList (t : Store) (made : List Value) (i : Nat) (items : List Value) : Prop :=
  ∃ before, made ⊆ before ∧ (∀ v ∈ items, v.Known before) ∧ (∀ others, ¬(Value.list i others).Known before) ∧
    t.Arises (.list i items :: before)

/-- Identities tell lists apart. All values in the store are known, those in lists too; of the known lists no two have
the same identity; and all that makes lists makes new ones. -/
structure Identifies (s : Store) (made : List Value) : Prop where
  bound : ∀ {f : FrameId} {frame : Frame} {b : String × Value},
    s.frames[f]? = some frame → b ∈ frame.bindings → b.2.Known made
  item : ∀ {i : Nat} {items : List Value} {v : Value}, (Value.list i items).Known made → v ∈ items → v.Known made
  items_eq : ∀ {i : Nat} {as bs : List Value}, (Value.list i as).Known made → (Value.list i bs).Known made → as = bs
  primitive : ∀ {fuel n : Nat} {p : Primitive} {args items : List Value} {i : Nat} {t : Store},
    p = .list ∨ p = .cons ∨ p = .cdr → (∀ v ∈ args, v.Known made) →
    call (eval fuel) n (.primitive p) args s = .done (.list i items) t → t.MakesList made i items
  /-- Quoted lists, also those in quoted lists. -/
  quoted : ∀ {fuel n : Nat} {e : Code} {f : FrameId} {items : List Value} {i : Nat} {t : Store}, e.Listed →
    f < s.frames.size → quoted (eval fuel) n e f s = .done (.list i items) t → t.MakesList made i items
  quote : ∀ {fuel n : Nat} {e : Code} {f : FrameId} {items : List Value} {i : Nat} {t : Store}, e.Listed →
    f < s.frames.size → eval fuel n (.quote e) f s = .done (.list i items) t → t.MakesList made i items
  listed : ∀ {fuel n : Nat} {es : List Code} {f : FrameId} {items : List Value} {i : Nat} {t : Store},
    f < s.frames.size → eval fuel n (.list es) f s = .done (.list i items) t → t.MakesList made i items
  variadic : ∀ {name : Name} {args : List Value} {f : FrameId}, args ≠ [] → (∀ v ∈ args, v.Known made) →
    f < s.frames.size →
    ∃ i, (s.enter (.variadic name) args f).2.valueIn? name.lexeme (s.enter (.variadic name) args f).1 =
        some (.list i args) ∧
      (s.enter (.variadic name) args f).2.MakesList made i args

namespace Arises

variable {s : Store} {made items : List Value} {i : Nat}

/-- Known lists have identities that were given out. -/
theorem identity_lt (h : s.Arises made) (hlist : (Value.list i items).Known made) : i < s.fresh := by
  cases h.value_valid hlist with
  | plain hplain => cases hplain
  | list hi => exact hi

theorem not_known_fresh (h : s.Arises made) (others : List Value) : ¬(Value.list s.fresh others).Known made :=
  fun hlist => lt_irrefl _ (h.identity_lt hlist)

/-- **Known lists of one identity have the same items.** -/
theorem items_eq (h : s.Arises made) {as bs : List Value} (has : (Value.list i as).Known made)
    (hbs : (Value.list i bs).Known made) : as = bs := by
  induction h with
  | initial => cases has.resolve_left nofun
  | newList hs _ ih =>
    rcases Value.known_cons.1 has with hnew | hold <;> rcases Value.known_cons.1 hbs with hnew' | hold'
    · exact (eq_of_newList hnew.symm).2.trans (eq_of_newList hnew'.symm).2.symm
    · -- an old list has no identity that is still to be given out
      obtain ⟨rfl, -⟩ := eq_of_newList hnew.symm
      exact absurd hold' (hs.not_known_fresh bs)
    · obtain ⟨rfl, -⟩ := eq_of_newList hnew'.symm
      exact absurd hold (hs.not_known_fresh as)
    · exact ih hold hold'
  | newNaN _ ih | newClosure _ _ _ ih =>
    exact ih ((Value.known_cons.1 has).resolve_left nofun) ((Value.known_cons.1 hbs).resolve_left nofun)
  | define _ _ _ _ ih | enter _ _ _ _ ih | output _ _ ih => exact ih has hbs

end Arises

/-! ## Making lists -/

theorem MakesList.of_subset {t : Store} {made made' items : List Value} {i : Nat} (h : t.MakesList made' i items)
    (hsubset : made ⊆ made') : t.MakesList made i items := by
  obtain ⟨before, hbefore, hrest⟩ := h
  exact ⟨before, List.Subset.trans hsubset hbefore, hrest⟩

/-- What a primitive replies that makes lists only of known values, and passes none on. -/
inductive ListsOnly (known : Value → Prop) : Reply → Prop where
  | null : ListsOnly known (.value .null)
  | newList {items : List Value} (hitems : ∀ v ∈ items, known v) : ListsOnly known (.newList items)
  | failed (e : RuntimeError) : ListsOnly known (.failed e)
  | nestingTooDeep : ListsOnly known .nestingTooDeep

theorem listsOnly_reject {known : Value → Prop} (n : Nat) (v : Value) (error : String → RuntimeError) :
    ListsOnly known (Primitive.reject n v error) := by
  unfold Primitive.reject
  split
  · exact .failed _
  · exact .nestingTooDeep

namespace Arises

variable {s t : Store} {made items : List Value} {i fuel n : Nat} {f : FrameId}

theorem makesList_of_newList (h : s.Arises made) {new : List Value} (hnew : ∀ v ∈ new, v.Known made)
    (hdone : Outcome.ofPair (s.newList new) = .done (.list i items) t) : t.MakesList made i items := by
  have harises := h.newList hnew
  cases new with
  | nil => cases hdone
  | cons v vs =>
    cases hdone
    exact ⟨made, List.Subset.refl made, hnew, h.not_known_fresh, harises⟩

/-- The items of a known value that is a list, perhaps the empty one, are known. -/
theorem items_known (h : s.Arises made) {v : Value} (hv : v.Known made) (hitems : v.items? = some items) :
    ∀ w ∈ items, w.Known made := by
  cases v with
  | null =>
    cases hitems
    exact nofun
  | list =>
    cases hitems
    exact fun w hw => h.item hv hw
  | _ => cases hitems

theorem arg_known {args : List Value} (hargs : ∀ v ∈ args, v.Known made) (k : Nat) :
    (Primitive.arg args k).Known made := by
  unfold Primitive.arg
  cases harg : args[k]? with
  | none => exact .inl rfl
  | some v => exact hargs v (List.mem_of_getElem? harg)

theorem listsOnly_run (h : s.Arises made) {p : Primitive} (hp : p = .list ∨ p = .cons ∨ p = .cdr) {args : List Value}
    (hargs : ∀ v ∈ args, v.Known made) : ListsOnly (·.Known made) (p.run n args) := by
  rcases hp with rfl | rfl | rfl
  · exact .newList hargs
  · match args, hargs with
    | [], _ | [_], _ => exact .failed _
    | head :: tail :: _, hargs =>
      unfold Primitive.run
      cases hitems : tail.items? with
      | some items =>
        rw [Primitive.onList_of_items hitems]
        exact .newList (List.forall_mem_cons.2 ⟨hargs head (by simp), h.items_known (hargs tail (by simp)) hitems⟩)
      | none =>
        rw [Primitive.onList_of_not_list hitems]
        exact listsOnly_reject _ _ _
  · have harg := arg_known hargs 0
    simp only [Primitive.run]
    generalize Primitive.arg args 0 = v at harg
    cases v with
    | undefined | null => exact .null
    | list => exact .newList fun v hv => h.item harg (List.mem_of_mem_tail hv)
    | _ => exact listsOnly_reject _ _ _

theorem makesList_of_call (h : s.Arises made) {p : Primitive} {args : List Value}
    (hp : p = .list ∨ p = .cons ∨ p = .cdr) (hargs : ∀ v ∈ args, v.Known made)
    (hdone : call (eval fuel) n (.primitive p) args s = .done (.list i items) t) : t.MakesList made i items := by
  have hreply := h.listsOnly_run (n := n) hp hargs
  rw [call_primitive] at hdone
  generalize p.run n args = reply at hreply hdone
  cases hreply with
  | newList hitems => exact h.makesList_of_newList hitems hdone
  | _ => cases hdone

theorem makesList_of_items (h : s.Arises made) {es : List Code} (hf : f < s.frames.size)
    (hdone : ((each (quoted (eval fuel) n) f es s).andThen fun items s => Outcome.ofPair (s.newList items)) =
      .done (.list i items) t) : t.MakesList made i items := by
  obtain ⟨new, s₁, heach, hnew⟩ := exists_of_andThen_done hdone
  obtain ⟨u, hle, rfl, hknown⟩ := Moment.passing.each_quoted_keeps (w := ⟨s, made, h⟩) fuel n rfl (fun _ _ => hf) heach
  exact (u.arises.makesList_of_newList hknown hnew).of_subset hle.2

theorem makesList_of_quoted (h : s.Arises made) {e : Code} (he : e.Listed) (hf : f < s.frames.size)
    (hdone : quoted (eval fuel) n e f s = .done (.list i items) t) : t.MakesList made i items := by
  cases n with
  | zero => cases hdone
  | succ n =>
    rw [quoted_listed he] at hdone
    exact h.makesList_of_items hf hdone

theorem makesList_of_quote (h : s.Arises made) {e : Code} (he : e.Listed) (hf : f < s.frames.size)
    (hdone : eval fuel n (.quote e) f s = .done (.list i items) t) : t.MakesList made i items := by
  cases fuel with
  | zero => cases hdone
  | succ fuel =>
    simp only [eval, turn, finish_resume] at hdone
    exact h.makesList_of_quoted he hf hdone

theorem makesList_of_list (h : s.Arises made) {es : List Code} (hf : f < s.frames.size)
    (hdone : eval fuel n (.list es) f s = .done (.list i items) t) : t.MakesList made i items := by
  cases fuel with
  | zero => cases hdone
  | succ fuel =>
    simp only [eval, turn, andThen_assoc, finish_resume] at hdone
    exact h.makesList_of_items hf hdone

theorem makesList_of_enter (h : s.Arises made) (name : Name) {args : List Value} (hne : args ≠ [])
    (hargs : ∀ v ∈ args, v.Known made) (hf : f < s.frames.size) :
    ∃ i, (s.enter (.variadic name) args f).2.valueIn? name.lexeme (s.enter (.variadic name) args f).1 =
        some (.list i args) ∧
      (s.enter (.variadic name) args f).2.MakesList made i args := by
  cases args with
  | nil => exact absurd rfl hne
  | cons v vs =>
    have harises : (s.enter (.variadic name) (v :: vs) f).2.Arises (.list s.fresh (v :: vs) :: made) := by
      rw [enter_variadic]
      refine (h.newList hargs).enter [name] (fun w hw => ?_) (by simpa using hf)
      exact .inr (List.mem_singleton.1 hw ▸ List.mem_cons_self)
    refine ⟨s.fresh, ?_, made, List.Subset.refl made, hargs, h.not_known_fresh, harises⟩
    have hframe : (s.enter (.variadic name) (v :: vs) f).2.frames[(s.enter (.variadic name) (v :: vs) f).1]? =
        some ⟨[(name.lexeme, .list s.fresh (v :: vs))], some f⟩ := getElem?_push.trans (if_pos rfl)
    simp [valueIn?, hframe, Bindings.get?]

/-- **Identities tell lists apart at any time.** -/
theorem identifies (h : s.Arises made) : s.Identifies made where
  bound hframe hb := h.bound hframe hb
  item := h.item
  items_eq := h.items_eq
  primitive := h.makesList_of_call
  quoted := h.makesList_of_quoted
  quote := h.makesList_of_quote
  listed := h.makesList_of_list
  variadic := h.makesList_of_enter _

end Arises
end Store

/-! ## Equality -/

/-- What `equal?` and `=` decide, and that known values which they find the same are printed alike. -/
structure Value.Equality (known : Value → Prop) : Prop where
  equal : ∀ {fuel n : Nat} (a b : Value) (s : Store),
    call (eval fuel) n (.primitive .same) [a, b] s = .done (.boolean (a.same b)) s
  symm : ∀ a b : Value, a.same b = b.same a
  trans : ∀ {a b c : Value}, a.same b = true → b.same c = true → a.same c = true
  self : ∀ a : Value, a.same a = true ↔ ∀ x, a = .number x → x.isNaN = false
  /-- `=` compares neighbours only. -/
  all : ∀ {fuel n : Nat} (vs : List Value) (s : Store), ∃ answer,
    call (eval fuel) n (.primitive .equal) vs s = .done (.boolean answer) s ∧
      (answer = true ↔ vs.Pairwise fun a b => a.same b = true)
  printed : ∀ {a b : Value}, known a → known b → a.same b = true →
    ∀ nesting, a.printed? nesting = b.printed? nesting

theorem call_equal {fuel n : Nat} (vs : List Value) (s : Store) : ∃ answer,
    call (eval fuel) n (.primitive .equal) vs s = .done (.boolean answer) s ∧
      (answer = true ↔ vs.Pairwise fun a b => a.same b = true) := by
  obtain ⟨answer, hanswer, hiff⟩ := Value.pairwise_same vs
  refine ⟨answer, ?_, hiff⟩
  rw [call_primitive]
  simp only [Primitive.run, hanswer, Primitive.truth]

/-- **Known values that are the same are printed alike.** -/
theorem Store.Arises.equality {s : Store} {made : List Value} (h : s.Arises made) :
    Value.Equality (·.Known made) where
  equal _ _ _ := by
    rw [call_primitive]
    rfl
  symm := Value.same_symm
  trans := Value.same_trans
  self _ := Value.same_self_iff
  all := call_equal
  printed ha hb hsame := (Value.same_iff.1 hsame).printed?_eq fun i as bs has hbs =>
    h.items_eq (has ▸ ha) (hbs ▸ hb)

namespace Session

/-- **Identities of lists are sound.** Whatever texts a session has run, and also in the middle of one: any two lists in
frames, in lists or among the results that have the same identity have the same items; and each list that is not empty
and is made by `list`, `cons` or `cdr`, by a quotation or for a variadic parameter gets an identity that no list had
before. So `equal?` is symmetric and transitive, and reflexive on all but NaN; `=` holds exactly if `equal?` holds of
every two arguments; and values that are `equal?` are printed alike. Whatever is evaluated goes on from such a store to
such a store, with all that was made known. -/
theorem identities_sound :
    (∀ (s : Store) (results : List Value), History s results →
      ∃ made, s.Arises made ∧ ∀ v ∈ results, v.Known made) ∧
    ∀ (s : Store) (made : List Value), s.Arises made →
      s.Identifies made ∧ Value.Equality (·.Known made) ∧
        ∀ fuel n e f, f < s.frames.size → s.Passes made (eval fuel n e f s) :=
  ⟨fun _ _ h => h.arises, fun _ _ h => ⟨h.identifies, h.equality, fun fuel n e _ => h.eval_passes fuel n e⟩⟩

/-- A text that puts a quoted list in front of its own items. -/
def quotedListExample : String := "(define x '(#t)) (cons x x)"

theorem identities_sound_quotedList :
    let inner := Value.list 0 [.boolean true]
    let outer := Value.list 1 [inner, .boolean true]
    let s := (run ⟨10, 10⟩ quotedListExample .initial).2
    ∃ made t, History s [outer] ∧ s.Arises made ∧ inner.Known made ∧
      call (eval 1) 1 (.primitive .cdr) [outer] s = .done (.list 2 [.boolean true]) t ∧
      t.MakesList made 2 [.boolean true] ∧ ¬(Value.list 2 [.boolean true]).Known made ∧
      inner.same (.list 2 [.boolean true]) = false ∧ inner.same inner = true := by
  intro inner outer s
  obtain ⟨hsessions, hstores⟩ := identities_sound
  have hhistory : History s [outer] := .run ⟨10, 10⟩ quotedListExample .initial
  obtain ⟨made, harises, hresults⟩ := hsessions s _ hhistory
  obtain ⟨hidentifies, hequality, -⟩ := hstores s made harises
  have houter : outer.Known made := hresults outer List.mem_cons_self
  have hinner : inner.Known made := hidentifies.item houter List.mem_cons_self
  have hcdr : call (eval 1) 1 (.primitive .cdr) [outer] s = .done (.list 2 [.boolean true]) { s with fresh := 3 } := rfl
  have hmakes := hidentifies.primitive (.inr (.inr rfl)) (List.forall_mem_singleton.2 houter) hcdr
  have hnew : ¬(Value.list 2 [.boolean true]).Known made := by
    obtain ⟨before, hbefore, -, hfresh, -⟩ := hmakes
    exact fun hknown => hfresh _ (hknown.mono hbefore)
  exact ⟨made, _, hhistory, harises, hinner, hcdr, hmakes, hnew, rfl, (hequality.self inner).2 nofun⟩

end Session
end MiniScheme
