import MiniScheme.Proofs.Eval.Subtasks
import MiniScheme.Proofs.Session.Arising

/-!
# The one empty list

Lists are made in many places: by primitives, by quotations, and for variadic parameters. None of them ever makes a list
without items, so that at any time the empty list is `null` and nothing else. The primitives for lists rely on that.

* `Value.Canonical`, `Store.Canonical` — nothing but `null` is an empty list, also inside other lists.
* `Store.StaysCanonical` — so it is of all that is held, passed and returned in the course of an evaluation.
* `Value.ListLaws` — what `null?`, `list?`, `car`, `cdr` and `cons` do with such a value.
* `Session.emptyList_canonical` — all this holds throughout every session.
-/

namespace MiniScheme

open Eval Outcome

/-- Neither the value nor anything inside it is a list without items. -/
inductive Value.Canonical : Value → Prop where
  | plain {v : Value} (hv : v.isPlain = true) : Canonical v
  | nan {i : Nat} : Canonical (.number (.nan i))
  | closure {i : Nat} {l : Lambda} {f : FrameId} : Canonical (.closure i l f)
  | list {i : Nat} {items : List Value} (hne : items ≠ []) (hitems : ∀ v ∈ items, Canonical v) :
    Canonical (.list i items)

/-- All that the frames hold is canonical. -/
def Store.Canonical (s : Store) : Prop :=
  ∀ (f : FrameId) (frame : Frame) (b : String × Value), s.frames[f]? = some frame → b ∈ frame.bindings → b.2.Canonical

/-- In the course of evaluating the expressions, in the store at each moment and among what is passed to procedures or
comes back, the empty list is `null` alone. -/
structure Store.StaysCanonical (s : Store) (es : List Code) : Prop where
  held : ∀ {α : Type} {task : Task α} {t : Store},
    Task.Reaches (.body es globalFrame .undefined) s task t → t.Canonical
  passed : ∀ {p : Value} {vs : List Value} {t : Store},
    Task.Reaches (.body es globalFrame .undefined) s (.apply p vs) t → p.Canonical ∧ ∀ v ∈ vs, v.Canonical
  returned : ∀ {α : Type} {task : Task α} {r : α} {t u : Store},
    Task.Reaches (.body es globalFrame .undefined) s task t → BigStep task t (.ok r) u →
      task.Yields Value.Canonical r ∧ u.Canonical

/-- Takes the rest of a list so many times. -/
def cdrTimes (fuel nesting : Nat) : Nat → Value → Store → Outcome Value
  | 0, l, s => .done l s
  | k + 1, l, s => (call (eval fuel) nesting (.primitive .cdr) [l] s).andThen (cdrTimes fuel nesting k)

/-- What the primitives for lists do with a value. -/
structure Value.ListLaws (l : Value) : Prop where
  /-- `null?` holds exactly of a list without items. -/
  null : ∀ (fuel n : Nat) (s : Store), ∃ isNull isList,
    call (eval fuel) n (.primitive .isNull) [l] s = .done (.boolean isNull) s ∧
      call (eval fuel) n (.primitive .isList) [l] s = .done (.boolean isList) s ∧
      (isNull = true ↔ isList = true ∧ l.items? = some [])
  /-- `car` gives the first item, or `null` if there is none. -/
  car : ∀ (fuel n : Nat) (s : Store) {items : List Value}, l.items? = some items →
    call (eval fuel) n (.primitive .car) [l] s = .done (items.head?.getD .null) s
  /-- `cdr` comes to `null` after as many times as there are items, no sooner, and stays there. -/
  cdr : ∀ (fuel n : Nat) (s : Store) {items : List Value}, l.items? = some items → ∀ k, ∃ rest t,
    cdrTimes fuel n k l s = .done rest t ∧ rest.items? = some (items.drop k) ∧ (rest = .null ↔ items.length ≤ k)
  /-- `cons` puts together again what `car` and `cdr` take apart. -/
  cons : ∀ (fuel n : Nat) (s : Store) {items : List Value}, l.items? = some items → items ≠ [] → ∃ head tail whole t u,
    call (eval fuel) n (.primitive .car) [l] s = .done head s ∧
      call (eval fuel) n (.primitive .cdr) [l] s = .done tail t ∧
      call (eval fuel) n (.primitive .cons) [head, tail] t = .done whole u ∧ whole.items? = some items

/-! ## Values -/

namespace Value

variable {v l : Value} {items : List Value} {frames fresh fuel n : Nat} {s : Store}

theorem Valid.canonical (h : v.Valid frames fresh) : v.Canonical := by
  induction h with
  | plain hv => exact .plain hv
  | nan => exact .nan
  | list hi hne hitems ih => exact .list hne ih
  | closure hi hf => exact .closure

namespace Canonical

/-- A value that is a list is `null`, or it has items. -/
theorem list_cases (h : l.Canonical) (hitems : l.items? = some items) :
    (l = .null ∧ items = []) ∨
      ∃ i x rest, l = .list i (x :: rest) ∧ items = x :: rest ∧ ∀ v ∈ items, v.Canonical := by
  cases l with
  | null =>
    cases hitems
    exact .inl ⟨rfl, rfl⟩
  | list i items =>
    cases hitems
    cases h with
    | plain hv => cases hv
    | list hne hmem =>
      obtain ⟨x, rest, rfl⟩ := List.exists_cons_of_ne_nil hne
      exact .inr ⟨i, x, rest, rfl, rfl, hmem⟩
  | _ => cases hitems

theorem eq_null_iff (h : l.Canonical) (hitems : l.items? = some items) : l = .null ↔ items = [] := by
  rcases h.list_cases hitems with ⟨rfl, rfl⟩ | ⟨i, x, rest, rfl, rfl, -⟩
  · simp
  · simp

end Canonical

theorem items?_newList (items : List Value) (s : Store) : (s.newList items).1.items? = some items := by
  cases items <;> rfl

theorem canonical_newList (hitems : ∀ v ∈ items, v.Canonical) (s : Store) : (s.newList items).1.Canonical := by
  cases items with
  | nil => exact .plain rfl
  | cons v vs => exact .list (by simp) hitems

/-! ## Primitives for lists -/

theorem call_isNull (l : Value) (s : Store) :
    call (eval fuel) n (.primitive .isNull) [l] s = .done (.boolean l.isNull) s := by
  rw [call_primitive]
  rfl

theorem call_isList (l : Value) (s : Store) :
    call (eval fuel) n (.primitive .isList) [l] s = .done (.boolean l.items?.isSome) s := by
  rw [call_primitive]
  rfl

theorem Canonical.call_car (h : l.Canonical) (hitems : l.items? = some items) (s : Store) :
    call (eval fuel) n (.primitive .car) [l] s = .done (items.head?.getD .null) s := by
  rw [call_primitive]
  rcases h.list_cases hitems with ⟨rfl, rfl⟩ | ⟨i, x, rest, rfl, rfl, -⟩
  · rfl
  · rfl

/-- `cdr` makes a list of the items but the first. -/
theorem Canonical.call_cdr (h : l.Canonical) (hitems : l.items? = some items) (s : Store) :
    call (eval fuel) n (.primitive .cdr) [l] s = .ofPair (s.newList items.tail) := by
  rw [call_primitive]
  rcases h.list_cases hitems with ⟨rfl, rfl⟩ | ⟨i, x, rest, rfl, rfl, -⟩
  · rfl
  · rfl

theorem Canonical.tail (h : l.Canonical) (hitems : l.items? = some items) (s : Store) :
    (s.newList items.tail).1.Canonical := by
  rcases h.list_cases hitems with ⟨rfl, rfl⟩ | ⟨i, x, rest, rfl, rfl, hmem⟩
  · exact .plain rfl
  · exact canonical_newList (fun v hv => hmem v (List.mem_of_mem_tail hv)) s

theorem call_cons {tail : Value} (hitems : tail.items? = some items) (head : Value) (s : Store) :
    call (eval fuel) n (.primitive .cons) [head, tail] s = .ofPair (s.newList (head :: items)) := by
  rw [call_primitive]
  simp only [Primitive.run, Primitive.onList_of_items hitems]

theorem Canonical.cdrTimes_eq (h : l.Canonical) (hitems : l.items? = some items) (k : Nat) (s : Store) :
    ∃ rest t, cdrTimes fuel n k l s = .done rest t ∧ rest.items? = some (items.drop k) ∧
      (rest = .null ↔ items.length ≤ k) := by
  induction k generalizing l items s with
  | zero =>
    refine ⟨l, s, rfl, by simpa using hitems, ?_⟩
    rw [h.eq_null_iff hitems]
    simp
  | succ k ih =>
    have htail := items?_newList items.tail s
    obtain ⟨rest, t, hrest, hdrop, hnull⟩ := ih (h.tail hitems s) htail (s.newList items.tail).2
    refine ⟨rest, t, ?_, ?_, ?_⟩
    · unfold cdrTimes
      rw [h.call_cdr hitems]
      exact hrest
    · rw [hdrop, List.drop_tail]
    · rw [hnull, List.length_tail]
      omega

/-- **What the primitives for lists do with canonical values.** -/
theorem Canonical.listLaws (h : l.Canonical) : l.ListLaws where
  null fuel n s := by
    refine ⟨_, _, call_isNull l s, call_isList l s, ?_⟩
    cases hitems : l.items? with
    | none => cases l <;> simp_all [Value.isNull, Value.items?]
    | some items =>
      rcases h.list_cases hitems with ⟨rfl, rfl⟩ | ⟨i, x, rest, rfl, rfl, -⟩
      · simp [Value.isNull]
      · simp [Value.isNull]
  car fuel n s _ hitems := h.call_car hitems s
  cdr fuel n s _ hitems k := h.cdrTimes_eq hitems k s
  cons fuel n s items hitems hne := by
    obtain ⟨x, rest, rfl⟩ := List.exists_cons_of_ne_nil hne
    have hcons : call (eval fuel) n (.primitive .cons) [x, (s.newList rest).1] (s.newList rest).2 =
      .ofPair ((s.newList rest).2.newList (x :: rest)) := call_cons (items?_newList rest s) x _
    exact ⟨x, _, _, _, _, h.call_car hitems s, h.call_cdr hitems s, hcons, items?_newList _ _⟩

end Value

/-! ## Sessions -/

namespace Store

theorem Valid.canonical {s : Store} (h : s.Valid) : s.Canonical :=
  fun _ _ b hframe hb => (h.bindings hframe b hb).canonical

/-- **Valid stores stay canonical**, whatever is evaluated. -/
theorem Valid.staysCanonical {s : Store} (h : s.Valid) (es : List Code) : s.StaysCanonical es := by
  have hstore : validity.store s.sizes s := ⟨h, rfl⟩
  have htask : validity.Allows s.sizes (.body es globalFrame .undefined) := ⟨fun _ _ => h.global, .plain rfl⟩
  constructor
  · intro α task t hreaches
    obtain ⟨u, -, ⟨hvalid, -⟩, -⟩ := Invariant.reaches_keeps hreaches hstore htask
    exact hvalid.canonical
  · intro p vs t hreaches
    obtain ⟨u, -, -, hp, hvs⟩ := Invariant.reaches_keeps hreaches hstore htask
    exact ⟨Value.Valid.canonical hp, fun v hv => Value.Valid.canonical (hvs v hv)⟩
  · intro α task r t t' hreaches hresult
    obtain ⟨u, -, hstore', htask'⟩ := Invariant.reaches_keeps hreaches hstore htask
    obtain ⟨u', -, ⟨hvalid, -⟩, hvalues⟩ := Invariant.task_keeps hresult hstore' htask'
    exact ⟨hvalues.imp fun _ hv => hv.canonical, hvalid.canonical⟩

end Store

namespace Session

/-- **The empty list is `null` alone**, in every store that a session comes to, in every store on the way there, and
among all that is passed, that procedures give back or that texts come to. So `null?` tells lists without items from all
else, `car` always finds a first item, `cdr` comes to `null` when the items are used up, and `cons` undoes both. -/
theorem emptyList_canonical {s : Store} {results : List Value} (h : History s results) :
    s.Canonical ∧ (∀ v ∈ results, v.Canonical) ∧ (∀ es, s.StaysCanonical es) ∧
      ∀ l : Value, l.Canonical → l.ListLaws := by
  obtain ⟨made, harises, hresults⟩ := h.arises
  have hvalid := harises.valid
  exact ⟨hvalid.canonical, fun v hv => (harises.value_valid (hresults v hv)).canonical, hvalid.staysCanonical,
    fun l hl => hl.listLaws⟩

/-- A text whose last value is a list of the empty list, got by a variadic parameter. -/
def emptyInListExample : String := "(define f (lambda x x)) (cdr (f #t)) (f (f))"

theorem emptyList_canonical_emptyInList :
    let s := (run ⟨10, 10⟩ emptyInListExample .initial).2
    let l := Value.list 2 [.null]
    History s [l] ∧ s.StaysCanonical [] ∧ call (eval 1) 1 (.primitive .car) [l] s = .done .null s ∧
      ∃ t, cdrTimes 1 1 1 l s = .done .null t := by
  intro s l
  have hhistory : History s [l] := .run ⟨10, 10⟩ emptyInListExample .initial
  obtain ⟨-, hresults, hstays, hlaws⟩ := emptyList_canonical hhistory
  have hl := hlaws l (hresults l List.mem_cons_self)
  obtain ⟨rest, t, hcdr, -, hnull⟩ := hl.cdr 1 1 s rfl 1
  obtain rfl := hnull.2 (Nat.le_refl 1)
  exact ⟨hhistory, hstays [], hl.car 1 1 s rfl, t, hcdr⟩

end Session
end MiniScheme
