import MiniScheme.Proofs.Store.Valid
import MiniScheme.Session

/-!
# What arises while sessions run

A store changes in a few ways only: a list, a closure or a NaN is made, a name is bound in a frame, a frame is entered,
and text is written or taken out. `Arises s made` traces these changes from the store that programs start with, and
keeps all lists, closures and NaN that were made on the way. So it holds between any two changes, also in the middle of
a text, and what all changes keep is true whenever anything is looked up, called or compared.

* `Value.Known` — the values there are: plain ones, and what was made.
* `Store.Arises` — the stores that come up, each with what was made.
* `Store.Arises.eval_passes`, `Store.Arises.run_arises` — evaluations and whole texts lead from such a store to such a
  store, and come to values that are known there.
* `Session.History` — the stores of sessions between two texts, with the results so far.
-/

namespace MiniScheme

open List (Forall₂)
open Eval Outcome

/-- The value is plain, or one of those that were made. -/
def Value.Known (made : List Value) (v : Value) : Prop := v.isPlain = true ∨ v ∈ made

theorem Value.Known.mono {made made' : List Value} (h : made ⊆ made') {v : Value} (hv : v.Known made) :
    v.Known made' := hv.imp id fun hmem => h hmem

theorem Value.known_cons {made : List Value} {v w : Value} : v.Known (w :: made) ↔ v = w ∨ v.Known made := by
  unfold Value.Known
  rw [List.mem_cons]
  tauto

namespace Store

/-- A new list gets the next identity. -/
theorem eq_of_newList {s : Store} {items : List Value} {i : Nat} {as : List Value}
    (h : (s.newList items).1 = .list i as) : i = s.fresh ∧ as = items := by
  cases items with
  | nil => cases h
  | cons =>
    cases h
    exact ⟨rfl, rfl⟩

/-- The store comes up while programs run, after these lists, closures and NaN were made. Only known values are put into
lists, bound, or passed. -/
inductive Arises : Store → List Value → Prop where
  | initial : Arises .initial []
  | newList {s : Store} {made items : List Value} (h : Arises s made) (hitems : ∀ v ∈ items, v.Known made) :
    Arises (s.newList items).2 ((s.newList items).1 :: made)
  | newNaN {s : Store} {made : List Value} (h : Arises s made) : Arises s.newNaN.2 (s.newNaN.1 :: made)
  | newClosure {s : Store} {made : List Value} (h : Arises s made) (l : Lambda) {f : FrameId}
    (hf : f < s.frames.size) : Arises (s.newClosure l f).2 ((s.newClosure l f).1 :: made)
  | define {s : Store} {made : List Value} (h : Arises s made) (name : String) {v : Value} (hv : v.Known made)
    (f : FrameId) : Arises (s.define name v f) made
  | enter {s : Store} {made args : List Value} (h : Arises s made) (names : List Name)
    (hargs : ∀ v ∈ args, v.Known made) {f : FrameId} (hf : f < s.frames.size) :
    Arises (s.enter (.fixed names) args f).2 made
  | output {s : Store} {made : List Value} (h : Arises s made) (text : String) : Arises { s with output := text } made

namespace Arises

variable {s : Store} {made : List Value} {v : Value}

/-- Nothing dangles, neither in the store nor in what was made. -/
theorem valid_and (h : s.Arises made) : s.Valid ∧ ∀ v : Value, v.Known made → v.Valid s.frames.size s.fresh := by
  induction h with
  | initial => exact ⟨initial_valid, fun v hv => .plain (hv.resolve_right nofun)⟩
  | @newList s made items _ hitems ih =>
    obtain ⟨hs, hmade⟩ := ih
    have hframes : (s.newList items).2.frames = s.frames := newList_frames
    refine ⟨hs.newList, fun v hv => ?_⟩
    rw [hframes]
    rcases Value.known_cons.1 hv with rfl | hold
    · exact newList_value_valid fun w hw => hmade w (hitems w hw)
    · exact (hmade v hold).mono le_rfl (fresh_le_newList items)
  | @newNaN s made _ ih =>
    obtain ⟨hs, hmade⟩ := ih
    have hvalid : s.newNaN.2.Valid := hs.of_frames rfl (Nat.le_succ s.fresh)
    refine ⟨hvalid, fun v hv => ?_⟩
    rcases Value.known_cons.1 hv with rfl | hold
    · exact .nan (Nat.lt_succ_self s.fresh)
    · exact (hmade v hold).mono le_rfl (Nat.le_succ s.fresh)
  | @newClosure s made _ l f hf ih =>
    obtain ⟨hs, hmade⟩ := ih
    have hvalid : (s.newClosure l f).2.Valid := hs.of_frames rfl (Nat.le_succ s.fresh)
    refine ⟨hvalid, fun v hv => ?_⟩
    rcases Value.known_cons.1 hv with rfl | hold
    · exact .closure (Nat.lt_succ_self s.fresh) hf
    · exact (hmade v hold).mono le_rfl (Nat.le_succ s.fresh)
  | define _ name hv f ih =>
    refine ⟨ih.1.define (ih.2 _ hv), fun w hw => ?_⟩
    rw [size_define, fresh_define]
    exact ih.2 w hw
  | @enter s made args _ names hargs f hf ih =>
    refine ⟨ih.1.enter_fixed (fun w hw => ih.2 w (hargs w hw)) hf names, fun w hw => ?_⟩
    rw [enter_fixed, size_push]
    exact (ih.2 w hw).mono (Nat.le_succ _) le_rfl
  | output _ text ih => exact ⟨ih.1.of_frames rfl le_rfl, ih.2⟩

theorem valid (h : s.Arises made) : s.Valid := h.valid_and.1

theorem value_valid (h : s.Arises made) (hv : v.Known made) : v.Valid s.frames.size s.fresh := h.valid_and.2 v hv

/-- The items of known lists are known. -/
theorem item (h : s.Arises made) {i : Nat} {items : List Value} (hlist : (Value.list i items).Known made)
    (hv : v ∈ items) : v.Known made := by
  induction h with
  | initial => cases hlist.resolve_left nofun
  | newList _ hitems ih =>
    refine .mono (List.subset_cons_self _ _) ?_
    rcases Value.known_cons.1 hlist with hnew | hold
    · obtain ⟨-, rfl⟩ := eq_of_newList hnew.symm
      exact hitems v hv
    · exact ih hold
  | newNaN _ ih | newClosure _ _ _ ih =>
    refine .mono (List.subset_cons_self _ _) ?_
    rcases Value.known_cons.1 hlist with hnew | hold
    · cases hnew
    · exact ih hold
  | define _ _ _ _ ih | enter _ _ _ _ ih | output _ _ ih => exact ih hlist

/-- What frames bind is known. -/
theorem bound (h : s.Arises made) {f : FrameId} {frame : Frame} (hframe : s.frames[f]? = some frame)
    {b : String × Value} (hb : b ∈ frame.bindings) : b.2.Known made := by
  induction h generalizing f frame with
  | initial =>
    rw [Store.initial, getElem?_push] at hframe
    split at hframe
    · cases hframe
      obtain ⟨p, -, rfl⟩ := List.mem_map.1 hb
      exact .inl rfl
    · cases hframe
  | newList _ _ ih =>
    rw [newList_frames] at hframe
    exact (ih hframe hb).mono (List.subset_cons_self _ _)
  | newNaN _ ih | newClosure _ _ _ ih => exact (ih hframe hb).mono (List.subset_cons_self _ _)
  | define _ name hv g ih =>
    obtain ⟨old, hold, -, rfl | ⟨-, hbindings⟩⟩ := getElem?_define_eq_some hframe
    · exact ih hold hb
    · rw [hbindings] at hb
      rcases Bindings.mem_put hb with rfl | hb
      · exact hv
      · exact ih hold hb
  | enter _ names hargs _ ih =>
    rw [enter_fixed, getElem?_push] at hframe
    split at hframe
    · cases hframe
      rcases Bindings.mem_putAll hb with hb | hundefined | hvalue
      · cases hb
      · exact .inl (hundefined ▸ rfl)
      · exact hargs _ hvalue
    · exact ih hframe hb
  | output _ _ ih => exact ih hframe hb

theorem get (h : s.Arises made) {name : String} {f : FrameId} (hget : s.get name f = .ok v) : v.Known made := by
  obtain ⟨_, _, -, hframe, hvalue⟩ := get_eq_ok hget
  exact h.bound hframe (Bindings.mem_of_get? hvalue)

end Arises

/-! ## Evaluation -/

/-- A store that comes up, with what was made. -/
structure Moment where
  store : Store
  made : List Value
  arises : store.Arises made

namespace Moment

/-- Later moments have no fewer frames, and know what was made. -/
instance : Preorder Moment where
  le w u := w.store.frames.size ≤ u.store.frames.size ∧ w.made ⊆ u.made
  le_refl w := ⟨le_rfl, List.Subset.refl _⟩
  le_trans _ _ _ h h' := ⟨h.1.trans h'.1, List.Subset.trans h.2 h'.2⟩

/-- Entering a frame leads to a moment in which expressions may be evaluated there. -/
theorem exists_entered (w : Moment) (names : List Name) {args : List Value} (hargs : ∀ v ∈ args, v.Known w.made)
    {f : FrameId} (hf : f < w.store.frames.size) :
    ∃ u : Moment, w ≤ u ∧ (w.store.enter (.fixed names) args f).2 = u.store ∧
      (w.store.enter (.fixed names) args f).1 < u.store.frames.size := by
  refine ⟨⟨_, _, w.arises.enter names hargs hf⟩, ⟨?_, List.Subset.refl _⟩, rfl, ?_⟩
  · simp [enter_fixed]
  · simp [enter_fixed]

/-- Evaluation goes from moment to moment. -/
def passing : Invariant Moment where
  store w s := s = w.store
  value w v := v.Known w.made
  runs w _ f := f < w.store.frames.size
  value_mono hle h := h.mono hle.2
  runs_mono hle h := lt_of_lt_of_le h hle.1
  plain hv := .inl hv
  item {w} _ _ _ hlist hv := w.arises.item hlist hv
  part h _ := h
  get := by
    rintro w _ x f v rfl _ hget
    exact w.arises.get hget
  newList := by
    rintro w _ items rfl hitems
    refine ⟨⟨_, _, w.arises.newList hitems⟩, ⟨?_, List.subset_cons_self _ _⟩, rfl, .inr List.mem_cons_self⟩
    simp
  newNaN := by
    rintro w _ rfl
    exact ⟨⟨_, _, w.arises.newNaN⟩, ⟨le_rfl, List.subset_cons_self _ _⟩, rfl, .inr List.mem_cons_self⟩
  newClosure := by
    rintro w _ ps b f rfl hf
    exact ⟨⟨_, _, w.arises.newClosure ⟨ps, b⟩ hf⟩, ⟨le_rfl, List.subset_cons_self _ _⟩, rfl, .inr List.mem_cons_self⟩
  define := by
    rintro w _ x e f v rfl _ hv
    exact ⟨⟨_, _, w.arises.define x.lexeme hv f⟩, ⟨by simp, List.Subset.refl _⟩, rfl⟩
  assign := by
    rintro w _ x e f v s' rfl _ hv hassign
    obtain ⟨holder, -, rfl⟩ := assign_eq_ok hassign
    exact ⟨⟨_, _, w.arises.define x.lexeme hv holder⟩, ⟨by simp, List.Subset.refl _⟩, rfl⟩
  writeLine := by
    rintro w _ text rfl
    exact ⟨⟨_, _, w.arises.output (w.store.output ++ text ++ "\n")⟩, ⟨le_rfl, List.Subset.refl _⟩, rfl⟩
  enterLet := by
    rintro w _ xs es b f vs rfl hf hvs
    obtain ⟨u, hle, hstore, hnew⟩ := w.exists_entered xs hvs hf
    exact ⟨u, hle, hstore, fun _ _ => hnew⟩
  enterClosure := by
    rintro w _ i l f vs names rfl hp hvs
    have hf : f < w.store.frames.size := by
      cases w.arises.value_valid hp with
      | plain hplain => cases hplain
      | closure _ hf => exact hf
    obtain ⟨u, hle, hstore, hnew⟩ := w.exists_entered names hvs hf
    exact ⟨u, hle, hstore, fun _ _ => hnew⟩

end Moment

/-- The outcome has a store that arises, with all that was made before, and a value that is known there. -/
def Passes (s : Store) (made : List Value) (o : Outcome Value) : Prop :=
  ∃ made', made ⊆ made' ∧ s.frames.size ≤ o.store.frames.size ∧ o.store.Arises made' ∧
    ∀ v t, o = .done v t → v.Known made'

theorem Passes.of_keeps {w : Moment} {o : Outcome Value} (h : Moment.passing.Keeps w o) :
    w.store.Passes w.made o := by
  obtain ⟨u, hle, hstore, hvalue⟩ := h
  exact ⟨u.made, hle.2, hstore ▸ hle.1, hstore ▸ u.arises, hvalue⟩

namespace Arises

variable {s : Store} {made : List Value}

/-- **Evaluation leads from stores that arise to stores that arise**, however it ends. -/
theorem eval_passes (h : s.Arises made) (fuel n : Nat) (e : Code) {f : FrameId} (hf : f < s.frames.size) :
    s.Passes made (eval fuel n e f s) :=
  .of_keeps (w := ⟨s, made, h⟩) (Moment.passing.eval_keeps fuel n rfl hf)

/-- **So do whole texts**, and what they come to is known. -/
theorem run_arises (h : s.Arises made) (limits : Limits) (source : String) :
    ∃ made', made ⊆ made' ∧ (Session.run limits source s).2.Arises made' ∧
      ∀ v, (Session.run limits source s).1.value = some v → v.Known made' := by
  unfold Session.run
  cases Session.read limits source with
  | error e =>
    refine ⟨made, List.Subset.refl _, h, ?_⟩
    rintro v ⟨⟩
    exact .inl rfl
  | ok es =>
    have hkeeps : Moment.passing.Keeps ⟨s, made, h⟩ (Session.evalAll limits es s) :=
      Moment.passing.inOrder_keeps limits.fuel limits.nesting rfl (.inl rfl) fun _ _ => h.valid.global
    obtain ⟨made', hsubset, -, harises, hvalue⟩ := Passes.of_keeps hkeeps
    refine ⟨made', hsubset, harises.output "", ?_⟩
    dsimp only
    generalize Session.evalAll limits es s = o at hvalue
    intro v hv
    cases o with
    | done w t =>
      cases hv
      exact hvalue v t rfl
    | stopped why t =>
      -- a stop is reported with the empty list as value
      cases why <;> cases hv <;> exact .inl rfl

end Arises
end Store

/-! ## Sessions -/

namespace Session

/-- A session can have this store between two texts, after texts with these results, the last one first. -/
inductive History : Store → List Value → Prop where
  | initial : History .initial []
  | run {s : Store} {results : List Value} (limits : Limits) (source : String) (h : History s results) :
    History (run limits source s).2 ((run limits source s).1.value.toList ++ results)

/-- **The stores of sessions arise**, and all results are known. -/
theorem History.arises {s : Store} {results : List Value} (h : History s results) :
    ∃ made, s.Arises made ∧ ∀ v ∈ results, v.Known made := by
  induction h with
  | initial => exact ⟨[], .initial, nofun⟩
  | run limits source _ ih =>
    obtain ⟨made, harises, hresults⟩ := ih
    obtain ⟨made', hsubset, harises', hvalue⟩ := harises.run_arises limits source
    refine ⟨made', harises', fun v hv => ?_⟩
    rcases List.mem_append.1 hv with hnew | hold
    · exact hvalue v (Option.mem_toList.1 hnew)
    · exact (hresults v hold).mono hsubset

end Session
end MiniScheme
