import Mathlib.Data.List.Forall2
import MiniScheme.Outcome

/-!
# Stores with other values

One store may hold in every place the value that a function makes of the value another store holds there. Names are
found in the same frames of both, and the same operations on both keep it so.

* `Bindings.mapValues`, `Frame.mapValues` — the function at every value.
* `Store.Mapped g s t` — in the frames of `t` are the values of `s`, each as `g` maps it.
* `Mapped.get`, `Mapped.define`, `Mapped.assign`, `Mapped.push`, `Mapped.enter_fixed` — the operations on two such
  stores.
-/

namespace MiniScheme

open List (Forall₂)

theorem eq_map_of_forall₂ {α β : Type} {f : α → β} {as : List α} {bs : List β}
    (h : Forall₂ (fun a b => b = f a) as bs) : bs = as.map f := by
  induction h with
  | nil => rfl
  | cons hab _ ih => rw [List.map_cons, hab, ih]

variable {g : Value → Value}

/-! ## Bindings and frames -/

namespace Bindings

/-- The bindings with every value mapped. -/
def mapValues (g : Value → Value) (bindings : Bindings) : Bindings := bindings.map fun entry => (entry.1, g entry.2)

theorem mapValues_cons (key : String) (value : Value) (rest : Bindings) :
    mapValues g ((key, value) :: rest) = (key, g value) :: mapValues g rest := rfl

theorem get?_mapValues (name : String) (bindings : Bindings) :
    (bindings.mapValues g).get? name = (bindings.get? name).map g := by
  induction bindings with
  | nil => rfl
  | cons entry rest ih =>
    obtain ⟨key, value⟩ := entry
    rw [mapValues_cons]
    by_cases hkey : key = name
    · simp [get?, hkey]
    · simp [get?, hkey, ih]

theorem put_mapValues (name : String) (value : Value) (bindings : Bindings) :
    (bindings.mapValues g).put name (g value) = (bindings.put name value).mapValues g := by
  induction bindings with
  | nil => rfl
  | cons entry rest ih =>
    obtain ⟨key, old⟩ := entry
    rw [mapValues_cons]
    by_cases hkey : key = name
    · simp [put, hkey, mapValues_cons]
    · simp [put, hkey, mapValues_cons, ih]

/-- Missing arguments are undefined on both sides. -/
theorem putAll_mapValues (hg : g .undefined = .undefined) (names : List String) (values : List Value)
    (bindings : Bindings) :
    putAll names (values.map g) (bindings.mapValues g) = (putAll names values bindings).mapValues g := by
  induction names generalizing values bindings with
  | nil => rfl
  | cons name names ih =>
    cases values with
    | nil =>
      have hput := put_mapValues (g := g) name .undefined bindings
      rw [hg] at hput
      have hrest := ih [] (bindings.put name .undefined)
      rw [← hput] at hrest
      exact hrest
    | cons value values =>
      have hrest := ih values (bindings.put name value)
      rw [← put_mapValues] at hrest
      exact hrest

end Bindings

/-- The frame with every value mapped. -/
def Frame.mapValues (g : Value → Value) (frame : Frame) : Frame := { frame with bindings := frame.bindings.mapValues g }

/-! ## Stores -/

namespace Store

/-- The frames of the second store are those of the first with every value mapped. -/
def Mapped (g : Value → Value) (s t : Store) : Prop := t.frames = s.frames.map (Frame.mapValues g)

namespace Mapped

variable {s t : Store}

theorem getElem? (h : Mapped g s t) (id : FrameId) : t.frames[id]? = s.frames[id]?.map (Frame.mapValues g) := by
  rw [h, Array.getElem?_map]

theorem nextFrame (h : Mapped g s t) : t.nextFrame = s.nextFrame := by
  unfold Store.nextFrame
  rw [h, Array.size_map]

theorem findWithin (h : Mapped g s t) (name : String) (bound : Nat) (id : FrameId) :
    t.findWithin name bound id = s.findWithin name bound id := by
  induction bound generalizing id with
  | zero => rfl
  | succ bound ih =>
    unfold Store.findWithin
    rw [h.getElem?]
    cases s.frames[id]? with
    | none => rfl
    | some frame =>
      have hbound : ((frame.mapValues g).bindings.get? name).isSome = (frame.bindings.get? name).isSome := by
        unfold Frame.mapValues
        rw [Bindings.get?_mapValues, Option.isSome_map]
      dsimp only [Option.map_some]
      rw [hbound, show (frame.mapValues g).enclosing = frame.enclosing from rfl]
      simp only [ih]

theorem find? (h : Mapped g s t) (name : String) (id : FrameId) : t.find? name id = s.find? name id := by
  unfold Store.find?
  rw [show t.frames.size = s.frames.size from h.nextFrame, h.findWithin]

theorem get (h : Mapped g s t) (name : String) (id : FrameId) : t.get name id = (s.get name id).map g := by
  unfold Store.get
  rw [h.find?]
  cases s.find? name id with
  | none => rfl
  | some holder =>
    have hvalue : t.valueIn? name holder = (s.valueIn? name holder).map g := by
      unfold Store.valueIn?
      rw [h.getElem?]
      cases s.frames[holder]? with
      | none => rfl
      | some frame => exact Bindings.get?_mapValues name frame.bindings
    dsimp only
    rw [hvalue]
    cases s.valueIn? name holder <;> rfl

theorem define (h : Mapped g s t) (name : String) (value : Value) (id : FrameId) :
    Mapped g (s.define name value id) (t.define name (g value) id) := by
  unfold Mapped Store.define
  dsimp only
  apply Array.ext_getElem?
  intro i
  rw [Array.getElem?_modify, Array.getElem?_map, Array.getElem?_modify, h.getElem?]
  by_cases hi : id = i
  · rw [if_pos hi, if_pos hi]
    cases s.frames[i]? with
    | none => rfl
    | some frame =>
      have hput := Bindings.put_mapValues (g := g) name value frame.bindings
      exact congrArg some (congrArg (Frame.mk · frame.enclosing) hput)
  · rw [if_neg hi, if_neg hi]

/-- Both stores define the name in the same frame, or neither has it. -/
theorem assign (h : Mapped g s t) (name : String) (value : Value) (id : FrameId) :
    (∃ holder, s.assign name value id = .ok (s.define name value holder) ∧
        t.assign name (g value) id = .ok (t.define name (g value) holder)) ∨
      ∃ e, s.assign name value id = .error e ∧ t.assign name (g value) id = .error e := by
  unfold Store.assign
  rw [h.find?]
  cases s.find? name id with
  | none => exact .inr ⟨_, rfl, rfl⟩
  | some holder => exact .inl ⟨holder, rfl, rfl⟩

theorem push (h : Mapped g s t) (frame : Frame) : Mapped g (s.push frame) (t.push (frame.mapValues g)) := by
  unfold Mapped Store.push
  dsimp only
  rw [h, Array.map_push]

theorem enter_fixed (h : Mapped g s t) (hg : g .undefined = .undefined) {names names' : List Name}
    (hnames : names'.map (·.lexeme) = names.map (·.lexeme)) (values : List Value) (f : FrameId) :
    (t.enter (.fixed names') (values.map g) f).1 = (s.enter (.fixed names) values f).1 ∧
      Mapped g (s.enter (.fixed names) values f).2 (t.enter (.fixed names') (values.map g) f).2 := by
  have hbindings := Bindings.putAll_mapValues hg (names.map (·.lexeme)) values []
  have hpush := h.push ⟨Bindings.putAll (names.map (·.lexeme)) values [], some f⟩
  unfold Store.enter
  dsimp only
  rw [hnames]
  refine ⟨h.nextFrame, ?_⟩
  unfold Frame.mapValues at hpush
  dsimp only at hpush
  rw [← hbindings] at hpush
  exact hpush

end Mapped
end Store
end MiniScheme
