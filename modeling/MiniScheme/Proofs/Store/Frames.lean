import MiniScheme.Outcome

/-!
# Frames under the operations of stores

What lies under the number of a frame before and after an operation, and what the operation binds.

* `getElem?_define`, `getElem?_push` — an old frame changes only if a name is defined in it.
* `enter_variadic` — to enter with a variadic parameter is to make the list and then enter with one fixed parameter.
* `get_eq_ok` — a value that is found is bound in some frame.
-/

namespace MiniScheme

namespace Bindings

variable {name : String} {v : Value} {bindings : Bindings} {b : String × Value}

theorem mem_of_get? (h : bindings.get? name = some v) : (name, v) ∈ bindings := by
  induction bindings with
  | nil => cases h
  | cons head rest ih =>
    obtain ⟨key, value⟩ := head
    by_cases hkey : key = name
    · simp only [get?, if_pos hkey, Option.some.injEq] at h
      simp [hkey, h]
    · simp only [get?, if_neg hkey] at h
      exact List.mem_cons_of_mem _ (ih h)

theorem mem_put (h : b ∈ bindings.put name v) : b = (name, v) ∨ b ∈ bindings := by
  induction bindings with
  | nil => exact .inl (List.mem_singleton.1 h)
  | cons head rest ih =>
    obtain ⟨key, old⟩ := head
    by_cases hkey : key = name
    · simp only [put, if_pos hkey, List.mem_cons] at h
      simp only [List.mem_cons]
      rcases h with rfl | h
      · exact .inl (by rw [hkey])
      · exact .inr (.inr h)
    · simp only [put, if_neg hkey, List.mem_cons] at h
      simp only [List.mem_cons]
      rcases h with rfl | h
      · exact .inr (.inl rfl)
      · exact (ih h).imp id .inr

/-- What is bound to parameters is undefined or one of the arguments. -/
theorem mem_putAll {names : List String} {values : List Value} (h : b ∈ putAll names values bindings) :
    b ∈ bindings ∨ b.2 = .undefined ∨ b.2 ∈ values := by
  induction names generalizing values bindings with
  | nil => exact .inl h
  | cons name names ih =>
    cases values with
    | nil =>
      rcases ih h with hput | hrest
      · rcases mem_put hput with rfl | hold
        · exact .inr (.inl rfl)
        · exact .inl hold
      · exact .inr hrest
    | cons value values =>
      rcases ih h with hput | hundef | hvalue
      · rcases mem_put hput with rfl | hold
        · exact .inr (.inr List.mem_cons_self)
        · exact .inl hold
      · exact .inr (.inl hundef)
      · exact .inr (.inr (List.mem_cons_of_mem _ hvalue))

end Bindings

namespace Store

variable {s s' : Store} {name : String} {v : Value} {f g : FrameId} {frame : Frame}

/-! ## Sizes -/

@[simp] theorem size_define : (s.define name v f).frames.size = s.frames.size := Array.size_modify

@[simp] theorem fresh_define : (s.define name v f).fresh = s.fresh := rfl

@[simp] theorem size_push : (s.push frame).frames.size = s.frames.size + 1 := Array.size_push _

@[simp] theorem newList_frames {items : List Value} : (s.newList items).2.frames = s.frames := by
  cases items <;> rfl

/-! ## Old frames -/

theorem getElem?_define :
    (s.define name v f).frames[g]? =
      if f = g then s.frames[g]?.map fun frame => { frame with bindings := frame.bindings.put name v }
      else s.frames[g]? :=
  Array.getElem?_modify

theorem getElem?_push : (s.push frame).frames[g]? = if g = s.frames.size then some frame else s.frames[g]? :=
  Array.getElem?_push

theorem lt_of_getElem? (h : s.frames[f]? = some frame) : f < s.frames.size :=
  (Array.getElem?_eq_some_iff.1 h).1

theorem exists_frame (h : f < s.frames.size) : ∃ frame, s.frames[f]? = some frame :=
  ⟨_, Array.getElem?_eq_getElem h⟩

/-- A frame after a definition is the old one, or holds the new binding besides those of the old one. -/
theorem getElem?_define_eq_some (h : (s.define name v f).frames[g]? = some frame) :
    ∃ old, s.frames[g]? = some old ∧ frame.enclosing = old.enclosing ∧
      (frame = old ∨ f = g ∧ frame.bindings = old.bindings.put name v) := by
  rw [getElem?_define] at h
  split at h
  · cases hold : s.frames[g]? with
    | none =>
      rw [hold] at h
      cases h
    | some old =>
      rw [hold] at h
      cases h
      exact ⟨old, rfl, rfl, .inr ⟨‹_›, rfl⟩⟩
  · exact ⟨frame, h, rfl, .inl rfl⟩

/-! ## Entering -/

/-- The frame that binds fixed parameters. -/
theorem enter_fixed (names : List Name) (values : List Value) (f : FrameId) :
    s.enter (.fixed names) values f =
      (s.frames.size, s.push ⟨Bindings.putAll (names.map (·.lexeme)) values [], some f⟩) := rfl

/-- A variadic parameter is one parameter for the list of all arguments. -/
theorem enter_variadic (name : Name) (values : List Value) (f : FrameId) :
    s.enter (.variadic name) values f = (s.newList values).2.enter (.fixed [name]) [(s.newList values).1] f := rfl

/-! ## Lookup -/

theorem get_eq_ok (h : s.get name f = .ok v) :
    ∃ holder frame, s.find? name f = some holder ∧ s.frames[holder]? = some frame ∧
      frame.bindings.get? name = some v := by
  unfold get at h
  cases hfind : s.find? name f with
  | none =>
    rw [hfind] at h
    cases h
  | some holder =>
    rw [hfind] at h
    unfold valueIn? at h
    dsimp only at h
    cases hframe : s.frames[holder]? with
    | none =>
      rw [hframe] at h
      cases h
    | some frame =>
      rw [hframe] at h
      dsimp only at h
      cases hvalue : frame.bindings.get? name with
      | none =>
        rw [hvalue] at h
        cases h
      | some w =>
        rw [hvalue] at h
        cases h
        exact ⟨holder, frame, rfl, hframe, hvalue⟩

/-- A frame that binds a name is the nearest one to do so, as seen from itself. -/
theorem get_of_binds (hframe : s.frames[f]? = some frame) (hv : frame.bindings.get? name = some v) :
    s.get name f = .ok v := by
  have hfind : s.find? name f = some f := by
    obtain ⟨bound, hbound⟩ := Nat.exists_eq_add_one_of_ne_zero (Nat.ne_zero_of_lt (lt_of_getElem? hframe))
    rw [find?, hbound, findWithin, hframe]
    simp [hv]
  rw [get, hfind]
  simp [valueIn?, hframe, hv]

/-- To give a name a new value is to define it where it is bound. -/
theorem assign_eq_ok (h : s.assign name v f = .ok s') :
    ∃ holder, s.find? name f = some holder ∧ s' = s.define name v holder := by
  unfold assign at h
  cases hfind : s.find? name f with
  | none =>
    rw [hfind] at h
    cases h
  | some holder =>
    rw [hfind] at h
    cases h
    exact ⟨holder, rfl, rfl⟩

end Store
end MiniScheme
