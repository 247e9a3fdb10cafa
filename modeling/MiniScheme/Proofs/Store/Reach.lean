import MiniScheme.Proofs.Store.Lookup

/-!
# Reachable frames

A frame reaches the frame around it and those that its closures were made in, also the closures inside lists.

* `Value.Holds` — a closure of the value was made in the frame.
* `Store.Reaches`, `Store.Leads` — the frames that can be reached from a frame, and from a value.
-/

namespace MiniScheme

/-- The value is a closure made in the frame, or a list that holds one, however deep. -/
inductive Value.Holds : Value → FrameId → Prop where
  | closure {i : Nat} {l : Lambda} {f : FrameId} : Holds (.closure i l f) f
  | item {i : Nat} {items : List Value} {v : Value} {f : FrameId} (hv : v ∈ items) (h : Holds v f) :
    Holds (.list i items) f

namespace Value

variable {v : Value} {f : FrameId}

theorem not_holds_of_isPlain (hv : v.isPlain = true) : ¬v.Holds f := by
  rintro (_ | _) <;> cases hv

theorem not_holds_number (x : Number) : ¬(number x).Holds f := nofun

theorem Valid.lt_of_holds {frames fresh : Nat} (h : v.Valid frames fresh) (hf : v.Holds f) : f < frames := by
  induction h with
  | plain hv => exact absurd hf (not_holds_of_isPlain hv)
  | list _ _ _ ih =>
    cases hf with
    | item hv hf => exact ih _ hv hf
  | closure _ hlt =>
    cases hf
    exact hlt
  | nan => exact absurd hf (not_holds_number _)

end Value

namespace Store

/-- The frame can be reached from `r`. -/
inductive Reaches (s : Store) (r : FrameId) : FrameId → Prop where
  | root : Reaches s r r
  | enclosing {f outer : FrameId} {frame : Frame} (h : Reaches s r f) (hframe : s.frames[f]? = some frame)
    (houter : frame.enclosing = some outer) : Reaches s r outer
  | captured {f g : FrameId} {frame : Frame} {b : String × Value} (h : Reaches s r f)
    (hframe : s.frames[f]? = some frame) (hb : b ∈ frame.bindings) (hg : b.2.Holds g) : Reaches s r g

/-- The frame can be reached from the value. -/
def Leads (s : Store) (v : Value) (f : FrameId) : Prop := ∃ g, v.Holds g ∧ s.Reaches g f

variable {s : Store} {r f : FrameId}

/-- Every reachable frame exists. -/
theorem Reaches.lt (h : s.Reaches r f) (hs : s.Valid) (hr : r < s.frames.size) : f < s.frames.size := by
  induction h with
  | root => exact hr
  | enclosing _ hframe houter ih => exact (hs.enclosing hframe houter).trans ih
  | captured _ hframe hb hg _ => exact (hs.bindings hframe _ hb).lt_of_holds hg

/-- What holds of `r`, and of all that a frame leads to if it holds of that, holds of what can be reached. -/
theorem Reaches.closed {P : FrameId → Prop} (h : s.Reaches r f) (hr : P r)
    (henclosing : ∀ {f outer frame}, P f → s.frames[f]? = some frame → frame.enclosing = some outer → P outer)
    (hcaptured : ∀ {f g frame b}, P f → s.frames[f]? = some frame → b ∈ frame.bindings → b.2.Holds g → P g) : P f := by
  induction h with
  | root => exact hr
  | enclosing _ hframe houter ih => exact henclosing ih hframe houter
  | captured _ hframe hb hg ih => exact hcaptured ih hframe hb hg

end Store
end MiniScheme
