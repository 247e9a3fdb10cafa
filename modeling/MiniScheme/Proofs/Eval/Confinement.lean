import MiniScheme.Proofs.Store.Reach

/-!
# Evaluation is confined

Evaluation in a frame touches frames that can be reached from it, and those it makes, and no others; nor does it come
to a value that leads anywhere else.

* `Store.Confined` — what is true of the store throughout.
* `eval_confined` — what evaluation leaves alone, and where its value leads.
-/

namespace MiniScheme

open Eval Outcome

namespace Store

/-- The frame can be reached from `r`, or did not exist in `s`. -/
def Within (s : Store) (r f : FrameId) : Prop := s.Reaches r f ∨ s.frames.size ≤ f

/-- Since `s`, only frames that can be reached from `r` and new ones have changed, and they lead to no others. -/
structure Confined (s : Store) (r : FrameId) (t : Store) : Prop where
  size_le : s.frames.size ≤ t.frames.size
  untouched : ∀ {f}, ¬s.Within r f → t.frames[f]? = s.frames[f]?
  enclosing : ∀ {f outer frame}, s.Within r f → t.frames[f]? = some frame → frame.enclosing = some outer →
    s.Within r outer
  captured : ∀ {f g frame b}, s.Within r f → t.frames[f]? = some frame → b ∈ frame.bindings → b.2.Holds g →
    s.Within r g

/-- All closures of the value were made in frames that can be reached from `r`, or are new. -/
def HoldsWithin (s : Store) (r : FrameId) (v : Value) : Prop := ∀ {f}, v.Holds f → s.Within r f

variable {s t t' : Store} {r f : FrameId} {name : String} {v : Value} {frame : Frame}

namespace Confined

theorem refl (s : Store) (r : FrameId) : s.Confined r s := by
  have hold {f : FrameId} {frame : Frame} (hf : s.Within r f) (hframe : s.frames[f]? = some frame) : s.Reaches r f :=
    hf.resolve_right (lt_of_getElem? hframe).not_ge
  constructor
  · exact le_rfl
  · intros
    rfl
  · intro f outer frame hf hframe houter
    exact .inl (.enclosing (hold hf hframe) hframe houter)
  · intro f g frame b hf hframe hb hg
    exact .inl (.captured (hold hf hframe) hframe hb hg)

theorem of_frames (h : s.Confined r t) (hframes : t'.frames = t.frames) : s.Confined r t' := by
  constructor
  · rw [hframes]
    exact h.size_le
  · rw [hframes]
    exact h.untouched
  · rw [hframes]
    exact h.enclosing
  · rw [hframes]
    exact h.captured

theorem define (h : s.Confined r t) (hf : s.Within r f) (hv : s.HoldsWithin r v) :
    s.Confined r (t.define name v f) := by
  constructor
  · simpa using h.size_le
  · intro g hg
    rw [getElem?_define, if_neg]
    · exact h.untouched hg
    · rintro rfl
      exact hg hf
  · intro g outer frame hg hframe houter
    obtain ⟨old, hold, henclosing, -⟩ := getElem?_define_eq_some hframe
    exact h.enclosing hg hold (henclosing ▸ houter)
  · intro g k frame b hg hframe hb hk
    obtain ⟨old, hold, -, rfl | ⟨-, hbindings⟩⟩ := getElem?_define_eq_some hframe
    · exact h.captured hg hold hb hk
    · rw [hbindings] at hb
      rcases Bindings.mem_put hb with rfl | hb
      · exact hv hk
      · exact h.captured hg hold hb hk

theorem push (h : s.Confined r t) (hbindings : ∀ b ∈ frame.bindings, s.HoldsWithin r b.2)
    (henclosing : ∀ outer, frame.enclosing = some outer → s.Within r outer) : s.Confined r (t.push frame) := by
  constructor
  · rw [size_push]
    exact h.size_le.trans (Nat.le_succ _)
  · intro g hg
    have hold : g < s.frames.size := Nat.lt_of_not_le fun hnew => hg (.inr hnew)
    rw [getElem?_push, if_neg (hold.trans_le h.size_le).ne]
    exact h.untouched hg
  · intro g outer frame' hg hframe houter
    rw [getElem?_push] at hframe
    split at hframe
    · cases hframe
      exact henclosing outer houter
    · exact h.enclosing hg hframe houter
  · intro g k frame' b hg hframe hb hk
    rw [getElem?_push] at hframe
    split at hframe
    · cases hframe
      exact hbindings b hb hk
    · exact h.captured hg hframe hb hk

theorem enter_fixed {values : List Value} (h : s.Confined r t) (hf : s.Within r f)
    (hvalues : ∀ v ∈ values, s.HoldsWithin r v) (names : List Name) :
    s.Confined r (t.enter (.fixed names) values f).2 ∧ s.Within r (t.enter (.fixed names) values f).1 := by
  refine ⟨h.push (fun b hb => ?_) (fun outer houter => ?_), .inr h.size_le⟩
  · rcases Bindings.mem_putAll hb with hb | hundefined | hvalue
    · cases hb
    · rw [hundefined]
      exact fun hk => absurd hk (Value.not_holds_of_isPlain rfl)
    · exact hvalues _ hvalue
  · cases houter
    exact hf

theorem within_of_onChain {g : FrameId} (h : s.Confined r t) (hf : s.Within r f) (hg : t.OnChain f g) :
    s.Within r g := by
  induction hg with
  | here => exact hf
  | outer hframe houter _ ih => exact ih (h.enclosing hf hframe houter)

theorem within_of_find? {holder : FrameId} (h : s.Confined r t) (hf : s.Within r f)
    (hfind : t.find? name f = some holder) : s.Within r holder :=
  h.within_of_onChain hf (onChain_of_findWithin hfind)

theorem within_of_leads {g : FrameId} (h : s.Confined r t) (hv : s.HoldsWithin r v) (hg : t.Leads v g) :
    s.Within r g := by
  obtain ⟨f, hf, hreaches⟩ := hg
  exact hreaches.closed (hv hf) h.enclosing h.captured

end Confined

/-- Evaluation stays within the frames that can be reached from `r` and those that it makes. -/
def confinement (s : Store) (r : FrameId) : Invariant Unit where
  store _ t := s.Confined r t
  value _ v := s.HoldsWithin r v
  runs _ _ f := s.Within r f
  value_mono _ h := h
  runs_mono _ h := h
  plain hv := fun hf => absurd hf (Value.not_holds_of_isPlain hv)
  item h hv := fun hf => h (.item hv hf)
  part h _ := h
  get := by
    intro _ t x f v ht hf hget
    obtain ⟨holder, frame, hfind, hframe, hvalue⟩ := get_eq_ok hget
    exact ht.captured (ht.within_of_find? hf hfind) hframe (Bindings.mem_of_get? hvalue)
  newList := by
    intro _ t items ht hitems
    refine ⟨(), le_rfl, ht.of_frames newList_frames, ?_⟩
    cases items with
    | nil => exact fun hf => absurd hf (Value.not_holds_of_isPlain rfl)
    | cons => exact fun (.item hv hf) => hitems _ hv hf
  newNaN ht := ⟨(), le_rfl, ht.of_frames rfl, fun hf => absurd hf (Value.not_holds_number _)⟩
  newClosure ht hf := ⟨(), le_rfl, ht.of_frames rfl, fun .closure => hf⟩
  define ht hf hv := ⟨(), le_rfl, ht.define hf hv⟩
  assign := by
    intro _ t x e f v t' ht hf hv hassign
    obtain ⟨holder, hfind, rfl⟩ := assign_eq_ok hassign
    exact ⟨(), le_rfl, ht.define (ht.within_of_find? hf hfind) hv⟩
  writeLine _ ht := ⟨(), le_rfl, ht.of_frames rfl⟩
  enterLet := by
    intro _ t xs es b f vs ht hf hvs
    obtain ⟨ht, hnew⟩ := ht.enter_fixed hf hvs xs
    exact ⟨(), le_rfl, ht, fun _ _ => hnew⟩
  enterClosure := by
    intro _ t i l f vs names ht hp hvs
    obtain ⟨ht, hnew⟩ := ht.enter_fixed (hp .closure) hvs names
    exact ⟨(), le_rfl, ht, fun _ _ => hnew⟩

end Store

/-- **Evaluation is confined** to the frames that can be reached from its own, and to those that it makes. -/
theorem eval_confined (fuel n : Nat) (e : Code) (r : FrameId) (s : Store) :
    s.Confined r (eval fuel n e r s).store ∧
      ∀ v t, eval fuel n e r s = .done v t → s.HoldsWithin r v := by
  obtain ⟨_, _, hstore, hvalue⟩ := (s.confinement r).eval_keeps (w := ()) fuel n (.refl s r) (e := e) (.inl .root)
  exact ⟨hstore, hvalue⟩

end MiniScheme
