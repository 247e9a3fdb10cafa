import MiniScheme.Proofs.Eval.Confinement

/-!
# Names that are never assigned

Which code an evaluation may run can be read off before: the expression itself, and the bodies of the closures that can
be reached from its frame. If none of it assigns to a name, and the expression does not define the name in its own
frame, then every frame keeps what it has for the name. Closures that are made meanwhile bring in no other code.

* `Expr.Assigns` — an assignment to the name occurs in the expression, however deep.
* `Value.LeavesAlone` — no closure that the value is, or holds, assigns to the name.
* `Store.Constant` — what is true of the store throughout.
* `eval_constant` — frames keep what they have for such a name.
-/

namespace MiniScheme

open Eval Outcome

namespace Expr

variable {α : Type}

/-- The expressions of the body, which gets a frame of its own. -/
def body : Expr α → List (Expr α)
  | lambda _ body | letIn _ _ body => body
  | _ => []

/-- An assignment to the name occurs in the expression, also in bodies. -/
inductive Assigns (name : String) : Expr α → Prop where
  | here {target : Name} {value : Expr α} (h : target.lexeme = name) : Assigns name (.assign target value)
  | part {e d : Expr α} (hd : d ∈ e.parts) (h : Assigns name d) : Assigns name e
  | body {e d : Expr α} (hd : d ∈ e.body) (h : Assigns name d) : Assigns name e

theorem not_assigns_of_leaf {name : String} {e : Expr α} (hparts : e.parts = []) (hbody : e.body = []) :
    ¬e.Assigns name := by
  rintro (_ | ⟨hd, -⟩ | ⟨hd, -⟩)
  · cases hparts
  · exact List.not_mem_nil (hparts ▸ hd)
  · exact List.not_mem_nil (hbody ▸ hd)

end Expr

namespace Value

/-- The expression is in the body of a closure that the value is, or that it holds as a list, however deep. -/
inductive HoldsCode : Value → Code → Prop where
  | closure {i : Nat} {l : Lambda} {f : FrameId} {d : Code} (hd : d ∈ l.body) : HoldsCode (.closure i l f) d
  | item {i : Nat} {items : List Value} {v : Value} {d : Code} (hv : v ∈ items) (h : HoldsCode v d) :
    HoldsCode (.list i items) d

/-- No closure that the value is, or holds, assigns to the name. -/
def LeavesAlone (name : String) (v : Value) : Prop := ∀ d, v.HoldsCode d → ¬d.Assigns name

theorem leavesAlone_of_isPlain {name : String} {v : Value} (hv : v.isPlain = true) : v.LeavesAlone name := by
  rintro d (_ | _) <;> cases hv

theorem leavesAlone_number (name : String) (x : Number) : (number x).LeavesAlone name := nofun

end Value

namespace Store

/-- Since `s`, evaluation has stayed within what can be reached from `r`, no closure there assigns to the name, and the
frames there were have what they had for it. -/
structure Constant (s : Store) (r : FrameId) (name : String) (t : Store) : Prop where
  confined : s.Confined r t
  leavesAlone : ∀ {f frame b}, s.Within r f → t.frames[f]? = some frame → b ∈ frame.bindings → b.2.LeavesAlone name
  kept : ∀ {f}, f < s.frames.size → t.valueIn? name f = s.valueIn? name f

variable {s t t' : Store} {r f : FrameId} {name other : String} {v : Value} {values : List Value}

namespace Constant

theorem refl (hclosures : ∀ f frame b, s.Reaches r f → s.frames[f]? = some frame → b ∈ frame.bindings →
    b.2.LeavesAlone name) : s.Constant r name s where
  confined := .refl s r
  leavesAlone hf hframe hb := hclosures _ _ _ (hf.resolve_right (lt_of_getElem? hframe).not_ge) hframe hb
  kept _ := rfl

theorem of_frames (h : s.Constant r name t) (hframes : t'.frames = t.frames) : s.Constant r name t' where
  confined := h.confined.of_frames hframes
  leavesAlone hf hframe := h.leavesAlone hf (hframes ▸ hframe)
  kept hf := by
    rw [← h.kept hf, valueIn?, valueIn?, hframes]

/-- In a frame there was, any name but this one may be given a value. -/
theorem define (h : s.Constant r name t) (hf : s.Within r f) (hholds : s.HoldsWithin r v) (hv : v.LeavesAlone name)
    (hother : s.frames.size ≤ f ∨ other ≠ name) : s.Constant r name (t.define other v f) where
  confined := h.confined.define hf hholds
  leavesAlone := by
    intro g frame b hg hframe hb
    obtain ⟨old, hold, -, rfl | ⟨-, hbindings⟩⟩ := getElem?_define_eq_some hframe
    · exact h.leavesAlone hg hold hb
    · rw [hbindings] at hb
      rcases Bindings.mem_put hb with rfl | hb
      · exact hv
      · exact h.leavesAlone hg hold hb
  kept {g} hg := by
    rw [valueIn?_define, if_neg, h.kept hg]
    rintro ⟨rfl, hname, -⟩
    rcases hother with hnew | hne
    · exact hg.not_ge hnew
    · exact hne hname

theorem enter_fixed (h : s.Constant r name t) (hf : s.Within r f) (hholds : ∀ v ∈ values, s.HoldsWithin r v)
    (hvalues : ∀ v ∈ values, v.LeavesAlone name) (names : List Name) :
    s.Constant r name (t.enter (.fixed names) values f).2 where
  confined := (h.confined.enter_fixed hf hholds names).1
  leavesAlone := by
    intro g frame b hg hframe hb
    rw [Store.enter_fixed, getElem?_push] at hframe
    split at hframe
    · cases hframe
      rcases Bindings.mem_putAll hb with hb | hundefined | hvalue
      · cases hb
      · rw [hundefined]
        exact Value.leavesAlone_of_isPlain rfl
      · exact hvalues _ hvalue
    · exact h.leavesAlone hg hframe hb
  kept {g} hg := by
    rw [← h.kept hg, Store.enter_fixed, valueIn?, valueIn?, getElem?_push,
      if_neg (hg.trans_le h.confined.size_le).ne]

end Constant

/-- Code that may be run in a frame: it assigns to the name nowhere, and it defines the name only in new frames. -/
def MayRun (s : Store) (r : FrameId) (name : String) (e : Code) (f : FrameId) : Prop :=
  s.Within r f ∧ ¬e.Assigns name ∧ (s.frames.size ≤ f ∨ ¬e.Defines name)

/-- Evaluation keeps what the frames have for a name that is assigned nowhere. -/
def constancy (s : Store) (r : FrameId) (name : String) : Invariant Unit where
  store _ t := s.Constant r name t
  value _ v := s.HoldsWithin r v ∧ v.LeavesAlone name
  runs _ e f := s.MayRun r name e f
  value_mono _ h := h
  runs_mono _ h := h
  plain hv := ⟨fun hf => absurd hf (Value.not_holds_of_isPlain hv), Value.leavesAlone_of_isPlain hv⟩
  item h hv := ⟨fun hf => h.1 (.item hv hf), fun d hd => h.2 d (.item hv hd)⟩
  part := by
    rintro _ e d f ⟨hf, hassigns, hdefines⟩ hd
    exact ⟨hf, fun h => hassigns (.part hd h), hdefines.imp id fun hnot h => hnot (.part hd h)⟩
  get := by
    intro _ t x f v ht hruns hget
    obtain ⟨holder, frame, hfind, hframe, hvalue⟩ := get_eq_ok hget
    have hholder := ht.confined.within_of_find? hruns.1 hfind
    have hb := Bindings.mem_of_get? hvalue
    exact ⟨ht.confined.captured hholder hframe hb, ht.leavesAlone hholder hframe hb⟩
  newList := by
    intro _ t items ht hitems
    refine ⟨(), le_rfl, ht.of_frames newList_frames, ?_⟩
    cases items with
    | nil => exact ⟨fun hf => absurd hf (Value.not_holds_of_isPlain rfl), Value.leavesAlone_of_isPlain rfl⟩
    | cons => exact ⟨fun (.item hv hf) => (hitems _ hv).1 hf, fun d (.item hv hd) => (hitems _ hv).2 d hd⟩
  newNaN ht :=
    ⟨(), le_rfl, ht.of_frames rfl, fun hf => absurd hf (Value.not_holds_number _), Value.leavesAlone_number name _⟩
  newClosure := by
    rintro _ t ps b f ht ⟨hf, hassigns, -⟩
    exact ⟨(), le_rfl, ht.of_frames rfl, fun .closure => hf, fun d (.closure hd) h => hassigns (.body hd h)⟩
  define := by
    rintro _ t x e f v ht ⟨hf, -, hdefines⟩ ⟨hholds, hv⟩
    exact ⟨(), le_rfl, ht.define hf hholds hv (hdefines.imp id fun hnot hx => hnot (.here hx))⟩
  assign := by
    rintro _ t x e f v t' ht ⟨hf, hassigns, -⟩ ⟨hholds, hv⟩ hassign
    obtain ⟨holder, hfind, rfl⟩ := assign_eq_ok hassign
    have hholder := ht.confined.within_of_find? hf hfind
    exact ⟨(), le_rfl, ht.define hholder hholds hv (.inr fun hx => hassigns (.here hx))⟩
  writeLine _ ht := ⟨(), le_rfl, ht.of_frames rfl⟩
  enterLet := by
    rintro _ t xs es b f vs ht ⟨hf, hassigns, -⟩ hvs
    refine ⟨(), le_rfl, ht.enter_fixed hf (fun v hv => (hvs v hv).1) (fun v hv => (hvs v hv).2) xs, fun d hd => ?_⟩
    exact ⟨.inr ht.confined.size_le, fun h => hassigns (.body hd h), .inl ht.confined.size_le⟩
  enterClosure := by
    rintro _ t i l f vs names ht ⟨hholds, hcode⟩ hvs
    refine ⟨(), le_rfl, ht.enter_fixed (hholds .closure) (fun v hv => (hvs v hv).1) (fun v hv => (hvs v hv).2) names,
      fun d hd => ?_⟩
    -- the body runs in a new frame, where it may define what it likes
    exact ⟨.inr ht.confined.size_le, hcode d (.closure hd), .inl ht.confined.size_le⟩

end Store

/-- **A name that no code assigns is constant.** Let an expression, and every closure that can be reached from its frame
`r` through frames, the frames around them and lists, assign to a name nowhere, and let the expression define it nowhere
outside its lambda and `let` bodies. Then evaluation, however it ends, leaves every frame that there was with exactly
the value for the name that it had, or with none if it had none. -/
theorem eval_constant (fuel n : Nat) {e : Code} {r : FrameId} {s : Store} {name : String} (hassigns : ¬e.Assigns name)
    (hdefines : ¬e.Defines name)
    (hclosures : ∀ f frame b, s.Reaches r f → s.frames[f]? = some frame → b ∈ frame.bindings → b.2.LeavesAlone name) :
    ∀ f < s.frames.size, (eval fuel n e r s).store.valueIn? name f = s.valueIn? name f := by
  have hruns : s.MayRun r name e r := ⟨.inl .root, hassigns, .inr hdefines⟩
  obtain ⟨_, -, hconstant, -⟩ := (s.constancy r name).eval_keeps (w := ()) fuel n (.refl hclosures) hruns
  exact fun f hf => hconstant.kept hf

/-- `(let ((n #f)) (f n))` -/
def letCallExample : Code :=
  let n : Name := ⟨"n", 0, 0⟩
  .letIn [n] [.literal (.boolean false)] [.call (.symbol ⟨"f", 0, 0⟩) [.symbol n]]

/-- A frame that binds `n` to a value and `f` to a closure that defines `n`. -/
def definerExample : Store :=
  let n : Name := ⟨"n", 0, 0⟩
  let x : Name := ⟨"x", 0, 0⟩
  let definer : Lambda := ⟨.fixed [x], [.define n (.symbol x), .symbol n]⟩
  { frames := #[⟨[("n", .boolean true), ("f", .closure 0 definer 0)], none⟩], fresh := 1, output := "" }

theorem eval_constant_letCall :
    let t := (eval 5 5 letCallExample 0 definerExample).store
    ¬letCallExample.Assigns "n" ∧ ¬letCallExample.Defines "n" ∧
      (∀ f frame b, definerExample.Reaches 0 f → definerExample.frames[f]? = some frame → b ∈ frame.bindings →
        b.2.LeavesAlone "n") ∧
      t.frames.size = 3 ∧ t.valueIn? "n" 1 = some (.boolean false) ∧ t.valueIn? "n" 2 = some (.boolean false) ∧
      t.valueIn? "n" 0 = some (.boolean true) := by
  have hsymbol (x : Name) : ¬(Expr.symbol x : Code).Assigns "n" := Expr.not_assigns_of_leaf rfl rfl
  have hassigns : ¬letCallExample.Assigns "n" := by
    rintro (_ | ⟨hd, h⟩ | ⟨hd, h⟩)
    · cases List.mem_singleton.1 hd
      exact Expr.not_assigns_of_leaf rfl rfl h
    · cases List.mem_singleton.1 hd
      obtain _ | ⟨hd, h⟩ | ⟨hd, -⟩ := h
      · simp only [Expr.parts, List.mem_cons, List.not_mem_nil, or_false] at hd
        rcases hd with rfl | rfl <;> exact hsymbol _ h
      · cases hd
  have hdefines : ¬letCallExample.Defines "n" := by
    rintro (_ | ⟨hd, h⟩)
    cases List.mem_singleton.1 hd
    obtain _ | ⟨hd, -⟩ := h
    cases hd
  have hclosures (f : FrameId) (frame : Frame) (b : String × Value) (hf : definerExample.Reaches 0 f)
      (hframe : definerExample.frames[f]? = some frame) (hb : b ∈ frame.bindings) : b.2.LeavesAlone "n" := by
    obtain rfl : f = 0 := Nat.lt_one_iff.1 (Store.lt_of_getElem? hframe)
    cases hframe
    change b ∈ [_, _] at hb
    simp only [List.mem_cons, List.not_mem_nil, or_false] at hb
    rcases hb with rfl | rfl
    · exact Value.leavesAlone_of_isPlain rfl
    · rintro d ⟨hd⟩
      simp only [List.mem_cons, List.not_mem_nil, or_false] at hd
      rcases hd with rfl | rfl
      · rintro (_ | ⟨hd, h⟩ | ⟨hd, -⟩)
        · cases List.mem_singleton.1 hd
          exact hsymbol _ h
        · cases hd
      · exact hsymbol _
  exact ⟨hassigns, hdefines, hclosures, rfl, rfl, rfl, eval_constant 5 5 hassigns hdefines hclosures 0 (by decide)⟩

end MiniScheme
