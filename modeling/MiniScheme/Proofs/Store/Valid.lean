import Mathlib.Order.Nat
import MiniScheme.Proofs.Eval.Invariant
import MiniScheme.Proofs.Store.Frames

/-!
# Valid stores

In a valid store nothing dangles. Every frame lies inside an older one, every closure remembers a frame that exists,
identities are below the next one, and no list is empty. Sessions start with a valid store, and evaluation leaves one.

* `Value.Valid`, `Store.Valid` — values and stores in which nothing dangles.
* `Store.initial_valid` — the store that programs start with.
* `eval_valid`, `call_valid` — evaluations and calls, whatever the limits and however they end.
-/

namespace MiniScheme

open Eval Outcome

/-- The value mentions only frames and identities below the given numbers, and holds no empty list. -/
inductive Value.Valid (frames fresh : Nat) : Value → Prop where
  | plain {v : Value} (hv : v.isPlain = true) : Valid frames fresh v
  | list {i : Nat} {items : List Value} (hi : i < fresh) (hne : items ≠ [])
    (hitems : ∀ v ∈ items, Valid frames fresh v) : Valid frames fresh (.list i items)
  | closure {i : Nat} {l : Lambda} {f : FrameId} (hi : i < fresh) (hf : f < frames) :
    Valid frames fresh (.closure i l f)
  | nan {i : Nat} (hi : i < fresh) : Valid frames fresh (.number (.nan i))

theorem Value.Valid.mono {frames fresh frames' fresh' : Nat} (hframes : frames ≤ frames') (hfresh : fresh ≤ fresh')
    {v : Value} (h : v.Valid frames fresh) : v.Valid frames' fresh' := by
  induction h with
  | plain hv => exact .plain hv
  | list hi hne _ ih => exact .list (hi.trans_le hfresh) hne ih
  | closure hi hf => exact .closure (hi.trans_le hfresh) (hf.trans_le hframes)
  | nan hi => exact .nan (hi.trans_le hfresh)

/-- The bindings hold only values that mention frames and identities below the given numbers. -/
def Bindings.Valid (frames fresh : Nat) (bindings : Bindings) : Prop := ∀ b ∈ bindings, b.2.Valid frames fresh

namespace Store

/-- Nothing in the store dangles. -/
structure Valid (s : Store) : Prop where
  bindings : ∀ {f : FrameId} {frame : Frame}, s.frames[f]? = some frame → frame.bindings.Valid s.frames.size s.fresh
  enclosing : ∀ {f outer : FrameId} {frame : Frame},
    s.frames[f]? = some frame → frame.enclosing = some outer → outer < f
  global : globalFrame < s.frames.size

namespace Valid

variable {s : Store} {v : Value} {values : List Value} {name : String} {f : FrameId}

theorem value_of_get (h : s.Valid) (hget : s.get name f = .ok v) : v.Valid s.frames.size s.fresh := by
  obtain ⟨_, frame, -, hframe, hvalue⟩ := get_eq_ok hget
  exact h.bindings hframe _ (Bindings.mem_of_get? hvalue)

/-- What is used up of the identities, and what is written, does not matter. -/
theorem of_frames {t : Store} (h : s.Valid) (hframes : t.frames = s.frames) (hfresh : s.fresh ≤ t.fresh) : t.Valid := by
  constructor
  · intro f frame hframe b hb
    rw [hframes] at hframe ⊢
    exact (h.bindings hframe b hb).mono le_rfl hfresh
  · intro f outer frame hframe
    rw [hframes] at hframe
    exact h.enclosing hframe
  · rw [hframes]
    exact h.global

theorem define (h : s.Valid) (hv : v.Valid s.frames.size s.fresh) : (s.define name v f).Valid := by
  constructor
  · intro g frame hframe b hb
    obtain ⟨old, hold, -, rfl | ⟨-, hbindings⟩⟩ := getElem?_define_eq_some hframe
    · simpa using h.bindings hold b hb
    · rw [hbindings] at hb
      rcases Bindings.mem_put hb with rfl | hb
      · simpa using hv
      · simpa using h.bindings hold b hb
  · intro g outer frame hframe houter
    obtain ⟨old, hold, henclosing, -⟩ := getElem?_define_eq_some hframe
    exact h.enclosing hold (henclosing ▸ houter)
  · simpa using h.global

theorem push {frame : Frame} (h : s.Valid) (hbindings : frame.bindings.Valid s.frames.size s.fresh)
    (henclosing : ∀ outer, frame.enclosing = some outer → outer < s.frames.size) : (s.push frame).Valid := by
  constructor
  · intro g frame' hframe b hb
    have hsize : s.frames.size ≤ (s.push frame).frames.size := by simp
    rw [getElem?_push] at hframe
    split at hframe
    · cases hframe
      exact (hbindings b hb).mono hsize le_rfl
    · exact (h.bindings hframe b hb).mono hsize le_rfl
  · intro g outer frame' hframe houter
    rw [getElem?_push] at hframe
    split at hframe
    · next hg =>
      cases hframe
      exact hg ▸ henclosing outer houter
    · exact h.enclosing hframe houter
  · rw [size_push]
    exact h.global.trans (Nat.lt_succ_self _)

theorem enter_fixed (h : s.Valid) (hvalues : ∀ v ∈ values, v.Valid s.frames.size s.fresh) (hf : f < s.frames.size)
    (names : List Name) : (s.enter (.fixed names) values f).2.Valid := by
  refine h.push ?_ ?_
  · intro b hb
    rcases Bindings.mem_putAll hb with hb | hundefined | hvalue
    · cases hb
    · rw [hundefined]
      exact .plain rfl
    · exact hvalues _ hvalue
  · intro outer houter
    cases houter
    exact hf

theorem newList (h : s.Valid) : (s.newList values).2.Valid := by
  cases values with
  | nil => exact h
  | cons => exact h.of_frames rfl (Nat.le_succ s.fresh)

end Valid

theorem newList_value_valid {s : Store} {values : List Value} (hvalues : ∀ v ∈ values, v.Valid s.frames.size s.fresh) :
    (s.newList values).1.Valid s.frames.size (s.newList values).2.fresh := by
  cases values with
  | nil => exact .plain rfl
  | cons v vs =>
    refine .list (Nat.lt_succ_self s.fresh) nofun fun w hw => ?_
    exact (hvalues w hw).mono le_rfl (Nat.le_succ s.fresh)

theorem fresh_le_newList {s : Store} (values : List Value) : s.fresh ≤ (s.newList values).2.fresh := by
  cases values with
  | nil => exact le_rfl
  | cons => exact Nat.le_succ s.fresh

theorem initial_valid : initial.Valid := by
  constructor
  · intro f frame hframe b hb
    rw [initial, getElem?_push] at hframe
    split at hframe
    · cases hframe
      obtain ⟨p, -, rfl⟩ := List.mem_map.1 hb
      exact .plain rfl
    · cases hframe
  · intro f outer frame hframe houter
    rw [initial, getElem?_push] at hframe
    split at hframe
    · cases hframe
      cases houter
    · cases hframe
  · decide

/-- How many frames and identities there are. -/
def sizes (s : Store) : Nat × Nat := (s.frames.size, s.fresh)

end Store

/-! ## Evaluation -/

/-- Evaluation leaves stores valid, and comes to values that are valid in them. -/
def Store.validity : Invariant (Nat × Nat) where
  store w s := s.Valid ∧ s.sizes = w
  value w v := v.Valid w.1 w.2
  runs w _ f := f < w.1
  value_mono hle h := h.mono hle.1 hle.2
  runs_mono hle h := lt_of_lt_of_le h hle.1
  plain hv := .plain hv
  item := by
    rintro w i items v (hv | ⟨-, -, hitems⟩) hmem
    · cases hv
    · exact hitems v hmem
  part h _ := h
  get := by
    rintro w s x f v ⟨hs, rfl⟩ _ hget
    exact hs.value_of_get hget
  newList := by
    rintro w s items ⟨hs, rfl⟩ hitems
    refine ⟨_, ⟨?_, fresh_le_newList items⟩, ⟨hs.newList, rfl⟩, ?_⟩
    · simp [sizes]
    · simpa [sizes] using newList_value_valid hitems
  newNaN := by
    rintro w s ⟨hs, rfl⟩
    have hvalid : s.newNaN.2.Valid := hs.of_frames rfl (Nat.le_succ s.fresh)
    exact ⟨s.newNaN.2.sizes, ⟨le_rfl, Nat.le_succ s.fresh⟩, ⟨hvalid, rfl⟩, .nan (Nat.lt_succ_self s.fresh)⟩
  newClosure := by
    rintro w s ps b f ⟨hs, rfl⟩ hf
    have hvalid : (s.newClosure ⟨ps, b⟩ f).2.Valid := hs.of_frames rfl (Nat.le_succ s.fresh)
    refine ⟨(s.newClosure ⟨ps, b⟩ f).2.sizes, ⟨le_rfl, Nat.le_succ s.fresh⟩, ⟨hvalid, rfl⟩, ?_⟩
    exact .closure (Nat.lt_succ_self s.fresh) hf
  define := by
    rintro w s x e f v ⟨hs, rfl⟩ _ hv
    exact ⟨_, le_rfl, hs.define hv, by simp [sizes]⟩
  assign := by
    rintro w s x e f v s' ⟨hs, rfl⟩ _ hv hassign
    obtain ⟨holder, -, rfl⟩ := assign_eq_ok hassign
    exact ⟨_, le_rfl, hs.define hv, by simp [sizes]⟩
  writeLine := by
    rintro w s text ⟨hs, rfl⟩
    exact ⟨_, le_rfl, hs.of_frames rfl le_rfl, rfl⟩
  enterLet := by
    rintro w s xs es b f vs ⟨hs, rfl⟩ hf hvs
    refine ⟨(s.enter (.fixed xs) vs f).2.sizes, ⟨?_, le_rfl⟩, ⟨hs.enter_fixed hvs hf xs, rfl⟩, fun d _ => ?_⟩
    · simp [sizes, enter_fixed]
    · simp [sizes, enter_fixed]
  enterClosure := by
    rintro w s i l f vs names ⟨hs, rfl⟩ (hv | - | ⟨-, hf⟩ | -) hvs
    · cases hv
    · refine ⟨(s.enter (.fixed names) vs f).2.sizes, ⟨?_, le_rfl⟩, ⟨hs.enter_fixed hvs hf names, rfl⟩, fun d _ => ?_⟩
      · simp [sizes, enter_fixed]
      · simp [sizes, enter_fixed]

/-- The outcome has a valid store with no fewer frames and identities than `s`, and a value that is valid in it. -/
structure Outcome.Valid (s : Store) (o : Outcome Value) : Prop where
  store : o.store.Valid
  frames : s.frames.size ≤ o.store.frames.size
  fresh : s.fresh ≤ o.store.fresh
  value : ∀ v s', o = .done v s' → v.Valid s'.frames.size s'.fresh

theorem Outcome.Valid.of_keeps {s : Store} {o : Outcome Value} (h : Store.validity.Keeps s.sizes o) : o.Valid s := by
  obtain ⟨u, hle, ⟨hstore, rfl⟩, hvalue⟩ := h
  refine ⟨hstore, hle.1, hle.2, fun v s' hdone => ?_⟩
  subst hdone
  exact hvalue v s' rfl

variable {s : Store} {e : Code} {f : FrameId}

/-- **Evaluation leaves a valid store.** -/
theorem eval_valid (fuel n : Nat) (hs : s.Valid) (hf : f < s.frames.size) : (eval fuel n e f s).Valid s :=
  .of_keeps (Store.validity.eval_keeps fuel n ⟨hs, rfl⟩ hf)

/-- **Calls leave a valid store.** -/
theorem call_valid (fuel n : Nat) {p : Value} {vs : List Value} (hs : s.Valid)
    (hp : p.Valid s.frames.size s.fresh) (hvs : ∀ v ∈ vs, v.Valid s.frames.size s.fresh) :
    (call (eval fuel) n p vs s).Valid s :=
  .of_keeps (Store.validity.call_keeps fuel n ⟨hs, rfl⟩ hp hvs)

end MiniScheme
