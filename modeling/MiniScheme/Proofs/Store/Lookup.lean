import MiniScheme.Proofs.Store.Valid

/-!
# Looking names up

Where a name is found depends on the frames from which it is seen, and on nothing else in the store.

* `Store.Binds`, `Store.OnChain` — what a frame binds, and which frames are seen from it.
* `binds_define`, `binds_assign`, `binds_push` — what operations on the store make frames bind.
* `get_of_frames`, `find?_rel` — stores of the same frames, or of frames that go together, find names alike.
-/

namespace MiniScheme
namespace Store

/-- The frame binds the name. -/
def Binds (s : Store) (name : String) (f : FrameId) : Prop := (s.valueIn? name f).isSome

instance (s : Store) (name : String) (f : FrameId) : Decidable (s.Binds name f) :=
  inferInstanceAs (Decidable ((s.valueIn? name f).isSome = true))

/-- The frame `g` is `f` or lies around it. -/
inductive OnChain (s : Store) : FrameId → FrameId → Prop where
  | here {f : FrameId} : OnChain s f f
  | outer {f outer g : FrameId} {frame : Frame} (hframe : s.frames[f]? = some frame)
    (houter : frame.enclosing = some outer) (h : OnChain s outer g) : OnChain s f g

variable {s t : Store} {name other : String} {f g : FrameId} {v : Value} {frame : Frame}

theorem binds_iff :
    s.Binds name f ↔ ∃ frame, s.frames[f]? = some frame ∧ (frame.bindings.get? name).isSome := by
  unfold Binds valueIn?
  cases s.frames[f]? with
  | none => simp
  | some frame => simp

theorem Binds.lt (h : s.Binds name f) : f < s.frames.size := by
  obtain ⟨frame, hframe, -⟩ := binds_iff.1 h
  exact lt_of_getElem? hframe

theorem findWithin_succ {frame : Frame} (bound : Nat) (hframe : s.frames[f]? = some frame) :
    s.findWithin name (bound + 1) f =
      if (frame.bindings.get? name).isSome then some f else frame.enclosing.bind (s.findWithin name bound) := by
  simp only [findWithin, hframe]
  cases frame.enclosing <;> rfl

theorem binds_of_findWithin {bound : Nat} {holder : FrameId} (h : s.findWithin name bound f = some holder) :
    s.Binds name holder := by
  induction bound generalizing f with
  | zero => cases h
  | succ bound ih =>
    cases hframe : s.frames[f]? with
    | none => simp [findWithin, hframe] at h
    | some frame =>
      rw [findWithin_succ bound hframe] at h
      split at h
      · next hbinds =>
        cases h
        exact binds_iff.2 ⟨frame, hframe, hbinds⟩
      · obtain ⟨outer, -, houter⟩ := Option.bind_eq_some_iff.1 h
        exact ih houter

theorem binds_of_find? {holder : FrameId} (h : s.find? name f = some holder) : s.Binds name holder :=
  binds_of_findWithin h

/-- A name is found in a frame that is seen. -/
theorem onChain_of_findWithin {bound : Nat} {holder : FrameId} (h : s.findWithin name bound f = some holder) :
    s.OnChain f holder := by
  induction bound generalizing f with
  | zero => cases h
  | succ bound ih =>
    cases hframe : s.frames[f]? with
    | none => simp [findWithin, hframe] at h
    | some frame =>
      rw [findWithin_succ bound hframe] at h
      split at h
      · cases h
        exact .here
      · obtain ⟨outer, houter, hfind⟩ := Option.bind_eq_some_iff.1 h
        exact .outer hframe houter (ih hfind)

theorem get_of_find?_eq_none (h : s.find? name f = none) : s.get name f = .error (.unbound name) := by
  rw [get, h]

theorem get_of_find?_eq_some (h : s.find? name f = some g) :
    ∃ v, s.valueIn? name g = some v ∧ s.get name f = .ok v := by
  obtain ⟨v, hv⟩ := Option.isSome_iff_exists.1 (binds_of_find? h)
  refine ⟨v, hv, ?_⟩
  rw [get, h]
  simp only [hv]

/-! ## Operations -/

theorem valueIn?_define : (s.define name v f).valueIn? other g =
    if f = g ∧ name = other ∧ g < s.frames.size then some v else s.valueIn? other g := by
  unfold valueIn?
  rw [getElem?_define]
  by_cases hframe : f = g
  · subst hframe
    cases hold : s.frames[f]? with
    | none =>
      have hout : ¬f < s.frames.size := by simpa using hold
      simp [hout]
    | some frame =>
      have hin := lt_of_getElem? hold
      by_cases hname : name = other <;> simp [hname, hin]
  · simp [hframe]

theorem binds_define :
    (s.define name v f).Binds other g ↔ s.Binds other g ∨ f = g ∧ name = other ∧ g < s.frames.size := by
  rw [Binds, valueIn?_define, Binds]
  split
  · next hstored => exact iff_of_true rfl (.inr hstored)
  · next hkept => exact (or_iff_left hkept).symm

theorem binds_push (hg : g < s.frames.size) : (s.push frame).Binds other g ↔ s.Binds other g := by
  simp only [binds_iff, getElem?_push, if_neg hg.ne]

theorem map_enclosing_define :
    (s.define name v f).frames[g]?.map Frame.enclosing = s.frames[g]?.map Frame.enclosing := by
  rw [getElem?_define]
  split
  · simp [Function.comp_def]
  · rfl

/-- To give a name a new value adds no name to any frame. -/
theorem binds_assign (h : s.assign name v f = .ok t) : t.Binds other g ↔ s.Binds other g := by
  obtain ⟨holder, hfind, rfl⟩ := assign_eq_ok h
  rw [binds_define]
  constructor
  · rintro (hold | ⟨rfl, rfl, -⟩)
    · exact hold
    · exact binds_of_find? hfind
  · exact .inl

/-- Frames that stay where they are make the same chains. -/
theorem OnChain.mono (h : s.OnChain f g)
    (henclosing : ∀ f < s.frames.size, t.frames[f]?.map Frame.enclosing = s.frames[f]?.map Frame.enclosing) :
    t.OnChain f g := by
  induction h with
  | here => exact .here
  | outer hframe houter _ ih =>
    have hmap := henclosing _ (lt_of_getElem? hframe)
    rw [hframe, Option.map_some] at hmap
    obtain ⟨frame', hframe', heq⟩ := Option.map_eq_some_iff.1 hmap
    exact .outer hframe' (heq.trans houter) ih

/-! ## Two stores -/

/-- Where names are found depends on what the frames bind and where they lie. -/
theorem findWithin_congr
    (henclosing : ∀ f : FrameId, t.frames[f]?.map Frame.enclosing = s.frames[f]?.map Frame.enclosing)
    (hbinds : ∀ f, t.Binds name f ↔ s.Binds name f) (bound : Nat) (f : FrameId) :
    t.findWithin name bound f = s.findWithin name bound f := by
  induction bound generalizing f with
  | zero => rfl
  | succ bound ih =>
    have hmap := henclosing f
    have hiff := hbinds f
    cases hframe : s.frames[f]? with
    | none =>
      rw [hframe, Option.map_none, Option.map_eq_none_iff] at hmap
      simp only [findWithin, hframe, hmap]
    | some frame =>
      rw [hframe, Option.map_some] at hmap
      obtain ⟨frame', hframe', heq⟩ := Option.map_eq_some_iff.1 hmap
      simp only [binds_iff, hframe, hframe', Option.some.injEq, exists_eq_left'] at hiff
      rw [findWithin_succ bound hframe, findWithin_succ bound hframe', heq]
      simp only [hiff, ih]

theorem get_of_frames (hframes : t.frames = s.frames) (name : String) (f : FrameId) : t.get name f = s.get name f := by
  have hvalue (g : FrameId) : t.valueIn? name g = s.valueIn? name g := by
    rw [valueIn?, valueIn?, hframes]
  have hfind : t.find? name f = s.find? name f := by
    rw [find?, find?, hframes]
    exact findWithin_congr (fun _ => by rw [hframes]) (fun g => by rw [Binds, Binds, hvalue]) _ f
  simp only [get, hfind, hvalue]

/-- Frames that go together bind the name both or neither, and lie inside frames that go together. -/
def FramesAgree (s t : Store) (name : String) (R : FrameId → FrameId → Prop) : Prop :=
  ∀ f g, R f g → ∃ frame frame', s.frames[f]? = some frame ∧ t.frames[g]? = some frame' ∧
    ((frame'.bindings.get? name).isSome ↔ (frame.bindings.get? name).isSome) ∧
    Option.Rel R frame.enclosing frame'.enclosing

theorem findWithin_rel {R : FrameId → FrameId → Prop} (hs : s.Valid) (ht : t.Valid) (hR : FramesAgree s t name R)
    {m n : Nat} (hm : f < m) (hn : g < n) (h : R f g) :
    Option.Rel R (s.findWithin name m f) (t.findWithin name n g) := by
  induction m generalizing f g n with
  | zero => cases hm
  | succ m ih =>
    cases n with
    | zero => cases hn
    | succ n =>
      obtain ⟨frame, frame', hframe, hframe', hbinds, henclosing⟩ := hR f g h
      rw [findWithin_succ m hframe, findWithin_succ n hframe']
      simp only [hbinds]
      split
      · exact .some h
      · rcases rel_option_cases henclosing with ⟨hout, hout'⟩ | ⟨outer, outer', hout, hout', houter⟩
        · rw [hout, hout']
          exact .none
        · -- the outer frames are older, so neither bound is used up before its chain ends
          have hlt := hs.enclosing hframe hout
          have hlt' := ht.enclosing hframe' hout'
          rw [hout, hout']
          exact ih (hlt.trans_le (Nat.le_of_lt_succ hm)) (hlt'.trans_le (Nat.le_of_lt_succ hn)) houter

/-- **A name is found in frames that go together.** -/
theorem find?_rel {R : FrameId → FrameId → Prop} (hs : s.Valid) (ht : t.Valid) (hR : FramesAgree s t name R)
    (h : R f g) : Option.Rel R (s.find? name f) (t.find? name g) := by
  obtain ⟨_, _, hframe, hframe', -⟩ := hR f g h
  exact findWithin_rel hs ht hR (lt_of_getElem? hframe) (lt_of_getElem? hframe') h

end Store
end MiniScheme
