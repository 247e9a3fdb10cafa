import MiniScheme.Proofs.Store.Bindings
import MiniScheme.Proofs.Store.Reach

/-!
# Stores that agree but for numbers

Frames and identities are numbered in the order in which they are made, which nothing in a program can see. A renaming
says which frames and which identities of two stores go together.

* `Renaming` — one-to-one relations of frames and of identities, ordered by extension.
* `Value.Matches`, `Store.Matches` — values and stores that agree but for a renaming.
* `Matches.define`, `Matches.push`, `Matches.nextIdentity` — the operations on stores that match.
* `Matches.reaches` — what can be reached in one store can be reached in the other.
-/

namespace MiniScheme

open List (Forall₂)

/-- Which frames and identities of two stores go together. Neither is mixed up. -/
structure Renaming where
  frame : FrameId → FrameId → Prop
  identity : Nat → Nat → Prop
  frame_iff : ∀ {f g f' g'}, frame f g → frame f' g' → (f = f' ↔ g = g')
  identity_iff : ∀ {i j i' j'}, identity i j → identity i' j' → (i = i' ↔ j = j')

namespace Renaming

/-- A renaming comes before those that extend it. -/
instance : Preorder Renaming where
  le w u := (∀ {f g}, w.frame f g → u.frame f g) ∧ ∀ {i j}, w.identity i j → u.identity i j
  le_refl _ := ⟨id, id⟩
  le_trans _ _ _ h h' := ⟨fun hf => h'.1 (h.1 hf), fun hi => h'.2 (h.2 hi)⟩

/-- A relation of numbers below two bounds stays one-to-one if the bounds are related too. -/
theorem iff_of_below {R : Nat → Nat → Prop} {m n : Nat} (hlt : ∀ {i j}, R i j → i < m ∧ j < n)
    (hiff : ∀ {i j i' j'}, R i j → R i' j' → (i = i' ↔ j = j')) {i j i' j' : Nat} (h : R i j ∨ i = m ∧ j = n)
    (h' : R i' j' ∨ i' = m ∧ j' = n) : i = i' ↔ j = j' := by
  rcases h with h | ⟨rfl, rfl⟩
  · rcases h' with h' | ⟨rfl, rfl⟩
    · exact hiff h h'
    · have := hlt h
      omega
  · rcases h' with h' | ⟨rfl, rfl⟩
    · have := hlt h'
      omega
    · simp

/-- The renaming that the other way round goes from the second store to the first. -/
def flip (w : Renaming) : Renaming where
  frame f g := w.frame g f
  identity i j := w.identity j i
  frame_iff h h' := (w.frame_iff h h').symm
  identity_iff h h' := (w.identity_iff h h').symm

variable (w : Renaming) {m n : Nat}

/-- Two frames more go together. -/
def addFrame (m n : Nat) (hlt : ∀ {f g}, w.frame f g → f < m ∧ g < n) : Renaming where
  frame f g := w.frame f g ∨ f = m ∧ g = n
  identity := w.identity
  frame_iff := iff_of_below hlt w.frame_iff
  identity_iff := w.identity_iff

/-- Two identities more go together. -/
def addIdentity (m n : Nat) (hlt : ∀ {i j}, w.identity i j → i < m ∧ j < n) : Renaming where
  frame := w.frame
  identity i j := w.identity i j ∨ i = m ∧ j = n
  frame_iff := w.frame_iff
  identity_iff := iff_of_below hlt w.identity_iff

theorem le_addFrame (hlt : ∀ {f g}, w.frame f g → f < m ∧ g < n) : w ≤ w.addFrame m n hlt := ⟨.inl, id⟩

theorem le_addIdentity (hlt : ∀ {i j}, w.identity i j → i < m ∧ j < n) : w ≤ w.addIdentity m n hlt := ⟨id, .inl⟩

end Renaming

/-! ## Values -/

theorem exists_mem_of_forall₂ {α β : Type} {R : α → β → Prop} {as : List α} {bs : List β} (h : Forall₂ R as bs) {a : α}
    (ha : a ∈ as) : ∃ b ∈ bs, R a b := by
  induction h with
  | nil => cases ha
  | cons hab _ ih =>
    rcases List.mem_cons.1 ha with rfl | ha
    · exact ⟨_, List.mem_cons_self, hab⟩
    · obtain ⟨b, hb, hR⟩ := ih ha
      exact ⟨b, List.mem_cons_of_mem _ hb, hR⟩

/-- The values agree but for the renaming. -/
inductive Value.Matches (w : Renaming) : Value → Value → Prop where
  | plain {v : Value} (hv : v.isPlain = true) : Matches w v v
  | list {i j : Nat} {vs vs' : List Value} (hi : w.identity i j) (hne : vs ≠ []) (hlength : vs.length = vs'.length)
    (hitems : ∀ p ∈ vs.zip vs', Matches w p.1 p.2) : Matches w (.list i vs) (.list j vs')
  | closure {i j : Nat} {l : Lambda} {f g : FrameId} (hi : w.identity i j) (hf : w.frame f g) :
    Matches w (.closure i l f) (.closure j l g)
  | nan {i j : Nat} (hi : w.identity i j) : Matches w (.number (.nan i)) (.number (.nan j))

namespace Value.Matches

variable {w u : Renaming} {v v' : Value} {vs vs' : List Value} {f : FrameId}

theorem mono (hle : w ≤ u) (h : Value.Matches w v v') : Value.Matches u v v' := by
  induction h with
  | plain hv => exact .plain hv
  | list hi hne hlength _ ih => exact .list (hle.2 hi) hne hlength ih
  | closure hi hf => exact .closure (hle.2 hi) (hle.1 hf)
  | nan hi => exact .nan (hle.2 hi)

theorem of_items {i j : Nat} (hi : w.identity i j) (hne : vs ≠ []) (h : Forall₂ (Value.Matches w) vs vs') :
    Value.Matches w (.list i vs) (.list j vs') :=
  .list hi hne h.length_eq fun _ hp => (List.forall₂_iff_zip.1 h).2 hp

theorem items {i j : Nat} (h : Value.Matches w (.list i vs) (.list j vs')) : Forall₂ (Value.Matches w) vs vs' := by
  cases h with
  | plain hv => cases hv
  | list _ _ hlength hitems => exact List.forall₂_iff_zip.2 ⟨hlength, fun hp => hitems _ hp⟩

theorem flip (h : Value.Matches w v v') : Value.Matches w.flip v' v := by
  induction h with
  | plain hv => exact .plain hv
  | @list i j vs vs' hi hne hlength _ ih =>
    have hflipped : Forall₂ (fun v v' => Value.Matches w.flip v' v) vs vs' :=
      List.forall₂_iff_zip.2 ⟨hlength, fun hp => ih _ hp⟩
    have hne' : vs' ≠ [] := by
      rintro rfl
      exact hne (List.eq_nil_of_length_eq_zero hlength)
    exact of_items hi hne' hflipped.flip
  | closure hi hf => exact .closure hi hf
  | nan hi => exact .nan hi

/-- A closure somewhere in a value has its counterpart. -/
theorem holds (h : Value.Matches w v v') (hf : v.Holds f) : ∃ g, w.frame f g ∧ v'.Holds g := by
  induction hf generalizing v' with
  | closure =>
    cases h with
    | plain hv => cases hv
    | closure _ hf => exact ⟨_, hf, .closure⟩
  | item hv _ ih =>
    cases h with
    | plain hplain => cases hplain
    | list hi hne hlength hitems =>
      obtain ⟨v', hv', hmatches⟩ := exists_mem_of_forall₂ (items (.list hi hne hlength hitems)) hv
      obtain ⟨g, hg, hholds⟩ := ih hmatches
      exact ⟨g, hg, .item hv' hholds⟩

/-- Values that match are printed, compared and computed with alike. -/
theorem correspondence (w : Renaming) : Value.Correspondence (Value.Matches w) where
  alike h := by
    cases h with
    | plain hv => exact .plain hv
    | list hi hne hlength hitems => exact .list (items (.list hi hne hlength hitems))
    | closure => exact .closure
    | nan => exact .nan
  plain hv := .plain hv
  same {v _ v' _} h h' := by
    cases h with
    | plain hv =>
      cases h' with
      | plain => rfl
      | nan => cases v <;> rfl
      | list | closure => cases v <;> first | rfl | cases hv
    | list hi =>
      cases h' with
      | plain hv' => cases v' <;> first | rfl | cases hv'
      | list hi' => simp [Value.same, w.identity_iff hi hi']
      | closure | nan => rfl
    | closure hi =>
      cases h' with
      | plain hv' => cases v' <;> first | rfl | cases hv'
      | list | nan => rfl
      | closure hi' => simp [Value.same, w.identity_iff hi hi']
    | nan =>
      cases h' with
      | plain => cases v' <;> rfl
      | _ => rfl
  nan h h' := by
    cases h with
    | plain hv => cases hv
    | nan hi =>
      cases h' with
      | plain hv => cases hv
      | nan hi' => exact (w.identity_iff hi hi').symm

/-- A value matches itself if all that it mentions goes together with itself. -/
theorem refl_of_valid {m n m' n' : Nat} (hv : v.Valid m n) (hv' : v.Valid m' n')
    (hidentity : ∀ i, i < n → i < n' → w.identity i i) (hframe : ∀ {g}, v.Holds g → w.frame g g) :
    Value.Matches w v v := by
  induction hv with
  | plain hv => exact .plain hv
  | list hi hne _ ih =>
    cases hv' with
    | plain hv => cases hv
    | list hi' _ hitems =>
      refine of_items (hidentity _ hi hi') hne (List.forall₂_same.2 fun v hv => ?_)
      exact ih v hv (hitems v hv) fun hg => hframe (.item hv hg)
  | closure hi _ =>
    cases hv' with
    | plain hv => cases hv
    | closure hi' _ => exact .closure (hidentity _ hi hi') (hframe .closure)
  | nan hi =>
    cases hv' with
    | plain hv => cases hv
    | nan hi' => exact .nan (hidentity _ hi hi')

/-- A value that matches another is valid where all that is renamed exists. -/
theorem valid {frames fresh : Nat} (h : Value.Matches w v v') (hframe : ∀ {f g}, w.frame f g → f < frames)
    (hidentity : ∀ {i j}, w.identity i j → i < fresh) : v.Valid frames fresh := by
  induction h with
  | plain hv => exact .plain hv
  | @list i j vs vs' hi hne hlength _ ih =>
    refine .list (hidentity hi) hne fun v hv => ?_
    have hvalid : Forall₂ (fun v _ => v.Valid frames fresh) vs vs' :=
      List.forall₂_iff_zip.2 ⟨hlength, fun hp => ih _ hp⟩
    obtain ⟨_, _, hv⟩ := exists_mem_of_forall₂ hvalid hv
    exact hv
  | closure hi hf => exact .closure (hidentity hi) (hframe hf)
  | nan hi => exact .nan (hidentity hi)

end Value.Matches

/-! ## Bindings and frames -/

/-- The same names are bound, in the same order, to values that match. -/
def Bindings.Matches (w : Renaming) : Bindings → Bindings → Prop :=
  Forall₂ fun b b' => b'.1 = b.1 ∧ Value.Matches w b.2 b'.2

namespace Bindings.Matches

variable {w u : Renaming} {bs bs' : Bindings} {v v' : Value} {name : String}

theorem mono (hle : w ≤ u) (h : Bindings.Matches w bs bs') : Bindings.Matches u bs bs' :=
  List.Forall₂.imp (fun _ _ hb => ⟨hb.1, hb.2.mono hle⟩) h

theorem flip (h : Bindings.Matches w bs bs') : Bindings.Matches w.flip bs' bs :=
  List.Forall₂.flip (List.Forall₂.imp (fun _ _ hb => ⟨hb.1.symm, hb.2.flip⟩) h)

/-- Equal names are names that go together one-to-one. -/
theorem name_iff {k k' x y : String} (hk : k' = k) (hx : y = x) : k = x ↔ k' = y := by rw [hk, hx]

theorem get? (h : Bindings.Matches w bs bs') (name : String) :
    Option.Rel (Value.Matches w) (bs.get? name) (bs'.get? name) :=
  Bindings.Agree.get? name_iff h rfl

theorem put (h : Bindings.Matches w bs bs') (hv : Value.Matches w v v') :
    Bindings.Matches w (bs.put name v) (bs'.put name v') :=
  Bindings.Agree.put name_iff h rfl hv

theorem putAll {vs vs' : List Value} (h : Bindings.Matches w bs bs') (hvs : Forall₂ (Value.Matches w) vs vs')
    (names : List String) : Bindings.Matches w (Bindings.putAll names vs bs) (Bindings.putAll names vs' bs') :=
  Bindings.Agree.putAll name_iff (.plain rfl) h (List.forall₂_same.2 fun _ _ => rfl) hvs

end Bindings.Matches

/-- The frames bind the same names to values that match, and lie inside frames that go together. -/
structure Frame.Matches (w : Renaming) (frame frame' : Frame) : Prop where
  bindings : Bindings.Matches w frame.bindings frame'.bindings
  enclosing : Option.Rel w.frame frame.enclosing frame'.enclosing

theorem Frame.Matches.mono {w u : Renaming} {frame frame' : Frame} (hle : w ≤ u) (h : Frame.Matches w frame frame') :
    Frame.Matches u frame frame' :=
  ⟨h.bindings.mono hle, rel_option_imp h.enclosing hle.1⟩

theorem Frame.Matches.flip {w : Renaming} {frame frame' : Frame} (h : Frame.Matches w frame frame') :
    Frame.Matches w.flip frame' frame :=
  ⟨h.bindings.flip, rel_option_flip h.enclosing⟩

/-! ## Stores -/

/-- In both stores nothing dangles, and frames that go together match. -/
structure Store.Matches (w : Renaming) (s t : Store) : Prop where
  left : s.Valid
  right : t.Valid
  identity_lt : ∀ {i j}, w.identity i j → i < s.fresh ∧ j < t.fresh
  frame : ∀ {f g}, w.frame f g →
    ∃ frame frame', s.frames[f]? = some frame ∧ t.frames[g]? = some frame' ∧ Frame.Matches w frame frame'

namespace Store.Matches

variable {w : Renaming} {s t : Store} {f g f' : FrameId} {v v' : Value} {vs vs' : List Value} {name : String}

theorem frame_lt (h : Store.Matches w s t) (hf : w.frame f g) : f < s.frames.size ∧ g < t.frames.size := by
  obtain ⟨_, _, hframe, hframe', -⟩ := h.frame hf
  exact ⟨lt_of_getElem? hframe, lt_of_getElem? hframe'⟩

theorem flip (h : Store.Matches w s t) : Store.Matches w.flip t s where
  left := h.right
  right := h.left
  identity_lt hi := (h.identity_lt hi).symm
  frame hf := by
    obtain ⟨frame, frame', hframe, hframe', hmatches⟩ := h.frame hf
    exact ⟨frame', frame, hframe', hframe, hmatches.flip⟩

theorem value_valid (h : Store.Matches w s t) (hv : Value.Matches w v v') : v.Valid s.frames.size s.fresh :=
  hv.valid (fun hf => (h.frame_lt hf).1) fun hi => (h.identity_lt hi).1

theorem bindings_valid (h : Store.Matches w s t) {bs bs' : Bindings} (hbs : Bindings.Matches w bs bs') :
    bs.Valid s.frames.size s.fresh := by
  intro b hb
  obtain ⟨_, _, -, hvalue⟩ := exists_mem_of_forall₂ hbs hb
  exact h.value_valid hvalue

theorem enclosing_lt (h : Store.Matches w s t) {frame frame' : Frame} (hframe : Frame.Matches w frame frame')
    (outer : FrameId) (houter : frame.enclosing = some outer) : outer < s.frames.size := by
  rcases rel_option_cases hframe.enclosing with ⟨hnone, -⟩ | ⟨_, _, hsome, -, hrel⟩
  · rw [houter] at hnone
    cases hnone
  · cases houter.symm.trans hsome
    exact (h.frame_lt hrel).1

/-! ### Lookup -/

theorem framesAgree (h : Store.Matches w s t) (name : String) : FramesAgree s t name w.frame := by
  intro f g hf
  obtain ⟨frame, frame', hframe, hframe', hmatches⟩ := h.frame hf
  refine ⟨frame, frame', hframe, hframe', ?_, hmatches.enclosing⟩
  rcases rel_option_cases (hmatches.bindings.get? name) with ⟨hnone, hnone'⟩ | ⟨_, _, hsome, hsome', -⟩
  · simp [hnone, hnone']
  · simp [hsome, hsome']

theorem find? (h : Store.Matches w s t) (hf : w.frame f g) (name : String) :
    Option.Rel w.frame (s.find? name f) (t.find? name g) :=
  find?_rel h.left h.right (h.framesAgree name) hf

theorem get (h : Store.Matches w s t) (hf : w.frame f g) (name : String) :
    (∃ v v', s.get name f = .ok v ∧ t.get name g = .ok v' ∧ Value.Matches w v v') ∨
      ∃ e, s.get name f = .error e ∧ t.get name g = .error e := by
  simp only [Store.get]
  rcases rel_option_cases (h.find? hf name) with ⟨hnone, hnone'⟩ | ⟨holder, holder', hfind, hfind', hholder⟩
  · rw [hnone, hnone']
    exact .inr ⟨_, rfl, rfl⟩
  · obtain ⟨frame, frame', hframe, hframe', hmatches⟩ := h.frame hholder
    simp only [hfind, hfind', valueIn?, hframe, hframe']
    rcases rel_option_cases (hmatches.bindings.get? name) with ⟨hnone, hnone'⟩ | ⟨v, v', hsome, hsome', hv⟩
    · rw [hnone, hnone']
      exact .inr ⟨_, rfl, rfl⟩
    · rw [hsome, hsome']
      exact .inl ⟨v, v', rfl, rfl, hv⟩

/-- **What can be reached in one store has its counterpart in the other.** -/
theorem reaches (h : Store.Matches w s t) (hf : w.frame f g) (hreach : s.Reaches f f') :
    ∃ g', w.frame f' g' ∧ t.Reaches g g' := by
  induction hreach with
  | root => exact ⟨g, hf, .root⟩
  | enclosing _ hframe houter ih =>
    obtain ⟨k, hk, hreach⟩ := ih
    obtain ⟨_, frame', hold, hframe', hmatches⟩ := h.frame hk
    cases hold.symm.trans hframe
    rcases rel_option_cases hmatches.enclosing with ⟨hnone, -⟩ | ⟨_, outer', hsome, hsome', hrel⟩
    · rw [houter] at hnone
      cases hnone
    · cases houter.symm.trans hsome
      exact ⟨outer', hrel, .enclosing hreach hframe' hsome'⟩
  | captured _ hframe hb hg ih =>
    obtain ⟨k, hk, hreach⟩ := ih
    obtain ⟨_, frame', hold, hframe', hmatches⟩ := h.frame hk
    cases hold.symm.trans hframe
    obtain ⟨b', hb', -, hvalue⟩ := exists_mem_of_forall₂ hmatches.bindings hb
    obtain ⟨g', hg', hholds⟩ := hvalue.holds hg
    exact ⟨g', hg', .captured hreach hframe' hb' hholds⟩

/-! ### Operations -/

theorem define (h : Store.Matches w s t) (hf : w.frame f g) (hv : Value.Matches w v v') :
    Store.Matches w (s.define name v f) (t.define name v' g) where
  left := h.left.define (h.value_valid hv)
  right := h.right.define (h.flip.value_valid hv.flip)
  identity_lt := h.identity_lt
  frame := by
    intro k k' hk
    obtain ⟨frame, frame', hframe, hframe', hmatches⟩ := h.frame hk
    -- the definition hits both frames of a pair or neither, as renamings are one-to-one
    have hsame : f = k ↔ g = k' := w.frame_iff hf hk
    rw [getElem?_define, getElem?_define, hframe, hframe']
    by_cases hfk : f = k
    · rw [if_pos hfk, if_pos (hsame.1 hfk)]
      exact ⟨_, _, rfl, rfl, hmatches.bindings.put hv, hmatches.enclosing⟩
    · rw [if_neg hfk, if_neg (hsame.not.1 hfk)]
      exact ⟨_, _, rfl, rfl, hmatches⟩

/-- Two new frames that match go together. -/
theorem push (h : Store.Matches w s t) {frame frame' : Frame} (hframe : Frame.Matches w frame frame') :
    Store.Matches (w.addFrame s.frames.size t.frames.size h.frame_lt) (s.push frame) (t.push frame') := by
  have hle := w.le_addFrame h.frame_lt
  constructor
  · exact h.left.push (h.bindings_valid hframe.bindings) (h.enclosing_lt hframe)
  · exact h.right.push (h.flip.bindings_valid hframe.flip.bindings) (h.flip.enclosing_lt hframe.flip)
  · exact h.identity_lt
  · rintro f g (hf | ⟨rfl, rfl⟩)
    · obtain ⟨old, old', hold, hold', hmatches⟩ := h.frame hf
      obtain ⟨hlt, hlt'⟩ := h.frame_lt hf
      refine ⟨old, old', ?_, ?_, hmatches.mono hle⟩
      · rw [getElem?_push, if_neg hlt.ne, hold]
      · rw [getElem?_push, if_neg hlt'.ne, hold']
    · refine ⟨frame, frame', ?_, ?_, hframe.mono hle⟩
      · rw [getElem?_push, if_pos rfl]
      · rw [getElem?_push, if_pos rfl]

/-- The next two identities go together. -/
theorem nextIdentity (h : Store.Matches w s t) :
    Store.Matches (w.addIdentity s.fresh t.fresh h.identity_lt) { s with fresh := s.fresh + 1 }
      { t with fresh := t.fresh + 1 } where
  left := h.left.of_frames rfl (Nat.le_succ _)
  right := h.right.of_frames rfl (Nat.le_succ _)
  identity_lt := by
    rintro i j (hi | ⟨rfl, rfl⟩)
    · have hlt := h.identity_lt hi
      exact ⟨hlt.1.trans (Nat.lt_succ_self _), hlt.2.trans (Nat.lt_succ_self _)⟩
    · exact ⟨Nat.lt_succ_self _, Nat.lt_succ_self _⟩
  frame hf := by
    obtain ⟨frame, frame', hframe, hframe', hmatches⟩ := h.frame hf
    exact ⟨frame, frame', hframe, hframe', hmatches.mono (w.le_addIdentity h.identity_lt)⟩

end Store.Matches
end MiniScheme
