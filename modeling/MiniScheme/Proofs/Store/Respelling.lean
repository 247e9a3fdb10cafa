import MiniScheme.Proofs.Expr.Respelling
import MiniScheme.Proofs.Store.Bindings
import MiniScheme.Proofs.Store.Lookup

/-!
# Stores that agree but for the name of a parameter

Of two closures one may have been made of a lambda and the other of the same lambda with a parameter respelt. The frames
that their bodies make then bind other names, and so do the closures made in these frames. What a frame was made for
decides how it is spelt in the other store, and every name is still looked up in the same frame.

* `Respelling` — the parameter, its new spelling, and the closures that are made of respelt lambdas.
* `Origins` — what every frame was made for, ordered by extension.
* `Value.Respelt`, `Store.Respelt` — values and stores that agree but for the spelling of what these closures make.
* `Respelt.refl` — every valid store agrees with itself.
* `Respelt.find?`, `Respelt.get` — a name and the name it goes with are found in the same frame.
* `Respelt.define`, `Respelt.push`, `Respelt.enter` — the operations on stores that agree.
-/

namespace MiniScheme

open List (Forall₂)

/-! ## Spellings -/

/-- A parameter and how it is spelt instead, in the closures of certain identities. -/
structure Respelling where
  old : String
  new : String
  /-- The closure of this identity is made of a lambda that is respelt. -/
  Made : Nat → Prop

/-- What a frame was made for. -/
inductive Origin where
  | elsewhere
  /-- The body of a closure that is made of a respelt lambda, or something in such a body. -/
  | body
  deriving DecidableEq, Repr

namespace Respelling

/-- How the names in a frame are spelt in the other store. -/
def spell (ρ : Respelling) : Origin → String → String
  | .elsewhere => id
  | .body => spelling ρ.old ρ.new

/-- The spelling that is new in a frame is none of the names. -/
def Spares (ρ : Respelling) : Origin → List String → Prop
  | .elsewhere, _ => True
  | .body, names => ρ.new ∉ names

/-- In a frame of this origin `x` goes with `y`. -/
structure Names (ρ : Respelling) (o : Origin) (x y : String) : Prop where
  spared : ρ.Spares o [x]
  spelt : y = ρ.spell o x

variable {ρ : Respelling} {o outer : Origin} {x y x' y' : String} {xs xs' : List String}

theorem Spares.of_subset (hsubset : xs' ⊆ xs) (h : ρ.Spares o xs) : ρ.Spares o xs' := by
  cases o with
  | elsewhere => trivial
  | body => exact fun hmem => h (hsubset hmem)

/-- **Different names stay different.** -/
theorem Names.iff (h : ρ.Names o x y) (h' : ρ.Names o x' y') : x = x' ↔ y = y' := by
  obtain ⟨hspared, rfl⟩ := h
  obtain ⟨hspared', rfl⟩ := h'
  cases o with
  | elsewhere => exact Iff.rfl
  | body =>
    have hx : x ≠ ρ.new := fun h => hspared (List.mem_singleton.2 h.symm)
    have hx' : x' ≠ ρ.new := fun h => hspared' (List.mem_singleton.2 h.symm)
    simp only [spell, spelling]
    grind

/-- Names that are spared go with the way in which they are spelt. -/
theorem names_of_spares (h : ρ.Spares o xs) : Forall₂ (ρ.Names o) xs (xs.map (ρ.spell o)) := by
  refine List.forall₂_map_right_iff.2 (List.forall₂_same.2 fun x hx => ⟨h.of_subset ?_, rfl⟩)
  exact List.cons_subset.2 ⟨hx, List.nil_subset _⟩

end Respelling

/-! ## Origins -/

/-- A frame of the second origin may lie right inside one of the first: they are the same, or the inner one is that of a
respelt body, which `entered` has to allow. -/
inductive Origin.Around (entered : Prop) : Origin → Origin → Prop where
  | same {o : Origin} : Around entered o o
  | entered (h : entered) : Around entered .elsewhere .body

namespace Origin.Around

variable {entered entered' : Prop} {ρ : Respelling} {o outer : Origin} {x y : String}

theorem imp (hentered : entered → entered') (h : Around entered outer o) : Around entered' outer o := by
  cases h with
  | same => exact .same
  | entered h => exact .entered (hentered h)

/-- A name goes with the same name outside, unless it is the parameter and the body was entered here. -/
theorem names (h : Around entered outer o) (hx : ρ.Names o x y) (hother : entered → x ≠ ρ.old) :
    ρ.Names outer x y := by
  cases h with
  | same => exact hx
  | entered h => exact ⟨trivial, hx.spelt.trans (if_neg (hother h))⟩

end Origin.Around

/-- The origins of the frames of a store, in the order in which they were made. -/
structure Origins where
  list : List Origin

namespace Origins

instance : Preorder Origins where
  le w u := w.list <+: u.list
  le_refl _ := List.prefix_rfl
  le_trans _ _ _ := List.IsPrefix.trans

/-- The origin of a frame. -/
def of? (w : Origins) (f : FrameId) : Option Origin := w.list[f]?

/-- One frame more. -/
def push (w : Origins) (o : Origin) : Origins := ⟨w.list ++ [o]⟩

/-- So many frames, none of them made for a respelt body. -/
def elsewhere (frames : Nat) : Origins := ⟨List.replicate frames .elsewhere⟩

variable {w u : Origins} {f : FrameId} {o o' : Origin} {frames : Nat}

theorem of?_mono (hle : w ≤ u) (h : w.of? f = some o) : u.of? f = some o := by
  obtain ⟨hlt, rfl⟩ := List.getElem?_eq_some_iff.1 h
  exact List.prefix_iff_getElem?.1 hle f hlt

theorem lt_of_of? (h : w.of? f = some o) : f < w.list.length := (List.getElem?_eq_some_iff.1 h).1

theorem le_push (w : Origins) (o : Origin) : w ≤ w.push o := List.prefix_append _ _

theorem of?_push_new (w : Origins) (o : Origin) : (w.push o).of? w.list.length = some o := by
  simp [of?, push]

theorem of?_push_eq_some (h : (w.push o).of? f = some o') : w.of? f = some o' ∨ f = w.list.length ∧ o' = o := by
  rcases Nat.lt_or_ge f w.list.length with hlt | hge
  · rw [of?, push, List.getElem?_append_left hlt] at h
    exact .inl h
  · have hlt : f < (w.push o).list.length := lt_of_of? h
    rw [push, List.length_append, List.length_singleton] at hlt
    obtain rfl : f = w.list.length := Nat.le_antisymm (Nat.le_of_lt_succ hlt) hge
    rw [of?_push_new] at h
    exact .inr ⟨rfl, (Option.some.inj h).symm⟩

theorem of?_elsewhere (hf : f < frames) : (elsewhere frames).of? f = some .elsewhere := by
  simp [of?, elsewhere, hf]

theorem eq_elsewhere (h : (elsewhere frames).of? f = some o) : f < frames ∧ o = .elsewhere := by
  obtain ⟨hlt, rfl⟩ := List.getElem?_eq_some_iff.1 h
  exact ⟨by simpa [elsewhere] using hlt, by simp [elsewhere]⟩

theorem elsewhere_mono {frames' : Nat} (hle : frames ≤ frames') : elsewhere frames ≤ elsewhere frames' := by
  obtain ⟨more, rfl⟩ := Nat.exists_eq_add_of_le hle
  exact ⟨List.replicate more .elsewhere, List.replicate_append_replicate⟩

end Origins

/-! ## Values -/

/-- The values agree but for the spelling. A closure is the same in both stores, unless it was made in a respelt body or
is itself made of a lambda with the parameter respelt. -/
inductive Value.Respelt (ρ : Respelling) (w : Origins) : Value → Value → Prop where
  | plain {v : Value} (hv : v.isPlain = true) : Respelt ρ w v v
  | list {i : Nat} {vs vs' : List Value} (hlength : vs.length = vs'.length)
    (hitems : ∀ p ∈ vs.zip vs', Respelt ρ w p.1 p.2) : Respelt ρ w (.list i vs) (.list i vs')
  | closure {i : Nat} {l : Lambda} {f : FrameId} {outer o : Origin} (hf : w.of? f = some outer)
    (haround : outer.Around (ρ.Made i ∧ ρ.old ∈ l.params.lexemes) o) (hspared : ρ.Spares o l.lexemes) :
    Respelt ρ w (.closure i l f) (.closure i (l.respelt (ρ.spell o)) f)
  | nan (i : Nat) : Respelt ρ w (.number (.nan i)) (.number (.nan i))

namespace Value.Respelt

variable {ρ : Respelling} {w u : Origins} {v v' : Value} {vs vs' : List Value} {frames fresh : Nat}

theorem mono (hle : w ≤ u) (h : Value.Respelt ρ w v v') : Value.Respelt ρ u v v' := by
  induction h with
  | plain hv => exact .plain hv
  | list hlength _ ih => exact .list hlength ih
  | closure hf haround hspared => exact .closure (Origins.of?_mono hle hf) haround hspared
  | nan i => exact .nan i

theorem of_items (i : Nat) (h : Forall₂ (Value.Respelt ρ w) vs vs') : Value.Respelt ρ w (.list i vs) (.list i vs') :=
  .list h.length_eq fun _ hp => (List.forall₂_iff_zip.1 h).2 hp

theorem items {i j : Nat} (h : Value.Respelt ρ w (.list i vs) (.list j vs')) : Forall₂ (Value.Respelt ρ w) vs vs' := by
  cases h with
  | plain hv => cases hv
  | list hlength hitems => exact List.forall₂_iff_zip.2 ⟨hlength, fun hp => hitems _ hp⟩

/-- Values that agree are printed, compared and computed with alike. -/
theorem correspondence (ρ : Respelling) (w : Origins) : Value.Correspondence (Value.Respelt ρ w) where
  alike h := by
    cases h with
    | plain hv => exact .plain hv
    | list hlength hitems => exact .list (items (.list (i := 0) hlength hitems))
    | closure => exact .closure
    | nan => exact .nan
  plain hv := .plain hv
  same {v _ v' _} h h' := by
    cases h with
    | plain hv =>
      cases h' with
      | plain => rfl
      | list | closure | nan => cases v <;> rfl
    | list | closure | nan =>
      cases h' with
      | plain hv' => cases v' <;> rfl
      | list | closure | nan => rfl
  nan h h' := by
    cases h with
    | plain hv => cases hv
    | nan =>
      cases h' with
      | plain hv => cases hv
      | nan => rfl

theorem refl_of_valid (hv : v.Valid frames fresh) : Value.Respelt ρ (.elsewhere frames) v v := by
  induction hv with
  | plain hv => exact .plain hv
  | list _ _ _ ih => exact of_items _ (List.forall₂_same.2 ih)
  | @closure i l f _ hf =>
    have h : Value.Respelt ρ (.elsewhere frames) (.closure i l f) (.closure i (l.respelt id) f) :=
      .closure (Origins.of?_elsewhere hf) .same trivial
    rwa [l.respelt_id] at h
  | nan => exact .nan _

end Value.Respelt

/-! ## Frames -/

/-- Frames under the same number, made for the same, agree but for the spelling. -/
structure Frame.Respelt (ρ : Respelling) (w : Origins) (f : FrameId) (o : Origin) (frame frame' : Frame) : Prop where
  bindings : Bindings.Agree (ρ.Names o) (Value.Respelt ρ w) frame.bindings frame'.bindings
  enclosing : frame'.enclosing = frame.enclosing
  outer : ∀ g, frame.enclosing = some g →
    g < f ∧ ∃ outer, w.of? g = some outer ∧ outer.Around (frame.bindings.get? ρ.old).isSome o
  outermost : frame.enclosing = none → o = .elsewhere

theorem Frame.Respelt.mono {ρ : Respelling} {w u : Origins} {f : FrameId} {o : Origin} {frame frame' : Frame}
    (hle : w ≤ u) (h : Frame.Respelt ρ w f o frame frame') : Frame.Respelt ρ u f o frame frame' where
  bindings := h.bindings.imp fun _ _ hb => ⟨hb.1, hb.2.mono hle⟩
  enclosing := h.enclosing
  outer g hg := by
    obtain ⟨hlt, outer, hof, haround⟩ := h.outer g hg
    exact ⟨hlt, outer, Origins.of?_mono hle hof, haround⟩
  outermost := h.outermost

theorem Bindings.isSome_get?_putAll {x : String} {names : List String} {values : List Value} {bindings : Bindings}
    (h : x ∈ names ∨ (bindings.get? x).isSome) : ((putAll names values bindings).get? x).isSome := by
  induction names generalizing values bindings with
  | nil =>
    rcases h with hx | hx
    · cases hx
    · exact hx
  | cons name names ih =>
    have hput (v : Value) : x ∈ names ∨ ((bindings.put name v).get? x).isSome := by
      rw [get?_put]
      rcases h with hx | hx
      · rcases List.mem_cons.1 hx with rfl | hx
        · simp
        · exact .inl hx
      · by_cases hname : name = x <;> simp [hname, hx]
    cases values with
    | nil => exact ih (hput .undefined)
    | cons value values => exact ih (hput value)

/-! ## Stores -/

/-- The stores agree but for the spelling: as many frames lie inside one another in the same way, and as much was
written and made. -/
structure Store.Respelt (ρ : Respelling) (w : Origins) (s t : Store) : Prop where
  size : s.frames.size = w.list.length
  size_right : t.frames.size = w.list.length
  fresh : t.fresh = s.fresh
  output : t.output = s.output
  frame : ∀ {f o}, w.of? f = some o →
    ∃ frame frame', s.frames[f]? = some frame ∧ t.frames[f]? = some frame' ∧ Frame.Respelt ρ w f o frame frame'

namespace Store.Respelt

variable {ρ : Respelling} {w : Origins} {s t s' t' : Store} {f : FrameId} {o outer : Origin} {x y : String}
  {v v' : Value} {vs vs' : List Value}

theorem of_frames (h : Store.Respelt ρ w s t) (hs : s'.frames = s.frames) (ht : t'.frames = t.frames)
    (hfresh : t'.fresh = s'.fresh) (houtput : t'.output = s'.output) : Store.Respelt ρ w s' t' := by
  refine ⟨?_, ?_, hfresh, houtput, ?_⟩
  · rw [hs, h.size]
  · rw [ht, h.size_right]
  · rw [hs, ht]
    exact h.frame

/-- **A valid store agrees with itself.** -/
theorem refl (hs : s.Valid) : Store.Respelt ρ (.elsewhere s.frames.size) s s where
  size := by simp [Origins.elsewhere]
  size_right := by simp [Origins.elsewhere]
  fresh := rfl
  output := rfl
  frame := by
    intro f o hf
    obtain ⟨hlt, rfl⟩ := Origins.eq_elsewhere hf
    obtain ⟨frame, hframe⟩ := exists_frame hlt
    refine ⟨frame, frame, hframe, hframe, ?_, rfl, fun g hg => ?_, fun _ => rfl⟩
    · refine List.forall₂_same.2 fun b hb => ⟨⟨trivial, rfl⟩, ?_⟩
      exact .refl_of_valid (hs.bindings hframe b hb)
    · have hout := hs.enclosing hframe hg
      exact ⟨hout, .elsewhere, Origins.of?_elsewhere (hout.trans hlt), .same⟩

/-! ### Lookup -/

/-- The search for a name goes through the same frames, and one that finds nothing was for a name that is spelt
alike. -/
theorem findWithin (h : Store.Respelt ρ w s t) (hf : w.of? f = some o) (hx : ρ.Names o x y) {bound : Nat}
    (hbound : f < bound) :
    (∃ g holder, w.of? g = some holder ∧ ρ.Names holder x y ∧
        s.findWithin x bound f = some g ∧ t.findWithin y bound f = some g) ∨
      y = x ∧ s.findWithin x bound f = none ∧ t.findWithin y bound f = none := by
  induction bound generalizing f o with
  | zero => cases hbound
  | succ bound ih =>
    obtain ⟨frame, frame', hframe, hframe', hrespelt⟩ := h.frame hf
    rw [findWithin_succ bound hframe, findWithin_succ bound hframe', hrespelt.enclosing]
    rcases rel_option_cases (hrespelt.bindings.get? Respelling.Names.iff hx) with
      ⟨hnone, hnone'⟩ | ⟨_, _, hsome, hsome', -⟩
    · rw [hnone, hnone']
      cases henclosing : frame.enclosing with
      | none =>
        obtain rfl := hrespelt.outermost henclosing
        exact .inr ⟨hx.spelt, rfl, rfl⟩
      | some g =>
        -- where a respelt body was entered its parameter is bound, so this is another name and stays the same
        obtain ⟨hlt, outer, hg, haround⟩ := hrespelt.outer g henclosing
        refine ih hg (haround.names hx ?_) (hlt.trans_le (Nat.le_of_lt_succ hbound))
        rintro hold rfl
        simp [hnone] at hold
    · rw [hsome, hsome']
      exact .inl ⟨f, o, hf, hx, rfl, rfl⟩

/-- **A name and the one it goes with are found in the same frame.** -/
theorem find? (h : Store.Respelt ρ w s t) (hf : w.of? f = some o) (hx : ρ.Names o x y) :
    (∃ g holder, w.of? g = some holder ∧ ρ.Names holder x y ∧ s.find? x f = some g ∧ t.find? y f = some g) ∨
      y = x ∧ s.find? x f = none ∧ t.find? y f = none := by
  unfold Store.find?
  rw [h.size_right, ← h.size]
  exact h.findWithin hf hx (h.size ▸ Origins.lt_of_of? hf)

theorem get (h : Store.Respelt ρ w s t) (hf : w.of? f = some o) (hx : ρ.Names o x y) :
    (∃ v v', s.get x f = .ok v ∧ t.get y f = .ok v' ∧ Value.Respelt ρ w v v') ∨
      ∃ e, s.get x f = .error e ∧ t.get y f = .error e := by
  simp only [Store.get]
  rcases h.find? hf hx with ⟨g, holder, hg, hx, hfind, hfind'⟩ | ⟨rfl, hfind, hfind'⟩
  · obtain ⟨frame, frame', hframe, hframe', hrespelt⟩ := h.frame hg
    obtain ⟨_, hold, hbound⟩ := binds_iff.1 (binds_of_find? hfind)
    cases hframe.symm.trans hold
    simp only [hfind, hfind', valueIn?, hframe, hframe']
    rcases rel_option_cases (hrespelt.bindings.get? Respelling.Names.iff hx) with
      ⟨hnone, -⟩ | ⟨v, v', hsome, hsome', hv⟩
    · simp [hnone] at hbound
    · rw [hsome, hsome']
      exact .inl ⟨v, v', rfl, rfl, hv⟩
  · rw [hfind, hfind']
    exact .inr ⟨_, rfl, rfl⟩

/-! ### Operations -/

theorem define (h : Store.Respelt ρ w s t) (hf : w.of? f = some o) (hx : ρ.Names o x y) (hv : Value.Respelt ρ w v v') :
    Store.Respelt ρ w (s.define x v f) (t.define y v' f) where
  size := by rw [size_define, h.size]
  size_right := by rw [size_define, h.size_right]
  fresh := h.fresh
  output := h.output
  frame := by
    intro g o' hg
    obtain ⟨frame, frame', hframe, hframe', hrespelt⟩ := h.frame hg
    rw [getElem?_define, getElem?_define, hframe, hframe']
    by_cases hfg : f = g
    · subst hfg
      cases hf.symm.trans hg
      rw [if_pos rfl, if_pos rfl]
      refine ⟨_, _, rfl, rfl, hrespelt.bindings.put Respelling.Names.iff hx hv, hrespelt.enclosing,
        fun outer houter => ?_, hrespelt.outermost⟩
      obtain ⟨hlt, origin, hof, haround⟩ := hrespelt.outer outer houter
      refine ⟨hlt, origin, hof, haround.imp fun hbound => ?_⟩
      rw [Bindings.get?_put]
      split
      · rfl
      · exact hbound
    · rw [if_neg hfg, if_neg hfg]
      exact ⟨_, _, rfl, rfl, hrespelt⟩

theorem push (h : Store.Respelt ρ w s t) {frame frame' : Frame}
    (hframe : Frame.Respelt ρ w w.list.length o frame frame') :
    Store.Respelt ρ (w.push o) (s.push frame) (t.push frame') where
  size := by simp [Origins.push, h.size]
  size_right := by simp [Origins.push, h.size_right]
  fresh := h.fresh
  output := h.output
  frame := by
    intro f o' hf
    rw [getElem?_push, getElem?_push, h.size, h.size_right]
    rcases Origins.of?_push_eq_some hf with hold | ⟨rfl, rfl⟩
    · obtain ⟨old, old', hold₁, hold₂, hrespelt⟩ := h.frame hold
      have hne := (Origins.lt_of_of? hold).ne
      rw [if_neg hne, if_neg hne]
      exact ⟨old, old', hold₁, hold₂, hrespelt.mono (w.le_push o)⟩
    · rw [if_pos rfl, if_pos rfl]
      exact ⟨frame, frame', rfl, rfl, hframe.mono (w.le_push o')⟩

theorem newList (h : Store.Respelt ρ w s t) (hvs : Forall₂ (Value.Respelt ρ w) vs vs') :
    Value.Respelt ρ w (s.newList vs).1 (t.newList vs').1 ∧ Store.Respelt ρ w (s.newList vs).2 (t.newList vs').2 := by
  have hitems := Value.Respelt.of_items s.fresh hvs
  cases hvs with
  | nil => exact ⟨.plain rfl, h⟩
  | cons =>
    unfold Store.newList
    dsimp only
    rw [h.fresh]
    exact ⟨hitems, h.of_frames rfl rfl rfl h.output⟩

theorem enter_fixed (h : Store.Respelt ρ w s t) (hf : w.of? f = some outer) {names : List Name}
    (haround : outer.Around (ρ.old ∈ names.map (·.lexeme)) o) (hspared : ρ.Spares o (names.map (·.lexeme)))
    (hvs : Forall₂ (Value.Respelt ρ w) vs vs') :
    let entered := s.enter (.fixed names) vs f
    let entered' := t.enter (.fixed (names.map (Name.respelt (ρ.spell o)))) vs' f
    Store.Respelt ρ (w.push o) entered.2 entered'.2 ∧ entered'.1 = entered.1 ∧ (w.push o).of? entered.1 = some o := by
  simp only [Store.enter_fixed, lexemes_respelt]
  refine ⟨h.push ⟨?_, rfl, fun g hg => ?_, nofun⟩, h.size_right.trans h.size.symm, ?_⟩
  · exact .putAll Respelling.Names.iff (.plain rfl) .nil (Respelling.names_of_spares hspared) hvs
  · cases hg
    exact ⟨Origins.lt_of_of? hf, outer, hf, haround.imp fun hx => Bindings.isSome_get?_putAll (.inl hx)⟩
  · rw [h.size, Origins.of?_push_new]

/-- **Two bodies that agree are entered in frames that agree.** -/
theorem enter (h : Store.Respelt ρ w s t) (hf : w.of? f = some outer) {params : Params}
    (haround : outer.Around (ρ.old ∈ params.lexemes) o) (hspared : ρ.Spares o params.lexemes)
    (hvs : Forall₂ (Value.Respelt ρ w) vs vs') :
    let entered := s.enter params vs f
    let entered' := t.enter (params.respelt (ρ.spell o)) vs' f
    Store.Respelt ρ (w.push o) entered.2 entered'.2 ∧ entered'.1 = entered.1 ∧ (w.push o).of? entered.1 = some o := by
  cases params with
  | fixed names => exact h.enter_fixed hf haround hspared hvs
  | variadic name =>
    obtain ⟨hlist, hstores⟩ := h.newList hvs
    have hone : [name].map (·.lexeme) = (Params.variadic name).lexemes := rfl
    rw [← hone] at haround hspared
    simp only [Params.respelt, Store.enter_variadic]
    exact hstores.enter_fixed hf haround hspared (.cons hlist .nil)

end Store.Respelt
end MiniScheme
