import MiniScheme.Proofs.Session.Arising
import MiniScheme.Proofs.Store.Reach

/-!
# Chains of frames

Values may lead in circles: a closure can be put into the frame that it was made in, or into an older one. The frames
themselves cannot. Each lies inside one that was there before it, so from every frame a chain of older and older frames
leads to the global one, where every search for a name ends at the latest.

* `Store.Search` — the search for a name, from a frame outwards, with no bound on its steps.
* `Store.Framed` — how the frames of a store lie inside one another, and what closures remember of them.
* `Store.LooksUp` — every lookup and every assignment comes to what the search comes to.
* `Session.frames_lead_to_global` — all this holds whenever something is looked up in the course of a session.
-/

namespace MiniScheme
namespace Store

/-- The search for a name outwards from a frame, if there is one, ends: at the first frame that binds the name, or
where no frame is left. -/
inductive Search (s : Store) (name : String) : Option FrameId → Option FrameId → Prop where
  | found {f : FrameId} (h : s.Binds name f) : Search s name (some f) (some f)
  | outwards {f : FrameId} {frame : Frame} {holder : Option FrameId} (hframe : s.frames[f]? = some frame)
    (h : ¬s.Binds name f) (hs : Search s name frame.enclosing holder) : Search s name (some f) holder
  | missed : Search s name none none

variable {s t : Store} {made : List Value} {name : String} {f g : FrameId}

/-! ## Searching -/

/-- A search has one end. -/
theorem Search.unique {start holder holder' : Option FrameId} (h : s.Search name start holder)
    (h' : s.Search name start holder') : holder' = holder := by
  induction h with
  | found hbinds =>
    cases h' with
    | found => rfl
    | outwards _ hmisses _ => exact absurd hbinds hmisses
  | outwards hframe hmisses _ ih =>
    cases h' with
    | found hbinds => exact absurd hbinds hmisses
    | outwards hframe' _ hs =>
      cases hframe.symm.trans hframe'
      exact ih hs
  | missed =>
    cases h'
    rfl

/-- A frame on the chain that binds the name is not passed by. -/
theorem Search.isSome {holder : Option FrameId} (h : s.Search name (some f) holder) (hchain : s.OnChain f g)
    (hg : s.Binds name g) : holder.isSome = true := by
  induction hchain generalizing holder with
  | here =>
    cases h with
    | found => rfl
    | outwards _ hmisses _ => exact absurd hg hmisses
  | outer hframe houter _ ih =>
    cases h with
    | found => rfl
    | outwards hframe' _ hs =>
      cases hframe.symm.trans hframe'
      rw [houter] at hs
      exact ih hs hg

/-- So many steps are enough for a search from a frame that is not younger. -/
theorem search_findWithin (hs : s.Valid) {bound : Nat} (hbound : f < bound) (hf : f < s.frames.size) :
    s.Search name (some f) (s.findWithin name bound f) := by
  induction bound generalizing f with
  | zero => cases hbound
  | succ bound ih =>
    obtain ⟨frame, hframe⟩ := exists_frame hf
    have hbinds : s.Binds name f ↔ (frame.bindings.get? name).isSome = true := by simp [binds_iff, hframe]
    rw [findWithin_succ bound hframe]
    split
    · next h => exact .found (hbinds.2 h)
    · next h =>
      refine .outwards hframe (mt hbinds.1 h) ?_
      cases houter : frame.enclosing with
      | none => exact .missed
      | some outer =>
        -- the frame around is older, so one step less is enough for it
        have hlt := hs.enclosing hframe houter
        exact ih (hlt.trans_le (Nat.le_of_lt_succ hbound)) (hlt.trans hf)

/-- **Every search ends**, within as many steps as there are frames. -/
theorem Valid.search (hs : s.Valid) (name : String) (hf : f < s.frames.size) :
    s.Search name (some f) (s.find? name f) :=
  search_findWithin hs hf hf

/-! ## Looking up and assigning -/

/-- All that is looked up in the store, or assigned, is done where the search for its name ends. -/
structure LooksUp (s : Store) : Prop where
  search : ∀ name {f}, f < s.frames.size → ∃! holder, s.Search name (some f) holder
  found : ∀ {name f g}, s.Search name (some f) (some g) →
    (∃ v, s.valueIn? name g = some v ∧ s.get name f = .ok v) ∧
      ∀ v, s.assign name v f = .ok (s.define name v g)
  missed : ∀ {name f}, s.Search name (some f) none →
    s.get name f = .error (.unbound name) ∧ ∀ v, s.assign name v f = .error (.unbound name)
  /-- The names of primitives are never unbound. -/
  primitive : ∀ (p : Primitive) {f}, f < s.frames.size → ∃ v, s.get p.name f = .ok v

theorem Search.lt {holder : Option FrameId} (h : s.Search name (some f) holder) : f < s.frames.size := by
  cases h with
  | found h => exact h.lt
  | outwards hframe => exact lt_of_getElem? hframe

/-! ## Chains -/

/-- Frames lie inside older ones, up to the global frame, which binds the names of all primitives. Closures that are
bound, or are among the values, also inside lists, remember frames that exist. -/
structure Framed (s : Store) (values : List Value) : Prop where
  older : ∀ {f outer : FrameId} {frame : Frame}, s.frames[f]? = some frame → frame.enclosing = some outer → outer < f
  outermost : ∀ {frame : Frame}, s.frames[globalFrame]? = some frame → frame.enclosing = none
  rooted : ∀ {f : FrameId}, f < s.frames.size → s.OnChain f globalFrame
  bound : ∀ {f g : FrameId} {frame : Frame} {b : String × Value},
    s.frames[f]? = some frame → b ∈ frame.bindings → b.2.Holds g → g < s.frames.size
  captured : ∀ {v : Value} {g : FrameId}, v ∈ values → v.Holds g → g < s.frames.size
  primitives : ∀ p : Primitive, s.Binds p.name globalFrame

namespace Arises

/-- Nothing lies around the global frame, and every frame has its chain to it. -/
theorem rooted (h : s.Arises made) (hf : f < s.frames.size) : s.OnChain f globalFrame := by
  induction h generalizing f with
  | initial =>
    obtain rfl : f = 0 := by simpa [Store.initial, push, empty] using hf
    exact .here
  | newList _ _ ih =>
    rw [newList_frames] at hf
    exact (ih hf).mono fun g _ => by rw [newList_frames]
  | newNaN _ ih | newClosure _ _ _ ih => exact (ih hf).mono fun _ _ => rfl
  | define _ _ _ _ ih =>
    rw [size_define] at hf
    exact (ih hf).mono fun _ _ => map_enclosing_define
  | @enter s made args _ names _ outer houter ih =>
    have hold : ∀ {g}, g < s.frames.size → (s.enter (.fixed names) args outer).2.OnChain g globalFrame := fun hg =>
      (ih hg).mono fun g hg => by rw [enter_fixed, getElem?_push, if_neg hg.ne]
    rw [enter_fixed, size_push] at hf
    rcases Nat.lt_succ_iff_lt_or_eq.1 hf with hlt | rfl
    · exact hold hlt
    · -- the new frame lies directly inside one that has its chain already
      exact .outer (getElem?_push.trans (if_pos rfl)) rfl (hold houter)
  | output _ _ ih => exact (ih hf).mono fun _ _ => rfl

theorem binds_primitive (h : s.Arises made) (p : Primitive) : s.Binds p.name globalFrame := by
  induction h with
  | initial => cases p <;> decide
  | newList _ _ ih => simpa only [binds_iff, newList_frames] using ih
  | newNaN _ ih | newClosure _ _ _ ih | output _ _ ih => exact ih
  | define _ _ _ _ ih => exact binds_define.2 (.inl ih)
  | enter h _ _ _ ih => exact (binds_push h.valid.global).2 ih

/-- **Frames make chains whenever something is looked up.** -/
theorem framed (h : s.Arises made) {values : List Value} (hvalues : ∀ v ∈ values, v.Known made) : s.Framed values where
  older := h.valid.enclosing
  outermost := by
    intro frame hframe
    cases houter : frame.enclosing with
    | none => rfl
    | some outer => exact absurd (h.valid.enclosing hframe houter) (Nat.not_lt_zero outer)
  rooted := h.rooted
  bound hframe hb hg := (h.valid.bindings hframe _ hb).lt_of_holds hg
  captured hv hg := (h.value_valid (hvalues _ hv)).lt_of_holds hg
  primitives := h.binds_primitive

/-- **Every lookup ends**, and that of a primitive's name with a value. -/
theorem looksUp (h : s.Arises made) : s.LooksUp where
  search name f hf := ⟨_, h.valid.search name hf, fun _ hsearch => (h.valid.search name hf).unique hsearch⟩
  found {name f g} hsearch := by
    have hfind : s.find? name f = some g := hsearch.unique (h.valid.search name hsearch.lt)
    exact ⟨get_of_find?_eq_some hfind, fun v => by rw [assign, hfind]⟩
  missed {name f} hsearch := by
    have hfind : s.find? name f = none := hsearch.unique (h.valid.search name hsearch.lt)
    exact ⟨get_of_find?_eq_none hfind, fun v => by rw [assign, hfind]⟩
  primitive p f hf := by
    have hsearch := h.valid.search p.name hf
    obtain ⟨g, hfind⟩ := Option.isSome_iff_exists.1 (hsearch.isSome (h.rooted hf) (h.binds_primitive p))
    obtain ⟨v, -, hget⟩ := get_of_find?_eq_some hfind
    exact ⟨v, hget⟩

end Arises
end Store

namespace Session

/-- **All frames lead to the global one, so that every search for a name ends.** Whatever texts a session has run, each
frame lies inside an older one, up to the global frame, which lies in none and binds the name of every primitive; and
every closure that a frame holds, a list in it, or a result, remembers a frame that exists. So a search for a name has
one end; to look the name up or to assign it is to do it there, or fails if the name is bound nowhere on the way; and
the name of a primitive is found from every frame. All this also holds in the middle of a text, with everything that was
made so far in place of the results. -/
theorem frames_lead_to_global :
    (∀ (s : Store) (results : List Value), History s results → s.Framed results ∧ s.LooksUp) ∧
      ∀ (s : Store) (made : List Value), s.Arises made → s.Framed made ∧ s.LooksUp := by
  constructor
  · intro s results h
    obtain ⟨made, harises, hresults⟩ := h.arises
    exact ⟨harises.framed hresults, harises.looksUp⟩
  · intro s made h
    exact ⟨h.framed fun v hv => .inr hv, h.looksUp⟩

/-- Text that keeps a closure of a `let`, in a list, in the global frame, and puts the list in place of a primitive. -/
def keptClosureExample : String := "(define k #f) (let ((x car)) (set! k (list (lambda (y) x)))) (set! car k) car"

theorem frames_lead_to_global_keptClosure :
    let report := (run ⟨10, 10⟩ keptClosureExample .initial).1
    let s := (run ⟨10, 10⟩ keptClosureExample .initial).2
    History s (report.value.toList ++ []) ∧ s.frames.size = 2 ∧ (∃ v, report.value = some v ∧ v.Holds 1) ∧
      s.OnChain 1 Store.globalFrame ∧ (∃ v, s.get "car" 1 = .ok v) ∧ s.Search "y" (some 1) none ∧
      s.get "y" 1 = .error (.unbound "y") := by
  have h := History.run ⟨10, 10⟩ keptClosureExample .initial
  obtain ⟨hframed, hlooksUp⟩ := frames_lead_to_global.1 _ _ h
  have hsize : (run ⟨10, 10⟩ keptClosureExample .initial).2.frames.size = 2 := rfl
  have hmissed : (run ⟨10, 10⟩ keptClosureExample .initial).2.Search "y" (some 1) none :=
    .outwards rfl (by decide) (.outwards rfl (by decide) .missed)
  refine ⟨h, hsize, ⟨_, rfl, .item List.mem_cons_self .closure⟩, ?_, ?_, hmissed, (hlooksUp.missed hmissed).1⟩
  · exact hframed.rooted (by rw [hsize]; decide)
  · exact hlooksUp.primitive .car (by rw [hsize]; decide)

end Session
end MiniScheme
