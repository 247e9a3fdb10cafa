import MiniScheme.Proofs.Expr.Gist
import MiniScheme.Proofs.Store.Frames
import MiniScheme.Proofs.Store.Mapping
import MiniScheme.Proofs.Value.Correspondence

/-!
# The gist of values and stores

A closure keeps its lambda, and with it the way in which data are quoted in its body and the places of names. The gist
of a value is the value with the gists of the bodies in it. Stores of the same gist still have the same gist after the
same is done to both.

* `Value.gist`, `Store.gist` — the value and the store with the gists of all bodies.
* `Value.correspondence_gist` — values of the same gist are printed, compared and computed with alike.
* `Store.define_gist`, `Store.newList_gist` and the like — the gist of a store that something is done to.
* `Store.sameGist_get`, `Store.assign_congr` and the like — the same is done to two stores of the same gist.
-/

namespace MiniScheme

open List (Forall₂)

/-- The lambda with the gist of its body. -/
def Lambda.gist (lambda : Lambda) : Lambda := ⟨lambda.params.unplaced, lambda.body.map Expr.gist⟩

namespace Value

mutual
/-- The value with the gists of the bodies of its closures. -/
def gist : Value → Value
  | undefined => undefined
  | boolean b => boolean b
  | number x => number x
  | string s => string s
  | null => null
  | list i items => list i (gistAll items)
  | primitive p => primitive p
  | closure i lambda frame => closure i lambda.gist frame
/-- The values with the gists of the bodies of their closures. -/
def gistAll : List Value → List Value
  | [] => []
  | v :: vs => v.gist :: gistAll vs
end

@[simp] theorem gistAll_eq_map (vs : List Value) : gistAll vs = vs.map gist := by
  induction vs with
  | nil => rfl
  | cons v vs ih => rw [gistAll, ih, List.map_cons]

theorem gist_list (i : Nat) (items : List Value) : (list i items).gist = list i (items.map gist) := by
  rw [gist, gistAll_eq_map]

/-- Only a closure has the gist of a closure, and its lambda has the gist of the lambda. -/
theorem closure_of_gist {p : Value} {i : Nat} {l : Lambda} {f : FrameId} (h : p.gist = (closure i l f).gist) :
    ∃ m : Lambda, p = closure i m f ∧ m.gist = l.gist := by
  cases p with
  | closure j m g =>
    obtain ⟨rfl, hlambda, rfl⟩ := Value.closure.inj h
    exact ⟨m, rfl, hlambda⟩
  | _ => cases h

theorem primitive_of_gist {v : Value} {p : Primitive} (h : v.gist = (primitive p).gist) : v = primitive p := by
  cases v <;> cases h
  rfl

theorem same_gist (v w : Value) : v.gist.same w.gist = v.same w := by
  cases v <;> cases w <;> rfl

theorem items_gist_iff {vs ws : List Value} :
    Forall₂ (fun v w => w.gist = v.gist) vs ws ↔ ws.map gist = vs.map gist := by
  rw [← List.forall₂_eq_eq_eq, List.forall₂_map_left_iff, List.forall₂_map_right_iff]
  exact ⟨List.Forall₂.flip, List.Forall₂.flip⟩

/-- **Nothing that is made of a value depends on more than its gist.** -/
theorem correspondence_gist : Correspondence fun v w => w.gist = v.gist where
  alike := by
    intro v w h
    cases v with
    | list i items =>
      cases w with
      | list j items' =>
        rw [gist_list, gist_list] at h
        exact .list (items_gist_iff.mpr (Value.list.inj h).2)
      | _ => cases h
    | closure =>
      cases w with
      | closure => exact .closure
      | _ => cases h
    | number x =>
      cases w <;> cases h
      exact alike_number x
    | _ =>
      cases w <;> cases h
      exact .plain rfl
  plain _ := rfl
  same {v w v' w'} h h' := by rw [← same_gist w, h, h', same_gist]
  nan h h' := by
    cases h
    cases h'
    rfl

end Value

/-- A primitive replies to arguments of the same gist in the same way. -/
theorem Primitive.run_gist {n : Nat} {p : Primitive} {vs vs' : List Value} {reply : Reply} (h : p.run n vs = reply)
    (hvs : vs'.map Value.gist = vs.map Value.gist) :
    ∃ reply', p.run n vs' = reply' ∧ reply.Corresponds (fun v w => w.gist = v.gist) reply' := by
  rw [← h]
  exact ⟨_, rfl, run_corresponds Value.correspondence_gist n p (Value.items_gist_iff.mpr hvs)⟩

/-! ## Stores -/

namespace Store

/-- The store with the gists of the bodies of its closures. -/
def gist (store : Store) : Store := { store with frames := store.frames.map (Frame.mapValues Value.gist) }

theorem mapped_gist (s : Store) : Mapped Value.gist s s.gist := rfl

theorem eq_gist {s t : Store} (h : Mapped Value.gist s t) (hfresh : t.fresh = s.fresh) (houtput : t.output = s.output) :
    t = s.gist := by
  obtain ⟨frames, fresh, output⟩ := t
  cases h
  cases hfresh
  cases houtput
  rfl

variable (s : Store)

theorem define_gist (name : String) (v : Value) (f : FrameId) :
    (s.define name v f).gist = s.gist.define name v.gist f :=
  (eq_gist ((mapped_gist s).define name v f) rfl rfl).symm

theorem newList_gist (vs : List Value) :
    s.gist.newList (vs.map Value.gist) = ((s.newList vs).1.gist, (s.newList vs).2.gist) := by
  cases vs with
  | nil => rfl
  | cons v vs =>
    unfold newList
    dsimp only [List.map_cons]
    rw [Value.gist_list]
    rfl

theorem newNaN_gist : s.newNaN.2.gist = s.gist.newNaN.2 := rfl

theorem newClosure_gist (l : Lambda) (f : FrameId) :
    s.gist.newClosure l.gist f = ((s.newClosure l f).1.gist, (s.newClosure l f).2.gist) := rfl

theorem writeLine_gist (text : String) : (s.writeLine text).gist = s.gist.writeLine text := rfl

theorem enter_gist (params : Params) (vs : List Value) (f : FrameId) :
    s.gist.enter params.unplaced (vs.map Value.gist) f = ((s.enter params vs f).1, (s.enter params vs f).2.gist) := by
  have hfixed (s : Store) (names : List Name) (vs : List Value) :
      s.gist.enter (.fixed (names.map Name.unplaced)) (vs.map Value.gist) f =
        ((s.enter (.fixed names) vs f).1, (s.enter (.fixed names) vs f).2.gist) := by
    have hnames : (names.map Name.unplaced).map (·.lexeme) = names.map (·.lexeme) := List.map_map
    obtain ⟨hframe, hmapped⟩ := (mapped_gist s).enter_fixed rfl hnames vs f
    exact Prod.ext hframe (eq_gist hmapped rfl rfl)
  cases params with
  | fixed names => exact hfixed s names vs
  | variadic name =>
    rw [Params.unplaced, enter_variadic, enter_variadic, newList_gist]
    exact hfixed _ [name] [(s.newList vs).1]

end Store

/-! ## Stores of the same gist -/

/-- The results are values of the same gist, or the same error. -/
inductive SameGist {α : Type} (gist : α → α) : Except RuntimeError α → Except RuntimeError α → Prop where
  | ok {a b : α} (h : gist b = gist a) : SameGist gist (.ok a) (.ok b)
  | error {e : RuntimeError} : SameGist gist (.error e) (.error e)

namespace Store

variable {s t : Store} {v v' : Value} {vs vs' : List Value} (hst : t.gist = s.gist)
include hst

theorem output_of_gist : t.output = s.output := by
  show t.gist.output = s.gist.output
  rw [hst]

theorem sameGist_get (name : String) (f : FrameId) : SameGist Value.gist (s.get name f) (t.get name f) := by
  have hget : (t.get name f).map Value.gist = (s.get name f).map Value.gist := by
    rw [← (mapped_gist s).get, ← (mapped_gist t).get, hst]
  cases hs : s.get name f with
  | ok v =>
    cases ht : t.get name f with
    | ok v' =>
      rw [hs, ht] at hget
      exact .ok (Except.ok.inj hget)
    | error e =>
      rw [hs, ht] at hget
      cases hget
  | error e =>
    cases ht : t.get name f with
    | ok v' =>
      rw [hs, ht] at hget
      cases hget
    | error e' =>
      rw [hs, ht] at hget
      cases hget
      exact .error

theorem gist_define_congr (name : String) (f : FrameId) (hv : v'.gist = v.gist) :
    (t.define name v' f).gist = (s.define name v f).gist := by
  rw [define_gist, define_gist, hst, hv]

/-- Both stores give the name its new value, or neither knows it. -/
theorem assign_congr (name : String) (f : FrameId) (hv : v'.gist = v.gist) :
    (∃ s' t', s.assign name v f = .ok s' ∧ t.assign name v' f = .ok t' ∧ t'.gist = s'.gist) ∨
      ∃ e, s.assign name v f = .error e ∧ t.assign name v' f = .error e := by
  have hfind : t.find? name f = s.find? name f := by
    rw [← (mapped_gist s).find?, ← (mapped_gist t).find?, hst]
  unfold Store.assign
  rw [hfind]
  cases s.find? name f with
  | none => exact .inr ⟨_, rfl, rfl⟩
  | some holder => exact .inl ⟨_, _, rfl, rfl, gist_define_congr hst name holder hv⟩

theorem newList_congr (hvs : vs'.map Value.gist = vs.map Value.gist) :
    (t.newList vs').1.gist = (s.newList vs).1.gist ∧ (t.newList vs').2.gist = (s.newList vs).2.gist := by
  have hs := newList_gist s vs
  have ht := newList_gist t vs'
  rw [hvs, hst, hs] at ht
  exact ⟨(congrArg Prod.fst ht).symm, (congrArg Prod.snd ht).symm⟩

theorem newNaN_congr : t.newNaN.1.gist = s.newNaN.1.gist ∧ t.newNaN.2.gist = s.newNaN.2.gist := by
  have hfresh : t.fresh = s.fresh := by
    show t.gist.fresh = s.gist.fresh
    rw [hst]
  refine ⟨?_, ?_⟩
  · rw [newNaN, newNaN, hfresh]
  · rw [newNaN_gist, newNaN_gist, hst]

theorem newClosure_congr {l l' : Lambda} (hl : l'.gist = l.gist) (f : FrameId) :
    (t.newClosure l' f).1.gist = (s.newClosure l f).1.gist ∧
      (t.newClosure l' f).2.gist = (s.newClosure l f).2.gist := by
  have hs := newClosure_gist s l f
  have ht := newClosure_gist t l' f
  rw [hl, hst, hs] at ht
  exact ⟨(congrArg Prod.fst ht).symm, (congrArg Prod.snd ht).symm⟩

theorem enter_congr {ps qs : Params} (hparams : qs.unplaced = ps.unplaced)
    (hvs : vs'.map Value.gist = vs.map Value.gist) (f : FrameId) :
    (t.enter qs vs' f).1 = (s.enter ps vs f).1 ∧ (t.enter qs vs' f).2.gist = (s.enter ps vs f).2.gist := by
  have hs := enter_gist s ps vs f
  have ht := enter_gist t qs vs' f
  rw [hparams, hvs, hst, hs] at ht
  exact ⟨(congrArg Prod.fst ht).symm, (congrArg Prod.snd ht).symm⟩

theorem writeLine_congr (text : String) : (t.writeLine text).gist = (s.writeLine text).gist := by
  rw [writeLine_gist, writeLine_gist, hst]

end Store
end MiniScheme
