import MiniScheme.Proofs.Eval.Simulation
import MiniScheme.Proofs.Store.Respelling

/-!
# Names of parameters do not matter

A lambda with a parameter respelt throughout makes a closure that cannot be told from the one of the lambda as it was.
Wherever a program has the one instead of the other, both runs go along with each other.

* `Respelling.Runs` — code in a frame, and the code that runs in the frame of the same number instead.
* `Respelling.simulation` — stores that agree but for the spelling still do after whatever is done in both.
* `eval_respelt` — programs come to the same whichever of the closures they have at hand.
* `newClosure_respelt` — the closures themselves, made in the same frame and called in any store.
-/

namespace MiniScheme

open List (Forall₂)
open Eval Outcome

namespace Respelling

variable {ρ : Respelling} {w u : Origins} {o : Origin} {f g : FrameId}

/-- The second code is the first as it is spelt in its frame. -/
structure Runs (ρ : Respelling) (w : Origins) (e : Code) (f : FrameId) (e' : Code) (g : FrameId) : Prop where
  frame : g = f
  spelt : ∃ o, w.of? f = some o ∧ ρ.Spares o e.lexemes ∧ e' = e.respelt (ρ.spell o)

theorem Runs.mono {e e' : Code} (hle : w ≤ u) (h : ρ.Runs w e f e' g) : ρ.Runs u e f e' g := by
  obtain ⟨hfg, o, hf, hspelt⟩ := h
  exact ⟨hfg, o, Origins.of?_mono hle hf, hspelt⟩

theorem runs_all {es : List Code} (hgf : g = f) (hf : w.of? f = some o) (hspared : ρ.Spares o (Expr.lexemesAll es)) :
    Forall₂ (fun d d' => ρ.Runs w d f d' g) es (es.map (Expr.respelt (ρ.spell o))) := by
  refine List.forall₂_map_right_iff.2 (List.forall₂_same.2 fun d hd => ⟨hgf, o, hf, ?_, rfl⟩)
  exact hspared.of_subset (Expr.subset_lexemesAll hd)

/-- The name in front of other names is spared with them. -/
theorem Spares.names {name : Name} {names : List String} (h : ρ.Spares o (name.lexeme :: names)) :
    ρ.Names o name.lexeme (name.respelt (ρ.spell o)).lexeme :=
  ⟨h.of_subset (List.cons_subset_cons _ (List.nil_subset _)), rfl⟩

/-- Stores that agree but for the spelling still do after whatever is done in both. -/
def simulation (ρ : Respelling) : Simulation Origins where
  stores := Store.Respelt ρ
  values := Value.Respelt ρ
  runs := ρ.Runs
  values_mono := Value.Respelt.mono
  runs_mono := Runs.mono
  correspondence := Value.Respelt.correspondence ρ
  alike := by
    rintro w e f _ _ ⟨rfl, o, hf, hspared, rfl⟩
    refine Expr.alike_respelt (ρ.spell o) fun d hd => ⟨rfl, o, hf, ?_, rfl⟩
    exact hspared.of_subset (Expr.lexemes_subset_of_mem_parts hd)
  get := by
    rintro w s t x f y _ hst ⟨rfl, o, hf, hspared, hspelt⟩
    cases hspelt
    rcases hst.get hf hspared.names with ⟨v, v', hleft, hright, hv⟩ | ⟨e, hleft, hright⟩
    · rw [hleft, hright]
      exact .done le_rfl hst hv
    · rw [hleft, hright]
      exact .stopped (.error e) le_rfl hst
  newList := by
    intro w s t vs vs' hst hvs
    obtain ⟨hlist, hstores⟩ := hst.newList hvs
    exact .done le_rfl hstores hlist
  newNaN := by
    intro w s t hst
    refine .done le_rfl (hst.of_frames rfl rfl (congrArg Nat.succ hst.fresh) hst.output) ?_
    rw [Store.newNaN, Store.newNaN, hst.fresh]
    exact .nan s.fresh
  newClosure := by
    rintro w s t ps b f qs c _ hst ⟨rfl, o, hf, hspared, hspelt⟩
    rw [Expr.respelt, Expr.respeltAll_eq_map] at hspelt
    cases hspelt
    refine .done le_rfl (hst.of_frames rfl rfl (congrArg Nat.succ hst.fresh) hst.output) ?_
    rw [Store.newClosure, Store.newClosure, hst.fresh]
    exact @Value.Respelt.closure ρ w s.fresh ⟨ps, b⟩ _ o o hf .same hspared
  define := by
    rintro w s t x e f y _ _ v v' hst ⟨rfl, o, hf, hspared, hspelt⟩ hv
    cases hspelt
    exact ⟨w, le_rfl, hst.define hf hspared.names hv⟩
  assign := by
    rintro w s t x e f y _ _ v v' hst ⟨rfl, o, hf, hspared, hspelt⟩ hv
    cases hspelt
    simp only [Store.assign]
    rcases hst.find? hf hspared.names with ⟨g, holder, hg, hx, hfind, hfind'⟩ | ⟨hname, hfind, hfind'⟩
    · rw [hfind, hfind']
      exact .inl ⟨w, _, _, le_rfl, rfl, rfl, hst.define hg hx hv⟩
    · rw [hfind, hfind', hname]
      exact .inr ⟨_, rfl, rfl⟩
  writeLine := by
    intro w s t text hst
    refine ⟨w, le_rfl, hst.of_frames rfl rfl hst.fresh ?_⟩
    rw [Store.writeLine, Store.writeLine, hst.output]
  enterLet := by
    rintro w s t xs es b f ys ds c _ vs vs' hst ⟨rfl, o, hf, hspared, hspelt⟩ hvs
    rw [Expr.respelt, Expr.respeltAll_eq_map, Expr.respeltAll_eq_map] at hspelt
    cases hspelt
    have hnames : ρ.Spares o (xs.map (·.lexeme)) :=
      hspared.of_subset (List.Subset.trans (List.subset_append_left _ _) (List.subset_append_left _ _))
    obtain ⟨hstores, hframe, hof⟩ := hst.enter_fixed hf .same hnames hvs
    refine ⟨w.push o, w.le_push o, hstores, runs_all hframe hof ?_⟩
    exact hspared.of_subset (List.subset_append_right _ _)
  enterClosure := by
    rintro w s t i l f j m _ vs vs' hst hp hvs
    cases hp with
    | plain hp => cases hp
    | @closure _ _ _ outer o hf haround hspared =>
      have hparams : ρ.Spares o l.params.lexemes := hspared.of_subset (List.subset_append_left _ _)
      obtain ⟨hstores, hframe, hof⟩ := hst.enter hf (haround.imp And.right) hparams hvs
      refine ⟨w.push o, w.le_push o, hstores, runs_all hframe hof ?_⟩
      exact hspared.of_subset (List.subset_append_right _ _)

end Respelling

/-! ## Outcomes -/

/-- Both outcomes are the same stop or values that agree, in stores that agree, and the frames that there were have the
origins that they had. -/
abbrev Outcome.Respelt (ρ : Respelling) (w : Origins) : Outcome Value → Outcome Value → Prop :=
  Corresponds (Store.Respelt ρ) (Value.Respelt ρ) w

section

variable {ρ : Respelling} {w : Origins} {s t : Store} {f : FrameId}

/-- **Programs come to the same** in stores that agree but for the spelling. -/
theorem eval_respelt (fuel n : Nat) (e : Code) (hst : Store.Respelt ρ w s t) (hf : w.of? f = some .elsewhere) :
    Outcome.Respelt ρ w (eval fuel n e f s) (eval fuel n e f t) :=
  ρ.simulation.eval_corresponds fuel n hst ⟨rfl, .elsewhere, hf, trivial, e.respelt_id.symm⟩

/-- Closures made of a lambda and the respelt one agree. -/
theorem Value.Respelt.of_made {l : Lambda} {i : Nat} (hi : ρ.Made i) (hold : ρ.old ∈ l.params.lexemes)
    (hnew : ρ.new ∉ l.lexemes) (hf : w.of? f = some .elsewhere) :
    Value.Respelt ρ w (.closure i l f) (.closure i (l.respelt (spelling ρ.old ρ.new)) f) :=
  .closure hf (.entered ⟨hi, hold⟩) hnew

end

/-- **Names of parameters do not matter.** Let `x` be a parameter of a lambda, fixed or variadic, and `y` a name that
occurs nowhere in it. Make a closure of the lambda in a frame of a valid store, and instead of it one of the lambda that
has `x` respelt as `y` throughout. Called in either of the two ways, in a later store and with the same arguments, both
stop for the same reason or come to values that agree; they write the same, bind the same names to values that agree in
all frames that there were, and make frames that agree. Values and new frames differ at most in the spelling inside what
the bodies of the two closures made. The same is so if the stores and the arguments already differ in this way, and in
holding the one closure instead of the other. -/
theorem newClosure_respelt {l : Lambda} {x y : String} (hx : x ∈ l.params.lexemes) (hy : y ∉ l.lexemes) {s : Store}
    {f : FrameId} (hf : f < s.frames.size) :
    let c := (s.newClosure l f).1
    let c' := (s.newClosure (l.respelt (spelling x y)) f).1
    let ρ : Respelling := ⟨x, y, (· = s.fresh)⟩
    (∀ (t : Store) (vs : List Value) (fuel n : Nat), t.Valid → s.frames.size ≤ t.frames.size →
      (∀ v ∈ vs, v.Valid t.frames.size t.fresh) →
        let w : Origins := .elsewhere t.frames.size
        Outcome.Respelt ρ w (evalCall fuel n c vs t) (evalCall fuel n c' vs t) ∧
          Outcome.Respelt ρ w (call (eval fuel) n c vs t) (call (eval fuel) n c' vs t)) ∧
      ∀ (w : Origins) (t t' : Store) (vs vs' : List Value) (fuel n : Nat), .elsewhere s.frames.size ≤ w →
        Store.Respelt ρ w t t' → Forall₂ (Value.Respelt ρ w) vs vs' →
          Outcome.Respelt ρ w (evalCall fuel n c vs t) (evalCall fuel n c' vs' t') ∧
            Outcome.Respelt ρ w (call (eval fuel) n c vs t) (call (eval fuel) n c' vs' t') := by
  intro c c' ρ
  have hcalls (w : Origins) (t t' : Store) (vs vs' : List Value) (fuel n : Nat) (hw : .elsewhere s.frames.size ≤ w)
      (hst : Store.Respelt ρ w t t') (hvs : Forall₂ (Value.Respelt ρ w) vs vs') :
      Outcome.Respelt ρ w (evalCall fuel n c vs t) (evalCall fuel n c' vs' t') ∧
        Outcome.Respelt ρ w (call (eval fuel) n c vs t) (call (eval fuel) n c' vs' t') := by
    have hc : Value.Respelt ρ w c c' := .of_made rfl hx hy (Origins.of?_mono hw (Origins.of?_elsewhere hf))
    exact ⟨ρ.simulation.evalCall_corresponds fuel n hst hc hvs, ρ.simulation.call_corresponds fuel n hst hc hvs⟩
  refine ⟨fun t vs fuel n ht hsize hvs => ?_, hcalls⟩
  refine hcalls _ t t vs vs fuel n (Origins.elsewhere_mono hsize) (.refl ht) ?_
  exact List.forall₂_same.2 fun v hv => .refl_of_valid (hvs v hv)

/-- `(lambda x (set! car x) (lambda () x))`, with this name for the parameter. -/
def respellingExample (parameter : Name) : Lambda :=
  ⟨.variadic parameter, [.assign ⟨"car", 0, 0⟩ (.symbol parameter), .lambda (.fixed []) [.symbol parameter]]⟩

theorem newClosure_respelt_variadic :
    let l := respellingExample ⟨"x", 0, 0⟩
    let made := Store.initial.newClosure l Store.globalFrame
    let made' := Store.initial.newClosure (l.respelt (spelling "x" "y")) Store.globalFrame
    let kept (parameter : String) : Value := .closure 2 ⟨.fixed [], [.symbol ⟨parameter, 0, 0⟩]⟩ 1
    let ρ : Respelling := ⟨"x", "y", (· = Store.initial.fresh)⟩
    "x" ∈ l.params.lexemes ∧ "y" ∉ l.lexemes ∧ Store.globalFrame < Store.initial.frames.size ∧
      ∃ u t t', .elsewhere 1 ≤ u ∧ Store.Respelt ρ u t t' ∧ Value.Respelt ρ u (kept "x") (kept "y") ∧
        evalCall 5 5 made.1 [.boolean true] made.2 = .done (kept "x") t ∧
        evalCall 5 5 made'.1 [.boolean true] made.2 = .done (kept "y") t' ∧
        t.get "car" Store.globalFrame = .ok (.list 1 [.boolean true]) ∧
        t'.get "car" Store.globalFrame = .ok (.list 1 [.boolean true]) := by
  intro l made made' kept ρ
  have hx : "x" ∈ l.params.lexemes := by decide
  have hy : "y" ∉ l.lexemes := by decide
  have hglobal : Store.globalFrame < Store.initial.frames.size := by decide
  have hmade : made.2.Valid := Store.initial_valid.of_frames rfl (Nat.le_succ _)
  have hargs : ∀ v ∈ [Value.boolean true], v.Valid made.2.frames.size made.2.fresh :=
    List.forall_mem_singleton.2 (.plain rfl)
  obtain ⟨hcalls, -⟩ := (newClosure_respelt hx hy hglobal).1 made.2 [.boolean true] 5 5 hmade le_rfl hargs
  have hleft : evalCall 5 5 made.1 [.boolean true] made.2 = .done (kept "x") _ := rfl
  have hright : evalCall 5 5 made'.1 [.boolean true] made.2 = .done (kept "y") _ := rfl
  rw [hleft, hright] at hcalls
  cases hcalls with
  | done hle hstores hkept => exact ⟨hx, hy, hglobal, _, _, _, hle, hstores, hkept, hleft, hright, rfl, rfl⟩

end MiniScheme
