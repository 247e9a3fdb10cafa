import MiniScheme.Proofs.Eval.Confinement
import MiniScheme.Proofs.Store.Renaming

/-!
# Effects are local

What an evaluation does depends on the frames that can be reached from its own and on nothing else, and it is done to
them and to nothing else. Two stores that agree on these frames agree on them afterwards, but for the numbers of frames
and identities that are made meanwhile.

* `Twins` — two stores that match under a renaming, ordered by what evaluation may do to both.
* `Twins.simulation` — evaluation takes twins to later twins.
* `eval_local` — what an evaluation leaves alone, where its value leads, and what it depends on.
-/

namespace MiniScheme

open List (Forall₂)
open Eval Outcome

/-- Two stores that match under a renaming. -/
structure Twins where
  left : Store
  right : Store
  pairing : Renaming
  matched : Store.Matches pairing left right

namespace Twins

/-- Later twins are related like the earlier ones, but for what is new on both sides, and wrote the same meanwhile. -/
structure Le (w u : Twins) : Prop where
  pairing : w.pairing ≤ u.pairing
  frames : w.left.frames.size ≤ u.left.frames.size ∧ w.right.frames.size ≤ u.right.frames.size
  fresh : w.left.fresh ≤ u.left.fresh ∧ w.right.fresh ≤ u.right.fresh
  frame : ∀ {f g}, u.pairing.frame f g →
    w.pairing.frame f g ∨ w.left.frames.size ≤ f ∧ w.right.frames.size ≤ g
  identity : ∀ {i j}, u.pairing.identity i j → w.pairing.identity i j ∨ w.left.fresh ≤ i ∧ w.right.fresh ≤ j
  output : ∃ text, u.left.output = w.left.output ++ text ∧ u.right.output = w.right.output ++ text

theorem Le.refl (w : Twins) : Le w w :=
  ⟨le_rfl, ⟨le_rfl, le_rfl⟩, ⟨le_rfl, le_rfl⟩, .inl, .inl, "", by simp, by simp⟩

theorem Le.trans {w u x : Twins} (h : Le w u) (h' : Le u x) : Le w x where
  pairing := h.pairing.trans h'.pairing
  frames := ⟨h.frames.1.trans h'.frames.1, h.frames.2.trans h'.frames.2⟩
  fresh := ⟨h.fresh.1.trans h'.fresh.1, h.fresh.2.trans h'.fresh.2⟩
  frame hf := by
    rcases h'.frame hf with hf | ⟨hleft, hright⟩
    · exact h.frame hf
    · exact .inr ⟨h.frames.1.trans hleft, h.frames.2.trans hright⟩
  identity hi := by
    rcases h'.identity hi with hi | ⟨hleft, hright⟩
    · exact h.identity hi
    · exact .inr ⟨h.fresh.1.trans hleft, h.fresh.2.trans hright⟩
  output := by
    obtain ⟨text, hleft, hright⟩ := h.output
    obtain ⟨text', hleft', hright'⟩ := h'.output
    refine ⟨text ++ text', ?_, ?_⟩
    · rw [hleft', hleft, String.append_assoc]
    · rw [hright', hright, String.append_assoc]

instance : Preorder Twins where
  le := Le
  le_refl := Le.refl
  le_trans _ _ _ := Le.trans

variable (w : Twins) {f g : FrameId} {v v' : Value} {vs vs' : List Value}

/-! ## Operations on both stores -/

/-- A name is defined in two frames that go together. -/
def define (name : String) (hf : w.pairing.frame f g) (hv : Value.Matches w.pairing v v') : Twins :=
  ⟨w.left.define name v f, w.right.define name v' g, w.pairing, w.matched.define hf hv⟩

theorem le_define (name : String) (hf : w.pairing.frame f g) (hv : Value.Matches w.pairing v v') :
    w ≤ w.define name hf hv where
  pairing := le_rfl
  frames := by simp [define]
  fresh := ⟨le_rfl, le_rfl⟩
  frame := .inl
  identity := .inl
  output := ⟨"", by simp [define, Store.define], by simp [define, Store.define]⟩

/-- Two frames that match are added. -/
def push {frame frame' : Frame} (h : Frame.Matches w.pairing frame frame') : Twins :=
  ⟨w.left.push frame, w.right.push frame', _, w.matched.push h⟩

theorem le_push {frame frame' : Frame} (h : Frame.Matches w.pairing frame frame') : w ≤ w.push h where
  pairing := w.pairing.le_addFrame w.matched.frame_lt
  frames := by simp [push]
  fresh := ⟨le_rfl, le_rfl⟩
  frame := by
    rintro f g (hf | ⟨rfl, rfl⟩)
    · exact .inl hf
    · exact .inr ⟨le_rfl, le_rfl⟩
  identity := .inl
  output := ⟨"", by simp [push, Store.push], by simp [push, Store.push]⟩

/-- Both stores give an identity away. -/
def nextIdentity : Twins :=
  ⟨{ w.left with fresh := w.left.fresh + 1 }, { w.right with fresh := w.right.fresh + 1 }, _, w.matched.nextIdentity⟩

theorem le_nextIdentity : w ≤ w.nextIdentity where
  pairing := w.pairing.le_addIdentity w.matched.identity_lt
  frames := ⟨le_rfl, le_rfl⟩
  fresh := ⟨Nat.le_succ _, Nat.le_succ _⟩
  frame := .inl
  identity := by
    rintro i j (hi | ⟨rfl, rfl⟩)
    · exact .inl hi
    · exact .inr ⟨le_rfl, le_rfl⟩
  output := ⟨"", by simp [nextIdentity], by simp [nextIdentity]⟩

theorem nextIdentity_identity : w.nextIdentity.pairing.identity w.left.fresh w.right.fresh := .inr ⟨rfl, rfl⟩

/-- Both stores get a line. -/
def writeLine (text : String) : Twins where
  left := w.left.writeLine text
  right := w.right.writeLine text
  pairing := w.pairing
  matched := ⟨w.matched.left.of_frames rfl le_rfl, w.matched.right.of_frames rfl le_rfl, w.matched.identity_lt,
    w.matched.frame⟩

theorem le_writeLine (text : String) : w ≤ w.writeLine text where
  pairing := le_rfl
  frames := ⟨le_rfl, le_rfl⟩
  fresh := ⟨le_rfl, le_rfl⟩
  frame := .inl
  identity := .inl
  output := ⟨text ++ "\n", String.append_assoc .., String.append_assoc ..⟩

/-- These are the two stores of the twins. -/
def Are (w : Twins) (s t : Store) : Prop := s = w.left ∧ t = w.right

theorem newList (hvs : Forall₂ (Value.Matches w.pairing) vs vs') :
    ∃ u, w ≤ u ∧ u.Are (w.left.newList vs).2 (w.right.newList vs').2 ∧
      Value.Matches u.pairing (w.left.newList vs).1 (w.right.newList vs').1 := by
  have hitems : Forall₂ (Value.Matches w.nextIdentity.pairing) vs vs' :=
    hvs.imp fun _ _ => Value.Matches.mono w.le_nextIdentity.pairing
  cases hvs with
  | nil => exact ⟨w, le_rfl, ⟨rfl, rfl⟩, .plain rfl⟩
  | cons =>
    refine ⟨w.nextIdentity, w.le_nextIdentity, ⟨rfl, rfl⟩, ?_⟩
    exact .of_items w.nextIdentity_identity nofun hitems

theorem enter_fixed (hf : w.pairing.frame f g) (hvs : Forall₂ (Value.Matches w.pairing) vs vs') (names : List Name) :
    ∃ u, w ≤ u ∧ u.Are (w.left.enter (.fixed names) vs f).2 (w.right.enter (.fixed names) vs' g).2 ∧
      u.pairing.frame (w.left.enter (.fixed names) vs f).1 (w.right.enter (.fixed names) vs' g).1 := by
  have hframe : Frame.Matches w.pairing ⟨Bindings.putAll (names.map (·.lexeme)) vs [], some f⟩
      ⟨Bindings.putAll (names.map (·.lexeme)) vs' [], some g⟩ :=
    ⟨Bindings.Matches.putAll .nil hvs _, .some hf⟩
  exact ⟨w.push hframe, w.le_push hframe, ⟨rfl, rfl⟩, .inr ⟨rfl, rfl⟩⟩

theorem enter (hf : w.pairing.frame f g) (hvs : Forall₂ (Value.Matches w.pairing) vs vs') (params : Params) :
    ∃ u, w ≤ u ∧ u.Are (w.left.enter params vs f).2 (w.right.enter params vs' g).2 ∧
      u.pairing.frame (w.left.enter params vs f).1 (w.right.enter params vs' g).1 := by
  cases params with
  | fixed names => exact w.enter_fixed hf hvs names
  | variadic name =>
    obtain ⟨u, hle, ⟨hleft, hright⟩, hlist⟩ := w.newList hvs
    rw [Store.enter_variadic, Store.enter_variadic, hleft, hright]
    obtain ⟨u', hle', hstores, hframe⟩ := u.enter_fixed (hle.pairing.1 hf) (.cons hlist .nil) [name]
    exact ⟨u', hle.trans hle', hstores, hframe⟩

/-! ## Evaluation -/

/-- Evaluation takes twins to later twins. -/
def simulation : Simulation Twins where
  stores := Are
  values w := Value.Matches w.pairing
  runs w e f e' g := e' = e ∧ w.pairing.frame f g
  values_mono hle h := h.mono hle.pairing
  runs_mono hle h := ⟨h.1, hle.pairing.1 h.2⟩
  correspondence w := Value.Matches.correspondence w.pairing
  alike := by
    rintro w e f _ g ⟨rfl, hf⟩
    exact .of_parts fun d _ => ⟨rfl, hf⟩
  get := by
    rintro w _ _ x f _ g ⟨rfl, rfl⟩ ⟨hx, hf⟩
    cases hx
    rcases w.matched.get hf x.lexeme with ⟨v, v', hleft, hright, hv⟩ | ⟨e, hleft, hright⟩
    · rw [hleft, hright]
      exact .done le_rfl ⟨rfl, rfl⟩ hv
    · rw [hleft, hright]
      exact .stopped (.error e) le_rfl ⟨rfl, rfl⟩
  newList := by
    rintro w _ _ vs vs' ⟨rfl, rfl⟩ hvs
    obtain ⟨u, hle, hstores, hv⟩ := w.newList hvs
    exact .done hle hstores hv
  newNaN := by
    rintro w _ _ ⟨rfl, rfl⟩
    exact .done w.le_nextIdentity ⟨rfl, rfl⟩ (.nan w.nextIdentity_identity)
  newClosure := by
    rintro w _ _ ps b f _ _ g ⟨rfl, rfl⟩ ⟨hx, hf⟩
    cases hx
    exact .done w.le_nextIdentity ⟨rfl, rfl⟩ (.closure w.nextIdentity_identity hf)
  define := by
    rintro w _ _ x e f _ _ g v v' ⟨rfl, rfl⟩ ⟨hx, hf⟩ hv
    cases hx
    exact ⟨w.define x.lexeme hf hv, w.le_define x.lexeme hf hv, rfl, rfl⟩
  assign := by
    rintro w _ _ x e f _ _ g v v' ⟨rfl, rfl⟩ ⟨hx, hf⟩ hv
    cases hx
    simp only [Store.assign]
    rcases rel_option_cases (w.matched.find? hf x.lexeme) with
      ⟨hnone, hnone'⟩ | ⟨holder, holder', hfind, hfind', hholder⟩
    · rw [hnone, hnone']
      exact .inr ⟨_, rfl, rfl⟩
    · rw [hfind, hfind']
      exact .inl ⟨w.define x.lexeme hholder hv, _, _, w.le_define x.lexeme hholder hv, rfl, rfl, rfl, rfl⟩
  writeLine := by
    rintro w _ _ text ⟨rfl, rfl⟩
    exact ⟨w.writeLine text, w.le_writeLine text, rfl, rfl⟩
  enterLet := by
    rintro w _ _ xs es b f _ _ _ g vs vs' ⟨rfl, rfl⟩ ⟨hx, hf⟩ hvs
    cases hx
    obtain ⟨u, hle, hstores, hframe⟩ := w.enter_fixed hf hvs xs
    exact ⟨u, hle, hstores, List.forall₂_same.2 fun d _ => ⟨rfl, hframe⟩⟩
  enterClosure := by
    rintro w _ _ i l f j m g vs vs' ⟨rfl, rfl⟩ hp hvs
    cases hp with
    | plain hp => cases hp
    | closure _ hf =>
      obtain ⟨u, hle, hstores, hframe⟩ := w.enter hf hvs l.params
      exact ⟨u, hle, hstores, List.forall₂_same.2 fun d _ => ⟨rfl, hframe⟩⟩

end Twins

/-- The outcomes are values that match, or the same stop. -/
inductive Outcome.Matches (w : Renaming) : Outcome Value → Outcome Value → Prop where
  | done {v v' : Value} {s t : Store} (hv : Value.Matches w v v') : Matches w (.done v s) (.done v' t)
  | stopped {s t : Store} (why : Stop) : Matches w (.stopped why s) (.stopped why t)

theorem Twins.exists_later {w : Twins} {o o' : Outcome Value}
    (h : Corresponds simulation.stores simulation.values w o o') :
    ∃ u : Twins, w ≤ u ∧ u.Are o.store o'.store ∧ Outcome.Matches u.pairing o o' := by
  cases h with
  | done hle hstores hv => exact ⟨_, hle, hstores, .done hv⟩
  | stopped why hle hstores => exact ⟨_, hle, hstores, .stopped why⟩

/-! ## Stores that agree on what can be reached -/

section

variable {s t : Store} {r : FrameId}

/-- What can be reached from `r` goes together with itself, and so do the identities that are in use. -/
def Renaming.shared (r : FrameId) (s t : Store) : Renaming where
  frame f g := g = f ∧ s.Reaches r f
  identity i j := j = i ∧ i < s.fresh ∧ i < t.fresh
  frame_iff := by
    rintro f _ f' _ ⟨rfl, -⟩ ⟨rfl, -⟩
    exact Iff.rfl
  identity_iff := by
    rintro i _ i' _ ⟨rfl, -⟩ ⟨rfl, -⟩
    exact Iff.rfl

theorem Store.matches_shared (hs : s.Valid) (ht : t.Valid) (hr : r < s.frames.size)
    (hagree : ∀ f, s.Reaches r f → t.frames[f]? = s.frames[f]?) : Store.Matches (.shared r s t) s t where
  left := hs
  right := ht
  identity_lt hi := by
    obtain ⟨rfl, hlt, hlt'⟩ := hi
    exact ⟨hlt, hlt'⟩
  frame := by
    rintro _ f ⟨rfl, hf⟩
    obtain ⟨frame, hframe⟩ := exists_frame (hf.lt hs hr)
    have hframe' : t.frames[f]? = some frame := (hagree f hf).trans hframe
    refine ⟨frame, frame, hframe, hframe', List.forall₂_same.2 fun b hb => ⟨rfl, ?_⟩, ?_⟩
    · refine .refl_of_valid (hs.bindings hframe b hb) (ht.bindings hframe' b hb) (fun i hi hi' => ⟨rfl, hi, hi'⟩) ?_
      exact fun hg => ⟨rfl, .captured hf hframe hb hg⟩
    · cases houter : frame.enclosing with
      | none => exact .none
      | some outer => exact .some ⟨rfl, .enclosing hf hframe houter⟩

/-- The renaming keeps what could be reached from `r` and the identities in use, and takes new ones to new ones. -/
structure Renaming.Renews (w : Renaming) (r : FrameId) (s t : Store) : Prop where
  old : ∀ {f}, s.Reaches r f → w.frame f f
  frame : ∀ {f g}, w.frame f g → g = f ∧ s.Reaches r f ∨ s.frames.size ≤ f ∧ t.frames.size ≤ g
  identity : ∀ {i j}, w.identity i j → j = i ∧ i < s.fresh ∧ i < t.fresh ∨ s.fresh ≤ i ∧ t.fresh ≤ j

/-- The same frames can be reached from `r` in both stores, and they hold the same, but for the renaming. -/
structure Store.AgreeFrom (w : Renaming) (r : FrameId) (s t : Store) : Prop where
  forth : ∀ {f}, s.Reaches r f → ∃ g, w.frame f g ∧ t.Reaches r g
  back : ∀ {g}, t.Reaches r g → ∃ f, w.frame f g ∧ s.Reaches r f
  frame : ∀ {f g}, w.frame f g →
    ∃ frame frame', s.frames[f]? = some frame ∧ t.frames[g]? = some frame' ∧ Frame.Matches w frame frame'

theorem Store.Matches.agreeFrom {w : Renaming} (h : Store.Matches w s t) (hr : w.frame r r) :
    Store.AgreeFrom w r s t :=
  ⟨h.reaches hr, h.flip.reaches hr, h.frame⟩

end

/-- **Effects are local.** However the evaluation of an expression in a frame `r` of a valid store ends: frames there
were that cannot be reached from `r` are as they were; a value that it comes to leads only to frames that could be
reached, and to new ones; and in another store that agrees on what can be reached, it comes to the same value, error or
stop, writes the same, and leaves stores that agree on what can be reached, but for a one-to-one renaming of frames and
identities that are new. -/
theorem eval_local (fuel n : Nat) (e : Code) {r : FrameId} {s t : Store} (hs : s.Valid) (ht : t.Valid)
    (hr : r < s.frames.size) (hagree : ∀ f, s.Reaches r f → t.frames[f]? = s.frames[f]?) :
    let o := eval fuel n e r s
    let o' := eval fuel n e r t
    (∀ f, f < s.frames.size → ¬s.Reaches r f → o.store.frames[f]? = s.frames[f]?) ∧
      (∀ v u, o = .done v u → ∀ f, u.Leads v f → s.Reaches r f ∨ s.frames.size ≤ f) ∧
      ∃ w : Renaming, w.Renews r s t ∧ Outcome.Matches w o o' ∧ Store.AgreeFrom w r o.store o'.store ∧
        ∃ text, o.store.output = s.output ++ text ∧ o'.store.output = t.output ++ text := by
  obtain ⟨hconfined, hvalue⟩ := eval_confined fuel n e r s
  refine ⟨fun f hf hreach => hconfined.untouched fun hwithin => ?_, fun v u hdone f hleads => ?_, ?_⟩
  · rcases hwithin with hold | hnew
    · exact hreach hold
    · exact hf.not_ge hnew
  · rw [hdone] at hconfined
    exact hconfined.within_of_leads (hvalue v u hdone) hleads
  · let w : Twins := ⟨s, t, .shared r s t, Store.matches_shared hs ht hr hagree⟩
    have hrun : Twins.simulation.runs w e r e r := ⟨rfl, rfl, .root⟩
    obtain ⟨u, hle, ⟨hleft, hright⟩, houtcome⟩ :=
      Twins.exists_later (Twins.simulation.eval_corresponds fuel n ⟨rfl, rfl⟩ hrun)
    have hold {f : FrameId} (hf : s.Reaches r f) : u.pairing.frame f f := hle.pairing.1 ⟨rfl, hf⟩
    rw [hleft, hright]
    exact ⟨u.pairing, ⟨hold, hle.frame, hle.identity⟩, houtcome, u.matched.agreeFrom (hold .root), hle.output⟩

/-- `((lambda (x) (display x) (lambda () x)) #t)` -/
def keepExample : Code :=
  let name (lexeme : String) : Name := ⟨lexeme, 0, 0⟩
  let x : Code := .symbol (name "x")
  .call (.lambda (.fixed [name "x"]) [.call (.symbol (name "display")) [x], .lambda (.fixed []) [x]])
    [.literal (.boolean true)]

/-- The store that programs start with after something else was done. -/
def usedExample : Store :=
  { (Store.initial.enter (.fixed []) [] Store.globalFrame).2 with fresh := 3, output := "before\n" }

theorem eval_local_keep :
    Store.initial.Valid ∧ usedExample.Valid ∧ Store.globalFrame < Store.initial.frames.size ∧
      (∀ f, Store.initial.Reaches Store.globalFrame f → usedExample.frames[f]? = Store.initial.frames[f]?) ∧
      ∃ w : Renaming, w.Renews Store.globalFrame .initial usedExample ∧ w.frame 0 0 ∧ w.frame 1 2 ∧ w.identity 1 4 ∧
        (eval 5 5 keepExample Store.globalFrame .initial).store.output = "#t\n" ∧
        (eval 5 5 keepExample Store.globalFrame usedExample).store.output = "before\n#t\n" := by
  have hglobal := Store.initial_valid.global
  have hvalid : usedExample.Valid :=
    (Store.initial_valid.enter_fixed (by simp) hglobal []).of_frames rfl (Nat.zero_le 3)
  have hagree (f : FrameId) (hf : Store.initial.Reaches Store.globalFrame f) :
      usedExample.frames[f]? = Store.initial.frames[f]? := by
    have hlt : f < 1 := hf.lt Store.initial_valid hglobal
    have hzero : f = 0 := Nat.lt_one_iff.1 hlt
    rw [hzero]
    rfl
  obtain ⟨-, -, w, hrenews, houtcome, -, -⟩ := eval_local 5 5 keepExample Store.initial_valid hvalid hglobal hagree
  have hleft : eval 5 5 keepExample Store.globalFrame .initial = .done (.closure 1 _ 1) _ := rfl
  have hright : eval 5 5 keepExample Store.globalFrame usedExample = .done (.closure 4 _ 2) _ := rfl
  rw [hleft, hright] at houtcome
  obtain ⟨hv⟩ := houtcome
  cases hv with
  | closure hi hf =>
    exact ⟨Store.initial_valid, hvalid, hglobal, hagree, w, hrenews, hrenews.old .root, hf, hi, rfl, rfl⟩

end MiniScheme
