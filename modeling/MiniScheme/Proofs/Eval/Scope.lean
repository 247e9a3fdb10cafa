import MiniScheme.Proofs.Store.Lookup

/-!
# Scopes are stable

Evaluation in a frame adds names to that frame only, and only those that a `define` of the expression itself adds. All
other frames keep exactly the names they bind, so names keep their meaning wherever the frame is not seen.

* `Store.KeepsNames` — what an evaluation may do to the names of the frames there are.
* `eval_keepsNames`, `call_keepsNames`, `evalCall_keepsNames` — what evaluations and calls do to them.
* `eval_scope` — the same for the frames one by one, and what follows for the lookup of names.
-/

namespace MiniScheme

open Eval Outcome

namespace Store

/-- The frames of `s` lie in `t` where they did and bind the names they did. Besides these only `r` may bind names, of
those that are allowed. -/
structure KeepsNames (r : FrameId) (allowed : String → Prop) (s t : Store) : Prop where
  size_le : s.frames.size ≤ t.frames.size
  enclosing : ∀ f < s.frames.size, t.frames[f]?.map Frame.enclosing = s.frames[f]?.map Frame.enclosing
  kept : ∀ {name f}, s.Binds name f → t.Binds name f
  added : ∀ {name f}, f < s.frames.size → t.Binds name f → s.Binds name f ∨ f = r ∧ allowed name

variable {s t t' : Store} {r f : FrameId} {allowed : String → Prop} {name : String} {v : Value} {frame : Frame}

namespace KeepsNames

theorem refl (s : Store) : KeepsNames r allowed s s :=
  ⟨le_rfl, fun _ _ => rfl, id, fun _ h => .inl h⟩

theorem of_frames (h : KeepsNames r allowed s t) (hframes : t'.frames = t.frames) : KeepsNames r allowed s t' := by
  have hbinds (name : String) (f : FrameId) : t'.Binds name f ↔ t.Binds name f := by simp only [binds_iff, hframes]
  constructor
  · rw [hframes]
    exact h.size_le
  · intro f hf
    rw [hframes]
    exact h.enclosing f hf
  · intro name f hs
    exact (hbinds name f).2 (h.kept hs)
  · intro name f hf ht
    exact h.added hf ((hbinds name f).1 ht)

/-- A definition may be made in a new frame, in `r` if the name is allowed, and where the name is bound already. -/
theorem define (h : KeepsNames r allowed s t) (hf : f < s.frames.size → f = r ∧ allowed name ∨ t.Binds name f) :
    KeepsNames r allowed s (t.define name v f) := by
  constructor
  · simpa using h.size_le
  · intro g hg
    rw [map_enclosing_define]
    exact h.enclosing g hg
  · intro other g hs
    exact binds_define.2 (.inl (h.kept hs))
  · intro other g hg ht
    rcases binds_define.1 ht with hold | ⟨rfl, rfl, -⟩
    · exact h.added hg hold
    · rcases hf hg with hnew | hold
      · exact .inr hnew
      · exact h.added hg hold

theorem push (h : KeepsNames r allowed s t) : KeepsNames r allowed s (t.push frame) := by
  constructor
  · rw [size_push]
    exact h.size_le.trans (Nat.le_succ _)
  · intro g hg
    rw [getElem?_push, if_neg (hg.trans_le h.size_le).ne]
    exact h.enclosing g hg
  · intro other g hs
    exact (binds_push (hs.lt.trans_le h.size_le)).2 (h.kept hs)
  · intro other g hg ht
    exact h.added hg ((binds_push (hg.trans_le h.size_le)).1 ht)

/-- The frames from which `r` is not seen bind what they did and lie where they did. -/
theorem framesAgree (h : KeepsNames r allowed s t) (hs : s.Valid) (name : String) :
    FramesAgree s t name fun f g => g = f ∧ f < s.frames.size ∧ ¬s.OnChain f r := by
  rintro _ f ⟨rfl, hf, hr⟩
  obtain ⟨frame, hframe⟩ := exists_frame hf
  obtain ⟨frame', hframe'⟩ := exists_frame (hf.trans_le h.size_le)
  have henclosing : frame'.enclosing = frame.enclosing := by simpa [hframe, hframe'] using h.enclosing f hf
  have hbinds : t.Binds name f ↔ s.Binds name f := by
    refine ⟨fun ht => ?_, h.kept⟩
    rcases h.added hf ht with hold | ⟨rfl, -⟩
    · exact hold
    · exact absurd .here hr
  refine ⟨frame, frame', hframe, hframe', by simpa [binds_iff, hframe, hframe'] using hbinds, ?_⟩
  rw [henclosing]
  cases houter : frame.enclosing with
  | none => exact .none
  | some outer =>
    have hlt := hs.enclosing hframe houter
    exact .some ⟨rfl, hlt.trans hf, fun hchain => hr (.outer hframe houter hchain)⟩

/-- A name is found where it was, as seen from a frame from which `r` is not seen. -/
theorem find?_eq (h : KeepsNames r allowed s t) (hs : s.Valid) (ht : t.Valid) (hf : f < s.frames.size)
    (hr : ¬s.OnChain f r) : t.find? name f = s.find? name f := by
  rcases rel_option_cases (find?_rel hs ht (h.framesAgree hs name) ⟨rfl, hf, hr⟩) with
    ⟨hnone, hnone'⟩ | ⟨holder, _, hfind, hfind', rfl, -⟩
  · rw [hnone, hnone']
  · rw [hfind, hfind']

end KeepsNames

/-- Only `r` and frames that are made meanwhile get names. -/
def scope (s : Store) (r : FrameId) (allowed : String → Prop) : Invariant Unit where
  store _ t := s.KeepsNames r allowed t
  value _ _ := True
  runs _ e f := s.frames.size ≤ f ∨ f = r ∧ ∀ name, e.Defines name → allowed name
  value_mono _ h := h
  runs_mono _ h := h
  plain _ := trivial
  item _ _ := trivial
  part h hd := h.imp id fun ⟨hf, hallowed⟩ => ⟨hf, fun name hdefines => hallowed name (.part hd hdefines)⟩
  get _ _ _ := trivial
  newList hs _ := ⟨(), le_rfl, hs.of_frames newList_frames, trivial⟩
  newNaN hs := ⟨(), le_rfl, hs.of_frames rfl, trivial⟩
  newClosure hs _ := ⟨(), le_rfl, hs.of_frames rfl, trivial⟩
  define := by
    rintro _ t x e f v hs hruns -
    -- a body runs in a new frame, so in an old one the `define` is one of the expression itself
    refine ⟨(), le_rfl, hs.define fun hf => ?_⟩
    rcases hruns with hnew | ⟨hr, hallowed⟩
    · exact absurd hf hnew.not_gt
    · exact .inl ⟨hr, hallowed _ (.here rfl)⟩
  assign := by
    rintro _ t x e f v t' hs - - hassign
    obtain ⟨holder, hfind, rfl⟩ := assign_eq_ok hassign
    exact ⟨(), le_rfl, hs.define fun _ => .inr (binds_of_find? hfind)⟩
  writeLine _ hs := ⟨(), le_rfl, hs.of_frames rfl⟩
  enterLet hs _ _ := ⟨(), le_rfl, hs.push, fun _ _ => .inl hs.size_le⟩
  enterClosure _ hs _ _ := ⟨(), le_rfl, hs.push, fun _ _ => .inl hs.size_le⟩

end Store

/-! ## Evaluation -/

variable {s : Store} {r : FrameId} {e : Code}

theorem Store.KeepsNames.of_keeps {allowed : String → Prop} {o : Outcome Value} (h : (s.scope r allowed).Keeps () o) :
    s.KeepsNames r allowed o.store := by
  obtain ⟨_, _, hstore, _⟩ := h
  exact hstore

/-- **Evaluation adds only names that the expression defines, and only to its own frame.** -/
theorem eval_keepsNames (fuel n : Nat) (e : Code) (r : FrameId) (s : Store) :
    s.KeepsNames r (e.Defines ·) (eval fuel n e r s).store :=
  .of_keeps ((s.scope r (e.Defines ·)).eval_keeps fuel n (.refl s) (.inr ⟨rfl, fun _ h => h⟩))

/-- **Calls add no names**, neither through `apply` nor directly. -/
theorem call_keepsNames (fuel n : Nat) (p : Value) (vs : List Value) (s : Store) :
    s.KeepsNames r (fun _ => False) (call (eval fuel) n p vs s).store :=
  .of_keeps ((s.scope r fun _ => False).call_keeps fuel n (.refl s) trivial fun _ _ => trivial)

theorem evalCall_keepsNames (fuel n : Nat) (p : Value) (vs : List Value) (s : Store) :
    s.KeepsNames r (fun _ => False) (evalCall fuel n p vs s).store :=
  .of_keeps ((s.scope r fun _ => False).evalCall_keeps fuel n (.refl s) trivial fun _ _ => trivial)

/-- Where no name is added, the frames there are bind exactly the names they did. -/
theorem Store.KeepsNames.binds_iff {t : Store} {name : String} {f : FrameId} (h : s.KeepsNames r (fun _ => False) t)
    (hf : f < s.frames.size) : t.Binds name f ↔ s.Binds name f := by
  refine ⟨fun ht => ?_, h.kept⟩
  rcases h.added hf ht with hold | ⟨-, hnever⟩
  · exact hold
  · exact hnever.elim

/-- **Scopes are stable.** However the evaluation of an expression in a frame `r` of a valid store ends: every other
frame there was binds exactly the names it did; `r` binds the names it did, and of others only those that a `define` of
the expression outside its lambda and `let` bodies is for. No call adds a name to a frame there was, in whichever of the
two ways it is made, and giving a name a new value adds none to any frame. So as seen from a frame from which `r` is not
seen, every name is found in the frame in which it was. -/
theorem eval_scope (fuel n : Nat) (e : Code) {r : FrameId} {s : Store} (hs : s.Valid) (hr : r < s.frames.size) :
    let t := (eval fuel n e r s).store
    (∀ f name, f < s.frames.size → f ≠ r → (t.Binds name f ↔ s.Binds name f)) ∧
      (∀ name, s.Binds name r → t.Binds name r) ∧
      (∀ name, t.Binds name r → s.Binds name r ∨ e.Defines name) ∧
      (∀ p vs (s : Store) name f, f < s.frames.size →
        ((evalCall fuel n p vs s).store.Binds name f ↔ s.Binds name f) ∧
          ((call (eval fuel) n p vs s).store.Binds name f ↔ s.Binds name f)) ∧
      (∀ (s t : Store) x v g name f, s.assign x v g = .ok t → (t.Binds name f ↔ s.Binds name f)) ∧
      ∀ name f, f < s.frames.size → ¬s.OnChain f r → t.find? name f = s.find? name f := by
  have hkeeps := eval_keepsNames fuel n e r s
  have hvalid := (eval_valid fuel n (e := e) hs hr).store
  refine ⟨fun f name hf hne => ⟨fun ht => ?_, hkeeps.kept⟩, fun name => hkeeps.kept, fun name ht => ?_, ?_, ?_, ?_⟩
  · rcases hkeeps.added hf ht with hold | ⟨hr, -⟩
    · exact hold
    · exact absurd hr hne
  · exact (hkeeps.added hr ht).imp id And.right
  · intro p vs s name f hf
    have hdirect := evalCall_keepsNames (r := f) fuel n p vs s
    have hcall := call_keepsNames (r := f) fuel n p vs s
    exact ⟨hdirect.binds_iff hf, hcall.binds_iff hf⟩
  · intro s t x v g name f hassign
    exact Store.binds_assign hassign
  · intro name f hf hchain
    exact hkeeps.find?_eq hs hvalid hf hchain

/-- `(define x ((lambda (x) (set! x (define y x))) (define z #t)))` -/
def nestedDefineExample : Code :=
  let name (lexeme : String) : Name := ⟨lexeme, 0, 0⟩
  .define (name "x") (.call (.lambda (.fixed [name "x"]) [.assign (name "x") (.define (name "y") (.symbol (name "x")))])
    [.define (name "z") (.literal (.boolean true))])

/-- The store that programs start with, and a frame that binds nothing. -/
def emptyFrameExample : Store := (Store.initial.enter (.fixed []) [] Store.globalFrame).2

theorem eval_scope_nestedDefine :
    let t := (eval 5 5 nestedDefineExample 1 emptyFrameExample).store
    emptyFrameExample.Valid ∧ 1 < emptyFrameExample.frames.size ∧ t.Binds "x" 1 ∧ t.Binds "z" 1 ∧ t.Binds "y" 2 ∧
      (∀ name, t.Binds name 0 ↔ emptyFrameExample.Binds name 0) ∧
      ¬emptyFrameExample.OnChain 0 1 ∧ t.find? "x" 0 = emptyFrameExample.find? "x" 0 := by
  have hvalid : emptyFrameExample.Valid := Store.initial_valid.enter_fixed (by simp) Store.initial_valid.global []
  have hsize : 1 < emptyFrameExample.frames.size := by decide
  have hchain : ¬emptyFrameExample.OnChain 0 1 := by
    have hglobal : emptyFrameExample.frames[0]?.map Frame.enclosing = some none := rfl
    intro h
    cases h with
    | outer hframe houter => simp [hframe, houter] at hglobal
  obtain ⟨hothers, -, -, -, -, hfind⟩ := eval_scope 5 5 nestedDefineExample hvalid hsize
  exact ⟨hvalid, hsize, rfl, rfl, rfl, fun name => hothers 0 name (by decide) (by decide), hchain,
    hfind "x" 0 (by decide) hchain⟩

end MiniScheme
