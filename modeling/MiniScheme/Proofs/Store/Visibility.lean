import Mathlib.Data.Finset.Card
import MiniScheme.Proofs.Store.Lookup

/-!
# What is visible from a frame

Many frames may lie inside one, so what is stored in a frame is seen from all those whose chain leads to it, unless a
nearer frame binds the same name. Nothing here needs more of a store than that no frame lies around itself.

* `Store.Acyclic` — no frame lies around itself.
* `Store.Sees` — a frame is on the chain, and no nearer frame binds the name.
* `find?_eq_some_iff`, `find?_eq_none_iff` — the bounded search for a name finds what can be seen.
* `get_define_of_sees`, `get_define_of_not_sees`, `get_assign` — what is looked up after something was stored.
-/

namespace MiniScheme
namespace Store

variable {s t : Store} {name other : String} {f g e : FrameId} {v : Value} {frame : Frame}

/-- From the frame around a frame, that frame is not seen again. -/
def Acyclic (s : Store) : Prop :=
  ∀ {f outer : FrameId} {frame : Frame}, s.frames[f]? = some frame → frame.enclosing = some outer →
    ¬s.OnChain outer f

/-- The frame `g` is on the chain of `f`, and no nearer frame binds the name. -/
inductive Sees (s : Store) (name : String) : FrameId → FrameId → Prop where
  | here {f : FrameId} : Sees s name f f
  | outwards {f outer g : FrameId} {frame : Frame} (hframe : s.frames[f]? = some frame)
    (houter : frame.enclosing = some outer) (hmisses : ¬s.Binds name f) (h : Sees s name outer g) : Sees s name f g

/-! ## Chains -/

/-- Chains that lead from younger to older frames do not close. -/
theorem acyclic_of_older
    (h : ∀ {f outer : FrameId} {frame : Frame}, s.frames[f]? = some frame → frame.enclosing = some outer → outer < f) :
    s.Acyclic := by
  have hle {f g : FrameId} (hchain : s.OnChain f g) : g ≤ f := by
    induction hchain with
    | here => exact le_rfl
    | outer hframe houter _ ih => exact ih.trans (h hframe houter).le
  intro f outer frame hframe houter hchain
  exact (hle hchain).not_gt (h hframe houter)

theorem Valid.acyclic (h : s.Valid) : s.Acyclic := acyclic_of_older h.enclosing

theorem onChain_define : (s.define name v e).OnChain f g ↔ s.OnChain f g :=
  ⟨fun h => h.mono fun _ _ => map_enclosing_define.symm, fun h => h.mono fun _ _ => map_enclosing_define⟩

theorem Acyclic.define (hs : s.Acyclic) : (s.define name v e).Acyclic := by
  intro f outer frame hframe houter hchain
  obtain ⟨old, hold, henclosing, -⟩ := getElem?_define_eq_some hframe
  exact hs hold (henclosing ▸ houter) (onChain_define.1 hchain)

/-! ## Seeing -/

theorem Sees.onChain (h : s.Sees name f g) : s.OnChain f g := by
  induction h with
  | here => exact .here
  | outwards hframe houter _ _ ih => exact .outer hframe houter ih

/-- Of the frames that bind the name, one is seen at most. -/
theorem Sees.unique (h : s.Sees name f g) (hg : s.Binds name g) (h' : s.Sees name f e) (he : s.Binds name e) :
    e = g := by
  induction h with
  | here =>
    cases h' with
    | here => rfl
    | outwards _ _ hmisses _ => exact absurd hg hmisses
  | outwards hframe houter hmisses _ ih =>
    cases h' with
    | here => exact absurd he hmisses
    | outwards hframe' houter' _ h' =>
      cases hframe.symm.trans hframe'
      cases houter.symm.trans houter'
      exact ih hg h'

/-- Where no frame binds the name, all of the chain is seen. -/
theorem OnChain.sees (h : s.OnChain f g) (hmisses : ∀ g, s.OnChain f g → ¬s.Binds name g) : s.Sees name f g := by
  induction h with
  | here => exact .here
  | outer hframe houter _ ih =>
    exact .outwards hframe houter (hmisses _ .here) (ih fun g hg => hmisses g (.outer hframe houter hg))

/-! ## Searching -/

theorem sees_of_findWithin {bound : Nat} (h : s.findWithin name bound f = some g) : s.Sees name f g := by
  induction bound generalizing f with
  | zero => cases h
  | succ bound ih =>
    cases hframe : s.frames[f]? with
    | none => simp [findWithin, hframe] at h
    | some frame =>
      rw [findWithin_succ bound hframe] at h
      split at h
      · cases h
        exact .here
      · next hmisses =>
        obtain ⟨outer, houter, hfind⟩ := Option.bind_eq_some_iff.1 h
        refine .outwards hframe houter (fun hbinds => hmisses ?_) (ih hfind)
        simpa [binds_iff, hframe] using hbinds

/-- A bound that counts all frames of the chain is enough to find a frame on it that binds the name. -/
theorem isSome_findWithin (hs : s.Acyclic) {bound : Nat} {chain : Finset FrameId}
    (hchain : ∀ g, s.OnChain f g → g < s.frames.size → g ∈ chain) (hbound : chain.card ≤ bound) (h : s.OnChain f g)
    (hg : s.Binds name g) : (s.findWithin name bound f).isSome = true := by
  induction h generalizing bound chain with
  | here =>
    obtain ⟨frame, hframe, hbinds⟩ := binds_iff.1 hg
    have hpos : 0 < chain.card := Finset.card_pos.2 ⟨_, hchain _ .here hg.lt⟩
    obtain ⟨bound, rfl⟩ := Nat.exists_eq_add_one.2 (hpos.trans_le hbound)
    rw [findWithin_succ bound hframe, if_pos hbinds]
    rfl
  | @outer f outer _ frame hframe houter _ ih =>
    have hmem : f ∈ chain := hchain f .here (lt_of_getElem? hframe)
    obtain ⟨bound, rfl⟩ := Nat.exists_eq_add_one.2 ((Finset.card_pos.2 ⟨f, hmem⟩).trans_le hbound)
    rw [findWithin_succ bound hframe, houter]
    split
    · rfl
    · -- the frame itself is not on the chain of the one around it, so one step less is enough there
      have hrest (g : FrameId) (hg : s.OnChain outer g) (hlt : g < s.frames.size) : g ∈ chain.erase f := by
        refine Finset.mem_erase.2 ⟨?_, hchain g (.outer hframe houter hg) hlt⟩
        rintro rfl
        exact hs hframe houter hg
      refine ih hrest ?_ hg
      rw [Finset.card_erase_of_mem hmem]
      omega

theorem isSome_find? (hs : s.Acyclic) (h : s.OnChain f g) (hg : s.Binds name g) :
    (s.find? name f).isSome = true :=
  isSome_findWithin hs (fun _ _ hlt => Finset.mem_range.2 hlt) (Finset.card_range _).le h hg

/-- **The search for a name ends at the frame that binds it and is seen.** -/
theorem find?_eq_some_iff (hs : s.Acyclic) : s.find? name f = some g ↔ s.Sees name f g ∧ s.Binds name g := by
  refine ⟨fun h => ⟨sees_of_findWithin h, binds_of_find? h⟩, fun ⟨hsees, hbinds⟩ => ?_⟩
  obtain ⟨holder, hfind⟩ := Option.isSome_iff_exists.1 (isSome_find? hs hsees.onChain hbinds)
  rw [hfind, hsees.unique hbinds (sees_of_findWithin hfind) (binds_of_find? hfind)]

/-- **It fails if no frame of the chain binds the name.** -/
theorem find?_eq_none_iff (hs : s.Acyclic) : s.find? name f = none ↔ ∀ g, s.OnChain f g → ¬s.Binds name g := by
  constructor
  · intro h g hchain hbinds
    have hsome := isSome_find? hs hchain hbinds
    rw [h] at hsome
    cases hsome
  · intro h
    cases hfind : s.find? name f with
    | none => rfl
    | some holder => exact absurd (binds_of_find? hfind) (h holder (sees_of_findWithin hfind).onChain)

/-! ## After a definition -/

/-- What is seen stays so if no frame before it comes to bind the name. -/
theorem Sees.mono (hs : s.Acyclic) (h : s.Sees name f g)
    (henclosing : ∀ f : FrameId, t.frames[f]?.map Frame.enclosing = s.frames[f]?.map Frame.enclosing)
    (hbinds : ∀ k, s.Sees name f k → k ≠ g → t.Binds name k → s.Binds name k) : t.Sees name f g := by
  induction h with
  | here => exact .here
  | @outwards f _ _ _ hframe houter hmisses h ih =>
    have hmap := henclosing f
    rw [hframe, Option.map_some] at hmap
    obtain ⟨frame', hframe', heq⟩ := Option.map_eq_some_iff.1 hmap
    refine .outwards hframe' (heq.trans houter) (fun hnew => hmisses (hbinds _ .here ?_ hnew)) ?_
    · rintro rfl
      exact hs hframe houter h.onChain
    · exact ih fun k hk => hbinds k (.outwards hframe houter hmisses hk)

theorem get_of_sees (hs : s.Acyclic) (h : s.Sees name f g) (hv : s.valueIn? name g = some v) :
    s.get name f = .ok v := by
  have hfind : s.find? name f = some g := (find?_eq_some_iff hs).2 ⟨h, by rw [Binds, hv]; rfl⟩
  rw [get, hfind]
  simp only [hv]

/-- **What is defined in a frame is looked up from where the frame is seen.** -/
theorem get_define_of_sees (hs : s.Acyclic) (he : e < s.frames.size) (h : s.Sees name f e) :
    (s.define name v e).get name f = .ok v := by
  have hsees : (s.define name v e).Sees name f e := by
    refine h.mono hs (fun _ => map_enclosing_define) fun k _ hne hbinds => ?_
    exact (binds_define.1 hbinds).resolve_right fun hnew => hne hnew.1.symm
  refine get_of_sees hs.define hsees ?_
  rw [valueIn?_define, if_pos ⟨rfl, rfl, he⟩]

/-- **From elsewhere, and under other names, all is as before.** -/
theorem get_define_of_not_sees (hs : s.Acyclic) (h : ¬(other = name ∧ s.Sees name f e)) :
    (s.define name v e).get other f = s.get other f := by
  have hold {k : FrameId} (hk : s.Sees other f k) (hbinds : (s.define name v e).Binds other k) : s.Binds other k := by
    rcases binds_define.1 hbinds with hold | ⟨rfl, rfl, -⟩
    · exact hold
    · exact absurd ⟨rfl, hk⟩ h
  cases hfind : s.find? other f with
  | none =>
    have hmisses := (find?_eq_none_iff hs).1 hfind
    have hnone : (s.define name v e).find? other f = none := by
      refine (find?_eq_none_iff hs.define).2 fun g hg hbinds => ?_
      have hchain := onChain_define.1 hg
      exact hmisses g hchain (hold (hchain.sees hmisses) hbinds)
    rw [get_of_find?_eq_none hfind, get_of_find?_eq_none hnone]
  | some g =>
    obtain ⟨w, hw, hget⟩ := get_of_find?_eq_some hfind
    have hsees := sees_of_findWithin hfind
    have hsees' : (s.define name v e).Sees other f g :=
      hsees.mono hs (fun _ => map_enclosing_define) fun _ hk _ => hold hk
    rw [hget]
    refine get_of_sees hs.define hsees' ?_
    rw [valueIn?_define, if_neg, hw]
    rintro ⟨rfl, rfl, -⟩
    exact h ⟨rfl, hsees⟩

/-! ## After an assignment -/

/-- **No name is found elsewhere after an assignment.** -/
theorem find?_assign (h : s.assign name v e = .ok t) : t.find? other f = s.find? other f := by
  obtain ⟨holder, -, rfl⟩ := assign_eq_ok h
  rw [find?, find?, size_define]
  exact findWithin_congr (fun _ => map_enclosing_define) (fun _ => binds_assign h) _ f

/-- **What is assigned is looked up from where the same frame is found**, and all else is as before. -/
theorem get_assign (h : s.assign name v e = .ok t) (other : String) (f : FrameId) :
    (other = name ∧ s.find? name f = s.find? name e → t.get other f = .ok v) ∧
      (¬(other = name ∧ s.find? name f = s.find? name e) → t.get other f = s.get other f) := by
  have hfind : t.find? other f = s.find? other f := find?_assign h
  obtain ⟨holder, hholder, rfl⟩ := assign_eq_ok h
  have hlt : holder < s.frames.size := (binds_of_find? hholder).lt
  constructor
  · rintro ⟨rfl, hsame⟩
    have hv : (s.define other v holder).valueIn? other holder = some v := by
      rw [valueIn?_define, if_pos ⟨rfl, rfl, hlt⟩]
    rw [get, hfind, hsame, hholder]
    simp only [hv]
  · intro hother
    rw [get, hfind, get]
    cases hg : s.find? other f with
    | none => rfl
    | some g =>
      have hne : ¬(holder = g ∧ name = other ∧ g < s.frames.size) := by
        rintro ⟨rfl, rfl, -⟩
        exact hother ⟨rfl, hg.trans hholder.symm⟩
      simp only [valueIn?_define, if_neg hne]

/-- **An assignment fails exactly if no frame of the chain binds the name.** -/
theorem assign_eq_error_iff (hs : s.Acyclic) {err : RuntimeError} :
    s.assign name v e = .error err ↔ err = .unbound name ∧ ∀ g, s.OnChain e g → ¬s.Binds name g := by
  rw [← find?_eq_none_iff hs, assign]
  cases s.find? name e with
  | none => simp [eq_comm]
  | some holder => simp

end Store
end MiniScheme
