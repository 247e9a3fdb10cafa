import MiniScheme.Proofs.Store.Visibility

/-!
# What was stored last

A store is built by making frames, defining names in them and assigning to names. The record of all that was stored on
the way tells what every lookup gives: the entry that was made last for the name in the frame where it is found.

* `Store.Entry`, `Store.Entry.last?` — what was stored where, and the last of it.
* `Store.Recorded` — a store together with the record of how it came about.
* `Recorded.valueIn?_eq` — a frame holds what was stored in it last.
* `lookup_after_change` — what storing a value changes about lookups, and that lookups give what was stored last.
-/

namespace MiniScheme
namespace Store

/-- A value was stored under a name in a frame. -/
structure Entry where
  frame : FrameId
  name : String
  value : Value

namespace Entry

/-- The last value that a record, in which later entries come first, has for a name in a frame. -/
def last? (name : String) (f : FrameId) : List Entry → Option Value
  | [] => none
  | entry :: earlier => if entry.frame = f ∧ entry.name = name then some entry.value else last? name f earlier

/-- What a new frame stores, name by name. Missing values are undefined. -/
def ofNames (f : FrameId) : List String → List Value → List Entry
  | [], _ => []
  | name :: names, values => ⟨f, name, values.head?.getD .undefined⟩ :: ofNames f names values.tail

end Entry

/-- The store was built by operations that stored what the record says, the last entry first. -/
inductive Recorded : Store → List Entry → Prop where
  | empty : Recorded .empty []
  | construct {s : Store} {record : List Entry} (h : Recorded s record) (names : List String) (values : List Value)
    (enclosing : Option FrameId) (henclosing : ∀ outer, enclosing = some outer → outer < s.frames.size) :
    Recorded (s.push ⟨Bindings.putAll names values [], enclosing⟩)
      ((Entry.ofNames s.frames.size names values).reverse ++ record)
  | define {s : Store} {record : List Entry} (h : Recorded s record) (name : String) (v : Value) {f : FrameId}
    (hf : f < s.frames.size) : Recorded (s.define name v f) (⟨f, name, v⟩ :: record)
  | assign {s t : Store} {record : List Entry} (h : Recorded s record) {name : String} {v : Value} {f holder : FrameId}
    (hholder : s.find? name f = some holder) (hassign : s.assign name v f = .ok t) :
    Recorded t (⟨holder, name, v⟩ :: record)
  /-- Identities and output are none of the frames' business. -/
  | frames {s t : Store} {record : List Entry} (h : Recorded s record) (hframes : t.frames = s.frames) :
    Recorded t record

variable {s t : Store} {record : List Entry} {name other : String} {f g e : FrameId} {v : Value}

/-! ## The last entry -/

namespace Entry

theorem last?_append (first second : List Entry) :
    last? name f (first ++ second) = (last? name f first).or (last? name f second) := by
  induction first with
  | nil => rfl
  | cons entry first ih =>
    rw [List.cons_append, last?, last?, ih]
    split <;> rfl

/-- A new frame has no entries for old ones. -/
theorem last?_ofNames_of_ne (hne : g ≠ f) (names : List String) (values : List Value) :
    last? name f (ofNames g names values).reverse = none := by
  induction names generalizing values with
  | nil => rfl
  | cons first names ih =>
    rw [ofNames, List.reverse_cons, last?_append, ih, last?, if_neg fun h => hne h.1]
    rfl

end Entry

/-- A new frame holds what was stored in it last. -/
theorem get?_putAll (names : List String) (values : List Value) (bindings : Bindings) :
    (Bindings.putAll names values bindings).get? name =
      (Entry.last? name f (Entry.ofNames f names values).reverse).or (bindings.get? name) := by
  induction names generalizing values bindings with
  | nil => rfl
  | cons first names ih =>
    have hfirst (v : Value) : (bindings.put first v).get? name =
        (Entry.last? name f [⟨f, first, v⟩]).or (bindings.get? name) := by
      rw [Bindings.get?_put, Entry.last?]
      by_cases hname : first = name <;> simp [hname, Entry.last?]
    rw [Entry.ofNames, List.reverse_cons, Entry.last?_append, Option.or_assoc, ← hfirst, ← ih]
    cases values <;> rfl

/-! ## Recorded stores -/

namespace Recorded

theorem older (h : s.Recorded record) {frame : Frame} {outer : FrameId} (hframe : s.frames[f]? = some frame)
    (houter : frame.enclosing = some outer) : outer < f := by
  induction h generalizing f frame with
  | empty => cases hframe
  | construct _ names values _ henclosing ih =>
    rw [getElem?_push] at hframe
    split at hframe
    · next hf =>
      cases hframe
      exact hf ▸ henclosing outer houter
    · exact ih hframe houter
  | define _ name v _ ih =>
    obtain ⟨old, hold, heq, -⟩ := getElem?_define_eq_some hframe
    exact ih hold (heq ▸ houter)
  | assign _ _ hassign ih =>
    obtain ⟨holder, -, rfl⟩ := assign_eq_ok hassign
    obtain ⟨old, hold, heq, -⟩ := getElem?_define_eq_some hframe
    exact ih hold (heq ▸ houter)
  | frames _ hframes ih => exact ih (hframes ▸ hframe) houter

/-- **Frames that are made one after the other make no circles.** -/
theorem acyclic (h : s.Recorded record) : s.Acyclic := acyclic_of_older h.older

theorem last?_define (hf : f < s.frames.size) (h : ∀ name g, s.valueIn? name g = Entry.last? name g record) :
    (s.define name v f).valueIn? other g = Entry.last? other g (⟨f, name, v⟩ :: record) := by
  rw [valueIn?_define, Entry.last?, h]
  by_cases hsame : f = g ∧ name = other
  · obtain ⟨rfl, rfl⟩ := hsame
    simp [hf]
  · rw [if_neg hsame, if_neg fun hall => hsame ⟨hall.1, hall.2.1⟩]

/-- **A frame holds what was stored in it last.** -/
theorem valueIn?_eq (h : s.Recorded record) (name : String) (g : FrameId) :
    s.valueIn? name g = Entry.last? name g record := by
  induction h generalizing name g with
  | empty => rfl
  | @construct s record _ names values _ _ ih =>
    rw [Entry.last?_append, ← ih]
    by_cases hg : g = s.frames.size
    · subst hg
      have hnew : s.valueIn? name s.frames.size = none := by simp [valueIn?]
      rw [hnew, valueIn?, getElem?_push, if_pos rfl]
      exact get?_putAll names values []
    · rw [Entry.last?_ofNames_of_ne (Ne.symm hg), valueIn?, getElem?_push, if_neg hg]
      rfl
  | define _ _ _ hf ih => exact last?_define hf ih
  | assign _ hholder hassign ih =>
    obtain ⟨holder, hfind, rfl⟩ := assign_eq_ok hassign
    cases hfind.symm.trans hholder
    exact last?_define (binds_of_find? hholder).lt ih
  | frames _ hframes ih =>
    rw [← ih, valueIn?, valueIn?, hframes]

end Recorded

/-- **Lookups after a change.** Let no frame lie around itself. After a name is given a new value from `e`, it has that
value as seen from wherever it is found in the same frame, all other lookups come to what they did, and every name is
found where it was. It cannot be given one exactly if no frame on the chain of `e` binds it, and then no frame changes.
After it is defined in `e`, it has the value as seen from wherever `e` is on the chain and no nearer frame binds it, and
all other lookups come to what they did. Whatever is looked up was the last to be stored under its name in the frame
where it is found. -/
theorem lookup_after_change {s : Store} (hs : s.Acyclic) (e : FrameId) (name : String) (v : Value) :
    (∀ t, s.assign name v e = .ok t →
        (∀ f, s.find? name f = s.find? name e → t.get name f = .ok v) ∧
        (∀ other f, ¬(other = name ∧ s.find? name f = s.find? name e) → t.get other f = s.get other f) ∧
        ∀ other f, t.find? other f = s.find? other f) ∧
      ((∃ err, s.assign name v e = .error err) ↔ ∀ g, s.OnChain e g → ¬s.Binds name g) ∧
      (∀ err, s.assign name v e = .error err → err = .unbound name ∧
        ∀ fuel n c place line s₀, eval fuel n c e s₀ = .done v s →
          eval (fuel + 1) (n + 1) (.assign ⟨name, place, line⟩ c) e s₀ = .stopped (.error err) s) ∧
      (e < s.frames.size →
        (∀ f, s.Sees name f e → (s.define name v e).get name f = .ok v) ∧
        ∀ other f, ¬(other = name ∧ s.Sees name f e) → (s.define name v e).get other f = s.get other f) ∧
      ∀ record, s.Recorded record → ∀ other f w, s.get other f = .ok w →
        ∃ g, s.find? other f = some g ∧ Entry.last? other g record = some w := by
  refine ⟨fun t ht => ⟨fun f hf => ?_, fun other f => (get_assign ht other f).2, fun other f => find?_assign ht⟩, ?_,
    ?_, fun he => ⟨fun f hsees => get_define_of_sees hs he hsees, fun other f => get_define_of_not_sees hs⟩, ?_⟩
  · exact (get_assign ht name f).1 ⟨rfl, hf⟩
  · simp [assign_eq_error_iff hs]
  · intro err herr
    obtain ⟨rfl, -⟩ := (assign_eq_error_iff hs).1 herr
    refine ⟨rfl, fun fuel n c place line s₀ hvalue => ?_⟩
    have hinner : Eval.nested (eval fuel) (n + 1) c e s₀ = .done v s := hvalue
    simp only [eval, Eval.turn, hinner, Outcome.andThen_done, herr, Outcome.andThen_stopped]
  · intro record hrecord other f w hget
    obtain ⟨g, frame, hfind, hframe, hw⟩ := get_eq_ok hget
    refine ⟨g, hfind, ?_⟩
    rw [← hrecord.valueIn?_eq, valueIn?, hframe]
    exact hw

/-- The global frame binds `x`, and so does one of the two frames inside it. The other one has a frame inside. -/
def sharedExample : Store :=
  let parent := (empty.push ⟨[], none⟩).define "x" (.boolean true) 0
  let children := (parent.push ⟨[("y", .undefined)], some 0⟩).push ⟨[("x", .boolean false)], some 0⟩
  children.push ⟨[], some 1⟩

/-- What was stored in these frames, the last first. -/
def sharedRecord : List Entry :=
  [⟨2, "x", .boolean false⟩, ⟨1, "y", .undefined⟩, ⟨0, "x", .boolean true⟩]

theorem lookup_after_change_shared :
    let s := sharedExample
    let t := s.define "x" .null 0
    s.Acyclic ∧ s.Recorded sharedRecord ∧ s.assign "x" .null 3 = .ok t ∧ t.get "x" 1 = .ok .null ∧
      t.get "x" 2 = s.get "x" 2 ∧ 1 < s.frames.size ∧ (s.define "x" .null 1).get "x" 3 = .ok .null ∧
      (s.define "x" .null 1).get "x" 2 = s.get "x" 2 ∧ s.get "x" 3 = .ok (.boolean true) ∧
      Entry.last? "x" 0 sharedRecord = some (.boolean true) := by
  intro s t
  have hrecord : s.Recorded sharedRecord := by
    have hparent := (Recorded.empty.construct [] [] none nofun).define "x" (.boolean true) Nat.one_pos
    have hchild := hparent.construct ["y"] [] (some 0) (by rintro _ ⟨⟩; decide)
    have hchildren := hchild.construct ["x"] [.boolean false] (some 0) (by rintro _ ⟨⟩; decide)
    exact hchildren.construct [] [] (some 1) (by rintro _ ⟨⟩; decide)
  have hassign : s.assign "x" .null 3 = .ok t := rfl
  have hsize : 1 < s.frames.size := by decide
  have hsees : s.Sees "x" 3 1 := .outwards rfl rfl (by decide) .here
  have hhidden : ¬s.Sees "x" 2 1 := by
    rintro ⟨⟩
    contradiction
  obtain ⟨hafter, -, -, hdefined, hlast⟩ := lookup_after_change hrecord.acyclic 3 "x" .null
  obtain ⟨-, -, -, hdefine, -⟩ := lookup_after_change hrecord.acyclic 1 "x" .null
  obtain ⟨hsame, hothers, -⟩ := hafter t hassign
  obtain ⟨hseen, hunseen⟩ := hdefine hsize
  obtain ⟨g, hfind, hentry⟩ := hlast sharedRecord hrecord "x" 3 (.boolean true) rfl
  cases hfind
  exact ⟨hrecord.acyclic, hrecord, hassign, hsame 1 rfl, hothers "x" 2 (by decide), hsize, hseen 3 hsees,
    hunseen "x" 2 fun h => hhidden h.2, rfl, hentry⟩

end Store
end MiniScheme
