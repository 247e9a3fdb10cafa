import MiniScheme.Proofs.Expr.Cursor

/-!
# Runs of a reader with a cursor

What it takes for a run to do the same as a rule does on the tokens that are left: the cursor shows the next of them,
and what follows a part in the reader follows it in the rule.

* `Input` — tokens with a first mark for the end among them; `Input.Stands`, what is left in a place.
* `Agrees` — a run comes to the same as a rule, and was safe.
* `Agrees.bind`, `Agrees.after`, `Agrees.accepted`, `Agrees.refused`, `Agrees.noting` — how runs are put together.
-/

namespace MiniScheme
namespace Expr

variable {α β γ δ ε : Type}

/-! ## Places in the input -/

/-- The tokens before the first mark for the end, that mark, and whatever comes after it. -/
structure Input (α : Type) where
  before : List (Token α)
  mark : Token α
  rest : List (Token α)
  isEof_before : ∀ t ∈ before, t.kind.isEof = false
  mark_eq : mark.kind = .eof

namespace Input

def tokens (i : Input α) : List (Token α) := i.before ++ i.mark :: i.rest

/-- In this place, these are the tokens before the mark. -/
def Stands (i : Input α) (place : Nat) (unread : List (Token α)) : Prop :=
  ∃ read, i.before = read ++ unread ∧ read.length = place

/-- A place as before, right after the token `last`. -/
def Follows (i : Input α) (place : Nat) (last : Token α) (unread : List (Token α)) : Prop :=
  ∃ read, i.before = read ++ last :: unread ∧ read.length + 1 = place

/-- The next token, or the mark where no token is left. -/
def next (i : Input α) (unread : List (Token α)) : Token α := unread.head?.getD i.mark

variable {i : Input α} {place : Nat} {last t : Token α} {unread : List (Token α)}

@[simp] theorem next_nil (i : Input α) : i.next [] = i.mark := rfl

@[simp] theorem next_cons (i : Input α) (t : Token α) (unread : List (Token α)) : i.next (t :: unread) = t := rfl

theorem mark_shape_ne (i : Input α) (wanted : Token.Shape) (h : wanted ≠ .eof) : i.mark.kind.shape ≠ wanted := by
  rw [i.mark_eq]
  exact h.symm

theorem Follows.stands (h : i.Follows place last unread) : i.Stands place unread := by
  obtain ⟨read, hbefore, hlength⟩ := h
  exact ⟨read ++ [last], by simp [hbefore], by simp [hlength]⟩

theorem Stands.follows (h : i.Stands place (t :: unread)) : i.Follows (place + 1) t unread := by
  obtain ⟨read, hbefore, hlength⟩ := h
  exact ⟨read, hbefore, by rw [hlength]⟩

theorem stands_start (i : Input α) : i.Stands 0 i.before := ⟨[], rfl, rfl⟩

theorem Stands.add_length (h : i.Stands place unread) : place + unread.length = i.before.length := by
  obtain ⟨read, hbefore, hlength⟩ := h
  rw [hbefore, List.length_append, hlength]

/-- Further on, fewer tokens are left. -/
theorem Follows.unread_lt {place' : Nat} {last' : Token α} {unread' : List (Token α)}
    (h' : i.Follows place' last' unread') (h : i.Stands place unread) (hlt : place < place') :
    unread'.length < unread.length := by
  have hsum := h.add_length
  have hsum' := h'.stands.add_length
  omega

theorem Stands.length_le (h : i.Stands place unread) : unread.length ≤ i.before.length := by
  have hsum := h.add_length
  omega

theorem Follows.pos (h : i.Follows place last unread) : 0 < place := by
  obtain ⟨read, -, hlength⟩ := h
  omega

theorem Stands.isEof (h : i.Stands place (t :: unread)) : t.kind.isEof = false := by
  obtain ⟨read, hbefore, -⟩ := h
  exact i.isEof_before t (by simp [hbefore])

/-- The cursor is on a token of the input. -/
theorem Stands.getElem? (h : i.Stands place unread) : i.tokens[place]? = some (i.next unread) := by
  obtain ⟨read, hbefore, rfl⟩ := h
  unfold tokens next
  rw [hbefore, List.append_assoc, List.getElem?_append_right (Nat.le_refl _), Nat.sub_self]
  cases unread <;> rfl

theorem Follows.getElem? (h : i.Follows place last unread) : i.tokens[place - 1]? = some last := by
  obtain ⟨read, hbefore, rfl⟩ := h
  have hread : i.Stands read.length (last :: unread) := ⟨read, hbefore, rfl⟩
  exact hread.getElem?

/-- The first mark for the end stands right behind the tokens before it. -/
theorem findIdx_tokens (i : Input α) : i.tokens.findIdx (·.kind.isEof) = i.before.length := by
  have hbefore : i.before.findIdx (·.kind.isEof) = i.before.length :=
    List.findIdx_eq_length_of_false i.isEof_before
  unfold tokens
  rw [List.findIdx_append, hbefore, if_neg (Nat.lt_irrefl _), List.findIdx_cons, i.mark_eq]
  simp [Token.Kind.isEof]

theorem Stands.look_safe (h : i.Stands place unread) : (Act.look place).Safe i.tokens :=
  (List.getElem?_eq_some_iff.1 h.getElem?).1

theorem Stands.looks_safe (h : i.Stands place unread) : ∀ act ∈ [Act.look place], act.Safe i.tokens := by
  intro act hact
  rw [List.mem_singleton.1 hact]
  exact h.look_safe

theorem Follows.looksBack_safe (h : i.Follows place last unread) :
    ∀ act ∈ [Act.lookBack place], act.Safe i.tokens := by
  intro act hact
  rw [List.mem_singleton.1 hact]
  exact h.pos

theorem Stands.move_safe (h : i.Stands place unread) : (Act.move place).Safe i.tokens := by
  have hle : place ≤ i.before.length := Nat.le_of_add_right_le h.add_length.le
  exact hle.trans i.findIdx_tokens.ge

/-- To pass the next token is safe. -/
theorem Stands.passes_safe (h : i.Stands place (t :: unread)) :
    ∀ act ∈ [Act.look place, .move (place + 1), .lookBack (place + 1)], act.Safe i.tokens := by
  simp only [List.forall_mem_cons, List.not_mem_nil, false_imp_iff, implies_true, and_true]
  exact ⟨h.look_safe, h.follows.stands.move_safe, h.follows.pos⟩

end Input

/-! ## What the cursor shows -/

namespace Reader

section

variable {i : Input α} {place place' : Nat} {last t : Token α} {unread : List (Token α)} {reader : Reader α β}
  {next : β → Reader α γ} {tokens : List (Token α)} {b : β} {why : Halt} {acts : List Act}

theorem bind_of_ok (h : reader tokens place = ⟨.ok b, place', acts⟩) : (reader >>= next) tokens place =
    ⟨(next b tokens place').result, (next b tokens place').place, acts ++ (next b tokens place').acts⟩ := by
  simp only [Bind.bind, h]

theorem bind_of_error (h : reader tokens place = ⟨.error why, place', acts⟩) :
    (reader >>= next) tokens place = ⟨.error why, place', acts⟩ := by
  simp only [Bind.bind, h]

theorem noting_of_ok {part : Part} (h : reader tokens place = ⟨.ok b, place', acts⟩) :
    noting part reader tokens place = ⟨.ok b, place', acts ++ [.finish part place place']⟩ := by
  simp only [noting, h]

theorem noting_of_error {part : Part} (h : reader tokens place = ⟨.error why, place', acts⟩) :
    noting part reader tokens place = ⟨.error why, place', acts⟩ := by
  simp only [noting, h]

theorem recover_of_ok {handler : Halt → Reader α β} (h : reader tokens place = ⟨.ok b, place', acts⟩) :
    recover reader handler tokens place = ⟨.ok b, place', acts⟩ := by
  simp only [recover, h]

theorem recover_of_error {handler : Halt → Reader α β} (h : reader tokens place = ⟨.error why, place', acts⟩) :
    recover reader handler tokens place =
      ⟨(handler why tokens place').result, (handler why tokens place').place,
        acts ++ (handler why tokens place').acts⟩ := by
  simp only [recover, h]

theorem peek_eq (h : i.Stands place unread) : peek i.tokens place = ⟨.ok (i.next unread), place, [.look place]⟩ := by
  unfold peek
  rw [h.getElem?]

theorem previous_eq (h : i.Follows place last unread) :
    previous i.tokens place = ⟨.ok last, place, [.lookBack place]⟩ := by
  unfold previous
  rw [if_neg h.pos.ne', h.getElem?]

theorem check_eq (wanted : Token.Shape) (h : i.Stands place unread) : check wanted i.tokens place =
    ⟨.ok (decide ((i.next unread).kind.shape = wanted)), place, [.look place]⟩ := bind_of_ok (peek_eq h)

theorem atEnd_eq (h : i.Stands place unread) :
    atEnd i.tokens place = ⟨.ok (i.next unread).kind.isEof, place, [.look place]⟩ := bind_of_ok (peek_eq h)

theorem accept_eq (wanted : Token.Shape) (h : i.Stands place unread) : accept wanted i.tokens place =
    if (i.next unread).kind.shape = wanted then ⟨.ok true, place + 1, [.look place, .move (place + 1)]⟩
    else ⟨.ok false, place, [.look place]⟩ := by
  unfold accept
  rw [bind_of_ok (check_eq wanted h)]
  by_cases hnext : (i.next unread).kind.shape = wanted
  · simp only [hnext, decide_true, if_true]
    rfl
  · simp only [hnext, decide_false, if_false, Bool.false_eq_true]
    rfl

theorem advance_eq (h : i.Stands place (t :: unread)) : advance i.tokens place =
    ⟨.ok t, place + 1, [.look place, .move (place + 1), .lookBack (place + 1)]⟩ := by
  have hstep : (step : Reader α Unit) i.tokens place = ⟨.ok (), place + 1, [.move (place + 1)]⟩ := rfl
  have hmove : (do step; previous) i.tokens place =
      ⟨.ok t, place + 1, [.move (place + 1), .lookBack (place + 1)]⟩ := by
    rw [bind_of_ok hstep, previous_eq h.follows]
    rfl
  unfold advance
  rw [bind_of_ok (atEnd_eq h), show (i.next (t :: unread)).kind.isEof = false from h.isEof]
  simp [hmove]

theorem acceptLiteral_eq_none (h : i.Stands place unread) (hnext : (i.next unread).kind.literal? = none) :
    acceptLiteral i.tokens place = ⟨.ok none, place, [.look place]⟩ := by
  unfold acceptLiteral
  rw [bind_of_ok (peek_eq h), hnext]
  rfl

theorem acceptLiteral_eq_some {v : α} (h : i.Stands place (t :: unread)) (ht : t.kind.literal? = some v) :
    acceptLiteral i.tokens place =
      ⟨.ok (some v), place + 1, [.look place, .move (place + 1), .lookBack (place + 1)]⟩ := by
  have hstep : (step : Reader α Unit) i.tokens place = ⟨.ok (), place + 1, [.move (place + 1)]⟩ := rfl
  have hmove : (do
      step
      return (← previous).kind.literal?) i.tokens place =
        ⟨.ok (some v), place + 1, [.move (place + 1), .lookBack (place + 1)]⟩ := by
    rw [bind_of_ok hstep, bind_of_ok (previous_eq h.follows), ht]
    rfl
  unfold acceptLiteral
  rw [bind_of_ok (peek_eq h), Input.next_cons, ht]
  simp [hmove]

end
end Reader

/-! ## Runs that agree with rules -/

/-- How a reader halts where a rule fails. -/
def Failure.halt (failure : Failure α) (endLine : Int) : Halt :=
  match failure.cause with
  | .nestingTooDeep => .nestingTooDeep
  | _ => .refused (failure.toError endLine)

/-- A run comes to what a rule comes to on the tokens that are left in the place `start`: related values and the same
place, after one token at least, or the same failure. All that it did was safe, and it met a nesting limit of `depth`
only if there were as many tokens. -/
structure Agrees (i : Input α) (depth start : Nat) (R : β → Parsed α γ → Prop) (run : Run β)
    (result : Except (Failure α) (Parsed α γ)) : Prop where
  safe : ∀ act ∈ run.acts, act.Safe i.tokens
  ok : ∀ p, result = .ok p →
    ∃ b, run.result = .ok b ∧ R b p ∧ start < run.place ∧ i.Follows run.place p.last p.unread
  error : ∀ f, result = .error f → run.result = .error (f.halt i.mark.line) ∧ i.Stands run.place f.unread ∧
    (f.cause = .nestingTooDeep → depth + start ≤ i.before.length)

/-- The values are the same. -/
def SameValue (b : β) (p : Parsed α β) : Prop := b = p.value

namespace Agrees

variable {i : Input α} {depth start start' place place' : Nat} {last t : Token α} {unread : List (Token α)}
  {reader : Reader α β} {more : β → Reader α δ} {b : β} {acts : List Act} {R : β → Parsed α γ → Prop}
  {S : δ → Parsed α ε → Prop} {run : Run β} {result : Except (Failure α) (Parsed α γ)}
  {next : Parsed α γ → Except (Failure α) (Parsed α ε)}

theorem run_eq_error {f : Failure α} (h : Agrees i depth start R run (.error f)) :
    run = ⟨.error (f.halt i.mark.line), run.place, run.acts⟩ := by
  rw [← (h.error f rfl).1]

theorem run_eq_ok {p : Parsed α γ} (h : Agrees i depth start R run (.ok p)) : ∃ b,
    run = ⟨.ok b, run.place, run.acts⟩ ∧ R b p ∧ start < run.place ∧ i.Follows run.place p.last p.unread := by
  obtain ⟨b, hb, hrest⟩ := h.ok p rfl
  exact ⟨b, by rw [← hb], hrest⟩

theorem mono (hle : start ≤ start') (h : Agrees i depth start' R run result) : Agrees i depth start R run result where
  safe := h.safe
  ok p hp := by
    obtain ⟨b, hb, hR, hlt, hfollows⟩ := h.ok p hp
    exact ⟨b, hb, hR, hle.trans_lt hlt, hfollows⟩
  error f hf := by
    obtain ⟨hhalt, hstands, hdeep⟩ := h.error f hf
    exact ⟨hhalt, hstands, fun hcause => (Nat.add_le_add_left hle depth).trans (hdeep hcause)⟩

/-- A limit that lies one deeper is met one token earlier. -/
theorem deeper (h : Agrees i depth (place + 1) R run result) : Agrees i (depth + 1) place R run result where
  safe := h.safe
  ok := (h.mono (Nat.le_succ place)).ok
  error f hf := by
    obtain ⟨hhalt, hstands, hdeep⟩ := h.error f hf
    refine ⟨hhalt, hstands, fun hcause => ?_⟩
    have hle : depth + (place + 1) ≤ i.before.length := hdeep hcause
    omega

theorem of_eq {v : γ} (heq : reader i.tokens place = ⟨.ok b, place', acts⟩)
    (hacts : ∀ act ∈ acts, act.Safe i.tokens) (hR : R b ⟨v, last, unread⟩) (hlt : start < place')
    (h : i.Follows place' last unread) : Agrees i depth start R (reader i.tokens place) (.ok ⟨v, last, unread⟩) := by
  rw [heq]
  refine ⟨hacts, fun p hp => ?_, nofun⟩
  cases hp
  exact ⟨b, rfl, hR, hlt, h⟩

theorem done {v : γ} (hR : R b ⟨v, last, unread⟩) (hlt : start < place) (h : i.Follows place last unread) :
    Agrees i depth start R ((pure b : Reader α β) i.tokens place) (.ok ⟨v, last, unread⟩) :=
  .of_eq rfl nofun hR hlt h

theorem stuck {why : Halt} {f : Failure α} (h : i.Stands place f.unread) (hwhy : f.halt i.mark.line = why)
    (hcause : f.cause ≠ .nestingTooDeep) :
    Agrees i depth start R ((Reader.halt why : Reader α β) i.tokens place) (.error f) where
  safe := nofun
  ok := nofun
  error f' hf := by
    cases hf
    exact ⟨congrArg Except.error hwhy.symm, h, fun hdeep => absurd hdeep hcause⟩

/-- A step that no rule takes may come first. -/
theorem after {first : Reader α δ} {more : δ → Reader α β} {d : δ} (h : first i.tokens place = ⟨.ok d, place', acts⟩)
    (hacts : ∀ act ∈ acts, act.Safe i.tokens) (hmore : Agrees i depth start R (more d i.tokens place') result) :
    Agrees i depth start R ((first >>= more) i.tokens place) result := by
  rw [Reader.bind_of_ok h]
  exact ⟨List.forall_mem_append.2 ⟨hacts, hmore.safe⟩, hmore.ok, hmore.error⟩

/-- The token that is asked for is the next one. -/
theorem accepted {wanted : Token.Shape} {yes no : Reader α β} (h : i.Stands place (t :: unread))
    (hnext : t.kind.shape = wanted) (hyes : Agrees i depth start R (yes i.tokens (place + 1)) result) :
    Agrees i depth start R ((do if ← Reader.accept wanted then yes else no) i.tokens place) result := by
  have haccept := (Reader.accept_eq wanted h).trans (if_pos hnext)
  refine .after haccept ?_ hyes
  simp [h.look_safe, h.follows.stands.move_safe]

/-- The token that is asked for is not the next one. -/
theorem refused {wanted : Token.Shape} {yes no : Reader α β} (h : i.Stands place unread)
    (hnext : (i.next unread).kind.shape ≠ wanted) (hno : Agrees i depth start R (no i.tokens place) result) :
    Agrees i depth start R ((do if ← Reader.accept wanted then yes else no) i.tokens place) result := by
  have haccept := (Reader.accept_eq wanted h).trans (if_neg hnext)
  exact .after haccept h.looks_safe hno

/-- A rule that fails is not gone on with. -/
theorem bind_error {f : Failure α} (h : Agrees i depth start R (reader i.tokens place) (.error f)) :
    Agrees i depth start S ((reader >>= more) i.tokens place) (.error f) := by
  rw [Reader.bind_of_error h.run_eq_error]
  refine ⟨h.safe, nofun, fun f' hf => ?_⟩
  cases hf
  exact ⟨rfl, (h.error f rfl).2⟩

theorem bind (h : Agrees i depth start R (reader i.tokens place) result)
    (hmore : ∀ b p place', R b p → start < place' → i.Follows place' p.last p.unread →
      Agrees i depth start S (more b i.tokens place') (next p)) :
    Agrees i depth start S ((reader >>= more) i.tokens place) (result >>= next) := by
  cases result with
  | error f => exact h.bind_error
  | ok p =>
    obtain ⟨b, hrun, hR, hlt, hfollows⟩ := h.run_eq_ok
    exact .after hrun h.safe (hmore b p _ hR hlt hfollows)

theorem map {g : β → δ} {v : Parsed α γ → ε} (h : Agrees i depth start R (reader i.tokens place) result)
    (hS : ∀ b p, R b p → S (g b) ⟨v p, p.last, p.unread⟩) :
    Agrees i depth start S ((reader >>= fun b => pure (g b)) i.tokens place)
      (result >>= fun p => .ok ⟨v p, p.last, p.unread⟩) :=
  h.bind fun b p _ hR hlt hfollows => .done (hS b p hR) hlt hfollows

/-- A part that has been read is taken down; it has a token at least. -/
theorem noting {part : Part} (h : Agrees i depth place R (reader i.tokens place) result) :
    Agrees i depth place R (Reader.noting part reader i.tokens place) result := by
  cases result with
  | error f =>
    rw [Reader.noting_of_error h.run_eq_error, ← h.run_eq_error]
    exact h
  | ok p =>
    obtain ⟨b, hrun, hR, hlt, hfollows⟩ := h.run_eq_ok
    rw [Reader.noting_of_ok hrun]
    refine ⟨List.forall_mem_append.2 ⟨h.safe, fun act hact => ?_⟩, fun q hq => ?_, nofun⟩
    · rw [List.mem_singleton.1 hact]
      exact hlt
    · cases hq
      exact ⟨b, rfl, hR, hlt, hfollows⟩

end Agrees

end Expr
end MiniScheme
