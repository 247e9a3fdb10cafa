import MiniScheme.Proofs.Expr.CursorRuns

/-!
# The cursor stays on the tokens

The reader with a cursor comes to the same as the rules on what is left of the tokens, and on its way does nothing that
it must not do.

* `agrees_untilClosed` — loops end, since each part has a token at least.
* `agrees_expression` — the reader of expressions agrees with the rule for them; there is one lemma for each rule.
* `parse_cursor` — reading a program with a cursor ends, is safe and comes to what the parser says.
-/

namespace MiniScheme
namespace Expr

variable {α β γ : Type}

/-! ## Tokens and names -/

section

variable {i : Input α} {depth start place : Nat} {last : Token α} {unread : List (Token α)}

/-- The report of a token that begins nothing. -/
theorem halt_unexpected (i : Input α) (unread : List (Token α)) :
    (⟨.unexpected, unread⟩ : Failure α).halt i.mark.line =
      .refused ⟨(i.next unread).line, .unexpected (i.next unread).kind.shape⟩ := by
  cases unread with
  | nil =>
    simp only [Failure.halt, Failure.toError, Input.next, List.head?_nil, Option.getD_none, i.mark_eq]
    rfl
  | cons t us => rfl

/-- No expression begins with the next token. -/
theorem agrees_unexpected {item : Reader α (Expr α)} {rounds : Nat} (h : i.Stands place unread)
    (hsymbol : (i.next unread).kind.shape ≠ .symbol) (hliteral : (i.next unread).kind.literal? = none)
    (hquote : (i.next unread).kind.shape ≠ .quote) :
    Agrees i depth place SameValue (Reader.atom item rounds i.tokens place) (.error ⟨.unexpected, unread⟩) := by
  refine .refused h hsymbol (.after (Reader.acceptLiteral_eq_none h hliteral) h.looks_safe ?_)
  exact .refused h hquote (.after (Reader.peek_eq h) h.looks_safe (.stuck h (halt_unexpected i unread) nofun))

/-- The report of a token that does not stand where it has to is about the one before. -/
theorem agrees_expected {R : β → Parsed α γ → Prop} (wanted : Token.Shape) (h : i.Follows place last unread) :
    Agrees i depth place R ((do
        let last ← Reader.previous
        Reader.halt (.refused ⟨last.line, .expected last.kind.shape wanted⟩)) i.tokens place)
      (.error ⟨.expected last wanted, unread⟩) :=
  .after (Reader.previous_eq h) h.looksBack_safe (.stuck h.stands rfl nofun)

theorem agrees_consume (wanted : Token.Shape) (hwanted : wanted ≠ .eof) (h : i.Follows place last unread) :
    Agrees i depth place (fun t p => t = p.last) (Reader.consume wanted i.tokens place)
      (expect wanted last unread) := by
  have hstands : i.Stands place unread := h.stands
  have hcheck := Reader.check_eq wanted hstands
  unfold Reader.consume
  cases unread with
  | nil =>
    rw [Input.next_nil, decide_eq_false (i.mark_shape_ne wanted hwanted)] at hcheck
    exact .after hcheck hstands.looks_safe (agrees_expected wanted h)
  | cons t us =>
    rw [Input.next_cons] at hcheck
    unfold expect
    dsimp only
    split
    · rename_i hnext
      rw [decide_eq_true hnext] at hcheck
      refine .after hcheck hstands.looks_safe ?_
      exact .of_eq (Reader.advance_eq hstands) hstands.passes_safe rfl (Nat.lt_succ_self place) hstands.follows
    · rename_i hnext
      rw [decide_eq_false hnext] at hcheck
      exact .after hcheck hstands.looks_safe (agrees_expected wanted h)

theorem agrees_name (h : i.Follows place last unread) :
    Agrees i depth place SameValue (Reader.name i.tokens place) (expectName last unread) := by
  have hconsume : Agrees i depth place _ (Reader.consume .symbol i.tokens place) (expect .symbol last unread) :=
    agrees_consume .symbol nofun h
  have hmap := hconsume.map (S := SameValue) (v := fun p => p.last.toName) fun _ _ ht => congrArg Token.toName ht
  unfold expectName
  split <;> rename_i heq <;> rw [heq] at hmap <;> exact hmap

/-! ## Up to the closing bracket -/

/-- A loop whose part agrees with a part of the rule, and fails as the rule does where the input ends. It needs one
round more than there are tokens. -/
theorem agrees_untilClosed {part : Reader α β} {part' : Token α → Rule α β} {missing : Token α → Failure.Cause α}
    (hpart : ∀ place last t us, i.Follows place last (t :: us) →
      Agrees i depth place SameValue (part i.tokens place) (part' last (t :: us)))
    (hmissing : ∀ place last, i.Follows place last [] →
      Agrees (γ := β) i depth place SameValue (part i.tokens place) (.error ⟨missing last, []⟩))
    {done : List β} {rounds k : Nat} (h : i.Follows place last unread) (hrounds : unread.length < rounds)
    (hk : unread.length ≤ k) :
    Agrees i depth place SameValue (Reader.untilClosed part done rounds i.tokens place)
      (untilClosed part' missing done k last unread) := by
  -- Every round passes a token, so that rounds and tokens get fewer together and the last round is for the end.
  induction rounds generalizing place last unread done k with
  | zero => exact absurd hrounds (Nat.not_lt_zero _)
  | succ rounds ih =>
    cases unread with
    | nil =>
      have hrule : untilClosed part' missing done k last [] = .error ⟨missing last, []⟩ := by
        cases k <;> rfl
      rw [hrule]
      exact .refused h.stands (i.mark_shape_ne .rightBracket nofun) (hmissing place last h).bind_error
    | cons t us =>
      obtain ⟨k, rfl⟩ : ∃ k', k = k' + 1 := ⟨k - 1, by rw [List.length_cons] at hk; omega⟩
      unfold untilClosed
      dsimp only
      split
      · rename_i ht
        exact .accepted h.stands ht (.done rfl (Nat.lt_succ_self place) h.stands.follows)
      · rename_i ht
        let more (next : Parsed α β) := untilClosed part' missing (next.value :: done) k next.last next.unread
        have hloop : Agrees i depth place SameValue
            ((part >>= fun next => Reader.untilClosed part (next :: done) rounds) i.tokens place)
            (part' last (t :: us) >>= more) := by
          refine (hpart place last t us h).bind fun b p place' hb hlt hfollows => ?_
          obtain rfl : b = p.value := hb
          have hlength : p.unread.length < (t :: us).length := hfollows.unread_lt h.stands hlt
          exact (ih hfollows (by omega) (by omega)).mono hlt.le
        refine .refused h.stands ht ?_
        cases hresult : part' last (t :: us) <;> rw [hresult] at hloop <;> exact hloop

section

variable {rounds k : Nat} (hrounds : i.before.length < rounds) (hk : i.before.length ≤ k)
include hrounds hk

theorem agrees_names (h : i.Follows place last unread) :
    Agrees i depth place SameValue (Reader.untilClosed Reader.name [] rounds i.tokens place) (names k last unread) := by
  have hle : unread.length ≤ i.before.length := h.stands.length_le
  exact agrees_untilClosed (fun _ _ _ _ => agrees_name) (fun _ _ => agrees_name) h (by omega) (by omega)

theorem agrees_params (h : i.Follows place last unread) :
    Agrees i depth place SameValue (Reader.params rounds i.tokens place) (params k last unread) := by
  have hfixed : Agrees i depth place SameValue
      ((do
        let _ ← Reader.consume .leftBracket
        let names ← Reader.untilClosed Reader.name [] rounds
        return Params.fixed names) i.tokens place)
      (do
        let opening ← expect .leftBracket last unread
        let fixed ← names k opening.last opening.unread
        return ⟨.fixed fixed.value, fixed.last, fixed.unread⟩) := by
    refine (agrees_consume .leftBracket nofun h).bind fun _ opening place' _ hlt hopening => ?_
    refine ((agrees_names hrounds hk hopening).mono hlt.le).map ?_
    exact fun _ _ hnames => congrArg Params.fixed hnames
  unfold Reader.params params
  cases unread with
  | nil => exact .refused h.stands (i.mark_shape_ne .symbol nofun) hfixed
  | cons t us =>
    by_cases ht : t.kind.shape = .symbol
    · have hname : expectName last (t :: us) = .ok ⟨t.toName, t, us⟩ := by simp [expectName, expect, ht]
      rw [hname]
      have hfollows : i.Follows (place + 1) t us := h.stands.follows
      refine .accepted h.stands ht (.after (Reader.previous_eq hfollows) hfollows.looksBack_safe ?_)
      exact .done rfl (Nat.lt_succ_self place) hfollows
    · have hname : expectName last (t :: us) = .error ⟨.expected last .symbol, t :: us⟩ := by
        simp [expectName, expect, ht]
      rw [hname]
      exact .refused h.stands ht hfixed

end

/-! ## Inside brackets -/

/-- A reader of expressions agrees with a rule, in every place. -/
def AgreesItem (i : Input α) (depth : Nat) (item : Reader α (Expr α)) (item' : Rule α (Expr α)) : Prop :=
  ∀ place unread, i.Stands place unread → Agrees i depth place SameValue (item i.tokens place) (item' unread)

section

variable {item : Reader α (Expr α)} {item' : Rule α (Expr α)} (hitem : AgreesItem i depth item item')
include hitem

theorem agrees_nameAndValue (h : i.Follows place last unread) :
    Agrees i depth place SameValue (Reader.nameAndValue item i.tokens place) (nameAndValue item' last unread) := by
  refine (agrees_name h).bind fun _ name place₁ hname hlt₁ h₁ => ?_
  refine ((hitem place₁ _ h₁.stands).mono hlt₁.le).bind fun _ value place₂ hvalue hlt₂ h₂ => ?_
  refine ((agrees_consume .rightBracket nofun h₂).mono hlt₂.le).map fun _ _ _ => ?_
  exact congrArg₂ Prod.mk hname hvalue

theorem agrees_binding (h : i.Follows place last unread) :
    Agrees i depth place SameValue (Reader.binding item i.tokens place) (binding item' last unread) := by
  refine .noting ((agrees_consume .leftBracket nofun h).bind fun _ opening place₁ _ hlt h₁ => ?_)
  exact (agrees_nameAndValue hitem h₁).mono hlt.le

/-- A branch that is missing has no token, so that this rule begins further on than `start`. -/
theorem agrees_otherwise (h : i.Follows place last unread) (hlt : start < place) :
    Agrees i depth start SameValue (Reader.otherwise item i.tokens place) (otherwise item' last unread) := by
  have hcheck := Reader.check_eq .rightBracket h.stands
  have hbranch : Agrees i depth start SameValue
      ((do
        let branch ← item
        return some branch) i.tokens place)
      (do
        let branch ← item' unread
        return ⟨some branch.value, branch.last, branch.unread⟩) :=
    ((hitem place unread h.stands).mono hlt.le).map fun _ _ hvalue => congrArg some hvalue
  unfold Reader.otherwise otherwise expect
  cases unread with
  | nil =>
    rw [Input.next_nil, decide_eq_false (i.mark_shape_ne .rightBracket nofun)] at hcheck
    exact .after hcheck h.stands.looks_safe hbranch
  | cons t us =>
    rw [Input.next_cons] at hcheck
    by_cases ht : t.kind.shape = .rightBracket
    · rw [decide_eq_true ht] at hcheck
      simp only [ht, if_true]
      exact .after hcheck h.stands.looks_safe (.done rfl hlt h)
    · rw [decide_eq_false ht] at hcheck
      simp only [ht, if_false]
      exact .after hcheck h.stands.looks_safe hbranch

theorem agrees_cond {k : Nat} (h : i.Follows place last unread) : Agrees i depth place SameValue
    (Reader.cond item i.tokens place) (form item' k .cond last unread) := by
  refine (hitem place unread h.stands).bind fun _ test place₁ htest hlt₁ h₁ => ?_
  refine ((hitem place₁ _ h₁.stands).mono hlt₁.le).bind fun _ chosen place₂ hchosen hlt₂ h₂ => ?_
  refine (agrees_otherwise hitem h₂ hlt₂).bind fun _ other place₃ hother hlt₃ h₃ => ?_
  refine ((agrees_consume .rightBracket nofun h₃).mono hlt₃.le).map fun _ _ _ => ?_
  cases htest
  cases hchosen
  cases hother
  rfl

variable {rounds k : Nat} (hrounds : i.before.length < rounds) (hk : i.before.length ≤ k)
include hrounds hk

theorem agrees_items (h : i.Follows place last unread) :
    Agrees i depth place SameValue (Reader.items item rounds i.tokens place) (items item' k last unread) := by
  have hle : unread.length ≤ i.before.length := h.stands.length_le
  refine agrees_untilClosed (fun place last t us h => ?_) (fun place last h => ?_) h (by omega) (by omega)
  · have hend := Reader.atEnd_eq h.stands
    rw [Input.next_cons, h.stands.isEof] at hend
    exact .after hend h.stands.looks_safe (hitem place _ h.stands)
  · have hend := Reader.atEnd_eq h.stands
    rw [Input.next_nil, i.mark_eq] at hend
    refine .after hend h.stands.looks_safe (.after (Reader.peek_eq h.stands) h.stands.looks_safe ?_)
    exact .stuck h.stands rfl nofun

theorem agrees_bindings (h : i.Follows place last unread) :
    Agrees i depth place SameValue (Reader.untilClosed (Reader.binding item) [] rounds i.tokens place)
      (bindings item' k last unread) := by
  have hle : unread.length ≤ i.before.length := h.stands.length_le
  exact agrees_untilClosed (fun _ _ _ _ => agrees_binding hitem) (fun _ _ => agrees_binding hitem) h (by omega)
    (by omega)

theorem agrees_datum (h : i.Stands place unread) :
    Agrees i depth place SameValue (Reader.datum item rounds i.tokens place) (datum item' k unread) := by
  refine .noting ?_
  unfold datum
  cases unread with
  | nil => exact .refused h (i.mark_shape_ne .leftBracket nofun) (hitem place [] h)
  | cons t us =>
    dsimp only
    split
    · rename_i ht
      refine .accepted h ht (.map ((agrees_items hitem hrounds hk h.follows).mono (Nat.le_succ place)) ?_)
      exact fun _ _ hitems => congrArg Expr.list hitems
    · rename_i ht
      exact .refused h ht (hitem place _ h)

theorem agrees_lambda (h : i.Follows place last unread) : Agrees i depth place SameValue
    (Reader.lambda item rounds i.tokens place) (form item' k .lambda last unread) := by
  refine (agrees_params hrounds hk h).bind fun _ head place₁ hhead hlt h₁ => ?_
  refine ((agrees_items hitem hrounds hk h₁).mono hlt.le).map fun _ _ hbody => ?_
  exact congrArg₂ Expr.lambda hhead hbody

theorem agrees_letIn (h : i.Follows place last unread) : Agrees i depth place SameValue
    (Reader.letIn item rounds i.tokens place) (form item' k .letIn last unread) := by
  refine (agrees_consume .leftBracket nofun h).bind fun _ opening place₁ _ hlt₁ h₁ => ?_
  refine ((agrees_bindings hitem hrounds hk h₁).mono hlt₁.le).bind fun _ pairs place₂ hpairs hlt₂ h₂ => ?_
  refine ((agrees_items hitem hrounds hk h₂).mono hlt₂.le).map fun _ _ hbody => ?_
  cases hpairs
  cases hbody
  rfl

theorem agrees_quote (h : i.Follows place last unread) : Agrees i depth place SameValue
    (Reader.quote item rounds i.tokens place) (form item' k .quote last unread) := by
  refine (agrees_datum hitem hrounds hk h.stands).bind fun _ quoted place₁ hquoted hlt h₁ => ?_
  exact ((agrees_consume .rightBracket nofun h₁).mono hlt.le).map fun _ _ _ => congrArg Expr.quote hquoted

theorem agrees_form (keyword : Keyword) {word : Token α} {us : List (Token α)} (h : i.Stands place (word :: us)) :
    Agrees i depth place SameValue (Reader.form item rounds keyword i.tokens place) (form item' k keyword word us) := by
  have hword : i.Follows (place + 1) word us := h.follows
  have hle : place ≤ place + 1 := Nat.le_succ place
  refine .after (Reader.advance_eq h) h.passes_safe ?_
  cases keyword with
  | lambda => exact (agrees_lambda hitem hrounds hk hword).mono hle
  | define =>
    refine ((agrees_nameAndValue hitem hword).mono hle).map fun _ _ hpair => ?_
    cases hpair
    rfl
  | assign =>
    refine ((agrees_nameAndValue hitem hword).mono hle).map fun _ _ hpair => ?_
    cases hpair
    rfl
  | cond => exact (agrees_cond hitem hword).mono hle
  | letIn => exact (agrees_letIn hitem hrounds hk hword).mono hle
  | quote => exact (agrees_quote hitem hrounds hk hword).mono hle

theorem agrees_call (h : i.Stands place unread) :
    Agrees i depth place SameValue (Reader.call item rounds i.tokens place) (callRest item' k unread) := by
  refine (hitem place unread h).bind fun _ callee place₁ hcallee hlt h₁ => ?_
  refine ((agrees_items hitem hrounds hk h₁).mono hlt.le).map fun _ _ hargs => ?_
  exact congrArg₂ Expr.call hcallee hargs

theorem agrees_bracketed (h : i.Stands place unread) :
    Agrees i depth place SameValue (Reader.bracketed item rounds i.tokens place) (bracketed item' k unread) := by
  have hcall : Agrees i depth place SameValue (Reader.call item rounds i.tokens place) (callRest item' k unread) :=
    agrees_call hitem hrounds hk h
  have hpeek := Reader.peek_eq h
  cases unread with
  | nil =>
    have hword : keyword? i.mark = none := if_neg (i.mark_shape_ne .symbol nofun)
    refine .refused h (i.mark_shape_ne .rightBracket nofun) (.after hpeek h.looks_safe ?_)
    simp only [Input.next_nil, hword]
    exact hcall
  | cons t us =>
    unfold bracketed
    dsimp only
    split
    · rename_i ht
      exact .accepted h ht (.done rfl (Nat.lt_succ_self place) h.follows)
    · rename_i ht
      refine .refused h ht (.after hpeek h.looks_safe ?_)
      simp only [Input.next_cons]
      cases keyword? t with
      | some keyword => exact agrees_form hitem hrounds hk keyword h
      | none => exact hcall

end

end

/-! ## Expressions and programs -/

section

variable {i : Input α} {rounds k : Nat} (hrounds : i.before.length < rounds) (hk : i.before.length ≤ k)
include hrounds hk

/-- **The reader of expressions agrees with the rule for them.** A limit on nesting is met only if there are as many
tokens. -/
theorem agrees_expression (nesting : Nat) :
    AgreesItem i nesting (Reader.expression rounds nesting) (expression k nesting) := by
  induction nesting with
  | zero =>
    intro place unread h
    refine ⟨nofun, nofun, fun f hf => ?_⟩
    cases hf
    have hsum := h.add_length
    exact ⟨rfl, h, fun _ => by omega⟩
  | succ nesting ih =>
    intro place unread h
    refine .noting ?_
    cases unread with
    | nil =>
      have hmark : (i.next []).kind = .eof := i.mark_eq
      refine .refused h (i.mark_shape_ne .leftBracket nofun) ?_
      refine agrees_unexpected h (i.mark_shape_ne .symbol nofun) ?_ (i.mark_shape_ne .quote nofun)
      rw [hmark]
      rfl
    | cons t us =>
      have hlt : place < place + 1 := Nat.lt_succ_self place
      unfold expression
      dsimp only
      -- What is nested begins behind this token, and so meets its limit one token later than the whole.
      cases hkind : t.kind with
      | leftBracket =>
        exact .accepted h (by rw [hkind]; rfl) (agrees_bracketed ih hrounds hk h.follows.stands).deeper
      | symbol =>
        refine .refused h (by simp [hkind]) (.accepted h (by rw [hkind]; rfl) ?_)
        exact .after (Reader.previous_eq h.follows) h.follows.looksBack_safe (.done rfl hlt h.follows)
      | number v | boolean v | string v =>
        have hliteral : t.kind.literal? = some v := by rw [hkind]; rfl
        refine .refused h (by simp [hkind]) (.refused h (by simp [hkind]) ?_)
        exact .after (Reader.acceptLiteral_eq_some h hliteral) h.passes_safe (.done rfl hlt h.follows)
      | quote =>
        have hliteral : (i.next (t :: us)).kind.literal? = none := by simp [hkind, Token.Kind.literal?]
        refine .refused h (by simp [hkind]) (.refused h (by simp [hkind]) ?_)
        refine .after (Reader.acceptLiteral_eq_none h hliteral) h.looks_safe (.accepted h (by rw [hkind]; rfl) ?_)
        exact (agrees_datum ih hrounds hk h.follows.stands).deeper
      | rightBracket | quasiquote | unquote | unquoteSplicing | eof =>
        refine .refused h (by simp [hkind]) (agrees_unexpected h ?_ ?_ ?_)
        all_goals simp [hkind, Token.Kind.literal?, Token.Kind.shape]

end

/-- A run comes to the program that a rule comes to, or to the same failure, and was safe. -/
structure AgreesProgram (i : Input α) (depth : Nat) (run : Run (List (Expr α)))
    (result : Except (Failure α) (List (Expr α))) : Prop where
  safe : ∀ act ∈ run.acts, act.Safe i.tokens
  ok : ∀ es, result = .ok es → run.result = .ok es
  error : ∀ f, result = .error f → run.result = .error (f.halt i.mark.line) ∧ i.Stands run.place f.unread ∧
    (f.cause = .nestingTooDeep → depth ≤ i.before.length)

theorem AgreesProgram.after {i : Input α} {depth place place' : Nat} {first : Reader α β}
    {more : β → Reader α (List (Expr α))} {b : β} {acts : List Act}
    {result : Except (Failure α) (List (Expr α))} (h : first i.tokens place = ⟨.ok b, place', acts⟩)
    (hacts : ∀ act ∈ acts, act.Safe i.tokens) (hmore : AgreesProgram i depth (more b i.tokens place') result) :
    AgreesProgram i depth ((first >>= more) i.tokens place) result := by
  rw [Reader.bind_of_ok h]
  exact ⟨List.forall_mem_append.2 ⟨hacts, hmore.safe⟩, hmore.ok, hmore.error⟩

theorem agrees_programFrom {i : Input α} {depth : Nat} {item : Reader α (Expr α)} {item' : Rule α (Expr α)}
    (hitem : AgreesItem i depth item item') {done : List (Expr α)} {place rounds k : Nat} {unread : List (Token α)}
    (h : i.Stands place unread) (hrounds : unread.length < rounds) (hk : unread.length ≤ k) :
    AgreesProgram i depth (Reader.programFrom item done rounds i.tokens place) (programFrom item' done k unread) := by
  induction rounds generalizing place unread done k with
  | zero => exact absurd hrounds (Nat.not_lt_zero _)
  | succ rounds ih =>
    have hend := Reader.atEnd_eq h
    cases unread with
    | nil =>
      have hrule : programFrom item' done k [] = .ok done.reverse := by cases k <;> rfl
      rw [Input.next_nil, i.mark_eq] at hend
      rw [hrule]
      refine .after hend h.looks_safe ⟨nofun, fun es hes => ?_, nofun⟩
      cases hes
      rfl
    | cons t us =>
      obtain ⟨k, rfl⟩ : ∃ k', k = k' + 1 := ⟨k - 1, by rw [List.length_cons] at hk; omega⟩
      rw [Input.next_cons, h.isEof] at hend
      refine .after hend h.looks_safe ?_
      have hfirst : Agrees i depth place SameValue (item i.tokens place) (item' (t :: us)) := hitem place _ h
      unfold programFrom
      cases hresult : item' (t :: us) with
      | error f =>
        rw [hresult] at hfirst
        have hrun : Agrees (γ := List (Expr α)) i depth place SameValue
            ((item >>= fun next => Reader.programFrom item (next :: done) rounds) i.tokens place) (.error f) :=
          hfirst.bind_error
        refine ⟨hrun.safe, fun es hes => (by cases hes), fun f' hf => ?_⟩
        cases hf
        obtain ⟨hhalt, hstands, hdeep⟩ := hrun.error f rfl
        exact ⟨hhalt, hstands, fun hcause => Nat.le_of_add_right_le (hdeep hcause)⟩
      | ok p =>
        rw [hresult] at hfirst
        obtain ⟨b, hrun, hb, hlt, hfollows⟩ := hfirst.run_eq_ok
        obtain rfl : b = p.value := hb
        have hlength : p.unread.length < (t :: us).length := hfollows.unread_lt h hlt
        exact .after hrun hfirst.safe (ih hfollows.stands (by omega) (by omega))

/-- What the parser says of a program that a rule has read, or has failed to read. -/
def reported (endLine : Int) : Except (Failure α) (List (Expr α)) → List (Expr α) × List SyntaxError
  | .ok es => (es, [])
  | .error f => ([], [f.toError endLine])

/-- What is reported where a rule fails. -/
theorem report_halt {i : Input α} {place : Nat} {f : Failure α} (h : i.Stands place f.unread) : ∃ acts,
    Reader.report (f.halt i.mark.line) i.tokens place = ⟨.ok ([], [f.toError i.mark.line]), place, acts⟩ ∧
      ∀ act ∈ acts, act.Safe i.tokens := by
  obtain ⟨cause, unread⟩ := f
  cases cause with
  | nestingTooDeep =>
    refine ⟨[.look place], ?_, h.looks_safe⟩
    have hline : (i.next unread).line = (unread.head?.map (·.line)).getD i.mark.line := by
      cases unread <;> rfl
    exact (Reader.bind_of_ok (Reader.peek_eq h)).trans (by rw [hline]; rfl)
  | _ => exact ⟨[], rfl, nofun⟩

/-- Of a program that has been read or not, the parser reports what it has to, and stays on the tokens. -/
theorem AgreesProgram.parse {i : Input α} {rounds nesting : Nat} {result : Except (Failure α) (List (Expr α))}
    (h : AgreesProgram i nesting (Reader.programFrom (Reader.expression rounds nesting) [] rounds i.tokens 0) result) :
    (Reader.parse rounds nesting i.tokens 0).result = .ok (reported i.mark.line result) ∧
      ∀ act ∈ (Reader.parse rounds nesting i.tokens 0).acts, act.Safe i.tokens := by
  let program : Reader α (List (Expr α)) := Reader.programFrom (Reader.expression rounds nesting) [] rounds
  let run : Run (List (Expr α)) := program i.tokens 0
  unfold Reader.parse
  cases result with
  | ok es =>
    have hrun : program i.tokens 0 = ⟨.ok es, run.place, run.acts⟩ := by
      rw [← h.ok es rfl]
    rw [Reader.recover_of_ok (Reader.bind_of_ok hrun)]
    exact ⟨rfl, List.forall_mem_append.2 ⟨h.safe, nofun⟩⟩
  | error f =>
    obtain ⟨hhalt, hstands, -⟩ := h.error f rfl
    obtain ⟨acts, hreport, hacts⟩ := report_halt hstands
    have hrun : program i.tokens 0 = ⟨.error (f.halt i.mark.line), run.place, run.acts⟩ := by
      rw [← hhalt]
    rw [Reader.recover_of_error (Reader.bind_of_error hrun), hreport]
    exact ⟨rfl, List.forall_mem_append.2 ⟨h.safe, hacts⟩⟩

theorem cause_of_toError {f : Failure α} {endLine line : Int} (h : f.toError endLine = ⟨line, .nestingTooDeep⟩) :
    f.cause = .nestingTooDeep := by
  unfold Failure.toError at h
  cases hcause : f.cause with
  | nestingTooDeep => rfl
  | _ =>
    rw [hcause] at h
    cases h

/-- The tokens as the parser has them, with the mark for the end that it goes up to. -/
theorem exists_input (tokens : List (Token α)) : ∃ i : Input α,
    i.tokens = withEnd tokens ∧ i.before = beforeEof tokens ∧ i.mark.line = endLine tokens := by
  obtain ⟨mark, rest, htokens, hmark, hline⟩ := exists_withEnd_eq tokens
  refine ⟨⟨beforeEof tokens, mark, rest, fun t ht => ?_, hmark⟩, htokens.symm, rfl, hline⟩
  simpa using List.mem_takeWhile_imp ht

/-- **A cursor reads what the parser reads, and stays on the tokens.** Whatever the tokens are and wherever marks for
the end stand among them, reading them with a cursor ends: no loop needs more rounds than there are tokens before the
first mark, and one. It comes to the expressions and errors of the parser. Until then it looks at tokens only, never
moves past the first mark, looks back only after it has passed a token, and every expression, datum and binding it has
read is a token long at least. More nesting than there are tokens is never too deep. -/
theorem parse_cursor (nesting : Nat) {rounds : Nat} {tokens : List (Token α)}
    (hrounds : (beforeEof tokens).length < rounds) :
    (Reader.parse rounds nesting (withEnd tokens) 0).result = .ok (parse nesting tokens) ∧
      (∀ act ∈ (Reader.parse rounds nesting (withEnd tokens) 0).acts, act.Safe (withEnd tokens)) ∧
      ((beforeEof tokens).length < nesting → NestsWithin nesting tokens) := by
  obtain ⟨i, htokens, hbefore, hline⟩ := exists_input tokens
  have hrounds' : i.before.length < rounds := by rwa [hbefore]
  have hprogram : AgreesProgram i nesting (Reader.programFrom (Reader.expression rounds nesting) [] rounds i.tokens 0)
      (program nesting i.before) :=
    agrees_programFrom (agrees_expression hrounds' (Nat.le_refl _) nesting) i.stands_start hrounds' (Nat.le_refl _)
  have hparse : reported i.mark.line (program nesting i.before) = parse nesting tokens := by
    unfold parse ofTokens
    rw [hbefore, hline]
    cases program nesting (beforeEof tokens) <;> rfl
  rw [← htokens, ← hparse]
  refine ⟨hprogram.parse.1, hprogram.parse.2, fun hfits line hmem => ?_⟩
  rw [← hparse] at hmem
  cases hresult : program nesting i.before with
  | ok es =>
    rw [hresult] at hmem
    cases hmem
  | error f =>
    rw [hresult] at hmem
    have hcause : f.cause = .nestingTooDeep := cause_of_toError (List.mem_singleton.1 hmem).symm
    have hle : nesting ≤ i.before.length := (hprogram.error f hresult).2.2 hcause
    rw [hbefore] at hle
    exact absurd hle (Nat.not_le.2 hfits)

theorem parse_cursor_bareBinding :
    (beforeEof bareBindingExample).length < 11 ∧
      (Reader.parse 11 11 (withEnd bareBindingExample) 0).result =
        .ok ([], [⟨0, .expected .rightBracket .leftBracket⟩]) ∧
      (∀ act ∈ (Reader.parse 11 11 (withEnd bareBindingExample) 0).acts, act.Safe (withEnd bareBindingExample)) ∧
      NestsWithin 11 bareBindingExample := by
  have hrounds : (beforeEof bareBindingExample).length < 11 := by decide
  obtain ⟨hresult, hsafe, hfits⟩ := parse_cursor 11 hrounds
  exact ⟨hrounds, hresult, hsafe, hfits hrounds⟩

end Expr
end MiniScheme
