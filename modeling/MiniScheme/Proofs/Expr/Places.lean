import MiniScheme.Expr.OfTokens

/-!
# Places do not matter to the reader

Tokens and names know where in the source they stand. The reader only passes this on: it reads tokens without their
places to the same expressions without their places, and fails on them in the same way.

* `Token.unplaced`, `Name.unplaced`, `Expr.unplaced` — the same without the places.
* `program_unplaced` — reading commutes with forgetting the places.
-/

namespace MiniScheme

variable {α β γ δ : Type}

/-- The token as if it stood at the start of a source. -/
def Token.unplaced (token : Token α) : Token α := { token with start := 0, line := 0 }

/-- The name as if it stood at the start of a source. -/
def Name.unplaced (name : Name) : Name := { name with start := 0, line := 0 }

@[simp] theorem Name.unplaced_lexeme (name : Name) : name.unplaced.lexeme = name.lexeme := rfl

/-- The parameters without their places. -/
def Params.unplaced : Params → Params
  | fixed names => fixed (names.map Name.unplaced)
  | variadic name => variadic name.unplaced

namespace Expr

mutual
/-- The expression without the places of its names. -/
def unplaced : Expr α → Expr α
  | symbol name => symbol name.unplaced
  | literal v => literal v
  | empty => empty
  | call callee args => call callee.unplaced (unplacedAll args)
  | lambda params body => lambda params.unplaced (unplacedAll body)
  | define name value => define name.unplaced value.unplaced
  | assign name value => assign name.unplaced value.unplaced
  | cond test chosen otherwise => cond test.unplaced chosen.unplaced (unplacedOption otherwise)
  | letIn names values body => letIn (names.map Name.unplaced) (unplacedAll values) (unplacedAll body)
  | quote datum => quote datum.unplaced
  | list items => list (unplacedAll items)
/-- The expressions without the places of their names. -/
def unplacedAll : List (Expr α) → List (Expr α)
  | [] => []
  | e :: es => e.unplaced :: unplacedAll es
/-- The expression, if there is one, without the places of its names. -/
def unplacedOption : Option (Expr α) → Option (Expr α)
  | none => none
  | some e => some e.unplaced
end

@[simp] theorem unplacedAll_eq_map (es : List (Expr α)) : unplacedAll es = es.map unplaced := by
  induction es with
  | nil => rfl
  | cons e es ih => rw [unplacedAll, ih, List.map_cons]

@[simp] theorem unplacedOption_eq_map (e : Option (Expr α)) : unplacedOption e = e.map unplaced := by
  cases e <;> rfl

/-! ## Results without places -/

/-- The cause without the place of its token. -/
def Failure.Cause.unplaced : Failure.Cause α → Failure.Cause α
  | .unexpected => .unexpected
  | .unclosed => .unclosed
  | .expected last wanted => .expected last.unplaced wanted
  | .nestingTooDeep => .nestingTooDeep

/-- The failure without the places of its tokens. -/
def Failure.unplaced (failure : Failure α) : Failure α := ⟨failure.cause.unplaced, failure.unread.map Token.unplaced⟩

/-- What a rule read without the places of tokens; `f` does this for the value. -/
def Parsed.unplaced (f : β → β) (parsed : Parsed α β) : Parsed α β :=
  ⟨f parsed.value, parsed.last.unplaced, parsed.unread.map Token.unplaced⟩

/-- The result without the places of tokens; `f` does this for what was read. -/
def unplacedResult (f : β → β) : Except (Failure α) β → Except (Failure α) β
  | .ok b => .ok (f b)
  | .error failure => .error failure.unplaced

theorem unplacedResult_bind {f : β → β} {g : γ → γ} {result result' : Except (Failure α) β}
    {next next' : β → Except (Failure α) γ} (h : result' = unplacedResult f result)
    (hnext : ∀ b, next' (f b) = unplacedResult g (next b)) :
    (result' >>= next') = unplacedResult g (result >>= next) := by
  subst h
  cases result with
  | ok b => exact hnext b
  | error failure => rfl

/-- A binding without the place of its name. -/
def unplacedBinding (b : Name × Expr α) : Name × Expr α := (b.1.unplaced, b.2.unplaced)

/-! ## The rules -/

theorem expect_unplaced (wanted : Token.Shape) (last : Token α) (ts : List (Token α)) :
    expect wanted last.unplaced (ts.map Token.unplaced) =
      unplacedResult (Parsed.unplaced id) (expect wanted last ts) := by
  cases ts with
  | nil => rfl
  | cons t ts =>
    rw [List.map_cons]
    unfold expect
    dsimp only
    by_cases hshape : t.kind.shape = wanted
    · have hshape' : t.unplaced.kind.shape = wanted := hshape
      rw [if_pos hshape, if_pos hshape']
      rfl
    · have hshape' : ¬t.unplaced.kind.shape = wanted := hshape
      rw [if_neg hshape, if_neg hshape']
      rfl

theorem expectName_unplaced (last : Token α) (ts : List (Token α)) :
    expectName last.unplaced (ts.map Token.unplaced) =
      unplacedResult (Parsed.unplaced Name.unplaced) (expectName last ts) := by
  unfold expectName
  rw [expect_unplaced]
  cases expect .symbol last ts with
  | ok name => rfl
  | error failure => rfl

theorem untilClosed_unplaced {f : β → β} {part : Token α → Rule α β} {missing : Token α → Failure.Cause α}
    (hpart : ∀ last ts, part last.unplaced (ts.map Token.unplaced) = unplacedResult (Parsed.unplaced f) (part last ts))
    (hmissing : ∀ last, missing last.unplaced = (missing last).unplaced) (done : List β) (k : Nat) (last : Token α)
    (ts : List (Token α)) :
    untilClosed part missing (done.map f) k last.unplaced (ts.map Token.unplaced) =
      unplacedResult (Parsed.unplaced (List.map f)) (untilClosed part missing done k last ts) := by
  induction k generalizing done last ts with
  | zero =>
    unfold untilClosed
    rw [hmissing]
    rfl
  | succ k ih =>
    cases ts with
    | nil =>
      unfold untilClosed
      dsimp only [List.map_nil]
      rw [hmissing]
      rfl
    | cons t ts =>
      rw [List.map_cons]
      unfold untilClosed
      dsimp only
      by_cases hclose : t.kind.shape = .rightBracket
      · have hclose' : t.unplaced.kind.shape = .rightBracket := hclose
        rw [if_pos hclose, if_pos hclose', ← List.map_reverse]
        rfl
      · have hclose' : ¬t.unplaced.kind.shape = .rightBracket := hclose
        have h := hpart last (t :: ts)
        rw [List.map_cons] at h
        rw [if_neg hclose, if_neg hclose', h]
        cases part last (t :: ts) with
        | ok next => exact ih (next.value :: done) next.last next.unread
        | error failure => rfl

theorem names_unplaced (k : Nat) (last : Token α) (ts : List (Token α)) :
    names k last.unplaced (ts.map Token.unplaced) =
      unplacedResult (Parsed.unplaced (List.map Name.unplaced)) (names k last ts) :=
  untilClosed_unplaced expectName_unplaced (fun _ => rfl) [] k last ts

theorem params_unplaced (k : Nat) (last : Token α) (ts : List (Token α)) :
    params k last.unplaced (ts.map Token.unplaced) =
      unplacedResult (Parsed.unplaced Params.unplaced) (params k last ts) := by
  unfold params
  rw [expectName_unplaced]
  cases expectName last ts with
  | ok name => rfl
  | error failure =>
    refine unplacedResult_bind (expect_unplaced .leftBracket last ts) fun opening => ?_
    refine unplacedResult_bind (names_unplaced k opening.last opening.unread) fun fixed => ?_
    rfl

section Bracketed

variable {item : Rule α (Expr α)}
  (hitem : ∀ ts, item (ts.map Token.unplaced) = unplacedResult (Parsed.unplaced Expr.unplaced) (item ts))
include hitem

theorem items_unplaced (k : Nat) (last : Token α) (ts : List (Token α)) :
    items item k last.unplaced (ts.map Token.unplaced) =
      unplacedResult (Parsed.unplaced (List.map Expr.unplaced)) (items item k last ts) :=
  untilClosed_unplaced (fun _ => hitem) (fun _ => rfl) [] k last ts

theorem binding_unplaced (last : Token α) (ts : List (Token α)) :
    binding item last.unplaced (ts.map Token.unplaced) =
      unplacedResult (Parsed.unplaced unplacedBinding) (binding item last ts) := by
  unfold binding
  refine unplacedResult_bind (expect_unplaced .leftBracket last ts) fun opening => ?_
  refine unplacedResult_bind (expectName_unplaced opening.last opening.unread) fun name => ?_
  refine unplacedResult_bind (hitem name.unread) fun value => ?_
  refine unplacedResult_bind (expect_unplaced .rightBracket value.last value.unread) fun closing => ?_
  rfl

theorem bindings_unplaced (k : Nat) (last : Token α) (ts : List (Token α)) :
    bindings item k last.unplaced (ts.map Token.unplaced) =
      unplacedResult (Parsed.unplaced (List.map unplacedBinding)) (bindings item k last ts) :=
  untilClosed_unplaced (binding_unplaced hitem) (fun _ => rfl) [] k last ts

theorem datum_unplaced (k : Nat) (ts : List (Token α)) :
    datum item k (ts.map Token.unplaced) = unplacedResult (Parsed.unplaced Expr.unplaced) (datum item k ts) := by
  cases ts with
  | nil => exact hitem []
  | cons t ts =>
    rw [List.map_cons]
    unfold datum
    dsimp only
    by_cases hopen : t.kind.shape = .leftBracket
    · have hopen' : t.unplaced.kind.shape = .leftBracket := hopen
      rw [if_pos hopen, if_pos hopen']
      refine unplacedResult_bind (items_unplaced hitem k t ts) fun all => ?_
      simp only [unplacedResult, Parsed.unplaced, pure, Except.pure, unplaced, unplacedAll_eq_map]
    · have hopen' : ¬t.unplaced.kind.shape = .leftBracket := hopen
      rw [if_neg hopen, if_neg hopen']
      exact hitem (t :: ts)

theorem nameAndValue_unplaced (word : Token α) (ts : List (Token α)) :
    nameAndValue item word.unplaced (ts.map Token.unplaced) =
      unplacedResult (Parsed.unplaced unplacedBinding) (nameAndValue item word ts) := by
  unfold nameAndValue
  refine unplacedResult_bind (expectName_unplaced word ts) fun name => ?_
  refine unplacedResult_bind (hitem name.unread) fun value => ?_
  refine unplacedResult_bind (expect_unplaced .rightBracket value.last value.unread) fun closing => ?_
  rfl

theorem otherwise_unplaced (last : Token α) (ts : List (Token α)) :
    otherwise item last.unplaced (ts.map Token.unplaced) =
      unplacedResult (Parsed.unplaced (Option.map Expr.unplaced)) (otherwise item last ts) := by
  unfold otherwise
  rw [expect_unplaced]
  cases expect .rightBracket last ts with
  | ok closing => rfl
  | error failure =>
    refine unplacedResult_bind (hitem ts) fun branch => ?_
    rfl

theorem form_unplaced (k : Nat) (keyword : Keyword) (word : Token α) (ts : List (Token α)) :
    form item k keyword word.unplaced (ts.map Token.unplaced) =
      unplacedResult (Parsed.unplaced Expr.unplaced) (form item k keyword word ts) := by
  unfold form
  cases keyword with
  | lambda =>
    refine unplacedResult_bind (params_unplaced k word ts) fun head => ?_
    refine unplacedResult_bind (items_unplaced hitem k head.last head.unread) fun body => ?_
    simp only [unplacedResult, Parsed.unplaced, pure, Except.pure, unplaced, unplacedAll_eq_map]
  | define =>
    refine unplacedResult_bind (nameAndValue_unplaced hitem word ts) fun rest => ?_
    simp only [unplacedResult, Parsed.unplaced, pure, Except.pure, unplaced, unplacedBinding]
  | assign =>
    refine unplacedResult_bind (nameAndValue_unplaced hitem word ts) fun rest => ?_
    simp only [unplacedResult, Parsed.unplaced, pure, Except.pure, unplaced, unplacedBinding]
  | cond =>
    refine unplacedResult_bind (hitem ts) fun test => ?_
    refine unplacedResult_bind (hitem test.unread) fun chosen => ?_
    refine unplacedResult_bind (otherwise_unplaced hitem chosen.last chosen.unread) fun other => ?_
    refine unplacedResult_bind (expect_unplaced .rightBracket other.last other.unread) fun closing => ?_
    simp only [unplacedResult, Parsed.unplaced, pure, Except.pure, unplaced, unplacedOption_eq_map]
  | letIn =>
    refine unplacedResult_bind (expect_unplaced .leftBracket word ts) fun opening => ?_
    refine unplacedResult_bind (bindings_unplaced hitem k opening.last opening.unread) fun pairs => ?_
    refine unplacedResult_bind (items_unplaced hitem k pairs.last pairs.unread) fun body => ?_
    simp only [unplacedResult, Parsed.unplaced, pure, Except.pure, unplaced, unplacedAll_eq_map, List.map_map]
    rfl
  | quote =>
    refine unplacedResult_bind (datum_unplaced hitem k ts) fun quoted => ?_
    refine unplacedResult_bind (expect_unplaced .rightBracket quoted.last quoted.unread) fun closing => ?_
    simp only [unplacedResult, Parsed.unplaced, pure, Except.pure, unplaced]

theorem callRest_unplaced (k : Nat) (ts : List (Token α)) :
    callRest item k (ts.map Token.unplaced) = unplacedResult (Parsed.unplaced Expr.unplaced) (callRest item k ts) := by
  unfold callRest
  refine unplacedResult_bind (hitem ts) fun callee => ?_
  refine unplacedResult_bind (items_unplaced hitem k callee.last callee.unread) fun args => ?_
  simp only [unplacedResult, Parsed.unplaced, pure, Except.pure, unplaced, unplacedAll_eq_map]

theorem bracketed_unplaced (k : Nat) (ts : List (Token α)) :
    bracketed item k (ts.map Token.unplaced) =
      unplacedResult (Parsed.unplaced Expr.unplaced) (bracketed item k ts) := by
  cases ts with
  | nil => exact callRest_unplaced hitem k []
  | cons t ts =>
    rw [List.map_cons]
    unfold bracketed
    have hword : keyword? t.unplaced = keyword? t := rfl
    dsimp only
    rw [hword]
    by_cases hclose : t.kind.shape = .rightBracket
    · have hclose' : t.unplaced.kind.shape = .rightBracket := hclose
      rw [if_pos hclose, if_pos hclose']
      rfl
    · have hclose' : ¬t.unplaced.kind.shape = .rightBracket := hclose
      rw [if_neg hclose, if_neg hclose']
      cases keyword? t with
      | some keyword => exact form_unplaced hitem k keyword t ts
      | none => exact callRest_unplaced hitem k (t :: ts)

theorem programFrom_unplaced (done : List (Expr α)) (k : Nat) (ts : List (Token α)) :
    programFrom item (done.map Expr.unplaced) k (ts.map Token.unplaced) =
      unplacedResult (List.map Expr.unplaced) (programFrom item done k ts) := by
  induction k generalizing done ts with
  | zero =>
    cases ts with
    | nil =>
      rw [List.map_nil]
      unfold programFrom
      rw [← List.map_reverse]
      rfl
    | cons t ts => rfl
  | succ k ih =>
    cases ts with
    | nil =>
      rw [List.map_nil]
      unfold programFrom
      rw [← List.map_reverse]
      rfl
    | cons t ts =>
      have h := hitem (t :: ts)
      rw [List.map_cons] at h ⊢
      unfold programFrom
      rw [h]
      cases item (t :: ts) with
      | ok next => exact ih (next.value :: done) next.unread
      | error failure => rfl

end Bracketed

theorem expression_unplaced (k n : Nat) (ts : List (Token α)) :
    expression k n (ts.map Token.unplaced) = unplacedResult (Parsed.unplaced Expr.unplaced) (expression k n ts) := by
  induction n generalizing ts with
  | zero => rfl
  | succ n ih =>
    cases ts with
    | nil => rfl
    | cons t ts =>
      rw [List.map_cons]
      obtain ⟨kind, start, lexeme, line⟩ := t
      cases kind with
      | leftBracket => exact bracketed_unplaced ih k ts
      | quote => exact datum_unplaced ih k ts
      | _ => rfl

/-- Programs are read alike wherever their tokens stand. -/
theorem program_unplaced (nesting : Nat) (ts : List (Token α)) :
    program nesting (ts.map Token.unplaced) = unplacedResult (List.map Expr.unplaced) (program nesting ts) := by
  unfold program
  rw [List.length_map]
  exact programFrom_unplaced (expression_unplaced ts.length nesting) [] ts.length ts

/-- Tokens that differ in their places only make up programs that differ in their places only. -/
theorem program_of_unplaced {nesting : Nat} {us vs : List (Token α)} {fs : List (Expr α)}
    (hplaces : us.map Token.unplaced = vs.map Token.unplaced) (hvs : program nesting vs = .ok fs) :
    ∃ es, program nesting us = .ok es ∧ es.map unplaced = fs.map unplaced := by
  have h := program_unplaced nesting us
  rw [hplaces, program_unplaced, hvs] at h
  cases hus : program nesting us with
  | ok es =>
    rw [hus] at h
    exact ⟨es, rfl, (Except.ok.inj h).symm⟩
  | error failure =>
    rw [hus] at h
    cases h

end Expr
end MiniScheme
