import MiniScheme.Expr.OfTokens

/-!
# Reading under a wider nesting limit

The limit only ever turns a result into the report that it was exceeded. So a rule that comes to anything else comes
to the same under every greater limit.

* `WidensTo narrow wide` — the two results agree, unless the limit stopped the first.
* `expression_widens`, `program_widens` — what is read under a limit widens to what is read under a greater one.
-/

namespace MiniScheme
namespace Expr

variable {α β γ : Type}

/-- The results agree, or the first is a stop at the nesting limit. -/
def WidensTo (narrow wide : Except (Failure α) β) : Prop :=
  narrow = wide ∨ ∃ unread, narrow = .error ⟨.nestingTooDeep, unread⟩

namespace WidensTo

theorem refl (result : Except (Failure α) β) : WidensTo result result := .inl rfl

theorem stopped (unread : List (Token α)) (wide : Except (Failure α) β) :
    WidensTo (.error ⟨.nestingTooDeep, unread⟩) wide := .inr ⟨unread, rfl⟩

theorem bind {narrow wide : Except (Failure α) β} {f g : β → Except (Failure α) γ} (h : WidensTo narrow wide)
    (hnext : ∀ b, WidensTo (f b) (g b)) : WidensTo (narrow >>= f) (wide >>= g) := by
  rcases h with rfl | ⟨unread, rfl⟩
  · cases narrow with
    | error failure => exact refl _
    | ok b => exact hnext b
  · exact stopped unread _

end WidensTo

theorem untilClosed_widens {part part' : Token α → Rule α β} {missing : Token α → Failure.Cause α}
    (h : ∀ last ts, WidensTo (part last ts) (part' last ts)) (done : List β) (k : Nat) (last : Token α)
    (ts : List (Token α)) :
    WidensTo (untilClosed part missing done k last ts) (untilClosed part' missing done k last ts) := by
  induction k generalizing done last ts with
  | zero => exact .refl _
  | succ k ih =>
    unfold untilClosed
    cases ts with
    | nil => exact .refl _
    | cons t ts =>
      dsimp only
      split
      · exact .refl _
      · rcases h last (t :: ts) with heq | ⟨unread, heq⟩
        · rw [heq]
          split
          · exact ih _ _ _
          · exact .refl _
        · rw [heq]
          exact .stopped unread _

section Bracketed

variable {item item' : Rule α (Expr α)} (h : ∀ ts, WidensTo (item ts) (item' ts))
include h

theorem items_widens (k : Nat) (last : Token α) (ts : List (Token α)) :
    WidensTo (items item k last ts) (items item' k last ts) :=
  untilClosed_widens (fun _ => h) [] k last ts

theorem binding_widens (last : Token α) (ts : List (Token α)) :
    WidensTo (binding item last ts) (binding item' last ts) := by
  unfold binding
  refine .bind (.refl _) fun opening => ?_
  refine .bind (.refl _) fun name => ?_
  exact .bind (h _) fun value => .refl _

theorem bindings_widens (k : Nat) (last : Token α) (ts : List (Token α)) :
    WidensTo (bindings item k last ts) (bindings item' k last ts) :=
  untilClosed_widens (binding_widens h) [] k last ts

theorem datum_widens (k : Nat) (ts : List (Token α)) : WidensTo (datum item k ts) (datum item' k ts) := by
  unfold datum
  cases ts with
  | nil => exact h []
  | cons t ts =>
    dsimp only
    split
    · exact .bind (items_widens h k t ts) fun all => .refl _
    · exact h (t :: ts)

theorem nameAndValue_widens (word : Token α) (ts : List (Token α)) :
    WidensTo (nameAndValue item word ts) (nameAndValue item' word ts) := by
  unfold nameAndValue
  refine .bind (.refl _) fun name => ?_
  exact .bind (h _) fun value => .refl _

theorem otherwise_widens (last : Token α) (ts : List (Token α)) :
    WidensTo (otherwise item last ts) (otherwise item' last ts) := by
  unfold otherwise
  split
  · exact .refl _
  · exact .bind (h ts) fun branch => .refl _

theorem form_widens (k : Nat) (keyword : Keyword) (word : Token α) (ts : List (Token α)) :
    WidensTo (form item k keyword word ts) (form item' k keyword word ts) := by
  unfold form
  cases keyword with
  | lambda =>
    refine .bind (.refl _) fun head => ?_
    exact .bind (items_widens h k _ _) fun body => .refl _
  | define => exact .bind (nameAndValue_widens h word ts) fun rest => .refl _
  | assign => exact .bind (nameAndValue_widens h word ts) fun rest => .refl _
  | cond =>
    refine .bind (h ts) fun test => ?_
    refine .bind (h _) fun chosen => ?_
    exact .bind (otherwise_widens h _ _) fun other => .refl _
  | letIn =>
    refine .bind (.refl _) fun opening => ?_
    refine .bind (bindings_widens h k _ _) fun pairs => ?_
    exact .bind (items_widens h k _ _) fun body => .refl _
  | quote => exact .bind (datum_widens h k ts) fun quoted => .refl _

theorem callRest_widens (k : Nat) (ts : List (Token α)) : WidensTo (callRest item k ts) (callRest item' k ts) := by
  unfold callRest
  refine .bind (h ts) fun callee => ?_
  exact .bind (items_widens h k _ _) fun args => .refl _

theorem bracketed_widens (k : Nat) (ts : List (Token α)) : WidensTo (bracketed item k ts) (bracketed item' k ts) := by
  unfold bracketed
  cases ts with
  | nil => exact callRest_widens h k []
  | cons t ts =>
    dsimp only
    split
    · exact .refl _
    · split
      · exact form_widens h k _ t ts
      · exact callRest_widens h k (t :: ts)

theorem programFrom_widens (done : List (Expr α)) (k : Nat) (ts : List (Token α)) :
    WidensTo (programFrom item done k ts) (programFrom item' done k ts) := by
  induction k generalizing done ts with
  | zero => cases ts <;> exact .refl _
  | succ k ih =>
    unfold programFrom
    cases ts with
    | nil => exact .refl _
    | cons t ts =>
      dsimp only
      rcases h (t :: ts) with heq | ⟨unread, heq⟩
      · rw [heq]
        split
        · exact ih _ _
        · exact .refl _
      · rw [heq]
        exact .stopped unread _

end Bracketed

/-- An expression is read alike under a greater limit, unless the smaller one stops it. -/
theorem expression_widens (k : Nat) {n m : Nat} (hle : n ≤ m) (ts : List (Token α)) :
    WidensTo (expression k n ts) (expression k m ts) := by
  induction n generalizing m ts with
  | zero => exact .stopped ts _
  | succ n ih =>
    obtain ⟨m, rfl⟩ : ∃ i, m = i + 1 := ⟨m - 1, by omega⟩
    have hitem := fun ts => ih (m := m) (by omega) ts
    unfold expression
    cases ts with
    | nil => exact .refl _
    | cons t ts =>
      dsimp only
      split
      · exact bracketed_widens hitem k ts
      · exact .refl _
      · exact .refl _
      · exact .refl _
      · exact .refl _
      · exact datum_widens hitem k ts
      · exact .refl _

theorem program_widens {n m : Nat} (hle : n ≤ m) (ts : List (Token α)) : WidensTo (program n ts) (program m ts) :=
  programFrom_widens (expression_widens ts.length hle) [] ts.length ts

end Expr
end MiniScheme
