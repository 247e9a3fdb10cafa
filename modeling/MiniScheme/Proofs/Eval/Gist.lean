import MiniScheme.Proofs.Eval.Adequacy
import MiniScheme.Proofs.Store.Gist

/-!
# Only the gist of a program matters

Under a quotation a datum is evaluated as it is without one. So expressions of the same gist come to results of the same
gist, from stores of the same gist, though a quotation takes a step and a level of nesting more.

* `eval_quote_datum` — the quotation of a datum comes to what the datum comes to.
* `BigStep.of_datum`, `BigStep.of_bare` — whether a datum is quoted makes no difference to what can be derived.
* `Task.Carries` — every task of the same gist comes to a result of the same gist.
* `BigStep.carries` — this holds of whatever can be derived.
-/

namespace MiniScheme

open Eval Outcome

/-! ## Data -/

/-- **The quotation of a datum comes to what the datum comes to**, one level of nesting further up. -/
theorem eval_quote_datum {d : Code} (hd : d.isDatum = true) (fuel n : Nat) (f : FrameId) (s : Store) :
    eval (fuel + 2) (n + 1) (.quote d) f s = eval (fuel + 2) n d f s := by
  have hquote : eval (fuel + 2) (n + 1) (.quote d) f s = quoted (eval (fuel + 1)) (n + 1) d f s :=
    finish_resume (quoted (eval (fuel + 1)) (n + 1) d f s) (eval (fuel + 1) (n + 1))
  rw [hquote]
  cases d with
  | symbol name =>
    have hget (fuel : Nat) : eval (fuel + 1) n (.symbol name) f s = .ofExcept (s.get name.lexeme f) s :=
      finish_resume _ _
    exact (hget fuel).trans (hget (fuel + 1)).symm
  | literal => rfl
  | list items =>
    unfold quoted eval turn
    dsimp only
    cases each (quoted (eval (fuel + 1)) n) f items s <;> rfl
  | _ => cases hd

/-- What can be derived of a datum, or of the quotation of one, can be derived in the other manner too. -/
def Task.IfDatum (m' : Manner) {α : Type} (task : Task α) (s : Store) (r : Except RuntimeError α) (s' : Store) : Prop :=
  match task with
  | .value _ e f => e.bare.isDatum = true → BigStep (.value m' e f) s r s'
  | _ => True

theorem BigStep.ifDatum (m' : Manner) {α : Type} {task : Task α} {s s' : Store} {r : Except RuntimeError α}
    (h : BigStep task s r s') : task.IfDatum m' s r s' := by
  have hmanner {e : Code} {f : FrameId} {s s' : Store} {r : Except RuntimeError Value}
      (hcall : ∀ c es, e ≠ .call c es) (hlist : ∀ es, e ≠ .list es) (h : BigStep (.value .plain e f) s r s') :
      BigStep (.value m' e f) s r s' := by
    cases m' with
    | plain => exact h
    | quoted => exact .quotedOther hcall hlist h
  induction h with
  | literal => exact fun _ => hmanner nofun nofun .literal
  | symbol => exact fun _ => hmanner nofun nofun .symbol
  | quote datum => exact fun _ => hmanner nofun nofun (.quote datum)
  | list items => exact fun _ => .list items
  | listError items => exact fun _ => .listError items
  | quotedOther _ _ _ ih => exact ih
  | _ =>
    first
    | trivial
    | exact fun hd => absurd hd nofun

variable {m m' : Manner} {d e : Code} {f : FrameId} {s s' t : Store} {r : Except RuntimeError Value}

/-- A datum comes to the same as it stands and under a quotation. -/
theorem BigStep.of_datum (hd : e.bare.isDatum = true) (h : BigStep (.value m e f) s r s') :
    BigStep (.value m' e f) s r s' := h.ifDatum m' hd

/-- Whatever is no call comes to the same under a quotation. -/
theorem BigStep.quoted_of_plain (hcall : ∀ c es, e ≠ .call c es) (h : BigStep (.value .plain e f) s r s') :
    BigStep (.value .quoted e f) s r s' := by
  cases e with
  | call c es => exact absurd rfl (hcall c es)
  | list => exact h.of_datum rfl
  | _ => exact .quotedOther nofun nofun h

/-- An expression comes to whatever it comes to bare. -/
theorem BigStep.of_bare (h : BigStep (.value m e.bare f) s r s') : BigStep (.value m e f) s r s' := by
  cases e with
  | quote d =>
    by_cases hd : d.isDatum = true
    · rw [Expr.bare_quote_of_isDatum hd] at h
      have hquoted : BigStep (.value .quoted d f) s r s' := h.of_datum (Expr.isDatum_bare_of_gist hd rfl)
      have hplain : BigStep (.value .plain (.quote d) f) s r s' := .quote hquoted
      exact hplain.of_datum (Expr.isDatum_bare_of_gist hd (Expr.gist_quote_of_isDatum hd))
    · rw [Expr.bare_quote_of_not hd] at h
      exact h
  | _ => exact h

/-! ## Results of the same gist -/

/-- The task comes to a result of the same gist as `r` and leaves a store of the same gist as `s'`. -/
def Task.EndsLike {α : Type} (task : Task α) (gist : α → α) (t : Store) (r : Except RuntimeError α)
    (s' : Store) : Prop :=
  ∃ r' t', BigStep task t r' t' ∧ SameGist gist r r' ∧ t'.gist = s'.gist

namespace Task.EndsLike

variable {α : Type} {task : Task α} {gist : α → α}

theorem ok {a : α} (h : task.EndsLike gist t (.ok a) s') :
    ∃ b t', BigStep task t (.ok b) t' ∧ gist b = gist a ∧ t'.gist = s'.gist := by
  obtain ⟨_, t', h, ⟨hb⟩, ht⟩ := h
  exact ⟨_, t', h, hb, ht⟩

theorem error {e : RuntimeError} (h : task.EndsLike gist t (.error e) s') :
    ∃ t', BigStep task t (.error e) t' ∧ t'.gist = s'.gist := by
  obtain ⟨_, t', h, ⟨⟩, ht⟩ := h
  exact ⟨t', h, ht⟩

theorem of_bare (h : Task.EndsLike (.value m e.bare f) Value.gist t r s') :
    Task.EndsLike (.value m e f) Value.gist t r s' := by
  obtain ⟨r', t', h, hr, ht⟩ := h
  exact ⟨r', t', h.of_bare, hr, ht⟩

end Task.EndsLike

/-- Every task whose expressions and values have the same gists comes to the like of the result, from every store of the
same gist. -/
def Task.Carries {α : Type} (task : Task α) (s : Store) (r : Except RuntimeError α) (s' : Store) : Prop :=
  match task with
  | .value m e f => ∀ e' t, e'.gist = e.gist → t.gist = s.gist → Task.EndsLike (.value m e' f) Value.gist t r s'
  | .values m es f => ∀ es' t, es'.map Expr.gist = es.map Expr.gist → t.gist = s.gist →
    Task.EndsLike (.values m es' f) (List.map Value.gist) t r s'
  | .body es f last => ∀ es' last' t, es'.map Expr.gist = es.map Expr.gist → last'.gist = last.gist →
    t.gist = s.gist → Task.EndsLike (.body es' f last') Value.gist t r s'
  | .apply p vs => ∀ p' vs' t, p'.gist = p.gist → vs'.map Value.gist = vs.map Value.gist → t.gist = s.gist →
    Task.EndsLike (.apply p' vs') Value.gist t r s'

theorem Task.Carries.of_bare {s : Store} (h : ∀ b t, Expr.Matches e.bare b → t.gist = s.gist →
    Task.EndsLike (.value m b f) Value.gist t r s') : Task.Carries (.value m e f) s r s' :=
  fun e' t he hst => .of_bare (h e'.bare t (Expr.matches_bare he) hst)

/-- **What a task comes to, every task of the same gist comes to**, but for the code in closures. -/
theorem BigStep.carries {α : Type} {task : Task α} {s s' : Store} {r : Except RuntimeError α}
    (h : BigStep task s r s') : task.Carries s r s' := by
  induction h with
  | literal =>
    refine .of_bare fun b t hb hst => ?_
    cases hb
    exact ⟨_, _, .literal, .ok rfl, hst⟩
  | empty =>
    refine .of_bare fun b t hb hst => ?_
    cases hb
    exact ⟨_, _, .empty, .ok rfl, hst⟩
  | @symbol x f s =>
    refine .of_bare fun b t hb hst => ?_
    cases hb with
    | @symbol _ y hname =>
      have hget := Store.sameGist_get hst y.lexeme f
      rw [Name.lexeme_eq hname] at hget
      exact ⟨_, _, .symbol, by rw [Name.lexeme_eq hname]; exact hget, hst⟩
  | lambda =>
    refine .of_bare fun b t hb hst => ?_
    cases hb with
    | lambda hparams hbody =>
      have hlambda : Lambda.gist ⟨_, _⟩ = Lambda.gist ⟨_, _⟩ := congrArg₂ Lambda.mk hparams hbody
      obtain ⟨hv, ht⟩ := Store.newClosure_congr hst hlambda _
      exact ⟨_, _, .lambda, .ok hv, ht⟩
  | define _ ih =>
    refine .of_bare fun b t hb hst => ?_
    cases hb with
    | define hname hvalue =>
      obtain ⟨v', t₁, hv, hvv, ht₁⟩ := (ih _ t hvalue hst).ok
      refine ⟨_, _, .define hv, .ok rfl, ?_⟩
      rw [Name.lexeme_eq hname]
      exact Store.gist_define_congr ht₁ _ _ hvv
  | defineError _ ih =>
    refine .of_bare fun b t hb hst => ?_
    cases hb with
    | define _ hvalue =>
      obtain ⟨t₁, he, ht₁⟩ := (ih _ t hvalue hst).error
      exact ⟨_, _, .defineError he, .error, ht₁⟩
  | @assign x _ f _ _ _ _ _ bound ih =>
    refine .of_bare fun b t hb hst => ?_
    cases hb with
    | assign hname hvalue =>
      obtain ⟨v', t₁, hv, hvv, ht₁⟩ := (ih _ t hvalue hst).ok
      rcases Store.assign_congr ht₁ x.lexeme f hvv with ⟨s₂, t₂, hs, ht, ht₂⟩ | ⟨_, hs, _⟩
      · cases bound.symm.trans hs
        rw [← Name.lexeme_eq hname] at ht
        exact ⟨_, _, .assign hv ht, .ok rfl, ht₂⟩
      · cases bound.symm.trans hs
  | @assignUnbound x _ f _ _ _ _ _ unbound ih =>
    refine .of_bare fun b t hb hst => ?_
    cases hb with
    | assign hname hvalue =>
      obtain ⟨v', t₁, hv, hvv, ht₁⟩ := (ih _ t hvalue hst).ok
      rcases Store.assign_congr ht₁ x.lexeme f hvv with ⟨s₂, t₂, hs, _, _⟩ | ⟨_, hs, ht⟩
      · cases unbound.symm.trans hs
      · cases unbound.symm.trans hs
        rw [← Name.lexeme_eq hname] at ht
        exact ⟨_, _, .assignUnbound hv ht, .error, ht₁⟩
  | assignError _ ih =>
    refine .of_bare fun b t hb hst => ?_
    cases hb with
    | assign _ hvalue =>
      obtain ⟨t₁, he, ht₁⟩ := (ih _ t hvalue hst).error
      exact ⟨_, _, .assignError he, .error, ht₁⟩
  | condTrue _ true _ ihTest ihBranch =>
    refine .of_bare fun b t hb hst => ?_
    cases hb with
    | cond htest hchosen _ =>
      obtain ⟨v', t₁, hv, hvv, ht₁⟩ := (ihTest _ t htest hst).ok
      obtain ⟨r', t₂, hr, hrr, ht₂⟩ := ihBranch _ t₁ hchosen ht₁
      exact ⟨r', t₂, .condTrue hv ((Value.correspondence_gist.isTrue_eq hvv).trans true) hr, hrr, ht₂⟩
  | condFalse _ false _ ihTest ihBranch =>
    refine .of_bare fun b t hb hst => ?_
    cases hb with
    | @cond _ _ _ _ _ o htest _ hotherwise =>
      cases o with
      | none => cases hotherwise
      | some other =>
        obtain ⟨v', t₁, hv, hvv, ht₁⟩ := (ihTest _ t htest hst).ok
        obtain ⟨r', t₂, hr, hrr, ht₂⟩ := ihBranch _ t₁ (Option.some.inj hotherwise) ht₁
        exact ⟨r', t₂, .condFalse hv ((Value.correspondence_gist.isTrue_eq hvv).trans false) hr, hrr, ht₂⟩
  | condNone _ false ih =>
    refine .of_bare fun b t hb hst => ?_
    cases hb with
    | @cond _ _ _ _ _ o htest _ hotherwise =>
      cases o with
      | none =>
        obtain ⟨v', t₁, hv, hvv, ht₁⟩ := (ih _ t htest hst).ok
        exact ⟨_, _, .condNone hv ((Value.correspondence_gist.isTrue_eq hvv).trans false), .ok rfl, ht₁⟩
      | some other => cases hotherwise
  | condError _ ih =>
    refine .of_bare fun b t hb hst => ?_
    cases hb with
    | cond htest _ _ =>
      obtain ⟨t₁, he, ht₁⟩ := (ih _ t htest hst).error
      exact ⟨_, _, .condError he, .error, ht₁⟩
  | letIn _ _ ihValues ihRun =>
    refine .of_bare fun b t hb hst => ?_
    cases hb with
    | letIn hnames hvalues hbody =>
      obtain ⟨vs', t₁, hvs, hvvs, ht₁⟩ := (ihValues _ t hvalues hst).ok
      have hparams : (Params.fixed _).unplaced = (Params.fixed _).unplaced := congrArg Params.fixed hnames
      obtain ⟨hframe, hentered⟩ := Store.enter_congr ht₁ hparams hvvs _
      obtain ⟨r', t₂, hr, hrr, ht₂⟩ := ihRun _ .undefined _ hbody rfl hentered
      rw [← hframe] at hr
      exact ⟨r', t₂, .letIn hvs hr, hrr, ht₂⟩
  | letError _ ih =>
    refine .of_bare fun b t hb hst => ?_
    cases hb with
    | letIn _ hvalues _ =>
      obtain ⟨t₁, he, ht₁⟩ := (ih _ t hvalues hst).error
      exact ⟨_, _, .letError he, .error, ht₁⟩
  | @quote d f s r s₁ _ ih =>
    by_cases hd : d.isDatum = true
    · -- The quotation is dropped, so the other side may be the datum itself.
      intro e' t he hst
      rw [Expr.gist_quote_of_isDatum hd] at he
      obtain ⟨r', t₁, hr, hrr, ht₁⟩ := ih e' t he hst
      exact ⟨r', t₁, hr.of_datum (Expr.isDatum_bare_of_gist hd he), hrr, ht₁⟩
    · refine .of_bare fun b t hb hst => ?_
      rw [Expr.bare_quote_of_not hd] at hb
      cases hb with
      | quote hdatum =>
        obtain ⟨r', t₁, hr, hrr, ht₁⟩ := ih _ t hdatum hst
        exact ⟨r', t₁, .quote hr, hrr, ht₁⟩
  | list _ ih =>
    refine .of_bare fun b t hb hst => ?_
    cases hb with
    | list hitems =>
      obtain ⟨vs', t₁, hvs, hvvs, ht₁⟩ := (ih _ t hitems hst).ok
      obtain ⟨hv, ht₂⟩ := Store.newList_congr ht₁ hvvs
      exact ⟨_, _, .list hvs, .ok hv, ht₂⟩
  | listError _ ih =>
    refine .of_bare fun b t hb hst => ?_
    cases hb with
    | list hitems =>
      obtain ⟨t₁, he, ht₁⟩ := (ih _ t hitems hst).error
      exact ⟨_, _, .listError he, .error, ht₁⟩
  | quotedCall _ ih =>
    refine .of_bare fun b t hb hst => ?_
    cases hb with
    | call hcallee hargs =>
      obtain ⟨vs', t₁, hvs, hvvs, ht₁⟩ := (ih (_ :: _) t (congrArg₂ List.cons hcallee hargs) hst).ok
      obtain ⟨hv, ht₂⟩ := Store.newList_congr ht₁ hvvs
      exact ⟨_, _, .quotedCall hvs, .ok hv, ht₂⟩
  | quotedCallError _ ih =>
    refine .of_bare fun b t hb hst => ?_
    cases hb with
    | call hcallee hargs =>
      obtain ⟨t₁, he, ht₁⟩ := (ih (_ :: _) t (congrArg₂ List.cons hcallee hargs) hst).error
      exact ⟨_, _, .quotedCallError he, .error, ht₁⟩
  | quotedOther noCall noList _ ih =>
    intro e' t he hst
    obtain ⟨r', t₁, hr, hrr, ht₁⟩ := ih e' t he hst
    exact ⟨r', t₁, hr.quoted_of_plain (Expr.not_call_of_gist he noCall), hrr, ht₁⟩
  | call _ _ _ ihCallee ihArgs ihApply =>
    refine .of_bare fun b t hb hst => ?_
    cases hb with
    | call hcallee hargs =>
      obtain ⟨p', t₁, hp, hpp, ht₁⟩ := (ihCallee _ t hcallee hst).ok
      obtain ⟨vs', t₂, hvs, hvvs, ht₂⟩ := (ihArgs _ t₁ hargs ht₁).ok
      obtain ⟨r', t₃, hr, hrr, ht₃⟩ := ihApply p' vs' t₂ hpp hvvs ht₂
      exact ⟨r', t₃, .call hp hvs hr, hrr, ht₃⟩
  | calleeError _ ih =>
    refine .of_bare fun b t hb hst => ?_
    cases hb with
    | call hcallee _ =>
      obtain ⟨t₁, he, ht₁⟩ := (ih _ t hcallee hst).error
      exact ⟨_, _, .calleeError he, .error, ht₁⟩
  | argsError _ _ ihCallee ihArgs =>
    refine .of_bare fun b t hb hst => ?_
    cases hb with
    | call hcallee hargs =>
      obtain ⟨p', t₁, hp, _, ht₁⟩ := (ihCallee _ t hcallee hst).ok
      obtain ⟨t₂, he, ht₂⟩ := (ihArgs _ t₁ hargs ht₁).error
      exact ⟨_, _, .argsError hp he, .error, ht₂⟩
  | nil =>
    intro es' t hes hst
    cases List.map_eq_nil_iff.mp hes
    exact ⟨_, _, .nil, .ok rfl, hst⟩
  | cons _ _ ihHead ihTail =>
    intro es' t hes hst
    obtain ⟨e', rest', rfl, he, hrest⟩ := List.map_eq_cons_iff.mp hes
    obtain ⟨v', t₁, hv, hvv, ht₁⟩ := (ihHead e' t he hst).ok
    obtain ⟨vs', t₂, hvs, hvvs, ht₂⟩ := (ihTail rest' t₁ hrest ht₁).ok
    exact ⟨_, _, .cons hv hvs, .ok (congrArg₂ List.cons hvv hvvs), ht₂⟩
  | headError _ ih =>
    intro es' t hes hst
    obtain ⟨e', rest', rfl, he, _⟩ := List.map_eq_cons_iff.mp hes
    obtain ⟨t₁, herror, ht₁⟩ := (ih e' t he hst).error
    exact ⟨_, _, .headError herror, .error, ht₁⟩
  | tailError _ _ ihHead ihTail =>
    intro es' t hes hst
    obtain ⟨e', rest', rfl, he, hrest⟩ := List.map_eq_cons_iff.mp hes
    obtain ⟨v', t₁, hv, _, ht₁⟩ := (ihHead e' t he hst).ok
    obtain ⟨t₂, herror, ht₂⟩ := (ihTail rest' t₁ hrest ht₁).error
    exact ⟨_, _, .tailError hv herror, .error, ht₂⟩
  | bodyEnd =>
    intro es' last' t hes hlast hst
    cases List.map_eq_nil_iff.mp hes
    exact ⟨_, _, .bodyEnd, .ok hlast, hst⟩
  | bodyStep _ _ ihFirst ihRest =>
    intro es' last' t hes _ hst
    obtain ⟨e', rest', rfl, he, hrest⟩ := List.map_eq_cons_iff.mp hes
    obtain ⟨w', t₁, hw, hww, ht₁⟩ := (ihFirst e' t he hst).ok
    obtain ⟨r', t₂, hr, hrr, ht₂⟩ := ihRest rest' w' t₁ hrest hww ht₁
    exact ⟨r', t₂, .bodyStep hw hr, hrr, ht₂⟩
  | bodyError _ ih =>
    intro es' last' t hes _ hst
    obtain ⟨e', rest', rfl, he, _⟩ := List.map_eq_cons_iff.mp hes
    obtain ⟨t₁, herror, ht₁⟩ := (ih e' t he hst).error
    exact ⟨_, _, .bodyError herror, .error, ht₁⟩
  | closure _ ih =>
    intro p' vs' t hp hvs hst
    obtain ⟨l', rfl, hlambda⟩ := Value.closure_of_gist hp
    obtain ⟨hparams, hbody⟩ := Lambda.mk.inj hlambda
    obtain ⟨hframe, hentered⟩ := Store.enter_congr hst hparams hvs _
    obtain ⟨r', t₁, hr, hrr, ht₁⟩ := ih _ .undefined _ hbody rfl hentered
    rw [← hframe] at hr
    exact ⟨r', t₁, .closure hr, hrr, ht₁⟩
  | primitiveValue reply =>
    intro p' vs' t hp hvs hst
    cases Value.primitive_of_gist hp
    obtain ⟨_, hreply, hlike⟩ := Primitive.run_gist reply hvs
    cases hlike with
    | value hv => exact ⟨_, _, .primitiveValue hreply, .ok hv, hst⟩
  | primitiveList reply =>
    intro p' vs' t hp hvs hst
    cases Value.primitive_of_gist hp
    obtain ⟨_, hreply, hlike⟩ := Primitive.run_gist reply hvs
    cases hlike with
    | newList hitems =>
      obtain ⟨hv, ht⟩ := Store.newList_congr hst (Value.items_gist_iff.mp hitems)
      exact ⟨_, _, .primitiveList hreply, .ok hv, ht⟩
  | primitiveNaN reply =>
    intro p' vs' t hp hvs hst
    cases Value.primitive_of_gist hp
    obtain ⟨_, hreply, hlike⟩ := Primitive.run_gist reply hvs
    cases hlike
    obtain ⟨hv, ht⟩ := Store.newNaN_congr hst
    exact ⟨_, _, .primitiveNaN hreply, .ok hv, ht⟩
  | primitiveLine reply =>
    intro p' vs' t hp hvs hst
    cases Value.primitive_of_gist hp
    obtain ⟨_, hreply, hlike⟩ := Primitive.run_gist reply hvs
    cases hlike
    exact ⟨_, _, .primitiveLine hreply, .ok rfl, Store.writeLine_congr hst _⟩
  | primitiveCall reply _ ih =>
    intro p' vs' t hp hvs hst
    cases Value.primitive_of_gist hp
    obtain ⟨_, hreply, hlike⟩ := Primitive.run_gist reply hvs
    cases hlike with
    | call hq hws =>
      obtain ⟨r', t₁, hr, hrr, ht₁⟩ := ih _ _ t hq (Value.items_gist_iff.mp hws) hst
      exact ⟨r', t₁, .primitiveCall hreply hr, hrr, ht₁⟩
  | primitiveError reply =>
    intro p' vs' t hp hvs hst
    cases Value.primitive_of_gist hp
    obtain ⟨_, hreply, hlike⟩ := Primitive.run_gist reply hvs
    cases hlike
    exact ⟨_, _, .primitiveError hreply, .error, hst⟩
  | notProcedure noProcedure printed =>
    intro p' vs' t hp hvs hst
    have hprinted := (Value.correspondence_gist.printed?_eq hp).trans printed
    exact ⟨_, _, .notProcedure ((Value.correspondence_gist.isProcedure_eq hp).trans noProcedure) hprinted, .error, hst⟩

end MiniScheme
