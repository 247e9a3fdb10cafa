import Mathlib.Data.List.Forall2
import MiniScheme.Value.Order
import MiniScheme.Value.Printed

/-!
# The nesting limit on values

Printing and comparing stop at lists nested beyond the limit. A wider limit changes nothing else:

* `printed?_mono` — a text that is printed within a limit is printed within every wider one;
* `equal?_mono`, `compare_mono` — so it is with the answer of a comparison;
* `pairwise_mono` — and with a chain of comparisons.

For every value there is a limit that is wide enough:

* `depth` — how deep a value is nested;
* `exists_printed`, `compare_of_depth`, `pairwise_of_depth` — a limit of that depth stops nothing.
-/

namespace MiniScheme.Value

theorem mapM_mono {α β : Type} {f g : α → Option β} (hfg : ∀ x y, f x = some y → g x = some y) :
    ∀ {xs : List α} {ys : List β}, xs.mapM f = some ys → xs.mapM g = some ys
  | [], ys, h => by simpa using h
  | x :: xs, ys, h => by
    rw [List.mapM_cons] at h ⊢
    cases hx : f x with
    | none => simp [hx] at h
    | some y =>
      cases hxs : xs.mapM f with
      | none => simp [hx, hxs] at h
      | some zs =>
        rw [hfg x y hx, mapM_mono hfg hxs]
        simpa [hx, hxs] using h

/-- **What is printed within a limit is printed within every wider one.** -/
theorem printed?_mono {n m : Nat} (hnm : n ≤ m) {v : Value} {text : String} (h : printed? n v = some text) :
    printed? m v = some text := by
  induction n generalizing m v text with
  | zero =>
    cases v with
    | list => simp [printed?] at h
    | _ => simpa [printed?] using h
  | succ n ih =>
    obtain ⟨m, rfl⟩ : ∃ k, m = k + 1 := ⟨m - 1, by omega⟩
    cases v with
    | list i items =>
      unfold printed? at h ⊢
      split at h
      · rename_i texts ht
        rw [mapM_mono (fun _ _ hx => ih (by omega) hx) ht]
        exact h
      · cases h
    | _ => simpa [printed?] using h

theorem allEqual?_mono {eq eq' : Value → Value → Option Bool} (h : ∀ a b r, eq a b = some r → eq' a b = some r) :
    ∀ {as bs : List Value} {r : Bool}, allEqual? eq as bs = some r → allEqual? eq' as bs = some r
  | [], _, r, hr => by simpa [allEqual?] using hr
  | _ :: _, [], r, hr => by simpa [allEqual?] using hr
  | a :: as, b :: bs, r, hr => by
    unfold allEqual? at hr ⊢
    split at hr
    · rename_i hab
      rw [h _ _ _ hab]
      exact allEqual?_mono h hr
    · rename_i hne
      cases hab : eq a b with
      | none => rw [hab] at hr; cases hr
      | some s =>
        rw [hab] at hr
        cases hr
        rw [h _ _ _ hab]
        cases r
        · rfl
        · exact absurd hab hne

theorem lists_or_not (a b : Value) : (∃ i as j bs, a = list i as ∧ b = list j bs) ∨
    ∀ i as j bs, ¬(a = list i as ∧ b = list j bs) := by
  by_cases h : ∃ i as j bs, a = list i as ∧ b = list j bs
  · exact .inl h
  · exact .inr fun i as j bs hab => h ⟨i, as, j, bs, hab⟩

theorem equal?_lists (n i j : Nat) (as bs : List Value) : equal? n (list i as) (list j bs) =
    if i = j then some true
    else
      match n with
      | 0 => none
      | n + 1 => if as.length = bs.length then allEqual? (equal? n) as bs else some false := by
  cases n <;> rfl

/-- The limit counts for two lists only. -/
theorem equal?_atoms {a b : Value} (h : ∀ i as j bs, ¬(a = list i as ∧ b = list j bs)) (n : Nat) :
    equal? n a b = some (a.sameNaN b || equalAtoms a b) := by
  unfold equal?
  split
  · exact absurd ⟨rfl, rfl⟩ (h _ _ _ _)
  · rfl

/-- **Equality that is decided within a limit is decided so within every wider one.** -/
theorem equal?_mono {n m : Nat} (hnm : n ≤ m) {a b : Value} {r : Bool} (h : equal? n a b = some r) :
    equal? m a b = some r := by
  induction n generalizing m a b r with
  | zero =>
    rcases lists_or_not a b with ⟨i, as, j, bs, rfl, rfl⟩ | hl
    · rw [equal?_lists] at h ⊢
      split at h
      · rename_i hij
        rw [if_pos hij]
        exact h
      · cases h
    · rw [equal?_atoms hl] at h ⊢
      exact h
  | succ n ih =>
    obtain ⟨m, rfl⟩ : ∃ k, m = k + 1 := ⟨m - 1, by omega⟩
    rcases lists_or_not a b with ⟨i, as, j, bs, rfl, rfl⟩ | hl
    · rw [equal?_lists] at h ⊢
      split at h
      · rename_i hij
        rw [if_pos hij]
        exact h
      · rename_i hij
        rw [if_neg hij]
        simp only at h ⊢
        split at h
        · rename_i hlen
          rw [if_pos hlen]
          exact allEqual?_mono (fun _ _ _ hx => ih (by omega) hx) h
        · rename_i hlen
          rw [if_neg hlen]
          exact h
    · rw [equal?_atoms hl] at h ⊢
      exact h

theorem firstDifference?_mono {eq eq' : Value → Value → Option Bool}
    (h : ∀ a b r, eq a b = some r → eq' a b = some r) :
    ∀ {as bs : List Value} {d : Option (Value × Value)},
      firstDifference? eq as bs = some d → firstDifference? eq' as bs = some d
  | [], _, d, hd => by simpa [firstDifference?] using hd
  | _ :: _, [], d, hd => by simpa [firstDifference?] using hd
  | a :: as, b :: bs, d, hd => by
    unfold firstDifference? at hd ⊢
    split at hd
    · rename_i hab
      rw [h _ _ _ hab]
      exact firstDifference?_mono h hd
    · rename_i hab
      rw [h _ _ _ hab]
      exact hd
    · cases hd

theorem compare_lists (d : Direction) (n i j : Nat) (as bs : List Value) :
    compare d n (list i as) (list j bs) =
      match n with
      | 0 => .error .nestingTooDeep
      | n + 1 =>
        match firstDifference? (equal? n) as bs with
        | some (some (a, b)) => compare d n a b
        | some none => .ok (d.lengths as.length bs.length)
        | none => .error .nestingTooDeep := by
  cases n <;> rfl

theorem compare_atoms {a b : Value} (h : ∀ i as j bs, ¬(a = list i as ∧ b = list j bs)) (d : Direction)
    (n m : Nat) : compare d n a b = compare d m a b := by
  rw [compare.eq_def, compare.eq_def d m]
  cases a <;> cases b <;> first | rfl | exact absurd ⟨rfl, rfl⟩ (h _ _ _ _)

/-- **A comparison that has an answer within a limit has it within every wider one.** An answer may also be that the
values are not comparable. -/
theorem compare_mono {d : Direction} {n m : Nat} (hnm : n ≤ m) {a b : Value}
    (h : compare d n a b ≠ .error .nestingTooDeep) : compare d m a b = compare d n a b := by
  induction n generalizing m a b with
  | zero =>
    rcases lists_or_not a b with ⟨i, as, j, bs, rfl, rfl⟩ | hl
    · rw [compare_lists] at h
      exact absurd rfl h
    · exact compare_atoms hl d m 0
  | succ n ih =>
    obtain ⟨m, rfl⟩ : ∃ k, m = k + 1 := ⟨m - 1, by omega⟩
    rcases lists_or_not a b with ⟨i, as, j, bs, rfl, rfl⟩ | hl
    · rw [compare_lists] at h
      rw [compare_lists, compare_lists]
      cases hd : firstDifference? (equal? n) as bs with
      | none => simp only [hd] at h; exact absurd rfl h
      | some first =>
        have hd' := firstDifference?_mono (fun _ _ _ hx => equal?_mono (by omega : n ≤ m) hx) hd
        simp only [hd, hd'] at h ⊢
        cases first with
        | none => rfl
        | some pair => exact ih (by omega) h
    · exact compare_atoms hl d _ _

theorem pairwise_mono {test test' : Value → Value → Except Obstacle Bool}
    (h : ∀ a b, test a b ≠ .error .nestingTooDeep → test' a b = test a b) :
    ∀ {args : List Value}, pairwise test args ≠ .error .nestingTooDeep → pairwise test' args = pairwise test args
  | [], _ => rfl
  | [_], _ => rfl
  | a :: b :: rest, hne => by
    unfold pairwise at hne ⊢
    have hab : test a b ≠ .error .nestingTooDeep := by
      intro he
      rw [he] at hne
      exact hne rfl
    rw [h a b hab]
    split at hne
    · exact pairwise_mono h hne
    · rfl

/-! ## Limits that are wide enough -/

mutual
/-- How deep a value is nested. What is no list counts as one level. -/
def depth : Value → Nat
  | list _ items => depthAll items + 1
  | _ => 1
/-- How deep the deepest of the values is nested. -/
def depthAll : List Value → Nat
  | [] => 0
  | v :: vs => max v.depth (depthAll vs)
end

theorem depth_pos (v : Value) : 0 < v.depth := by
  unfold depth
  split <;> omega

theorem depth_le_depthAll {v : Value} {vs : List Value} (hv : v ∈ vs) : v.depth ≤ depthAll vs := by
  induction vs with
  | nil => cases hv
  | cons w vs ih =>
    unfold depthAll
    rcases List.mem_cons.1 hv with rfl | hv
    · exact Nat.le_max_left _ _
    · exact Nat.le_trans (ih hv) (Nat.le_max_right _ _)

/-- Each item of a list has its text, if all of them do. -/
theorem mapM_forall₂ {α β : Type} {f : α → Option β} {R : α → β → Prop} :
    ∀ {xs : List α}, (∀ x ∈ xs, ∃ y, f x = some y ∧ R x y) → ∃ ys, xs.mapM f = some ys ∧ List.Forall₂ R xs ys
  | [], _ => ⟨[], rfl, .nil⟩
  | x :: xs, h => by
    obtain ⟨y, hy, hxy⟩ := h x List.mem_cons_self
    obtain ⟨ys, hys, hxys⟩ := mapM_forall₂ fun x hx => h x (List.mem_cons_of_mem _ hx)
    refine ⟨y :: ys, ?_, .cons hxy hxys⟩
    rw [List.mapM_cons, hy, hys]
    rfl

/-- **Every value is printed within the limit of its depth.** -/
theorem exists_printed {n : Nat} {v : Value} (hdepth : v.depth ≤ n) : ∃ text, printed? n v = some text := by
  induction n generalizing v with
  | zero => exact absurd (depth_pos v) (Nat.not_lt.2 hdepth)
  | succ n ih =>
    cases v with
    | list i items =>
      unfold depth at hdepth
      obtain ⟨texts, htexts, -⟩ := mapM_forall₂ (R := fun _ _ => True) fun v hv => by
        obtain ⟨text, htext⟩ := ih (Nat.le_trans (depth_le_depthAll hv) (Nat.le_of_succ_le_succ hdepth))
        exact ⟨text, htext, trivial⟩
      unfold printed?
      rw [htexts]
      exact ⟨_, rfl⟩
    | _ => exact ⟨_, by unfold printed?; rfl⟩

theorem allEqual?_ne_none {eq : Value → Value → Option Bool} {as : List Value}
    (h : ∀ a ∈ as, ∀ b, eq a b ≠ none) (bs : List Value) : allEqual? eq as bs ≠ none := by
  induction as generalizing bs with
  | nil => exact Option.some_ne_none true
  | cons a as ih =>
    cases bs with
    | nil => exact Option.some_ne_none true
    | cons b bs =>
      unfold allEqual?
      rcases hab : eq a b with _ | _ | _
      · exact absurd hab (h a List.mem_cons_self b)
      · exact Option.some_ne_none false
      · exact ih (fun a ha => h a (List.mem_cons_of_mem _ ha)) bs

/-- Within the limit of one value's depth its equality to any other is decided. -/
theorem equal?_of_depth {n : Nat} {a : Value} (hdepth : a.depth ≤ n) (b : Value) : equal? n a b ≠ none := by
  induction n generalizing a b with
  | zero => exact absurd (depth_pos a) (Nat.not_lt.2 hdepth)
  | succ n ih =>
    rcases lists_or_not a b with ⟨i, as, j, bs, rfl, rfl⟩ | hl
    · unfold depth at hdepth
      rw [equal?_lists]
      split
      · exact Option.some_ne_none true
      · dsimp only
        split
        · exact allEqual?_ne_none (fun a ha => ih
            (Nat.le_trans (depth_le_depthAll ha) (Nat.le_of_succ_le_succ hdepth))) bs
        · exact Option.some_ne_none false
    · rw [equal?_atoms hl]
      exact Option.some_ne_none _

theorem firstDifference?_ne_none {eq : Value → Value → Option Bool} {as : List Value}
    (h : ∀ a ∈ as, ∀ b, eq a b ≠ none) (bs : List Value) :
    ∃ d, firstDifference? eq as bs = some d ∧ ∀ a b, d = some (a, b) → a ∈ as := by
  induction as generalizing bs with
  | nil => exact ⟨none, rfl, by rintro a b ⟨⟩⟩
  | cons a as ih =>
    cases bs with
    | nil => exact ⟨none, rfl, by rintro a b ⟨⟩⟩
    | cons b bs =>
      unfold firstDifference?
      rcases hab : eq a b with _ | _ | _
      · exact absurd hab (h a List.mem_cons_self b)
      · exact ⟨some (a, b), rfl, by rintro _ _ ⟨⟩; exact List.mem_cons_self⟩
      · obtain ⟨d, hd, hmem⟩ := ih (fun a ha => h a (List.mem_cons_of_mem _ ha)) bs
        exact ⟨d, hd, fun a b heq => List.mem_cons_of_mem _ (hmem a b heq)⟩

/-- **Within the limit of one value's depth no comparison with it is stopped.** -/
theorem compare_of_depth {d : Direction} {n : Nat} {a : Value} (hdepth : a.depth ≤ n) (b : Value) :
    compare d n a b ≠ .error .nestingTooDeep := by
  induction n generalizing a b with
  | zero => exact absurd (depth_pos a) (Nat.not_lt.2 hdepth)
  | succ n ih =>
    rcases lists_or_not a b with ⟨i, as, j, bs, rfl, rfl⟩ | hl
    · unfold depth at hdepth
      have hitem : ∀ a ∈ as, a.depth ≤ n := fun a ha =>
        Nat.le_trans (depth_le_depthAll ha) (Nat.le_of_succ_le_succ hdepth)
      obtain ⟨first, hfirst, hmem⟩ := firstDifference?_ne_none (fun a ha => equal?_of_depth (hitem a ha)) bs
      rw [compare_lists]
      simp only [hfirst]
      cases first with
      | none => nofun
      | some pair => exact ih (hitem _ (hmem _ _ rfl)) _
    · rw [compare_atoms hl d _ 0]
      intro h
      unfold compare at h
      split at h
      · exact absurd ⟨rfl, rfl⟩ (hl _ _ _ _)
      · cases h
      · split at h <;> cases h

theorem pairwise_of_depth {d : Direction} {n : Nat} {vs : List Value} (hdepth : depthAll vs ≤ n) :
    pairwise (compare d n) vs ≠ .error .nestingTooDeep := by
  induction vs with
  | nil => nofun
  | cons a rest ih =>
    cases rest with
    | nil => nofun
    | cons b rest =>
      unfold pairwise
      have hcompare := compare_of_depth (d := d) (Nat.le_trans (depth_le_depthAll List.mem_cons_self) hdepth) b
      split
      · exact ih (Nat.le_trans (Nat.le_max_right _ _) hdepth)
      · exact hcompare

end MiniScheme.Value
