import MiniScheme.Eval
import MiniScheme.Proofs.Expr.Grammar
import MiniScheme.Proofs.Numeral.RoundTrip
import MiniScheme.Proofs.Token.Scanning
import MiniScheme.Proofs.Value.Nesting

/-!
# Values that read back

* `Readable` — booleans, numbers that are printed without a sign and an exponent, and lists of those.
* `code`, `datum` — the expression that the printed value is, and the one that it is under a quotation, where brackets
  make a list and the empty ones are no literal.
* `Readable.scansAs` — the printed value is scanned as tokens that spell both.
-/

namespace MiniScheme.Value

open Token (ScansAs StopsNumber)
open MiniScheme.Expr (Spells)

/-- Values whose text has no words and no signs in it. -/
inductive Readable : Value → Prop where
  | boolean (b : Bool) : Readable (.boolean b)
  | null : Readable .null
  | zero : Readable (.number (0 : Float))
  | number {x : Float} (hlow : 1e-6 ≤ x) (hhigh : x < 1e21) : Readable (.number x)
  | list (identity : Nat) {items : List Value} (hne : items ≠ []) (hitems : ∀ v ∈ items, Readable v) :
    Readable (.list identity items)

mutual
/-- The value without the identities of its lists. -/
def shape : Value → Value
  | list _ items => list 0 (shapeAll items)
  | v => v
/-- The values without the identities of their lists. -/
def shapeAll : List Value → List Value
  | [] => []
  | v :: vs => v.shape :: shapeAll vs
end

mutual
/-- The expression that a printed value is. -/
def code : Value → Code
  | boolean b => .literal (.boolean b)
  | number x => .literal (.number x)
  | list _ (v :: vs) => .call v.code (codes vs)
  | _ => .empty
/-- The expressions that printed values are. -/
def codes : List Value → List Code
  | [] => []
  | v :: vs => v.code :: codes vs
end

/-- The expression that a printed value is under a quotation. -/
def datum : Value → Code
  | null => .list []
  | list _ items => .list (codes items)
  | v => v.code

/-! ## Tokens of a value -/

/-- Tokens that spell a value, as an expression and under a quotation, and start with no word. -/
structure Spelling (v : Value) (ts : List (Token Atom)) : Prop where
  noWord : ∀ t ∈ ts.head?, t.kind ≠ .symbol
  expression {n : Nat} (hdepth : v.depth ≤ n) : Spells n .expression ts v.code
  datum {n : Nat} (hpos : 0 < n) (hdepth : v.depth ≤ n + 1) : Spells n .datum ts v.datum

theorem noWord_of_leftBracket {o : Token Atom} (ho : o.kind = .leftBracket) (ts : List (Token Atom)) :
    ∀ t ∈ (o :: ts).head?, t.kind ≠ .symbol := by
  intro t ht hsymbol
  cases ht
  rw [ho] at hsymbol
  cases hsymbol

/-- Only words are keywords. -/
theorem keyword?_of_noWord {t : Token Atom} (ht : t.kind ≠ .symbol) : Expr.keyword? t = none := by
  unfold Expr.keyword?
  rw [if_neg fun hshape => ht (Token.Kind.shape_eq_symbol.1 hshape)]

/-- The literal of a value that is an atom spells it. -/
theorem spelling_atom {v : Value} {a : Atom} {t : Token Atom} (hkind : t.kind.literal? = some a)
    (hcode : v.code = .literal a) (hdatum : v.datum = v.code) (hdepth : v.depth = 1) : Spelling v [t] := by
  have hexpression {n : Nat} (hn : 0 < n) : Spells n .expression [t] v.code := by
    obtain ⟨m, rfl⟩ : ∃ m, n = m + 1 := ⟨n - 1, by omega⟩
    rw [hcode]
    exact .literal hkind
  refine ⟨?_, fun hle => hexpression (by omega), fun hpos _ => ?_⟩
  · intro u hu hsymbol
    cases hu
    rw [hsymbol] at hkind
    cases hkind
  · rw [hdatum]
    refine .other ?_ (hexpression hpos)
    intro u hu hleft
    cases hu
    rw [hleft] at hkind
    cases hkind

/-- A value whose text is scanned as tokens that spell it. -/
def Legible (v : Value) (text : String) : Prop := ScansAs text.toList (Spelling v)

theorem legible_boolean (b : Bool) : Legible (.boolean b) (if b then "#t" else "#f") := by
  have htext : (if b then "#t" else "#f").toList = ['#', if b then 't' else 'f'] := by
    cases b <;> rfl
  have hfirst (rest : List Char) (_ : StopsNumber rest) := Token.Piece.first_boolean b rest
  unfold Legible
  rw [htext]
  refine (ScansAs.single hfirst rfl).imp ?_
  rintro ts ⟨t, rfl, hkind⟩
  exact spelling_atom (by rw [hkind]; rfl) rfl rfl rfl

/-- A numeral that reads as a number spells it. -/
theorem legible_number {x : Float} {text : String} {n places : Nat}
    (hspelled : Numeral.Spelled text.toList n places) (hx : Binary64.ofDecimal n places = x) :
    Legible (.number x) text := by
  obtain ⟨c, cs, htext, hc⟩ := hspelled.head
  have hread : Numeral.read (c :: cs) = x := by
    rw [← htext, Numeral.read_spelled hspelled, hx]
  have hcs : ∀ d ∈ cs, Token.isNumberChar d = true := by
    intro d hd
    unfold Token.isNumberChar
    rcases hspelled.mem (by rw [htext]; exact List.mem_cons_of_mem _ hd) with hdigit | rfl
    · rw [hdigit]
      rfl
    · rfl
  have hfirst (rest : List Char) (hrest : StopsNumber rest) := Token.Piece.first_number hc hcs hrest
  unfold Legible
  rw [htext]
  refine (ScansAs.single hfirst rfl).imp ?_
  rintro ts ⟨t, rfl, hkind⟩
  exact spelling_atom (by rw [hkind, hread]; rfl) rfl rfl rfl

theorem legible_null : Legible .null "()" := by
  have hclose := ScansAs.nil.mark Token.Piece.first_rightBracket rfl
  refine (hclose.mark Token.Piece.first_leftBracket rfl).imp ?_
  rintro ts ⟨o, us, rfl, ho, c, _, rfl, hc, rfl⟩
  refine ⟨noWord_of_leftBracket ho _, fun {n} hdepth => ?_, fun _ _ => .list ho .noExpressions hc⟩
  obtain ⟨m, rfl⟩ := Nat.exists_eq_add_one.2 (Nat.lt_of_lt_of_le (depth_pos _) hdepth)
  exact .brackets ho .empty hc

/-- The text of a list behind its first item. -/
def tailText : List String → List Char
  | [] => [')']
  | text :: texts => ' ' :: (text.toList ++ tailText texts)

theorem stopsNumber_tailText (texts : List String) (rest : List Char) : StopsNumber (tailText texts ++ rest) := by
  cases texts with
  | nil => exact Token.stopsNumber_cons (by decide) rest
  | cons text texts => exact Token.stopsNumber_cons (by decide) _

/-- The items of a list, with a blank in front of each and the bracket behind them. -/
theorem scansAs_tailText {items : List Value} {texts : List String} (h : List.Forall₂ Legible items texts) :
    ScansAs (tailText texts) fun ts => ∃ us c, ts = us ++ [c] ∧ c.kind = .rightBracket ∧
      ∀ n, depthAll items ≤ n → Spells n .expressions us (codes items) := by
  induction h with
  | nil =>
    refine (ScansAs.nil.mark Token.Piece.first_rightBracket rfl).imp ?_
    rintro ts ⟨c, _, rfl, hc, rfl⟩
    exact ⟨[], c, rfl, hc, fun _ _ => .noExpressions⟩
  | cons hitem hitems ih =>
    refine ((hitem.append ih fun rest _ => stopsNumber_tailText _ rest).blank).imp ?_
    rintro ts ⟨us, vs, rfl, hus, ws, c, rfl, hc, hws⟩
    refine ⟨us ++ ws, c, (List.append_assoc us ws [c]).symm, hc, fun n hdepth => ?_⟩
    unfold depthAll at hdepth
    exact .consExpression (hus.expression (by omega)) (hws n (by omega))

/-- The text of a list is its first item between brackets, with the others behind it. -/
theorem toList_printedList (text : String) (texts : List String) :
    ("(" ++ " ".intercalate (text :: texts) ++ ")").toList = '(' :: (text.toList ++ tailText texts) := by
  have hitems : (" ".intercalate (text :: texts) ++ ")").toList = text.toList ++ tailText texts := by
    induction texts generalizing text with
    | nil =>
      rw [String.intercalate_singleton]
      exact String.toList_append
    | cons t ts ih =>
      rw [String.intercalate_cons_cons, String.append_assoc, String.append_assoc, String.toList_append,
        String.toList_append, ih]
      rfl
  rw [String.append_assoc, String.toList_append, hitems]
  rfl

/-- A list of values whose texts are scanned as their tokens is itself scanned so. -/
theorem legible_list (i : Nat) {v : Value} {vs : List Value} {text : String} {texts : List String}
    (hv : Legible v text) (hvs : List.Forall₂ Legible vs texts) :
    Legible (.list i (v :: vs)) ("(" ++ " ".intercalate (text :: texts) ++ ")") := by
  have hinside := hv.append (scansAs_tailText hvs) fun rest _ => stopsNumber_tailText _ rest
  unfold Legible
  rw [toList_printedList]
  refine (hinside.mark Token.Piece.first_leftBracket rfl).imp ?_
  rintro ts ⟨o, _, rfl, ho, us, _, rfl, hus, ws, c, rfl, hc, hws⟩
  have hbrackets : o :: (us ++ (ws ++ [c])) = o :: ((us ++ ws) ++ [c]) := by
    rw [List.append_assoc]
  rw [hbrackets]
  refine ⟨noWord_of_leftBracket ho _, fun {n} hdepth => ?_, fun {n} _ hdepth => ?_⟩
  · unfold depth depthAll at hdepth
    obtain ⟨m, rfl⟩ : ∃ m, n = m + 1 := ⟨n - 1, by omega⟩
    refine .brackets ho (.call ?_ (hus.expression (by omega)) (hws m (by omega))) hc
    intro t ht
    exact keyword?_of_noWord (hus.noWord t ht)
  · unfold depth depthAll at hdepth
    exact .list ho (.consExpression (hus.expression (by omega)) (hws n (by omega))) hc

/-- **Printed values are spelled by their tokens.** -/
theorem Readable.legible {v : Value} (hv : Readable v) {n : Nat} (hdepth : v.depth ≤ n) :
    ∃ text, printed? n v = some text ∧ Legible v text := by
  induction hv generalizing n with
  | boolean b => exact ⟨_, by unfold printed?; rfl, legible_boolean b⟩
  | null => exact ⟨_, by unfold printed?; rfl, legible_null⟩
  | zero =>
    have htext : Numeral.printed.write 0 = "0" := by decide +kernel
    have hzero : Binary64.ofDecimal 0 0 = 0 := by decide +kernel
    refine ⟨"0", ?_, legible_number (Numeral.digits_spelled 0) hzero⟩
    unfold printed?
    rw [Number.toFloat_plain, htext]
  | number hlow hhigh =>
    obtain ⟨m, places, hspelled, hx⟩ := Numeral.write_spelled hlow hhigh
    exact ⟨_, by unfold printed?; rfl, legible_number hspelled hx⟩
  | @list i items hne hitems ih =>
    unfold depth at hdepth
    obtain ⟨m, rfl⟩ : ∃ m, n = m + 1 := ⟨n - 1, by omega⟩
    obtain ⟨texts, htexts, hlegible⟩ := mapM_forall₂ fun v hv =>
      ih v hv (Nat.le_trans (depth_le_depthAll hv) (Nat.le_of_succ_le_succ hdepth))
    cases hlegible with
    | nil => exact absurd rfl hne
    | cons hfirst hrest =>
      refine ⟨_, ?_, legible_list i hfirst hrest⟩
      unfold printed?
      rw [htexts]

end MiniScheme.Value
