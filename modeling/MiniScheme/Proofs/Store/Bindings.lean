import Mathlib.Data.List.Forall2
import MiniScheme.Proofs.Value.Correspondence
import MiniScheme.Store

/-!
# Bindings that go together

Two frames may bind different names to different values. If the names of one go with those of the other one-to-one, and
the values go together too, then looking up and binding keep it so.

* `Bindings.Agree N V` — names related by `N` are bound, in the same order, to values related by `V`.
* `Agree.get?`, `Agree.put`, `Agree.putAll` — the operations on two such bindings.
-/

namespace MiniScheme
namespace Bindings

open List (Forall₂)

/-- In the same order, related names are bound to related values. -/
def Agree (N : String → String → Prop) (V : Value → Value → Prop) : Bindings → Bindings → Prop :=
  Forall₂ fun b b' => N b.1 b'.1 ∧ V b.2 b'.2

namespace Agree

variable {N : String → String → Prop} {V : Value → Value → Prop} {bs bs' : Bindings} {x y : String} {v v' : Value}
  (hN : ∀ {k k' z z'}, N k k' → N z z' → (k = z ↔ k' = z'))

include hN

theorem get? (h : Agree N V bs bs') (hx : N x y) : Option.Rel V (bs.get? x) (bs'.get? y) := by
  induction h with
  | nil => exact .none
  | @cons b b' _ _ hb _ ih =>
    obtain ⟨key, value⟩ := b
    obtain ⟨key', value'⟩ := b'
    obtain ⟨hkey, hvalue⟩ := hb
    simp only [Bindings.get?, ← hN hkey hx]
    split
    · exact .some hvalue
    · exact ih

theorem put (h : Agree N V bs bs') (hx : N x y) (hv : V v v') : Agree N V (bs.put x v) (bs'.put y v') := by
  induction h with
  | nil => exact .cons ⟨hx, hv⟩ .nil
  | @cons b b' _ _ hb hrest ih =>
    obtain ⟨key, value⟩ := b
    obtain ⟨key', value'⟩ := b'
    obtain ⟨hkey, hvalue⟩ := hb
    simp only [Bindings.put, ← hN hkey hx]
    split
    · exact .cons ⟨hkey, hv⟩ hrest
    · exact .cons ⟨hkey, hvalue⟩ ih

theorem putAll (hundefined : V .undefined .undefined) {xs ys : List String} {vs vs' : List Value}
    (h : Agree N V bs bs') (hxs : Forall₂ N xs ys) (hvs : Forall₂ V vs vs') :
    Agree N V (Bindings.putAll xs vs bs) (Bindings.putAll ys vs' bs') := by
  induction hxs generalizing vs vs' bs bs' with
  | nil => exact h
  | cons hx _ ih =>
    cases hvs with
    | nil => exact ih (h.put hN hx hundefined) .nil
    | cons hv hvs => exact ih (h.put hN hx hv) hvs

end Agree
end Bindings
end MiniScheme
