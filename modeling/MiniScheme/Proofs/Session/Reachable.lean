import MiniScheme.Proofs.Store.Valid
import MiniScheme.Session

/-!
# Reachable stores

The stores that sessions come to, from the one that programs start with by running any texts, whether or not they fail.

* `Session.Reachable` — the stores between two texts.
* `Reachable.valid` — nothing in them dangles, and all that was written has been taken out.
-/

namespace MiniScheme
namespace Session

/-- A session can have this store between two texts. -/
inductive Reachable : Store → Prop where
  | initial : Reachable .initial
  | run {s : Store} (limits : Limits) (source : String) (h : Reachable s) : Reachable (run limits source s).2

/-- Expressions of a text leave a valid store. -/
theorem evalAll_valid (limits : Limits) (es : List Code) {s : Store} (hs : s.Valid) : (evalAll limits es s).Valid s :=
  .of_keeps (Store.validity.inOrder_keeps _ _ ⟨hs, rfl⟩ (.plain rfl) fun _ _ => hs.global)

theorem run_valid (limits : Limits) (source : String) {s : Store} (hs : s.Valid) : (run limits source s).2.Valid := by
  unfold run
  cases read limits source with
  | error e => exact hs
  | ok es => exact (evalAll_valid limits es hs).store.of_frames rfl le_rfl

theorem run_output (limits : Limits) (source : String) {s : Store} (hs : s.output = "") :
    (run limits source s).2.output = "" := by
  unfold run
  cases read limits source with
  | error e => exact hs
  | ok es => rfl

namespace Reachable

variable {s : Store}

/-- **Nothing dangles in a reachable store.** -/
theorem valid (h : Reachable s) : s.Valid := by
  induction h with
  | initial => exact Store.initial_valid
  | run limits source _ ih => exact run_valid limits source ih

theorem output_eq (h : Reachable s) : s.output = "" := by
  induction h with
  | initial => rfl
  | run limits source _ ih => exact run_output limits source ih

end Reachable
end Session
end MiniScheme
