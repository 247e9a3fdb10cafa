import MiniScheme.Store

/-!
# Outcomes

What a computation on a store comes to: a result, or a stop. Either way the store is the one reached.
-/

namespace MiniScheme

/-- Why a computation stopped before it had a result. -/
inductive Stop where
  | error (e : RuntimeError)
  /-- Evaluation was nested beyond the limit. -/
  | nestingTooDeep
  /-- There is no result. The steps allowed were used up, or the host failed, as it never does in a session. -/
  | outOfFuel
  deriving DecidableEq, Repr

inductive Outcome (α : Type) where
  | done (value : α) (store : Store)
  | stopped (why : Stop) (store : Store)
  deriving Repr

namespace Outcome

variable {α β : Type}

/-- Goes on with the result and the store reached. -/
@[inline] def andThen (outcome : Outcome α) (next : α → Store → Outcome β) : Outcome β :=
  match outcome with
  | done value store => next value store
  | stopped why store => stopped why store

/-- A result that may be an error, with the store as it is. -/
@[inline] def ofExcept (result : Except RuntimeError α) (store : Store) : Outcome α :=
  match result with
  | .ok value => done value store
  | .error e => stopped (.error e) store

/-- A new value and the store that knows it. -/
@[inline] def ofPair (result : α × Store) : Outcome α := done result.1 result.2

/-- The store reached. -/
def store : Outcome α → Store
  | done _ store => store
  | stopped _ store => store

@[simp] theorem andThen_done (value : α) (store : Store) (next : α → Store → Outcome β) :
    (done value store).andThen next = next value store := rfl

@[simp] theorem andThen_stopped (why : Stop) (store : Store) (next : α → Store → Outcome β) :
    (stopped why store : Outcome α).andThen next = stopped why store := rfl

end Outcome
end MiniScheme
