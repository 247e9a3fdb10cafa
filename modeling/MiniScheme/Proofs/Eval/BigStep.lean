import MiniScheme.Eval

/-!
# Natural semantics

What evaluation comes to, as one relation without turns, fuel or limits. Every expression that is evaluated for
another has a derivation of its own, also in tail position: the chosen branch of an `if`, and each expression of a
body in order. A call evaluates the callee, then the arguments from left to right, and runs the body in a new frame
inside the one that the closure was made in. The first error ends everything.

* `Task` — a piece of evaluation: an expression, a list of them, a body, or a procedure and its arguments.
* `BigStep task store result store'` — from `store`, the task comes to `result` and leaves `store'`.
-/

namespace MiniScheme

/-- How an expression is taken: as it stands, or under a quotation. -/
inductive Manner where
  | plain
  | quoted
  deriving DecidableEq, Repr

/-- A piece of evaluation and the type of its result. -/
inductive Task : Type → Type where
  | value (manner : Manner) (expr : Code) (frame : FrameId) : Task Value
  | values (manner : Manner) (exprs : List Code) (frame : FrameId) : Task (List Value)
  /-- Expressions in order for the value of the last, or `last` if there is none. -/
  | body (exprs : List Code) (frame : FrameId) (last : Value) : Task Value
  | apply (procedure : Value) (args : List Value) : Task Value

/-- The rules of evaluation. A primitive replies as it does under any nesting limit that lets it reply; where it comes
to a failure of the host, there is no rule. -/
inductive BigStep : {α : Type} → Task α → Store → Except RuntimeError α → Store → Prop where
  | literal {a f s} : BigStep (.value .plain (.literal a) f) s (.ok (.ofAtom a)) s
  | empty {f s} : BigStep (.value .plain .empty f) s (.ok .null) s
  | symbol {name : Name} {f} {s : Store} : BigStep (.value .plain (.symbol name) f) s (s.get name.lexeme f) s
  | lambda {params body f} {s : Store} :
    BigStep (.value .plain (.lambda params body) f) s (.ok (s.newClosure ⟨params, body⟩ f).1)
      (s.newClosure ⟨params, body⟩ f).2
  | define {name : Name} {e f s v s₁} (value : BigStep (.value .plain e f) s (.ok v) s₁) :
    BigStep (.value .plain (.define name e) f) s (.ok .undefined) (s₁.define name.lexeme v f)
  | defineError {name : Name} {e f s err s₁} (value : BigStep (.value .plain e f) s (.error err) s₁) :
    BigStep (.value .plain (.define name e) f) s (.error err) s₁
  | assign {name : Name} {e f s v s₁ s₂} (value : BigStep (.value .plain e f) s (.ok v) s₁)
    (bound : s₁.assign name.lexeme v f = .ok s₂) :
    BigStep (.value .plain (.assign name e) f) s (.ok .undefined) s₂
  | assignUnbound {name : Name} {e f s v err s₁} (value : BigStep (.value .plain e f) s (.ok v) s₁)
    (unbound : s₁.assign name.lexeme v f = .error err) :
    BigStep (.value .plain (.assign name e) f) s (.error err) s₁
  | assignError {name : Name} {e f s err s₁} (value : BigStep (.value .plain e f) s (.error err) s₁) :
    BigStep (.value .plain (.assign name e) f) s (.error err) s₁
  | condTrue {t c o f s v r s₁ s₂} (test : BigStep (.value .plain t f) s (.ok v) s₁) (true : v.isTrue = true)
    (branch : BigStep (.value .plain c f) s₁ r s₂) : BigStep (.value .plain (.cond t c o) f) s r s₂
  | condFalse {t c e f s v r s₁ s₂} (test : BigStep (.value .plain t f) s (.ok v) s₁) (false : v.isTrue = false)
    (branch : BigStep (.value .plain e f) s₁ r s₂) : BigStep (.value .plain (.cond t c (some e)) f) s r s₂
  | condNone {t c f s v s₁} (test : BigStep (.value .plain t f) s (.ok v) s₁) (false : v.isTrue = false) :
    BigStep (.value .plain (.cond t c none) f) s (.ok .undefined) s₁
  | condError {t c o f s err s₁} (test : BigStep (.value .plain t f) s (.error err) s₁) :
    BigStep (.value .plain (.cond t c o) f) s (.error err) s₁
  | letIn {names es body f s vs r s₂} {s₁ : Store} (values : BigStep (.values .plain es f) s (.ok vs) s₁)
    (run : BigStep (.body body (s₁.enter (.fixed names) vs f).1 .undefined) (s₁.enter (.fixed names) vs f).2 r s₂) :
    BigStep (.value .plain (.letIn names es body) f) s r s₂
  | letError {names es body f s err s₁} (values : BigStep (.values .plain es f) s (.error err) s₁) :
    BigStep (.value .plain (.letIn names es body) f) s (.error err) s₁
  | quote {d f s r s₁} (datum : BigStep (.value .quoted d f) s r s₁) : BigStep (.value .plain (.quote d) f) s r s₁
  | list {m es f s vs} {s₁ : Store} (items : BigStep (.values .quoted es f) s (.ok vs) s₁) :
    BigStep (.value m (.list es) f) s (.ok (s₁.newList vs).1) (s₁.newList vs).2
  | listError {m es f s err s₁} (items : BigStep (.values .quoted es f) s (.error err) s₁) :
    BigStep (.value m (.list es) f) s (.error err) s₁
  /-- Under a quotation a call is the list of its parts. -/
  | quotedCall {c es f s vs} {s₁ : Store} (items : BigStep (.values .quoted (c :: es) f) s (.ok vs) s₁) :
    BigStep (.value .quoted (.call c es) f) s (.ok (s₁.newList vs).1) (s₁.newList vs).2
  | quotedCallError {c es f s err s₁} (items : BigStep (.values .quoted (c :: es) f) s (.error err) s₁) :
    BigStep (.value .quoted (.call c es) f) s (.error err) s₁
  | quotedOther {e f s r s₁} (noCall : ∀ c es, e ≠ .call c es) (noList : ∀ es, e ≠ .list es)
    (value : BigStep (.value .plain e f) s r s₁) : BigStep (.value .quoted e f) s r s₁
  | call {c es f s p vs r s₁ s₂ s₃} (callee : BigStep (.value .plain c f) s (.ok p) s₁)
    (args : BigStep (.values .plain es f) s₁ (.ok vs) s₂) (apply : BigStep (.apply p vs) s₂ r s₃) :
    BigStep (.value .plain (.call c es) f) s r s₃
  | calleeError {c es f s err s₁} (callee : BigStep (.value .plain c f) s (.error err) s₁) :
    BigStep (.value .plain (.call c es) f) s (.error err) s₁
  | argsError {c es f s p err s₁ s₂} (callee : BigStep (.value .plain c f) s (.ok p) s₁)
    (args : BigStep (.values .plain es f) s₁ (.error err) s₂) :
    BigStep (.value .plain (.call c es) f) s (.error err) s₂
  | nil {m f s} : BigStep (.values m [] f) s (.ok []) s
  | cons {m e es f s v vs s₁ s₂} (head : BigStep (.value m e f) s (.ok v) s₁)
    (tail : BigStep (.values m es f) s₁ (.ok vs) s₂) : BigStep (.values m (e :: es) f) s (.ok (v :: vs)) s₂
  | headError {m e es f s err s₁} (head : BigStep (.value m e f) s (.error err) s₁) :
    BigStep (.values m (e :: es) f) s (.error err) s₁
  | tailError {m e es f s v err s₁ s₂} (head : BigStep (.value m e f) s (.ok v) s₁)
    (tail : BigStep (.values m es f) s₁ (.error err) s₂) : BigStep (.values m (e :: es) f) s (.error err) s₂
  | bodyEnd {f v s} : BigStep (.body [] f v) s (.ok v) s
  | bodyStep {e es f v w r s s₁ s₂} (first : BigStep (.value .plain e f) s (.ok w) s₁)
    (rest : BigStep (.body es f w) s₁ r s₂) : BigStep (.body (e :: es) f v) s r s₂
  | bodyError {e es f v err s s₁} (first : BigStep (.value .plain e f) s (.error err) s₁) :
    BigStep (.body (e :: es) f v) s (.error err) s₁
  | closure {i k vs r s₁} {l : Lambda} {s : Store}
    (run : BigStep (.body l.body (s.enter l.params vs k).1 .undefined) (s.enter l.params vs k).2 r s₁) :
    BigStep (.apply (.closure i l k) vs) s r s₁
  | primitiveValue {n p vs v s} (reply : Primitive.run n p vs = .value v) :
    BigStep (.apply (.primitive p) vs) s (.ok v) s
  | primitiveList {n p vs items} {s : Store} (reply : Primitive.run n p vs = .newList items) :
    BigStep (.apply (.primitive p) vs) s (.ok (s.newList items).1) (s.newList items).2
  | primitiveNaN {n p vs} {s : Store} (reply : Primitive.run n p vs = .newNaN) :
    BigStep (.apply (.primitive p) vs) s (.ok s.newNaN.1) s.newNaN.2
  | primitiveLine {n p vs text} {s : Store} (reply : Primitive.run n p vs = .line text) :
    BigStep (.apply (.primitive p) vs) s (.ok .undefined) (s.writeLine text)
  | primitiveCall {n p vs q ws r s s₁} (reply : Primitive.run n p vs = .call q ws)
    (apply : BigStep (.apply q ws) s r s₁) : BigStep (.apply (.primitive p) vs) s r s₁
  | primitiveError {n p vs err s} (reply : Primitive.run n p vs = .failed err) :
    BigStep (.apply (.primitive p) vs) s (.error err) s
  | notProcedure {n v vs shown s} (noProcedure : Value.isProcedure v = false)
    (printed : v.printed? n = some shown) : BigStep (.apply v vs) s (.error (.notProcedure shown)) s

end MiniScheme
