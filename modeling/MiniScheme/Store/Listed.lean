import MiniScheme.Store

/-!
# Listings of frames

What a frame binds, as text: either the frame alone, with a mark if another one is around it, or the whole chain of
frames outwards.
-/

namespace MiniScheme

/-- One binding. -/
def Bindings.listedBinding? (nesting : Nat) (entry : String × Value) : Option String :=
  match entry.2.listed? nesting with
  | some text => some (entry.1 ++ ": " ++ text)
  | none => none

/-- All bindings in braces, if no value is nested too deep. -/
def Bindings.listed? (nesting : Nat) (bindings : Bindings) : Option String :=
  match bindings.mapM (listedBinding? nesting) with
  | some entries => some ("\x7b" ++ ", ".intercalate entries ++ "\x7d")
  | none => none

namespace Store

/-- A frame alone. -/
def listedFrame? (nesting : Nat) (store : Store) (id : FrameId) : Option String :=
  match store.frames[id]? with
  | none => some ""
  | some frame =>
    match frame.bindings.listed? nesting with
    | some text => some (if frame.enclosing.isSome then text ++ " -> ..." else text)
    | none => none

/-- The frames of a chain, through so many at most. -/
def chainWithin (store : Store) : Nat → FrameId → List Frame
  | 0, _ => []
  | bound + 1, id =>
    match store.frames[id]? with
    | none => []
    | some frame =>
      match frame.enclosing with
      | some outer => frame :: chainWithin store bound outer
      | none => [frame]

/-- The chain from a frame outwards. -/
def chain (store : Store) (id : FrameId) : List Frame := store.chainWithin store.frames.size id

/-- A frame and all frames around it. -/
def listedChain? (nesting : Nat) (store : Store) (id : FrameId) : Option String :=
  match (store.chain id).mapM fun frame => frame.bindings.listed? nesting with
  | some texts => some ("<Environment chain: " ++ " -> ".intercalate texts ++ ">")
  | none => none

end Store
end MiniScheme
