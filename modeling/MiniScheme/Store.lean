import MiniScheme.Primitive.Basic
import MiniScheme.RuntimeError
import MiniScheme.Value.Listed

/-!
# Frames and stores

A frame binds names to values and may lie inside another frame. The store holds all frames, each under the number
that counts the frames made before it, the identities that lists, closures and NaN get, and what has been written.

`find?`, `get`, `define` and `assign` model `find`, `get`, `define` and `set` of an `Environment`, and `enter` models
`bind`.
-/

namespace MiniScheme

/-- Names with their values, in the order in which they were first bound. -/
abbrev Bindings := List (String × Value)

namespace Bindings

/-- The value of a name. -/
def get? (name : String) : Bindings → Option Value
  | [] => none
  | (key, value) :: rest => if key = name then some value else get? name rest

/-- Binds a name, in its old place if it has one, else at the end. -/
def put (name : String) (value : Value) : Bindings → Bindings
  | [] => [(name, value)]
  | (key, old) :: rest => if key = name then (key, value) :: rest else (key, old) :: put name value rest

/-- Binds names to arguments, missing ones to undefined. Of a name that occurs twice, the last argument stays. -/
def putAll : List String → List Value → Bindings → Bindings
  | [], _, bindings => bindings
  | name :: names, [], bindings => putAll names [] (bindings.put name .undefined)
  | name :: names, value :: values, bindings => putAll names values (bindings.put name value)

@[simp] theorem get?_put (name other : String) (value : Value) (bindings : Bindings) :
    (bindings.put name value).get? other = if name = other then some value else bindings.get? other := by
  induction bindings with
  | nil => simp [put, get?]
  | cons head rest ih =>
    obtain ⟨key, old⟩ := head
    by_cases h : key = name
    · subst h
      by_cases h' : key = other <;> simp [put, get?, h']
    · by_cases h' : key = other
      · subst h'
        simp [put, get?, h, Ne.symm h]
      · simp [put, get?, h, h', ih]

end Bindings

/-- A frame and the number of the frame around it. -/
structure Frame where
  bindings : Bindings
  enclosing : Option FrameId
  deriving Repr

structure Store where
  frames : Array Frame
  /-- The next identity of a list, a closure or a NaN. -/
  fresh : Nat
  /-- What has been written. -/
  output : String
  deriving Repr

namespace Store

/-- The store of no frames. -/
def empty : Store := ⟨#[], 0, ""⟩

instance : Inhabited Store := ⟨empty⟩

/-- The number of the next frame. -/
def nextFrame (store : Store) : FrameId := store.frames.size

/-- Adds a frame. -/
def push (store : Store) (frame : Frame) : Store := { store with frames := store.frames.push frame }

/-- Looks for the nearest frame that binds a name, through so many frames at most. -/
def findWithin (store : Store) (name : String) : Nat → FrameId → Option FrameId
  | 0, _ => none
  | bound + 1, id =>
    match store.frames[id]? with
    | none => none
    | some frame =>
      if (frame.bindings.get? name).isSome then some id
      else
        match frame.enclosing with
        | some outer => findWithin store name bound outer
        | none => none

/-- The nearest frame that binds a name, from the given frame outwards. No frame encloses itself, so a chain is at
most as long as the store. -/
def find? (store : Store) (name : String) (id : FrameId) : Option FrameId :=
  store.findWithin name store.frames.size id

/-- The value of a name in one frame. -/
def valueIn? (store : Store) (name : String) (id : FrameId) : Option Value :=
  match store.frames[id]? with
  | some frame => frame.bindings.get? name
  | none => none

/-- The value of a name as seen from a frame. -/
def get (store : Store) (name : String) (id : FrameId) : Except RuntimeError Value :=
  match store.find? name id with
  | none => .error (.unbound name)
  | some holder =>
    match store.valueIn? name holder with
    | some value => .ok value
    | none => .error (.unbound name)

/-- Binds a name in one frame. -/
def define (store : Store) (name : String) (value : Value) (id : FrameId) : Store :=
  { store with frames := store.frames.modify id fun frame => { frame with bindings := frame.bindings.put name value } }

/-- Gives a name that is bound a new value, in the nearest frame that binds it. -/
def assign (store : Store) (name : String) (value : Value) (id : FrameId) : Except RuntimeError Store :=
  match store.find? name id with
  | some holder => .ok (store.define name value holder)
  | none => .error (.unbound name)

/-- Makes a list of items. The empty list needs no identity. -/
def newList (store : Store) (items : List Value) : Value × Store :=
  match items with
  | [] => (.null, store)
  | _ :: _ => (.list store.fresh items, { store with fresh := store.fresh + 1 })

/-- Makes a NaN. -/
def newNaN (store : Store) : Value × Store :=
  (.number (.nan store.fresh), { store with fresh := store.fresh + 1 })

/-- Makes a closure over a frame. -/
def newClosure (store : Store) (lambda : Lambda) (id : FrameId) : Value × Store :=
  (.closure store.fresh lambda id, { store with fresh := store.fresh + 1 })

/-- Makes a frame that binds parameters to arguments; a variadic one gets a list of them all. -/
def enter (store : Store) (params : Params) (args : List Value) (enclosing : FrameId) : FrameId × Store :=
  match params with
  | .fixed names =>
    let bindings := Bindings.putAll (names.map (·.lexeme)) args []
    (store.nextFrame, store.push ⟨bindings, some enclosing⟩)
  | .variadic name =>
    let (rest, store) := store.newList args
    (store.nextFrame, store.push ⟨[(name.lexeme, rest)], some enclosing⟩)

/-- Writes a line. -/
def writeLine (store : Store) (text : String) : Store := { store with output := store.output ++ text ++ "\n" }

/-- The number of the global frame. -/
def globalFrame : FrameId := 0

/-- The store that programs start with: one frame, which binds the primitives. -/
def initial : Store :=
  empty.push ⟨Primitive.all.map fun p => (p.name, .primitive p), none⟩

end Store
end MiniScheme
