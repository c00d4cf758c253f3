import Scriptlet.Value

/-! # Variables

Variables live in scopes that lie inside each other, all of them inside the global
one. A name means the variable in the innermost scope that binds it.
-/

namespace Scriptlet

/-- The variables of one scope, in the order in which they came up. -/
abbrev Scope := List (String × Value)

namespace Scope

/-- The value of a variable. -/
def get? (s : Scope) (name : String) : Option Value :=
  s.lookup name

/-- Is there such a variable? -/
def binds (s : Scope) (name : String) : Bool :=
  (s.get? name).isSome

/-- Give a variable a value, adding the variable if it is new. -/
def insert (name : String) (v : Value) : Scope → Scope
  | [] => [(name, v)]
  | (other, w) :: rest =>
      if name = other then (other, v) :: rest else (other, w) :: insert name v rest

end Scope

/-- All variables. -/
structure Environment where
  /-- The scopes inside the global one, the innermost first. -/
  locals : List Scope := []
  global : Scope := []
  deriving Repr, DecidableEq, Inhabited

namespace Environment

/-- All scopes, the innermost first. -/
def scopes (e : Environment) : List Scope :=
  e.locals ++ [e.global]

/-- How many scopes there are. -/
def depth (e : Environment) : Nat :=
  e.scopes.length

/-- What a name means. -/
def get? (e : Environment) (name : String) : Option Value :=
  e.scopes.findSome? (·.get? name)

/-- Bind a name in the innermost scope. -/
def declare (e : Environment) (name : String) (v : Value) : Environment :=
  match e.locals with
  | innermost :: rest => { e with locals := innermost.insert name v :: rest }
  | [] => { e with global := e.global.insert name v }

/-- Bind a name in the global scope. -/
def declareGlobal (e : Environment) (name : String) (v : Value) : Environment :=
  { e with global := e.global.insert name v }

/-- Give the variable that a name means a new value, in the first scope of some that
    has it. -/
def assignIn (name : String) (v : Value) : List Scope → Option (List Scope)
  | [] => none
  | s :: rest =>
      if s.binds name then some (s.insert name v :: rest)
      else (assignIn name v rest).map (s :: ·)

/-- Give the variable that a name means a new value, if there is one. -/
def set? (e : Environment) (name : String) (v : Value) : Option Environment :=
  match assignIn name v e.locals with
  | some locals => some { e with locals }
  | none =>
      if e.global.binds name then some { e with global := e.global.insert name v } else none

/-- Open a scope inside all others. -/
def push (e : Environment) : Environment :=
  { e with locals := [] :: e.locals }

/-- Close the innermost scope. The global one stays open. -/
def pop? (e : Environment) : Option Environment :=
  match e.locals with
  | _ :: rest => some { e with locals := rest }
  | [] => none

/-- The names in the global scope, sorted. -/
def globalNames (e : Environment) : List String :=
  (e.global.map (·.1)).mergeSort fun a b => decide (a ≤ b)

end Environment

end Scriptlet
