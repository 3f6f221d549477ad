import Lox.Machine.Value

/-!
# Scopes

Scopes live in a store that only grows.  Each scope but the global one lies in an enclosing scope
that was there before it.  A name means what the nearest scope outwards binds it to, for reading and
for assignment alike.
-/

namespace Lox

/-- Names and what they are bound to, each name once. -/
abbrev Bindings := List (String × Value)

namespace Bindings

/-- Binds a name, in the place of an earlier binding of it. -/
def insert (name : String) (value : Value) : Bindings → Bindings
  | [] => [(name, value)]
  | (other, old) :: rest =>
    if other = name then (other, value) :: rest else (other, old) :: insert name value rest

/-- What a name is bound to. -/
def get? (bindings : Bindings) (name : String) : Option Value := bindings.lookup name

/-- The name is bound. -/
def binds (bindings : Bindings) (name : String) : Bool := (bindings.get? name).isSome

/-- Parameters bound to arguments in order.  Of two parameters with one name the later counts. -/
def ofArguments (params : List Lexeme) (arguments : List Value) : Bindings :=
  (params.zip arguments).foldl
    (fun bindings (param, argument) => bindings.insert param.text argument) []

end Bindings

/-- A scope: its bindings, and the scope around it unless it is the global one. -/
structure Scope where
  enclosing : Option ScopeId
  bindings : Bindings
deriving Inhabited

/-- All scopes that were ever opened. -/
structure Scopes where
  cells : Array Scope

namespace Scopes

/-- The global scope, where the native functions are bound. -/
def globalId : ScopeId := 0

/-- The store of a program that has not done anything yet. -/
def initial : Scopes :=
  ⟨#[⟨none, Native.all.map fun native => (native.name, .callable (.native native))⟩]⟩

/-- Opens a scope with the given bindings. -/
def push (scopes : Scopes) (enclosing : ScopeId) (bindings : Bindings) : Scopes :=
  ⟨scopes.cells.push ⟨some enclosing, bindings⟩⟩

/-- The place that the next scope will have. -/
def nextId (scopes : Scopes) : ScopeId := scopes.cells.size

/-- Binds a name in a scope. -/
def define (scopes : Scopes) (id : ScopeId) (name : String) (value : Value) : Scopes :=
  ⟨scopes.cells.modify id fun scope => { scope with bindings := scope.bindings.insert name value }⟩

/-- What a name means in a scope, if one of the first `steps` scopes of the chain binds it. -/
def getWithin (scopes : Scopes) (name : String) : Nat → ScopeId → Option Value
  | 0, _ => none
  | steps + 1, id =>
    match scopes.cells[id]? with
    | none => none
    | some scope =>
      match scope.bindings.get? name with
      | some value => some value
      | none =>
        match scope.enclosing with
        | none => none
        | some enclosing => scopes.getWithin name steps enclosing

/-- What a name means in a scope.  Scopes enclose later ones only, so the chain from a scope has at
most as many scopes as there are up to it. -/
def get? (scopes : Scopes) (id : ScopeId) (name : String) : Option Value :=
  scopes.getWithin name (id + 1) id

/-- The nearest scope outwards that binds a name, among the first `steps` of the chain. -/
def resolveWithin (scopes : Scopes) (name : String) : Nat → ScopeId → Option ScopeId
  | 0, _ => none
  | steps + 1, id =>
    match scopes.cells[id]? with
    | none => none
    | some scope =>
      if scope.bindings.binds name then some id
      else match scope.enclosing with
        | none => none
        | some enclosing => scopes.resolveWithin name steps enclosing

/-- The nearest scope outwards that binds a name: the one that an assignment goes to. -/
def resolve? (scopes : Scopes) (id : ScopeId) (name : String) : Option ScopeId :=
  scopes.resolveWithin name (id + 1) id

/-- Gives a new value to what a name means in a scope.  A name without a meaning does not get
one. -/
@[inline]
def assign? (scopes : Scopes) (id : ScopeId) (name : String) (value : Value) : Option Scopes :=
  match scopes.resolve? id name with
  | some target => some (scopes.define target name value)
  | none => none

end Scopes

end Lox
