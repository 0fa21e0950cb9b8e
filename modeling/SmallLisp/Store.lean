/-
Scopes and the store that holds them.

A scope binds names to values and stands inside other scopes.  Programs change scopes while
functions and running calls refer to them, so a scope is known by its number in the store, and
the store is what changes.  A scope lists the scopes around it when it is made and never changes
that list: its chain is itself and then these, innermost first.

A name means the binding of the first scope on the chain that has one.
-/
import SmallLisp.Value

namespace SmallLisp

/-! ### Bindings

The bindings of a scope are a list in which a name is given a value in the place of its old one.
-/

/-- Names with their values.  No name occurs twice. -/
abbrev Bindings := List (String × Value)

namespace Bindings

/-- The value of a name. -/
def get? (name : String) (bs : Bindings) : Option Value :=
  bs.lookup name

/-- Whether a name has a value. -/
def binds (name : String) (bs : Bindings) : Bool :=
  bs.any fun b => b.1 = name

/-- Gives a name a value, in place of the one it may have. -/
def set (name : String) (value : Value) : Bindings → Bindings
  | [] => [(name, value)]
  | b :: bs => if b.1 = name then (name, value) :: bs else b :: set name value bs

/-- The names, in ascending order. -/
def names (bs : Bindings) : List String :=
  (bs.map Prod.fst).mergeSort fun a b => decide (a ≤ b)

end Bindings

/-! ### Scopes

What stands around a scope is a list of numbers, settled when the scope is made.
-/

/-- A scope: names with their values, inside other scopes. -/
structure Scope where
  /-- The scopes around this one, innermost first. -/
  outer : List ScopeId
  /-- The names that it binds itself. -/
  bindings : Bindings

namespace Scope

instance : Inhabited Scope := ⟨⟨[], []⟩⟩

/-- A scope by its names. -/
def describe (s : Scope) : String :=
  "Scope \x7b bindings: [" ++ ", ".intercalate (s.bindings.names.map Text.quoted) ++
    "], has_parent: " ++ toString (!s.outer.isEmpty) ++ " \x7d"

end Scope

/-! ### The store

Scopes are numbered as they are made, and so are functions.  An operation on a scope that has not been made
changes nothing.
-/

/-- What evaluation changes. -/
structure Store where
  /-- Every scope ever made, by number. -/
  scopes : Array Scope
  /-- How many functions have been made, which is the identity of the next one. -/
  functions : Nat

namespace Store

/-- The store before anything happens. -/
def empty : Store := ⟨#[], 0⟩

instance : Inhabited Store := ⟨empty⟩

/-- A scope by its number. -/
def scope (s : Store) (id : ScopeId) : Scope :=
  s.scopes.getD id default

/-- A scope and those around it, innermost first. -/
def chain (s : Store) (id : ScopeId) : List ScopeId :=
  id :: (s.scope id).outer

/-- Makes a scope without names inside the given ones. -/
def newScope (s : Store) (outer : List ScopeId) : ScopeId × Store :=
  (s.scopes.size, { s with scopes := s.scopes.push ⟨outer, []⟩ })

/-- Makes a scope that stands in no other. -/
def newRoot (s : Store) : ScopeId × Store :=
  s.newScope []

/-- Makes a scope that stands in the given one. -/
def newChild (s : Store) (id : ScopeId) : ScopeId × Store :=
  s.newScope (s.chain id)

/-- Makes an identity for a function. -/
def newFunction (s : Store) : Nat × Store :=
  (s.functions, { s with functions := s.functions + 1 })

/-- Gives a name a value in a scope itself. -/
def define (s : Store) (id : ScopeId) (name : String) (value : Value) : Store :=
  { s with
    scopes := s.scopes.modify id fun sc => { sc with bindings := sc.bindings.set name value } }

/-- Gives values to names in a scope, one after the other, so that the last of a repeated name
stays. -/
def defineAll (s : Store) (id : ScopeId) : List (String × Value) → Store
  | [] => s
  | (name, value) :: rest => (s.define id name value).defineAll id rest

/-- Makes a scope that stands in the given one and has the given names. -/
def newFrame (s : Store) (id : ScopeId) (bindings : List (String × Value)) : ScopeId × Store :=
  let (frame, s) := s.newChild id
  (frame, s.defineAll frame bindings)

/-- Whether a scope itself has a name. -/
def bindsLocally (s : Store) (id : ScopeId) (name : String) : Bool :=
  (s.scope id).bindings.binds name

/-- The nearest scope on the chain that has a name. -/
def resolve (s : Store) (id : ScopeId) (name : String) : Option ScopeId :=
  (s.chain id).find? fun i => s.bindsLocally i name

/-- The value of a name, seen from a scope. -/
def lookup (s : Store) (id : ScopeId) (name : String) : Option Value :=
  (s.chain id).findSome? fun i => (s.scope i).bindings.get? name

/-- Gives a name another value where it is bound.  There is no store if it is bound nowhere. -/
def assign? (s : Store) (id : ScopeId) (name : String) (value : Value) : Option Store :=
  (s.resolve id name).map fun i => s.define i name value

end Store

end SmallLisp
