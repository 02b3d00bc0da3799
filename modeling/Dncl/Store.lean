/-
Dncl/Store.lean

The store: scopes, arrays and functions of a running program.

* A scope binds names to values.  An environment is a scope together with the
  scopes around it, from the inside out; a name means its innermost binding.
* An array is shared by all values that refer to it.
* A function is told from every other by its place in the store.

Reading is total: where a reference points to nothing, there is an empty
scope, an empty array, or a function without parameters and statements.
-/
import Dncl.Syntax
import Dncl.Value

namespace Dncl

/-! ### Scopes and environments -/

/-- The place of a scope in a store. -/
structure ScopeRef where
  index : Nat
  deriving DecidableEq, Inhabited

/-- The bindings of one scope, each name once, oldest first. -/
abbrev Scope : Type :=
  List (String × Value)

namespace Scope

/-- The value bound to a name. -/
def get? (name : String) : Scope → Option Value
  | [] => none
  | (n, v) :: rest => if n = name then some v else get? name rest

/-- Whether a name is bound. -/
def binds (name : String) (s : Scope) : Bool :=
  (s.get? name).isSome

/-- Binds a name, in place of an earlier binding if there is one. -/
def set (name : String) (value : Value) : Scope → Scope
  | [] => [(name, value)]
  | (n, v) :: rest => if n = name then (n, value) :: rest else (n, v) :: set name value rest

end Scope

/-- A scope and the scopes around it, from the inside out. -/
structure Env where
  here : ScopeRef
  outer : List ScopeRef
  deriving DecidableEq, Inhabited

/-- All scopes of an environment, from the inside out. -/
def Env.chain (env : Env) : List ScopeRef :=
  env.here :: env.outer

/-! ### The store -/

/-- A function with the environment in which it was made. -/
structure Closure where
  name : Option String
  literal : FunctionLit
  env : Env
  deriving Inhabited

/-- Everything that a running program has made. -/
structure Store where
  scopes : Array Scope
  arrays : Array (Array Value)
  closures : Array Closure

namespace Store

/-- The store in which nothing was made. -/
def empty : Store :=
  ⟨#[], #[], #[]⟩

/-- The bindings of a scope. -/
def scope (st : Store) (ref : ScopeRef) : Scope :=
  st.scopes.getD ref.index []

/-- The elements of an array. -/
def elements (st : Store) (ref : ArrayRef) : Array Value :=
  st.arrays.getD ref.index #[]

/-- The function at a place. -/
def closure (st : Store) (ref : ClosureRef) : Closure :=
  st.closures.getD ref.index default

/-! ### Names

A name is looked for scope by scope, from the inside out. -/

/-- The value that a name has in the first scope of a list that binds it. -/
def lookup? (st : Store) (name : String) : List ScopeRef → Option Value
  | [] => none
  | ref :: outer =>
    match (st.scope ref).get? name with
    | some v => some v
    | none => st.lookup? name outer

/-- The value of a name: that of its innermost binding. -/
def get? (st : Store) (env : Env) (name : String) : Option Value :=
  st.lookup? name env.chain

/-- Whether some scope of a list binds a name. -/
def definedIn (st : Store) (name : String) : List ScopeRef → Bool
  | [] => false
  | ref :: outer => (st.scope ref).binds name || st.definedIn name outer

/-- Whether a name has a value. -/
def isDefined (st : Store) (env : Env) (name : String) : Bool :=
  st.definedIn name env.chain

/-- Binds a name in a scope. -/
def bind (st : Store) (ref : ScopeRef) (name : String) (value : Value) : Store :=
  { st with scopes := st.scopes.modify ref.index fun s => s.set name value }

/-- Binds a name in the innermost scope, whatever the scopes around it bind. -/
def define (st : Store) (env : Env) (name : String) (value : Value) : Store :=
  st.bind env.here name value

/-- Binds a name in a scope, or hands it to the scope around. -/
def assignFrom (st : Store) (name : String) (value : Value) : ScopeRef → List ScopeRef → Store
  | here, [] => st.bind here name value
  | here, next :: rest =>
    if (st.scope here).binds name then st.bind here name value
    -- handed on only after a look ahead: some scope further out has to bind it
    else if st.definedIn name (next :: rest) then st.assignFrom name value next rest
    else st.bind here name value

/-- Changes the innermost binding of a name, or binds it in the innermost
scope if it has none. -/
def assign (st : Store) (env : Env) (name : String) (value : Value) : Store :=
  st.assignFrom name value env.here env.outer

/-! ### The owner of a name

Reading, asking and changing go through the scopes each on its own.  They agree
on one scope, the owner of the name. -/

/-- The first scope of a list that binds a name. -/
def owner? (st : Store) (name : String) : List ScopeRef → Option ScopeRef
  | [] => none
  | ref :: outer => if (st.scope ref).binds name then some ref else st.owner? name outer

theorem lookup?_eq_owner? (st : Store) (name : String) (refs : List ScopeRef) :
    st.lookup? name refs = (st.owner? name refs).bind fun ref => (st.scope ref).get? name := by
  induction refs with
  | nil => rfl
  | cons ref outer ih =>
    rw [lookup?, owner?, Scope.binds]
    cases hget : (st.scope ref).get? name with
    | none => simpa using ih
    | some v => simp [hget]

theorem definedIn_eq_owner? (st : Store) (name : String) (refs : List ScopeRef) :
    st.definedIn name refs = (st.owner? name refs).isSome := by
  induction refs with
  | nil => rfl
  | cons ref outer ih =>
    rw [definedIn, owner?, ih]
    cases (st.scope ref).binds name <;> rfl

theorem assignFrom_eq_owner? (st : Store) (name : String) (value : Value) (here : ScopeRef)
    (outer : List ScopeRef) : st.assignFrom name value here outer =
      st.bind ((st.owner? name (here :: outer)).getD here) name value := by
  induction outer generalizing here with
  | nil =>
    rw [assignFrom, owner?, owner?]
    split <;> rfl
  | cons next rest ih =>
    rw [assignFrom, definedIn_eq_owner?, ih]
    by_cases hbinds : (st.scope here).binds name = true
    · rw [if_pos hbinds, owner?, if_pos hbinds, Option.getD_some]
    · have howner : st.owner? name (here :: next :: rest) = st.owner? name (next :: rest) := by
        rw [owner?, if_neg hbinds]
      -- with an owner further out the default of the search does not matter
      rw [if_neg hbinds, howner]
      cases st.owner? name (next :: rest) <;> rfl

/-- A name is read from its owner. -/
theorem get?_eq_owner? (st : Store) (env : Env) (name : String) : st.get? env name =
    (st.owner? name env.chain).bind fun ref => (st.scope ref).get? name :=
  st.lookup?_eq_owner? name env.chain

/-- A name has a value where it has an owner. -/
theorem isDefined_eq_owner? (st : Store) (env : Env) (name : String) :
    st.isDefined env name = (st.owner? name env.chain).isSome :=
  st.definedIn_eq_owner? name env.chain

/-- A name is changed in its owner, or bound in the innermost scope. -/
theorem assign_eq_owner? (st : Store) (env : Env) (name : String) (value : Value) :
    st.assign env name value = st.bind ((st.owner? name env.chain).getD env.here) name value :=
  st.assignFrom_eq_owner? name value env.here env.outer

/-! ### Making things -/

/-- Makes an environment of one empty scope. -/
def newEnv (st : Store) : Env × Store :=
  (⟨⟨st.scopes.size⟩, []⟩, { st with scopes := st.scopes.push [] })

/-- Makes an empty scope inside an environment. -/
def enter (st : Store) (env : Env) : Env × Store :=
  (⟨⟨st.scopes.size⟩, env.chain⟩, { st with scopes := st.scopes.push [] })

/-- Makes an array of the given elements. -/
def newArray (st : Store) (values : List Value) : ArrayRef × Store :=
  (⟨st.arrays.size⟩, { st with arrays := st.arrays.push values.toArray })

/-- Makes a function. -/
def newClosure (st : Store) (c : Closure) : ClosureRef × Store :=
  (⟨st.closures.size⟩, { st with closures := st.closures.push c })

/-- Replaces one element of an array. -/
def setSlot (st : Store) (ref : ArrayRef) (slot : Nat) (value : Value) : Store :=
  { st with arrays := st.arrays.modify ref.index fun a => a.setIfInBounds slot value }

end Store

end Dncl
