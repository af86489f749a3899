import Stylesheet.Bindings
import Stylesheet.Value

/-!
What a sheet can see beyond its own definitions: variables and functions that the host provides.
-/

namespace Stylesheet

/-- A function of the host. It sees its arguments, of which any may be absent, and gives a value,
nothing, or the reason why it refuses. -/
structure HostFunction where
  name : String
  arity : Nat
  run : List (Option Value) → Except String (Option Value)

/-- Calls the function with absent arguments in place of those missing from its arity. Surplus
arguments are passed on. -/
def HostFunction.call (f : HostFunction) (arguments : List (Option Value)) :
    Except String (Option Value) :=
  f.run (arguments ++ List.replicate (f.arity - arguments.length) none)

structure Host where
  value? : String → Option Value
  function? : String → Option HostFunction

def Host.nothing : Host := ⟨fun _ => none, fun _ => none⟩

structure HostTable where
  values : Bindings Value := .empty
  functions : Bindings HostFunction := .empty

namespace HostTable

def define (table : HostTable) (name : String) (value : Value) : HostTable :=
  { table with values := table.values.insert name value }

/-- Adds a function to the table under its own name. -/
def provide (table : HostTable) (f : HostFunction) : HostTable :=
  { table with functions := table.functions.insert f.name f }

end HostTable

/-- The host made of several tables, each consulted when those before it do not have a name. -/
def Host.ofTables (tables : List HostTable) : Host where
  value? name := tables.findSome? fun table => table.values.find? name
  function? name := tables.findSome? fun table => table.functions.find? name

end Stylesheet
