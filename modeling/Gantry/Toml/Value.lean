set_option autoImplicit false

namespace Gantry.Toml

inductive Value where
  | string (s : String)
  | integer (n : Int)
  | float (x : Float)
  | boolean (b : Bool)
  | datetime (text : String)
  | array (values : List Value)
  | tables (elements : List (List (String × Value)))
  | table (entries : List (String × Value))

/-- How a table came about: named by a header, named on the way to another header, or made by a
dotted key. -/
inductive Origin where
  | defined
  | implied
  | dotted
  deriving DecidableEq

/-- A document under construction: values, tables that may still grow, and arrays of tables. -/
inductive Node where
  | value (v : Value)
  | table (origin : Origin) (entries : List (String × Node))
  | tables (elements : List (List (String × Node)))

mutual

def Node.toValue : Node → Value
  | .value v => v
  | .table _ entries => .table (entriesToValues entries)
  | .tables elements => .tables (elementsToValues elements)

def entriesToValues : List (String × Node) → List (String × Value)
  | [] => []
  | (key,node) :: entries => (key,node.toValue) :: entriesToValues entries

def elementsToValues : List (List (String × Node)) → List (List (String × Value))
  | [] => []
  | entries :: elements => entriesToValues entries :: elementsToValues elements

end

abbrev Entries := List (String × Node)

namespace Entries

def get? (es : Entries) (key : String) : Option Node := (es.find? fun e => e.1 == key).map (·.2)

def replace (es : Entries) (key : String) (node : Node) : Entries :=
  es.map fun e => if e.1 == key then (key,node) else e

def erase (es : Entries) (key : String) : Entries := es.filter fun e => !(e.1 == key)

/-- Changes the table at the end of a path and passes out what the change finds. Missing tables are
made on the way; a path leads through the newest element of an array of tables. A dotted key does
not reach into a table that a header has defined. -/
def within {σ : Type} (dotted : Bool) (f : Origin → Entries → Option (σ × Entries)) :
    List String → Origin → Entries → Option (σ × Entries)
  | [], origin, es => f origin es
  | key :: path, _, es =>
    match es.get? key with
    | none => do
      let origin : Origin := if dotted then .dotted else .implied
      let (found,sub) ← within dotted f path origin []
      return (found,es ++ [(key,.table origin sub)])
    | some (.value _) => none
    | some (.table origin sub) =>
      if dotted ∧ origin = .defined then none
      else do
        let (found,sub) ← within dotted f path origin sub
        return (found,es.replace key (.table origin sub))
    | some (.tables elements) => do
      let last ← elements.getLast?
      let (found,last) ← within dotted f path .defined last
      return (found,es.replace key (.tables (elements.dropLast ++ [last])))

/-- Adds a value under a dotted key. The last table on the way has to be made by dotted keys too,
and the last part of the key has to be new. -/
def insert (es : Entries) (path : List String) (key : String) (v : Value) : Option Entries := do
  let ((),es) ← within true (fun origin es =>
    if (origin = .dotted) = (path = []) then none
    else if (es.get? key).isSome then none
    else some ((),es ++ [(key,.value v)])) path .defined es
  return es

end Entries

end Gantry.Toml
