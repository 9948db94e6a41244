import Gantry.Toml.Time
import Gantry.Toml.Value

set_option autoImplicit false

namespace Gantry.Toml

/-- What a line says. The table that a key belongs to is given by the path in front of it. -/
inductive Statement where
  /-- The lines that follow fill this table. -/
  | table (path : List String) (key : String)
  /-- The lines that follow fill a new element of this array of tables. -/
  | element (path : List String) (key : String)
  | entry (path : List String) (key : String) (v : Value)

/-- Paths, arrays and inline tables stay less deep than this. -/
def maxDepth : Nat := 80

def isBare (c : Char) : Bool := c.isAlphanum || c = '_' || c = '-'

def simpleKey : Reader String
  | '"' :: cs => basicString ('"' :: cs)
  | '\'' :: cs => literalString ('\'' :: cs)
  | cs => do
    let (chars,rest) ← Reader.many1 (Reader.char isBare) cs
    return (String.ofList chars,rest)

def keyPart : Reader String := fun cs => do
  let (key,rest) ← simpleKey (skipBlanks cs)
  return (key,skipBlanks rest)

def dottedKey : Reader (List String × String) := fun cs => do
  let (parts,rest) ← Reader.separated '.' keyPart cs
  let key ← parts.getLast?
  if parts.length < maxDepth then return ((parts.dropLast,key),rest) else none

def boolean : Reader Bool := fun cs =>
  match Reader.exactly "true".toList cs with
  | some ((),rest) => some (true,rest)
  | none => (Reader.exactly "false".toList cs).map fun ((),rest) => (false,rest)

def Number.toValue : Number → Value
  | .integer n => .integer n
  | .float x => .float x

def scalar : Reader Value :=
  Reader.or (fun cs => (quoted cs).map fun (s,rest) => (.string s,rest)) <|
  Reader.or (fun cs => (boolean cs).map fun (b,rest) => (.boolean b,rest)) <|
  Reader.or (fun cs => (datetime cs).map fun (t,rest) => (.datetime t,rest)) fun cs =>
    (number cs).map fun (n,rest) => (n.toValue,rest)

def array (element : Reader Value) : Reader Value := fun cs => do
  let spaced : Reader Value := fun cs => do
    let (v,rest) ← element (skipSpace cs)
    return (v,skipSpace rest)
  let (values,rest) ← Reader.separated ',' spaced cs
  let rest := match values, rest with
    | _ :: _, ',' :: rest => rest
    | _, rest => rest
  let ((),rest) ← Reader.exactly [']'] (skipSpace rest)
  return (.array values,rest)

def assignment (element : Reader Value) : Reader ((List String × String) × Value) := fun cs => do
  let (key,rest) ← dottedKey cs
  let ((),rest) ← Reader.exactly ['='] rest
  let (v,rest) ← element (skipBlanks rest)
  return ((key,v),skipBlanks rest)

def inlineTable (element : Reader Value) : Reader Value := fun cs => do
  let (assignments,rest) ← Reader.separated ',' (assignment element) cs
  let ((),rest) ← Reader.exactly ['\x7d'] (skipBlanks rest)
  let es ← assignments.foldlM (fun es ((path,key),v) => Entries.insert es path key v) []
  return (.table (entriesToValues es),rest)

/-- A value with at most `n` arrays and inline tables around any part. -/
def value : Nat → Reader Value
  | n + 1, c :: cs =>
    if c = '[' then array (value n) cs
    else if c = '\x7b' then inlineTable (value n) cs
    else scalar (c :: cs)
  | _, cs => scalar cs

def statement : Reader Statement
  | '[' :: '[' :: cs => do
    let ((path,key),rest) ← dottedKey cs
    let ((),rest) ← Reader.exactly [']',']'] rest
    return (.element path key,rest)
  | '[' :: cs => do
    let ((path,key),rest) ← dottedKey cs
    let ((),rest) ← Reader.exactly [']'] rest
    return (.table path key,rest)
  | cs => do
    let (((path,key),v),rest) ← assignment (value (maxDepth - 1)) cs
    return (.entry path key v,rest)

def line : Reader (Option Statement) := fun cs =>
  match skipBlanks cs with
  | [] => none
  | cs =>
    match lineEnd cs with
    | some ((),rest) => some (none,rest)
    | none => do
      let (s,rest) ← statement cs
      let ((),rest) ← lineEnd rest
      return (some s,rest)

/-- The statements of a text. A mark of byte order in front of it is left out. -/
def statements (text : String) : Option (List Statement) := do
  let cs := match text.toList with
    | '\uFEFF' :: cs => cs
    | cs => cs
  let (lines,rest) ← Reader.many line cs
  if skipBlanks rest = [] then return lines.filterMap id else none

end Gantry.Toml
