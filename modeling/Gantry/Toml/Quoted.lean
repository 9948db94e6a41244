import Gantry.Toml.Reader

set_option autoImplicit false

namespace Gantry.Toml

def hexDigit? (c : Char) : Option Nat :=
  if '0' ≤ c ∧ c ≤ '9' then some (c.toNat - '0'.toNat)
  else if 'a' ≤ c ∧ c ≤ 'f' then some (c.toNat - 'a'.toNat + 10)
  else if 'A' ≤ c ∧ c ≤ 'F' then some (c.toNat - 'A'.toNat + 10)
  else none

def charOfCode? (n : Nat) : Option Char := if n.isValidChar then some (Char.ofNat n) else none

def hexEscape (n : Nat) : Reader Char := fun cs => do
  let digits ← (cs.take n).mapM hexDigit?
  if digits.length = n then
    let c ← charOfCode? (digits.foldl (fun code d => code * 16 + d) 0)
    return (c,cs.drop n)
  else none

def escape : Reader Char
  | 'b' :: cs => some ('\x08',cs)
  | 't' :: cs => some ('\t',cs)
  | 'n' :: cs => some ('\n',cs)
  | 'f' :: cs => some ('\x0c',cs)
  | 'r' :: cs => some ('\r',cs)
  | '"' :: cs => some ('"',cs)
  | '\\' :: cs => some ('\\',cs)
  | 'u' :: cs => hexEscape 4 cs
  | 'U' :: cs => hexEscape 8 cs
  | _ => none

def basicChar : Reader Char
  | '\\' :: cs => escape cs
  | '"' :: _ => none
  | cs => Reader.char isPlain cs

def basicString : Reader String
  | '"' :: cs => do
    let (chars,rest) ← Reader.many basicChar cs
    let ((),rest) ← Reader.exactly ['"'] rest
    return (String.ofList chars,rest)
  | _ => none

def literalString : Reader String
  | '\'' :: cs => do
    let (chars,rest) ← Reader.many (Reader.char fun c => isPlain c && c ≠ '\'') cs
    let ((),rest) ← Reader.exactly ['\''] rest
    return (String.ofList chars,rest)
  | _ => none

/-- One or two quotes that do not end a text of several lines. -/
def innerQuotes (quote : Char) : Reader (List Char) := fun cs =>
  let quotes := cs.takeWhile (· = quote)
  if quotes ≠ [] ∧ quotes.length < 3 then some (quotes,cs.drop quotes.length) else none

/-- The quotes that end a text of several lines; up to two more belong to the text. -/
def closingQuotes (quote : Char) : Reader (List Char) := fun cs =>
  let n := (cs.takeWhile (· = quote)).length
  if 3 ≤ n then
    let extra := min (n - 3) 2
    some (List.replicate extra quote,cs.drop (extra + 3))
  else none

/-- A backslash at the end of a line: it and all blanks and ends of lines behind it are left out. -/
def lineContinuation : Reader (List Char)
  | '\\' :: cs => do
    let ((),rest) ← newline (skipBlanks cs)
    let (_,rest) ← Reader.many gap rest
    return ([],rest)
  | _ => none

def innerNewline : Reader (List Char) := fun cs => (newline cs).map fun ((),rest) => (['\n'],rest)

def basicPiece : Reader (List Char) :=
  Reader.or lineContinuation <| Reader.or (innerQuotes '"') <| Reader.or innerNewline fun cs =>
    (basicChar cs).map fun (c,rest) => ([c],rest)

def literalPiece : Reader (List Char) :=
  Reader.or (innerQuotes '\'') <| Reader.or innerNewline fun cs =>
    (Reader.char (fun c => isPlain c && c ≠ '\'') cs).map fun (c,rest) => ([c],rest)

/-- A text over several lines; an end of line right behind the opening quotes is left out. -/
def multiline (quote : Char) (piece : Reader (List Char)) : Reader String := fun cs => do
  let ((),rest) ← Reader.exactly [quote,quote,quote] cs
  let rest := match newline rest with
    | some ((),rest) => rest
    | none => rest
  let (pieces,rest) ← Reader.many piece rest
  let (extra,rest) ← closingQuotes quote rest
  return (String.ofList (pieces.flatten ++ extra),rest)

def opensMultiline (quote : Char) (cs : List Char) : Bool := cs.take 3 == [quote,quote,quote]

def quoted : Reader String := fun cs =>
  if opensMultiline '"' cs then multiline '"' basicPiece cs
  else if opensMultiline '\'' cs then multiline '\'' literalPiece cs
  else Reader.or basicString literalString cs

end Gantry.Toml
