/-!
Readers: functions that take the front off a list of characters, or refuse it. Repetition is
bounded by the number of characters left, as every repeated reader takes at least one.
-/
set_option autoImplicit false

namespace Gantry.Toml

/-- Takes the front off a text and gives what it stands for and the rest. -/
abbrev Reader (τ : Type) := List Char → Option (τ × List Char)

namespace Reader
variable {τ : Type}

/-- As many repetitions as there are, but at most `n`. -/
def upTo : Nat → Reader τ → Reader (List τ)
  | 0, _, cs => some ([],cs)
  | n + 1, p, cs =>
    match p cs with
    | none => some ([],cs)
    | some (x,rest) => (upTo n p rest).map fun (xs,rest) => (x :: xs,rest)

def many (p : Reader τ) : Reader (List τ) := fun cs => upTo cs.length p cs

def many1 (p : Reader τ) : Reader (List τ) := fun cs => do
  let (x,rest) ← p cs
  let (xs,rest) ← many p rest
  return (x :: xs,rest)

def separated (separator : Char) (item : Reader τ) : Reader (List τ) := fun cs =>
  match item cs with
  | none => some ([],cs)
  | some (x,rest) => do
    let next : Reader τ := fun cs => match cs with
      | c :: cs => if c = separator then item cs else none
      | [] => none
    let (xs,rest) ← many next rest
    return (x :: xs,rest)

def char (p : Char → Bool) : Reader Char
  | c :: cs => if p c then some (c,cs) else none
  | [] => none

def exactly : List Char → Reader Unit
  | [], cs => some ((),cs)
  | c :: s, d :: cs => if c = d then exactly s cs else none
  | _ :: _, [] => none

def or (p q : Reader τ) : Reader τ := fun cs => (p cs).or (q cs)

end Reader

def isBlank (c : Char) : Bool := c = ' ' || c = '\t'

def skipBlanks (cs : List Char) : List Char := cs.dropWhile isBlank

/-- Whether a character may stand in comments: no control character but the tab. -/
def isPlain (c : Char) : Bool := c = '\t' || (0x20 ≤ c.toNat && c.toNat ≠ 0x7f)

def newline : Reader Unit
  | '\n' :: cs => some ((),cs)
  | '\r' :: '\n' :: cs => some ((),cs)
  | _ => none

def skipComment (cs : List Char) : List Char :=
  match cs with
  | '#' :: cs => cs.dropWhile isPlain
  | cs => cs

/-- The rest of a line: blanks, a comment, and the end of the line or of the text. -/
def lineEnd : Reader Unit := fun cs =>
  match skipComment (skipBlanks cs) with
  | [] => some ((),[])
  | cs => newline cs

def gap : Reader Unit :=
  Reader.or (fun cs => (Reader.char isBlank cs).map fun (_,rest) => ((),rest)) newline

def spacePiece : Reader Unit
  | '#' :: cs => newline (skipComment ('#' :: cs))
  | cs => gap cs

def skipSpace (cs : List Char) : List Char :=
  match Reader.many spacePiece cs with
  | some (_,rest) => rest
  | none => cs

end Gantry.Toml
