import Gantry.Toml.Quoted
import Gantry.Numeric.Binary64

set_option autoImplicit false

namespace Gantry.Toml

inductive Number where
  | integer (n : Int)
  | float (x : Float)

def isDigit (c : Char) : Bool := '0' ≤ c && c ≤ '9'

/-- A digit of a class, perhaps behind an underscore. -/
def groupedDigit (p : Char → Bool) : Reader Char
  | '_' :: cs => Reader.char p cs
  | cs => Reader.char p cs

def digits (p : Char → Bool) : Reader (List Char) := fun cs => do
  let (c,rest) ← Reader.char p cs
  let (more,rest) ← Reader.many (groupedDigit p) rest
  return (c :: more,rest)

/-- Digits without a needless zero in front. -/
def wholeDigits : Reader (List Char)
  | '0' :: cs => some (['0'],cs)
  | cs => digits isDigit cs

def sign : Reader Bool
  | '+' :: cs => some (false,cs)
  | '-' :: cs => some (true,cs)
  | cs => some (false,cs)

def ofDigits (base : Nat) (cs : List Char) : Nat :=
  cs.foldl (fun n c => n * base + (hexDigit? c).getD 0) 0

def wordBound : Nat := Nat.pow 2 63

def word? (n : Int) : Option Number :=
  if -(wordBound : Int) ≤ n ∧ n < wordBound then some (.integer n) else none

def based (base : Nat) : Reader Number := fun cs => do
  let isIn (c : Char) : Bool := match hexDigit? c with
    | some d => d < base
    | none => false
  let (ds,rest) ← digits isIn cs
  return (← word? (ofDigits base ds),rest)

def integer : Reader Number
  | '0' :: 'x' :: cs => based 16 cs
  | '0' :: 'o' :: cs => based 8 cs
  | '0' :: 'b' :: cs => based 2 cs
  | cs => do
    let (negative,rest) ← sign cs
    let (ds,rest) ← wholeDigits rest
    let n : Int := ofDigits 10 ds
    return (← word? (if negative then -n else n),rest)

def fractionDigits : Reader (List Char)
  | '.' :: cs => digits isDigit cs
  | _ => none

def exponent : Reader Int
  | c :: cs =>
    if c = 'e' ∨ c = 'E' then do
      let (negative,rest) ← sign cs
      let (ds,rest) ← digits isDigit rest
      let n : Int := ofDigits 10 ds
      return (if negative then -n else n,rest)
    else none
  | [] => none

def nearest (digits : Nat) (e : Int) : Float :=
  match e with
  | .ofNat e => OfScientific.ofScientific digits false e
  | .negSucc e => OfScientific.ofScientific digits true (e + 1)

def special : Reader Float := fun cs => do
  let (negative,rest) ← sign cs
  let (x,rest) ← match rest with
    | 'i' :: 'n' :: 'f' :: rest => some ((1.0 / 0.0 : Float),rest)
    | 'n' :: 'a' :: 'n' :: rest => some ((0.0 / 0.0 : Float),rest)
    | _ => none
  return (if negative then -x else x,rest)

/-- A number with a fraction or an exponent. One too large is refused, unless it is negative. -/
def decimal : Reader Float := fun cs => do
  let (negative,rest) ← sign cs
  let (whole,rest) ← wholeDigits rest
  let (fraction,afterFraction) := (fractionDigits rest).getD ([],rest)
  let (e,rest) ← match exponent afterFraction with
    | some r => some r
    | none => if fraction.isEmpty then none else some (0,afterFraction)
  let x := nearest (ofDigits 10 (whole ++ fraction)) (e - fraction.length)
  if negative then return (-x,rest) else if x.isInf then none else return (x,rest)

def number : Reader Number :=
  Reader.or (fun cs => (Reader.or decimal special cs).map fun (x,rest) => (.float x,rest)) integer

end Gantry.Toml
