import Gantry.Toml.Number

set_option autoImplicit false

namespace Gantry.Toml

/-- A number of exactly `n` digits between two bounds, as text. -/
def field (n lo hi : Nat) : Reader (Nat × List Char) := fun cs =>
  let ds := cs.take n
  let value := ofDigits 10 ds
  if ds.length = n ∧ ds.all isDigit ∧ lo ≤ value ∧ value ≤ hi then some ((value,ds),cs.drop n)
  else none

def daysOf (year month : Nat) : Nat :=
  let leap := year % 4 = 0 ∧ (year % 100 ≠ 0 ∨ year % 400 = 0)
  if month = 2 then (if leap then 29 else 28)
  else if month = 4 ∨ month = 6 ∨ month = 9 ∨ month = 11 then 30
  else 31

def date : Reader (List Char) := fun cs => do
  let ((year,y),rest) ← field 4 0 9999 cs
  let ((),rest) ← Reader.exactly ['-'] rest
  let ((month,m),rest) ← field 2 1 12 rest
  let ((),rest) ← Reader.exactly ['-'] rest
  let ((_,d),rest) ← field 2 1 (daysOf year month) rest
  return (y ++ '-' :: m ++ '-' :: d,rest)

/-- The fraction of a second, of which nine digits count. -/
def secondFraction : Reader (List Char)
  | '.' :: cs =>
    let ds := cs.takeWhile isDigit
    if ds.isEmpty then none
    else
      let kept := ((ds.take 9).reverse.dropWhile (· = '0')).reverse
      some (if kept.isEmpty then [] else '.' :: kept,cs.drop ds.length)
  | cs => some ([],cs)

def timeOfDay : Reader (List Char) := fun cs => do
  let ((_,h),rest) ← field 2 0 23 cs
  let ((),rest) ← Reader.exactly [':'] rest
  let ((_,m),rest) ← field 2 0 59 rest
  let ((),rest) ← Reader.exactly [':'] rest
  let ((_,s),rest) ← field 2 0 60 rest
  let (f,rest) ← secondFraction rest
  return (h ++ ':' :: m ++ ':' :: s ++ f,rest)

/-- An offset to universal time; none at all has a plus sign. -/
def offset : Reader (List Char)
  | c :: cs =>
    if c = 'Z' ∨ c = 'z' then some (['Z'],cs)
    else if c = '+' ∨ c = '-' then do
      let ((hours,h),rest) ← field 2 0 23 cs
      let ((),rest) ← Reader.exactly [':'] rest
      let ((minutes,m),rest) ← field 2 0 59 rest
      let sign := if hours = 0 ∧ minutes = 0 then '+' else c
      return (sign :: h ++ ':' :: m,rest)
    else none
  | [] => none

def timeAfterDate : Reader (List Char)
  | c :: cs =>
    if c = 'T' ∨ c = 't' ∨ c = ' ' then do
      let (t,rest) ← timeOfDay cs
      let (o,rest) := (offset rest).getD ([],rest)
      return ('T' :: t ++ o,rest)
    else none
  | [] => none

def datetime : Reader String := fun cs =>
  match date cs with
  | some (d,rest) =>
    let (t,rest) := (timeAfterDate rest).getD ([],rest)
    some (String.ofList (d ++ t),rest)
  | none => (timeOfDay cs).map fun (t,rest) => (String.ofList t,rest)

end Gantry.Toml
