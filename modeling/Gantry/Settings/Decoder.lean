import Gantry.Settings.Misfit

/-!
Decoders of documents. A record is read from a table by the names of its fields, or from an array by
their order. Of several misfits the one that comes first in the document counts; a field that is
missing counts behind all that are there. Entries that are no fields are left aside.
-/
set_option autoImplicit false

namespace Gantry
open Toml

abbrev Decoder (τ : Type) := Value → Except Misfit τ

/-- What a record is read from. -/
inductive Source where
  | table (entries : List (String × Value))
  | row (values : List Value)

inductive FieldFault where
  | absent (field : String)
  | misfit (m : Misfit)

/-- A field that cannot be read, with the place in the document where that shows. -/
structure Fault where
  place : Nat
  fault : FieldFault

def Fault.first (a b : Fault) : Fault := if b.place < a.place then b else a

/-- Some fields of a record in order: their number, and how they are read behind a number of other
fields. -/
structure Fields (τ : Type) where
  count : Nat
  read : Source → Nat → Except Fault τ

namespace Fields

def both {τ υ : Type} (f : Fields (τ → υ)) (x : Fields τ) : Fields υ where
  count := f.count + x.count
  read source before :=
    match f.read source before,x.read source (before + f.count) with
    | .ok f,.ok x => .ok (f x)
    | .ok _,.error b => .error b
    | .error a,.ok _ => .error a
    | .error a,.error b => .error (a.first b)

instance : Applicative Fields where
  pure x := ⟨0,fun _ _ => .ok x⟩
  seq f x := both f (x ())

end Fields

namespace Source

/-- The value of a field with its place in the document; without the value, the place where its
absence shows. -/
def find (s : Source) (name : String) (index : Nat) : Nat × Option Value :=
  match s with
  | .table entries =>
    let place := entries.findIdx fun e => e.1 == name
    (place,(entries[place]?).map (·.2))
  | .row values => (index,values[index]?)

end Source

namespace Decoder
variable {τ : Type}

/-- A field; `absent` says what it is when the document does not give it. -/
def field (name : String) (absent : Except FieldFault τ) (d : Decoder τ) : Fields τ where
  count := 1
  read source index :=
    match source.find name index with
    | (place,some v) => (d v).mapError fun m => ⟨place,.misfit m⟩
    | (place,none) => absent.mapError fun fault => ⟨place,fault⟩

def required (name : String) (d : Decoder τ) : Fields τ := field name (.error (.absent name)) d

def defaulted (name : String) (value : τ) (d : Decoder τ) : Fields τ := field name (.ok value) d

def optional (name : String) (d : Decoder τ) : Fields (Option τ) :=
  field name (.ok none) fun v => (d v).map some

def elements? : Value → Option (List Value)
  | .array values => some values
  | .tables elements => some (elements.map .table)
  | _ => none

/-- The entries of a table; a date or a time counts as a table with one. -/
def entries? : Value → Option (List (String × Value))
  | .table entries => some entries
  | .datetime text => some [("$__toml_private_datetime",.string text)]
  | _ => none

def ofTable (f : Fields τ) (entries : List (String × Value)) : Except Misfit τ :=
  (f.read (.table entries) 0).mapError fun e =>
    match e.fault with
    | .absent name => .missing name
    | .misfit m => m

def ofRow (f : Fields τ) (expected : String) (values : List Value) : Except Misfit τ :=
  (f.read (.row values) 0).mapError fun e =>
    match e.fault with
    | .absent _ =>
      let elements := if f.count = 1 then "1 element" else s!"{f.count} elements"
      .wrongLength e.place s!"{expected} with {elements}"
    | .misfit m => m

def record (expected : String) (f : Fields τ) : Decoder τ := fun v =>
  match elements? v,entries? v with
  | some values,_ => ofRow f expected values
  | none,some entries => ofTable f entries
  | none,none => .error (.wrongType v expected)

def number : Decoder Float
  | .float x => .ok x
  | .integer n => .ok (Float.ofInt n)
  | v => .error (.wrongType v "f64")

def word : Decoder UInt16
  | .integer n =>
    if 0 ≤ n ∧ n < 65536 then .ok (.ofNat n.toNat) else .error (.outOfRange n "u16")
  | v => .error (.wrongType v "u16")

def truth : Decoder Bool
  | .boolean b => .ok b
  | v => .error (.wrongType v "a boolean")

def label (limit : Nat) : Decoder (Label limit) := fun v =>
  let expected := s!"a string no more than {limit} bytes long"
  match v with
  | .string s =>
    match Label.ofString? s with
    | some l => .ok l
    | none => .error (.wrongLength (byteCount s.toList) expected)
  | v => .error (.wrongType v expected)

def listOf (d : Decoder τ) : Decoder (List τ) := fun v =>
  match elements? v with
  | some values => values.mapM d
  | none => .error (.wrongType v "a sequence")

/-- At most `capacity` values under labels, in order. -/
def mapOf (limit capacity : Nat) (d : Decoder τ) : Decoder (List (Label limit × τ)) := fun v =>
  match entries? v with
  | some entries =>
    entries.foldlM (fun found (key,v) => do
      let key ← label limit (.string key)
      let x ← d v
      if found.length < capacity then return found ++ [(key,x)]
      else .error (.wrongLength (capacity + 1) "a map")) []
  | none => .error (.wrongType v "a map")

/-- One of several named values: the name, or a table with nothing but an empty entry under the
name. -/
def choice (choices : List (String × τ)) : Decoder τ := fun v =>
  let pick (name : String) : Except Misfit τ :=
    match choices.lookup name with
    | some x => .ok x
    | none => .error (.unknownChoice name (choices.map (·.1)))
  match v with
  | .string name => pick name
  | .table [(name,content)] => do
    let x ← pick name
    match content with
    | .array [] => return x
    | .tables [] => return x
    | .table [] => return x
    | content => .error (.choiceContent content)
  | v => .error (.notChoice v)

end Decoder

end Gantry
