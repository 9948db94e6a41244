import Gantry.Toml.Statement

set_option autoImplicit false

namespace Gantry.Toml

inductive Place where
  | root
  | table (path : List String) (key : String)
  | element (path : List String) (key : String)

structure Draft where
  document : Entries
  place : Place
  entries : Entries

namespace Draft

def empty : Draft := ⟨[],.root,[]⟩

def close (d : Draft) : Option Entries :=
  match d.place with
  | .root => some d.entries
  | .table path key => do
    let ((),es) ← Entries.within false
      (fun _ es => some ((),es ++ [(key,.table .defined d.entries)])) path .defined d.document
    return es
  | .element path key => do
    let ((),es) ← Entries.within false
      (fun _ es => match es.get? key with
        | some (.tables elements) => some ((),es.replace key (.tables (elements ++ [d.entries])))
        | _ => none) path .defined d.document
    return es

/-- Takes a table that is only implied so far out of its place, for a section to fill it. -/
def claimTable (key : String) (es : Entries) : Option (Entries × Entries) :=
  match es.get? key with
  | none => some ([],es)
  | some (.table .implied sub) => some (sub,es.erase key)
  | some _ => none

def claimArray (key : String) (es : Entries) : Option (Entries × Entries) :=
  match es.get? key with
  | none => some ([],es ++ [(key,.tables [])])
  | some (.tables _) => some ([],es)
  | some _ => none

def say (d : Draft) : Statement → Option Draft
  | .table path key => do
    let (entries,document) ←
      Entries.within false (fun _ => claimTable key) path .defined (← d.close)
    return ⟨document,.table path key,entries⟩
  | .element path key => do
    let (entries,document) ←
      Entries.within false (fun _ => claimArray key) path .defined (← d.close)
    return ⟨document,.element path key,entries⟩
  | .entry path key v => do
    let entries ← d.entries.insert path key v
    return { d with entries := entries }

end Draft

/-- The entries of the document that a text writes, if it is one. -/
def parse? (text : String) : Option (List (String × Value)) := do
  let draft ← (← statements text).foldlM Draft.say Draft.empty
  return entriesToValues (← draft.close)

end Gantry.Toml
