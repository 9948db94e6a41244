/-!
Labels: texts of bounded length, counted in bytes of UTF-8. Cutting a text to a label keeps whole
characters and ends before the first one that does not fit; a text that fits is kept whole.
-/
set_option autoImplicit false

namespace Gantry

def byteCount : List Char → Nat
  | [] => 0
  | c :: cs => c.utf8Size + byteCount cs

/-- A text of at most `limit` bytes. -/
structure Label (limit : Nat) where
  text : String
  fits : byteCount text.toList ≤ limit
  deriving DecidableEq

namespace Label
variable {limit : Nat}

/-- The longest run of first characters that fits into `room` bytes, up to the first that does
not. -/
def fitting : Nat → List Char → List Char
  | _, [] => []
  | room, c :: cs => if c.utf8Size ≤ room then c :: fitting (room - c.utf8Size) cs else []

theorem byteCount_fitting (room : Nat) (cs : List Char) : byteCount (fitting room cs) ≤ room := by
  induction cs generalizing room with
  | nil => simp [fitting,byteCount]
  | cons c cs ih =>
    by_cases h : c.utf8Size ≤ room
    · have := ih (room - c.utf8Size)
      simp [fitting,byteCount,h]
      omega
    · simp [fitting,byteCount,h]

theorem fitting_eq_self {room : Nat} {cs : List Char} (h : byteCount cs ≤ room) :
    fitting room cs = cs := by
  induction cs generalizing room with
  | nil => rfl
  | cons c cs ih =>
    simp only [byteCount] at h
    have rest : fitting (room - c.utf8Size) cs = cs := ih (by omega)
    simp [fitting,show c.utf8Size ≤ room by omega,rest]

def clip (s : String) : Label limit :=
  ⟨String.ofList (fitting limit s.toList),by simpa using byteCount_fitting limit s.toList⟩

theorem text_clip {s : String} (h : byteCount s.toList ≤ limit) :
    (clip s : Label limit).text = s := by
  simp [clip,fitting_eq_self h]

@[simp] theorem clip_text (l : Label limit) : (clip l.text : Label limit) = l := by
  cases l with
  | mk text fits => exact (Label.mk.injEq ..).mpr (text_clip fits)

def ofString? (s : String) : Option (Label limit) :=
  if h : byteCount s.toList ≤ limit then some ⟨s,h⟩ else none

end Label

abbrev Name := Label 32

end Gantry
