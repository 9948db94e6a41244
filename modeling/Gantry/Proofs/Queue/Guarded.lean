import Mathlib
import Gantry.Proofs.Queue.Reclaimed

/-!
Guarded reads: bringing a time into a segment stops the program where the duration of the segment is
negative or undefined. Here the reads of a channel say so themselves: a guarded read gives nothing
where the plain one would have stopped. On segments that were found valid the two agree.
-/
set_option autoImplicit false

namespace Gantry
variable {α : Type} [Scalar α]

namespace Segment
variable {m : Segment α}

theorem positionAt?_eq (h : m.Coherent) (t : α) : m.positionAt? t = some (m.positionAt t) :=
  if_pos h

theorem velocityAt?_eq (h : m.Coherent) (t : α) : m.velocityAt? t = some (m.velocityAt t) :=
  if_pos h

end Segment

namespace Timeline

/-- Times can be brought into every segment. -/
def Coherent (l : Timeline α) : Prop := ∀ m ∈ l, m.Coherent

def positionIn? (l : Timeline α) (begun : Segment α → Bool) (t : α) : Option (Option α) :=
  match l.find? begun with
  | some m => (m.positionAt? t).map some
  | none => some l.origin

/-- The position at a time, unless reading it stops the program. -/
def positionAt? (l : Timeline α) (t : α) : Option (Option α) :=
  l.positionIn? (fun m => m.startTime ≤ t) t

def positionBefore? (l : Timeline α) (t : α) : Option (Option α) :=
  l.positionIn? (fun m => m.startTime < t) t

def velocityAt? (l : Timeline α) (t : α) : Option α :=
  match l.find? fun m => m.startTime ≤ t with
  | some m => if t < m.endTime then m.velocityAt? t else some 0
  | none => some 0

namespace Coherent
variable {l : Timeline α}

theorem positionIn?_eq (h : l.Coherent) (begun : Segment α → Bool) (t : α) :
    l.positionIn? begun t = some (((l.find? begun).map (·.positionAt t)).or l.origin) := by
  unfold positionIn?
  cases hf : l.find? begun with
  | none => rfl
  | some m => simp [Segment.positionAt?_eq (h m (List.mem_of_find?_eq_some hf))]

theorem positionAt?_eq (h : l.Coherent) (t : α) : l.positionAt? t = some (l.positionAt t) := by
  rw [positionAt?,h.positionIn?_eq,positionAt]
  cases l.find? fun m => decide (m.startTime ≤ t) <;> rfl

theorem positionBefore?_eq (h : l.Coherent) (t : α) :
    l.positionBefore? t = some (l.positionBefore t) := by
  rw [positionBefore?,h.positionIn?_eq,positionBefore]
  cases l.find? fun m => decide (m.startTime < t) <;> rfl

theorem velocityAt?_eq (h : l.Coherent) (t : α) : l.velocityAt? t = some (l.velocityAt t) := by
  unfold velocityAt? velocityAt
  cases hf : l.find? fun m => decide (m.startTime ≤ t) with
  | none => rfl
  | some m =>
    have hm := Segment.velocityAt?_eq (h m (List.mem_of_find?_eq_some hf)) t
    dsimp only
    rw [hm]
    split <;> rfl

end Coherent

end Timeline

namespace SegmentQueue

def Coherent (q : SegmentQueue α) : Prop := ∀ i, (q.line i).Coherent

def read? {β : Type} (q : SegmentQueue α) (i : Nat) (f : Timeline α → Option β) :
    Option (Except (QueueError α) β) :=
  match q.channel i with
  | .ok c => (f c.timeline).map .ok
  | .error e => some (.error e)

def positionAt? (q : SegmentQueue α) (i : Nat) (t : α) :
    Option (Except (QueueError α) (Option α)) := q.read? i (·.positionAt? t)

def positionBefore? (q : SegmentQueue α) (i : Nat) (t : α) :
    Option (Except (QueueError α) (Option α)) := q.read? i (·.positionBefore? t)

def velocityAt? (q : SegmentQueue α) (i : Nat) (t : α) : Option (Except (QueueError α) α) :=
  q.read? i (·.velocityAt? t)

theorem Reachable.coherent [LawfulScalar α] {q : SegmentQueue α} (h : q.Reachable) :
    q.Coherent := by
  intro i m hm
  cases hc : q.channels[i]? with
  | none => simp [line,hc,Channel.timeline,Channel.segments] at hm
  | some c =>
    rw [line_eq hc,Channel.mem_timeline] at hm
    exact Segment.coherent_of_validate (h.validate hc hm)

namespace Coherent
variable {q : SegmentQueue α}

theorem timeline (h : q.Coherent) {i : Nat} {c : Channel α} (hc : q.channels[i]? = some c) :
    c.timeline.Coherent := line_eq hc ▸ h i

theorem read?_eq {β : Type} (h : q.Coherent) {f? : Timeline α → Option β} {f : Timeline α → β}
    (hf : ∀ l : Timeline α, l.Coherent → f? l = some (f l)) (i : Nat) :
    q.read? i f? = some ((q.channel i).map fun c => f c.timeline) := by
  unfold read?
  cases hc : q.channel i with
  | error e => rfl
  | ok c =>
    dsimp only
    rw [hf c.timeline (h.timeline (channel_eq_ok.1 hc))]
    rfl

theorem positionAt?_eq (h : q.Coherent) (i : Nat) (t : α) :
    q.positionAt? i t = some (q.positionAt i t) :=
  h.read?_eq (fun _ hl => hl.positionAt?_eq t) i

theorem positionBefore?_eq (h : q.Coherent) (i : Nat) (t : α) :
    q.positionBefore? i t = some (q.positionBefore i t) :=
  h.read?_eq (fun _ hl => hl.positionBefore?_eq t) i

theorem velocityAt?_eq (h : q.Coherent) (i : Nat) (t : α) :
    q.velocityAt? i t = some (q.velocityAt i t) :=
  h.read?_eq (fun _ hl => hl.velocityAt?_eq t) i

end Coherent

theorem tailEnd_eq_ok_iff {q : SegmentQueue α} {i : Nat} :
    (∃ e, q.tailEnd i = .ok e) ↔ i < q.channels.length := by
  unfold tailEnd channel
  cases hc : q.channels[i]? with
  | none => simpa [Except.map] using List.getElem?_eq_none_iff.1 hc
  | some c => simpa [Except.map] using (List.getElem?_eq_some_iff.1 hc).1

end SegmentQueue

namespace Samples

def next? (s : Samples α) : Option (Option (α × α) × Samples α) :=
  if s.done then some (none,s)
  else
    let (t,last) := s.nextTime
    match s.timeline.positionAt? t with
    | some (some pos) => some (some (t,pos),{ s with index := s.index + 1, done := last })
    | some none => some (none,{ s with index := s.index + 1, done := true })
    | none => none

def rest (k : Nat) (s : Samples α) : Samples α := (fun s => s.next.2)^[k] s

theorem timeline_next (s : Samples α) : s.next.2.timeline = s.timeline := by
  unfold next
  split
  · rfl
  · dsimp only
    split <;> rfl

theorem timeline_rest (k : Nat) (s : Samples α) : (s.rest k).timeline = s.timeline := by
  induction k generalizing s with
  | zero => rfl
  | succ k ih => exact (ih s.next.2).trans s.timeline_next

theorem next?_eq {s : Samples α} (h : s.timeline.Coherent) : s.next? = some s.next := by
  unfold next? next
  dsimp only
  rw [h.positionAt?_eq]
  split
  · rfl
  · cases s.timeline.positionAt s.nextTime.1 <;> rfl

end Samples

end Gantry
