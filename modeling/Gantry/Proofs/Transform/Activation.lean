import Mathlib
import Gantry.Proofs.Exact
import Gantry.Proofs.Transform.Chain

/-!
Several controls on one host. While the control activated last is always the first to be
deactivated, the chain is the stack of the pivots of the active controls, and every other control
holds its own pivot. A deactivation out of this order is not refused: it hands the pivot in front to
the wrong control.
-/
set_option autoImplicit false

namespace Gantry

variable {α : Type}

def Pivot.design (p : Pivot α) : Pivot α :=
  { p with stages := p.stages.map fun s => { s with slot := none }, lastPos := [], lastRadii2 := [] }

@[simp] theorem Pivot.design_resolve (p : Pivot α) (axes : ExtraAxes) :
    (p.resolve axes).design = p.design := by
  simp [design,resolve,Stage.resolve,Function.comp_def]

namespace Transform

def designs : Transform α → List (Pivot α)
  | .terminal _ => []
  | .detached p => [p.design]
  | .over p next => p.design :: next.designs

theorem designs_bare (t : Transform α) : t.bare.designs = t.designs := by
  induction t with
  | terminal base => rfl
  | detached p => rfl
  | «over» p next ih => exact congrArg (p.design :: ·) ih

theorem Kept.designs {speed : α} {t t' : Transform α} (h : Kept speed t t') :
    t'.designs = t.designs := by
  rw [← designs_bare,h.bare,designs_bare]

theorem designs_resolve (t : Transform α) (axes : ExtraAxes) :
    (t.resolve axes).designs = t.designs := by
  induction t with
  | terminal base => rfl
  | detached p => simp [designs,resolve]
  | «over» p next ih => simp [designs,resolve,ih]

theorem base?_resolve (t : Transform α) (axes : ExtraAxes) : (t.resolve axes).base? = t.base? := by
  induction t with
  | terminal base => rfl
  | detached p => rfl
  | «over» p next ih => exact ih

def EndsAt (base : Terminal α) (t : Transform α) : Prop :=
  ∃ moves, t.base? = some (base.recordAll moves)

theorem Kept.endsAt {speed : α} {base : Terminal α} {t t' : Transform α} (h : Kept speed t t')
    (ht : t.EndsAt base) : t'.EndsAt base := by
  obtain ⟨ms,hms⟩ := ht
  obtain ⟨ns,hns,-⟩ := h.fed
  exact ⟨ms ++ ns,by rw [hns,hms]; simp [Terminal.recordAll]⟩

end Transform

namespace TransformHost
variable [Scalar α] (h : TransformHost α)

theorem transform_resetLastPosition :
    h.resetLastPosition.2.transform = h.transform.getPosition.2 := by
  have hg : h.getPosition = (h.getPosition.1,h.getPosition.2) := rfl
  unfold resetLastPosition
  cases hr : h.getPosition.1 <;> rw [hg,hr] <;> rfl

theorem transform_moveTo (target : List α) (speed : α) :
    (h.moveTo target speed).2.transform = (h.transform.moveTo target speed).2 := by
  unfold moveTo
  split <;> rename_i heq <;> rw [heq]

end TransformHost

namespace Activation

structure State (α : Type) (n : Nat) where
  controls : Fin n → PivotControl α
  host : TransformHost α

inductive Command (α : Type) (n : Nat) where
  | activate (i : Fin n) (axes : ExtraAxes)
  | deactivate (i : Fin n)
  | move (target : List α) (speed : α)
  | reset
  | resolve (axes : ExtraAxes)

variable {n : Nat}

def State.initial (created : Fin n → Pivot α) (base : Terminal α) (lastPosition : List α) :
    State α n :=
  ⟨fun i => ⟨some (created i)⟩,⟨.terminal base,lastPosition⟩⟩

section Run
variable [Scalar α]

def State.step (s : State α n) : Command α n → Except (Error α) Unit × State α n
  | .activate i axes =>
    let (r,c,host) := (s.controls i).activate s.host axes
    (r,⟨Function.update s.controls i c,host⟩)
  | .deactivate i =>
    let (r,c,host) := (s.controls i).deactivate s.host
    (r,⟨Function.update s.controls i c,host⟩)
  | .move target speed =>
    let (r,host) := s.host.moveTo target speed
    (r,{ s with host })
  | .reset =>
    let (r,host) := s.host.resetLastPosition
    (r.map fun _ => (),{ s with host })
  | .resolve axes => (.ok (),{ s with host := s.host.resolve axes })

def State.run (s : State α n) (commands : List (Command α n)) : State α n :=
  commands.foldl (fun s c => (s.step c).2) s

end Run

def Command.after (stack : List (Fin n)) : Command α n → List (Fin n)
  | .activate i _ => if i ∈ stack then stack else i :: stack
  | .deactivate i => if stack.head? = some i then stack.tail else stack
  | _ => stack

def stackAfter (commands : List (Command α n)) : List (Fin n) :=
  commands.foldl Command.after []

/-- The chain is the stack of the pivots of the active controls over the original end, and all other
controls hold the pivots they were created with. -/
structure Tidy (created : Fin n → Pivot α) (base : Terminal α) (stack : List (Fin n))
    (s : State α n) : Prop where
  nodup : stack.Nodup
  chain : s.host.transform.designs = stack.map fun i => (created i).design
  endsAt : s.host.transform.EndsAt base
  active : ∀ i ∈ stack, (s.controls i).parked = none
  parked : ∀ i ∉ stack, ∃ p, (s.controls i).parked = some p ∧ p.design = (created i).design

/-- How a command is to be answered: an active control is not activated again, an inactive one is
not deactivated, and an active one gives its pivot up exactly if it is in front of the chain. -/
def Answered (stack : List (Fin n)) (s : State α n) (c : Command α n)
    (r : Except (Error α) Unit × State α n) : Prop :=
  match c with
  | .activate i _ => i ∈ stack → r = (.error (.command .transformAlreadyActive),s)
  | .deactivate i =>
    (i ∉ stack → r = (.ok (),s)) ∧
    (stack.head? = some i → r.1 = .ok () ∧ ∃ p, (r.2.controls i).parked = some p ∧
      s.host.transform = .over p r.2.host.transform) ∧
    (i ∈ stack → stack.head? ≠ some i → r = (.error (.command .transformNotOnTop),s))
  | _ => True

variable [Scalar α] {created : Fin n → Pivot α} {base : Terminal α} {stack : List (Fin n)}
  {s : State α n}

def Disciplined (created : Fin n → Pivot α) (base : Terminal α) (s : State α n)
    (commands : List (Command α n)) : Prop :=
  (∀ done rest, commands = done ++ rest → Tidy created base (stackAfter done) (s.run done)) ∧
  ∀ done c rest, commands = done ++ c :: rest →
    Answered (stackAfter done) (s.run done) c ((s.run done).step c)

/-- A run in which an active control is deactivated only before all that were activated earlier. -/
def LatestFirst (commands : List (Command α n)) : Prop :=
  ∀ done i rest, commands = done ++ .deactivate i :: rest → i ∈ stackAfter done →
    (stackAfter done).head? = some i

theorem run_snoc (s : State α n) (commands : List (Command α n)) (c : Command α n) :
    s.run (commands ++ [c]) = ((s.run commands).step c).2 := by
  simp [State.run]

omit [Scalar α] in
theorem stackAfter_snoc (commands : List (Command α n)) (c : Command α n) :
    stackAfter (commands ++ [c]) = c.after (stackAfter commands) := by
  simp [stackAfter]

omit [Scalar α] in
theorem update_controls_self (s : State α n) (i : Fin n) {c : PivotControl α}
    (h : s.controls i = c) : (⟨Function.update s.controls i c,s.host⟩ : State α n) = s := by
  rw [← h,Function.update_eq_self]

theorem step_activate_of_active {i : Fin n} (h : (s.controls i).parked = none)
    (axes : ExtraAxes) :
    s.step (.activate i axes) = (.error (.command .transformAlreadyActive),s) := by
  simp only [State.step,PivotControl.activate,h]
  exact congrArg _ (update_controls_self s i rfl)

theorem step_deactivate_of_parked {i : Fin n} {p : Pivot α} (h : (s.controls i).parked = some p) :
    s.step (.deactivate i) = (.ok (),s) := by
  simp only [State.step,PivotControl.deactivate,h]
  exact congrArg _ (update_controls_self s i rfl)

theorem step_deactivate_of_active {i : Fin n} {p : Pivot α} {next : Transform α}
    (h : (s.controls i).parked = none) (ht : s.host.transform = .over p next) :
    s.step (.deactivate i) =
      (.ok (),⟨Function.update s.controls i ⟨some p⟩,{ s.host with transform := next }⟩) := by
  simp only [State.step,PivotControl.deactivate,h,ht]

theorem step_activate_of_parked {i : Fin n} {p : Pivot α} (h : (s.controls i).parked = some p)
    (axes : ExtraAxes) : ∃ r host, s.step (.activate i axes) =
      (r,⟨Function.update s.controls i ⟨none⟩,host⟩) ∧
      host.transform = (Transform.over (p.resolve axes) s.host.transform).getPosition.2 := by
  simp only [State.step,PivotControl.activate,h]
  exact ⟨_,_,rfl,TransformHost.transform_resetLastPosition _⟩

omit [Scalar α] in
theorem Tidy.front {i : Fin n} (h : Tidy created base (i :: stack) s) :
    ∃ p next, s.host.transform = .over p next ∧ p.design = (created i).design ∧
      next.designs = stack.map fun j => (created j).design := by
  obtain ⟨-,hc,⟨ms,hms⟩,-,-⟩ := h
  cases ht : s.host.transform with
  | terminal b => simp [ht,Transform.designs] at hc
  | detached p => simp [ht,Transform.base?] at hms
  | «over» p next => exact ⟨p,next,rfl,by simpa [ht,Transform.designs] using hc⟩

theorem Tidy.answered (h : Tidy created base stack s) {c : Command α n}
    (hc : ∀ i, c = .deactivate i → i ∈ stack → stack.head? = some i) :
    Answered stack s c (s.step c) := by
  cases c with
  | activate i axes => exact fun hi => step_activate_of_active (h.active i hi) axes
  | deactivate i =>
    refine ⟨fun hi => ?_,fun hi => ?_,fun hi hne => absurd (hc i rfl hi) hne⟩
    · obtain ⟨p,hp,-⟩ := h.parked i hi
      exact step_deactivate_of_parked hp
    · obtain ⟨rest,rfl⟩ := List.head?_eq_some_iff.1 hi
      obtain ⟨p,next,ht,-⟩ := h.front
      rw [step_deactivate_of_active (h.active i (by simp)) ht]
      exact ⟨rfl,p,by simp,ht⟩
  | _ => trivial

theorem Tidy.activate (h : Tidy created base stack s) {i : Fin n} (hi : i ∉ stack)
    (axes : ExtraAxes) : Tidy created base (i :: stack) (s.step (.activate i axes)).2 := by
  obtain ⟨p,hp,hd⟩ := h.parked i hi
  obtain ⟨r,host,hs,ht⟩ := step_activate_of_parked hp axes
  have hk := Transform.kept_getPosition 0 (.over (p.resolve axes) s.host.transform)
  rw [hs]
  refine ⟨List.nodup_cons.2 ⟨hi,h.nodup⟩,?_,?_,fun j hj => ?_,fun j hj => ?_⟩
  · simp [ht,hk.designs,Transform.designs,h.chain,hd]
  · exact ht ▸ hk.endsAt h.endsAt
  · by_cases hji : j = i
    · simp [hji]
    · simpa [hji] using h.active j ((List.mem_cons.1 hj).resolve_left hji)
  · rw [List.mem_cons,not_or] at hj
    simpa [hj.1] using h.parked j hj.2

theorem Tidy.deactivate {i : Fin n} (h : Tidy created base (i :: stack) s) :
    Tidy created base stack (s.step (.deactivate i)).2 := by
  obtain ⟨p,next,ht,hd,hn⟩ := h.front
  have hne := List.nodup_cons.1 h.nodup
  rw [step_deactivate_of_active (h.active i (by simp)) ht]
  have he : (Transform.over p next).EndsAt base := ht ▸ h.endsAt
  refine ⟨hne.2,hn,he,fun j hj => ?_,fun j hj => ?_⟩
  · have hji : j ≠ i := fun hji => hne.1 (hji ▸ hj)
    simpa [hji] using h.active j (by simp [hj])
  · by_cases hji : j = i
    · exact ⟨p,by simp [hji],hji ▸ hd⟩
    · simpa [hji] using h.parked j (by simp [hj,hji])

omit [Scalar α] in
theorem Tidy.withHost (h : Tidy created base stack s) {host : TransformHost α}
    (hd : host.transform.designs = s.host.transform.designs)
    (he : host.transform.EndsAt base) : Tidy created base stack { s with host } :=
  { h with chain := hd.trans h.chain, endsAt := he }

theorem Tidy.step (h : Tidy created base stack s) {c : Command α n}
    (hc : ∀ i, c = .deactivate i → i ∈ stack → stack.head? = some i) :
    Tidy created base (c.after stack) (s.step c).2 := by
  cases c with
  | activate i axes =>
    by_cases hi : i ∈ stack
    · simpa [Command.after,hi,step_activate_of_active (h.active i hi)] using h
    · simpa [Command.after,hi] using h.activate hi axes
  | deactivate i =>
    by_cases hi : i ∈ stack
    · obtain ⟨rest,rfl⟩ := List.head?_eq_some_iff.1 (hc i rfl hi)
      simpa [Command.after] using h.deactivate
    · obtain ⟨p,hp,-⟩ := h.parked i hi
      have hh : stack.head? ≠ some i := fun hh => hi (List.mem_of_head? hh)
      simpa [Command.after,hh,step_deactivate_of_parked hp] using h
  | move target speed =>
    have hk := Transform.kept_moveTo s.host.transform target speed
    rw [← TransformHost.transform_moveTo] at hk
    exact h.withHost hk.designs (hk.endsAt h.endsAt)
  | reset =>
    have hk := Transform.kept_getPosition 0 s.host.transform
    rw [← TransformHost.transform_resetLastPosition] at hk
    exact h.withHost hk.designs (hk.endsAt h.endsAt)
  | resolve axes =>
    obtain ⟨ms,hms⟩ := h.endsAt
    exact h.withHost (s.host.transform.designs_resolve axes)
      ⟨ms,(s.host.transform.base?_resolve axes).trans hms⟩

omit [Scalar α] in
theorem tidy_initial (created : Fin n → Pivot α) (base : Terminal α) (lastPosition : List α) :
    Tidy created base [] (State.initial created base lastPosition) :=
  ⟨List.nodup_nil,rfl,⟨[],rfl⟩,nofun,fun i _ => ⟨created i,rfl,rfl⟩⟩

theorem LatestFirst.tidy {commands : List (Command α n)} (hc : LatestFirst commands)
    (h : Tidy created base [] s) : Tidy created base (stackAfter commands) (s.run commands) := by
  induction commands using List.reverseRecOn with
  | nil => exact h
  | append_singleton commands c ih =>
    rw [stackAfter_snoc,run_snoc]
    refine (ih fun done i rest hd => ?_).step fun i hi => ?_
    · exact hc done i (rest ++ [c]) (by simp [hd])
    · exact hc commands i [] (by rw [hi])

/-- Exactly as long as every control is deactivated before those that were activated earlier, the
chain is the stack of the pivots of the active controls and every command is answered
accordingly. -/
theorem disciplined_iff (created : Fin n → Pivot α) (base : Terminal α) (lastPosition : List α)
    (commands : List (Command α n)) :
    Disciplined created base (State.initial created base lastPosition) commands ↔
      LatestFirst commands := by
  constructor
  · rintro ⟨htidy,hanswered⟩ done i rest hd hi
    by_contra hne
    have ht := htidy done _ hd
    have he := (hanswered done _ rest hd).2.2 hi hne
    -- the pivot in front comes off, whose ever it is
    obtain ⟨j,stack,hstack⟩ := List.exists_cons_of_ne_nil (List.ne_nil_of_mem hi)
    obtain ⟨p,next,hfront,-⟩ := (hstack ▸ ht).front
    rw [step_deactivate_of_active (ht.active i hi) hfront] at he
    cases he
  · intro hc
    have hdone (done rest) (hd : commands = done ++ rest) : LatestFirst done :=
      fun done' i rest' hd' => hc done' i (rest' ++ rest) (by simp [hd,hd'])
    refine ⟨fun done rest hd => (hdone done rest hd).tidy (tidy_initial ..),?_⟩
    exact fun done c rest hd => ((hdone done _ hd).tidy (tidy_initial ..)).answered
      fun i hi => hc done i rest (hi ▸ hd)

def coarseAndFine : Fin 2 → Pivot ℝ
  | 0 => { invResolution := 1, axisToRadians := 1 }
  | 1 => { invResolution := 10, axisToRadians := 1 }

/-- The control activated first is not refused while the pivot of the other one is in front, but
takes that pivot. -/
theorem deactivate_takes_other :
    ∃ s, (State.initial coarseAndFine ⟨[0,0,0],#[]⟩ []).run
        [.activate 0 ⟨[]⟩,.activate 1 ⟨[]⟩] = s ∧ (s.step (.deactivate 0)).1 = .ok () ∧
      ∃ p, ((s.step (.deactivate 0)).2.controls 0).parked = some p ∧
        p.design = (coarseAndFine 1).design ∧ p.design ≠ (coarseAndFine 0).design := by
  have hne : (coarseAndFine 1).design ≠ (coarseAndFine 0).design := by
    intro h
    have hr := congrArg Pivot.invResolution h
    norm_num [Pivot.design,coarseAndFine] at hr
  exact ⟨_,rfl,rfl,_,rfl,rfl,hne⟩

end Activation

end Gantry
