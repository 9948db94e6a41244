import Mathlib
import Gantry.Proofs.Exact
import Gantry.Proofs.InPlace
import Gantry.Rail.Rail

set_option autoImplicit false

namespace Gantry
open Results

variable {α : Type}

namespace Endstop
variable {e e' : Endstop} {s : StepperRef} {ss : List StepperRef}

inductive Filled (α : Type) : Endstop → Prop where
  | ofPin (name pin controller : String) : Filled α (.ofPin name pin controller)
  | addStepper {e e' : Endstop} (s : StepperRef) :
      Filled α e → e.addStepper (α := α) s = .ok e' → Filled α e'

structure Orderly (e : Endstop) : Prop where
  distinct : (e.steppers.map (·.name)).Nodup
  own : ∀ s ∈ e.steppers, s.controller = e.controller

structure Took (e : Endstop) (ss : List StepperRef) (e' : Endstop) : Prop where
  controller : e'.controller = e.controller
  kept : ∀ n, e.hasStepper n = true → e'.hasStepper n = true
  stopped : ∀ s ∈ ss, e'.hasStepper s.name.text = true
  orderly : e.Orderly → e'.Orderly

theorem hasStepper_iff {n : String} :
    e.hasStepper n = true ↔ ∃ s ∈ e.steppers, s.name.text = n := by
  simp [hasStepper]

theorem addStepper_eq_ok : e.addStepper (α := α) s = .ok e' ↔ s.controller = e.controller ∧
    e' = if e.hasStepper s.name.text then e else { e with steppers := e.steppers ++ [s] } := by
  unfold addStepper
  by_cases hc : s.controller = e.controller
  · cases e.hasStepper s.name.text <;> simp [hc,eq_comm (b := e')]
  · simp [hc]

theorem addStepper_eq_error {x : ConfigError α} : e.addStepper s = .error x ↔
    s.controller ≠ e.controller ∧
      x = .controllerMismatch e.name e.controller s.name s.controller := by
  unfold addStepper
  by_cases hc : s.controller = e.controller
  · cases e.hasStepper s.name.text <;> simp [hc]
  · simp [hc,eq_comm (b := x)]

theorem addStepper_isOk :
    (∃ e', e.addStepper (α := α) s = .ok e') ↔ s.controller = e.controller := by
  simp only [addStepper_eq_ok,exists_and_left,exists_eq,and_true]

theorem Orderly.snoc (h : e.Orderly) (hc : s.controller = e.controller)
    (hs : e.hasStepper s.name.text = false) :
    Orderly { e with steppers := e.steppers ++ [s] } where
  distinct := by
    rw [List.map_append,List.nodup_append]
    refine ⟨h.distinct,by simp,fun n hn m hm hnm => ?_⟩
    obtain ⟨t,ht,rfl⟩ := List.mem_map.1 hn
    obtain rfl : m = s.name := by simpa using hm
    exact Bool.eq_false_iff.1 hs (hasStepper_iff.2 ⟨t,ht,congrArg Label.text hnm⟩)
  own t ht := by
    rcases List.mem_append.1 ht with ht | ht
    · exact h.own t ht
    · rw [List.mem_singleton.1 ht]
      exact hc

theorem took_of_addStepper (h : e.addStepper (α := α) s = .ok e') : e.Took [s] e' := by
  obtain ⟨hc,rfl⟩ := addStepper_eq_ok.1 h
  split
  · rename_i hs
    exact ⟨rfl,fun _ hn => hn,by simpa using hs,fun he => he⟩
  · rename_i hs
    refine ⟨rfl,fun n hn => ?_,by simp [hasStepper],fun he => he.snoc hc (by simpa using hs)⟩
    obtain ⟨t,ht,hn⟩ := hasStepper_iff.1 hn
    exact hasStepper_iff.2 ⟨t,List.mem_append_left _ ht,hn⟩

theorem Took.trans {e'' : Endstop} {ts : List StepperRef} (h : e.Took ss e')
    (h' : e'.Took ts e'') : e.Took (ss ++ ts) e'' where
  controller := h'.controller.trans h.controller
  kept n hn := h'.kept n (h.kept n hn)
  stopped s hs := by
    rcases List.mem_append.1 hs with hs | hs
    · exact h'.kept _ (h.stopped s hs)
    · exact h'.stopped s hs
  orderly he := h'.orderly (h.orderly he)

theorem took_of_addSteppers (h : e.addSteppers (α := α) ss = .ok e') : e.Took ss e' := by
  induction ss generalizing e with
  | nil =>
    cases h
    exact ⟨rfl,fun _ hn => hn,fun _ hs => absurd hs List.not_mem_nil,fun he => he⟩
  | cons s ss ih =>
    obtain ⟨e₁,hs,hss⟩ := bind_eq_ok.1 h
    exact (took_of_addStepper hs).trans (ih hss)

theorem Filled.orderly (h : e.Filled α) : e.Orderly := by
  induction h with
  | ofPin name pin controller => exact ⟨List.nodup_nil,fun _ hs => absurd hs List.not_mem_nil⟩
  | addStepper s _ hs ih => exact (took_of_addStepper hs).orderly ih

theorem addSteppers_eq_error {x : ConfigError α} (h : e.addSteppers ss = .error x) :
    ∃ s ∈ ss, s.controller ≠ e.controller ∧
      x = .controllerMismatch e.name e.controller s.name s.controller := by
  induction ss generalizing e with
  | nil => cases h
  | cons s ss ih =>
    have hl : e.addSteppers (α := α) (s :: ss) = e.addStepper s >>= fun e => e.addSteppers ss := rfl
    rw [hl] at h
    cases hs : e.addStepper (α := α) s with
    | error y =>
      rw [hs] at h
      cases h
      exact ⟨s,List.mem_cons_self,addStepper_eq_error.1 hs⟩
    | ok e₁ =>
      rw [hs,ok_bind] at h
      obtain ⟨t,ht,hc,rfl⟩ := ih h
      obtain ⟨-,rfl⟩ := addStepper_eq_ok.1 hs
      refine ⟨t,List.mem_cons_of_mem s ht,?_⟩
      split_ifs at hc ⊢ <;> exact ⟨hc,rfl⟩

theorem addSteppers_isOk :
    (∃ e', e.addSteppers (α := α) ss = .ok e') ↔ ∀ s ∈ ss, s.controller = e.controller := by
  induction ss generalizing e with
  | nil => exact ⟨fun _ _ hs => absurd hs List.not_mem_nil,fun _ => ⟨e,rfl⟩⟩
  | cons s ss ih =>
    have hl : e.addSteppers (α := α) (s :: ss) = e.addStepper s >>= fun e => e.addSteppers ss := rfl
    rw [hl,List.forall_mem_cons]
    cases hs : e.addStepper (α := α) s with
    | error y => simp [error_bind,(addStepper_eq_error.1 hs).1]
    | ok e₁ =>
      have hc := (addStepper_eq_ok.1 hs).1
      rw [ok_bind,ih,(took_of_addStepper hs).controller]
      simp [hc]

def enlist (s : StepperRef) : EStateM (ConfigError α) Endstop Unit := do
  let e ← get
  if s.controller ≠ e.controller then
    throw (.controllerMismatch e.name e.controller s.name s.controller)
  else if e.hasStepper s.name.text then pure ()
  else modify fun e => { e with steppers := e.steppers ++ [s] }

theorem enlist_eq_settle (s : StepperRef) :
    enlist (α := α) s = InPlace.settle fun e => e.addStepper s := by
  funext e
  change (if s.controller ≠ e.controller then _ else _ : EStateM (ConfigError α) Endstop Unit) e = _
  simp only [InPlace.settle,addStepper]
  split_ifs <;> rfl

theorem outcome_enlist (s : StepperRef) :
    InPlace.outcome (enlist (α := α) s) = fun e => e.addStepper s := by
  rw [enlist_eq_settle,InPlace.outcome_settle]

theorem outcome_forM_enlist (ss : List StepperRef) :
    InPlace.outcome (ss.forM (enlist (α := α))) = fun e => e.addSteppers ss := by
  funext e
  simp only [InPlace.outcome_forM,outcome_enlist,addSteppers]

end Endstop

namespace Rail

/-- What comes to a rail: a motor, an endstop, or motors of another rail for its endstops. -/
inductive Addition (α : Type) where
  | stepper (s : Stepper α)
  | endstop (e : Endstop)
  | others (ss : List StepperRef)

def add (r : Rail α) : Addition α → Except (ConfigError α) (Rail α)
  | .stepper s => r.addStepper s
  | .endstop e => r.addEndstop e
  | .others ss => r.addSteppersToEndstops ss

def Clashes (r : Rail α) : Addition α → Prop
  | .stepper s => ∃ e ∈ r.endstops, s.controller ≠ e.controller
  | .endstop e => ∃ s ∈ r.stepperRefs, s.controller ≠ e.controller
  | .others ss => ∃ e ∈ r.endstops, ∃ s ∈ ss, s.controller ≠ e.controller

section Whole
variable (r : Rail α)

theorem addStepper_eq_map (s : Stepper α) :
    r.addStepper s = (r.endstops.mapM fun (e : Endstop) => e.addStepper s.ref).map fun endstops =>
      { r with endstops, steppers := r.steppers ++ [s] } := by
  simp only [addStepper]
  cases r.endstops.mapM fun e => e.addStepper (α := α) s.ref <;> rfl

theorem addEndstop_eq_map (e : Endstop) :
    r.addEndstop e = (e.addSteppers r.stepperRefs).map fun e =>
      { r with endstops := r.endstops ++ [e] } := by
  simp only [addEndstop]
  cases e.addSteppers (α := α) r.stepperRefs <;> rfl

theorem addSteppersToEndstops_eq_map (ss : List StepperRef) :
    r.addSteppersToEndstops ss =
      (r.endstops.mapM fun (e : Endstop) => e.addSteppers ss).map fun endstops =>
        { r with endstops } := by
  simp only [addSteppersToEndstops]
  cases r.endstops.mapM fun e => e.addSteppers (α := α) ss <;> rfl

end Whole

/-- Makes an addition in place: the endstops are copied, asked one after another, and put back when
all have agreed. -/
def join : Addition α → EStateM (ConfigError α) (Rail α) Unit
  | .stepper s => do
    let endstops ← InPlace.onCopy Rail.endstops (InPlace.each (Endstop.enlist s.ref))
    modify fun r => { r with endstops }
    modify fun r => { r with steppers := r.steppers ++ [s] }
  | .endstop e => do
    let refs := (← get).stepperRefs
    let e ← InPlace.onCopy (fun _ => e) (refs.forM Endstop.enlist)
    modify fun r => { r with endstops := r.endstops ++ [e] }
  | .others ss => do
    let endstops ← InPlace.onCopy Rail.endstops (InPlace.each (ss.forM Endstop.enlist))
    modify fun r => { r with endstops }

theorem join_eq_settle (x : Addition α) : join x = InPlace.settle fun r => r.add x := by
  funext r
  cases x with
  | stepper s =>
    have hjoin := congrFun (InPlace.onCopy_bind_modify Rail.endstops
      (InPlace.each (Endstop.enlist (α := α) s.ref))
      fun endstops (r : Rail α) => { r with endstops, steppers := r.steppers ++ [s] }) r
    refine hjoin.trans (InPlace.settle_congr ?_)
    rw [InPlace.outcome_each,Endstop.outcome_enlist]
    exact (r.addStepper_eq_map s).symm
  | endstop e =>
    have hjoin := congrFun (InPlace.onCopy_bind_modify (fun _ => e)
      (r.stepperRefs.forM (Endstop.enlist (α := α)))
      fun e (r : Rail α) => { r with endstops := r.endstops ++ [e] }) r
    refine hjoin.trans (InPlace.settle_congr ?_)
    rw [Endstop.outcome_forM_enlist]
    exact (r.addEndstop_eq_map e).symm
  | others ss =>
    have hjoin := congrFun (InPlace.onCopy_bind_modify Rail.endstops
      (InPlace.each (ss.forM (Endstop.enlist (α := α))))
      fun endstops (r : Rail α) => { r with endstops }) r
    refine hjoin.trans (InPlace.settle_congr ?_)
    rw [InPlace.outcome_each,Endstop.outcome_forM_enlist]
    exact (r.addSteppersToEndstops_eq_map ss).symm

structure Covered (r : Rail α) : Prop where
  stopped : ∀ e ∈ r.endstops, ∀ s ∈ r.steppers, e.hasStepper s.name.text = true
  orderly : ∀ e ∈ r.endstops, e.Orderly

section Add
variable {r r' : Rail α} {x : Addition α}

theorem covered_ofName [Scalar α] (name : String) : (ofName name : Rail α).Covered :=
  ⟨fun _ he => absurd he List.not_mem_nil,fun _ he => absurd he List.not_mem_nil⟩

theorem Covered.addStepper {s : Stepper α} (h : r.Covered) (hr : r.addStepper s = .ok r') :
    r'.Covered := by
  obtain ⟨endstops,hall,hr⟩ := bind_eq_ok.1 hr
  obtain rfl := pure_eq_ok.1 hr
  refine ⟨fun e' he' t ht => ?_,fun e' he' => ?_⟩ <;>
    obtain ⟨e,he,hs⟩ := exists_of_mem_mapM hall he' <;>
    have htook := Endstop.took_of_addStepper hs
  · rcases List.mem_append.1 ht with ht | ht
    · exact htook.kept _ (h.stopped e he t ht)
    · rw [List.mem_singleton.1 ht]
      exact htook.stopped s.ref List.mem_cons_self
  · exact htook.orderly (h.orderly e he)

theorem Covered.addEndstop {e : Endstop} (h : r.Covered) (he : e.Filled α)
    (hr : r.addEndstop e = .ok r') : r'.Covered := by
  obtain ⟨e',hs,hr⟩ := bind_eq_ok.1 hr
  obtain rfl := pure_eq_ok.1 hr
  have htook := Endstop.took_of_addSteppers hs
  refine ⟨fun f hf t ht => ?_,fun f hf => ?_⟩ <;> rcases List.mem_append.1 hf with hf | hf
  · exact h.stopped f hf t ht
  · rw [List.mem_singleton.1 hf]
    exact htook.stopped t.ref (List.mem_map_of_mem ht)
  · exact h.orderly f hf
  · rw [List.mem_singleton.1 hf]
    exact htook.orderly he.orderly

theorem Covered.addSteppersToEndstops {ss : List StepperRef} (h : r.Covered)
    (hr : r.addSteppersToEndstops ss = .ok r') : r'.Covered := by
  obtain ⟨endstops,hall,hr⟩ := bind_eq_ok.1 hr
  obtain rfl := pure_eq_ok.1 hr
  refine ⟨fun e' he' t ht => ?_,fun e' he' => ?_⟩ <;>
    obtain ⟨e,he,hs⟩ := exists_of_mem_mapM hall he' <;>
    have htook := Endstop.took_of_addSteppers hs
  · exact htook.kept _ (h.stopped e he t ht)
  · exact htook.orderly (h.orderly e he)

theorem Covered.add (h : r.Covered) (hx : ∀ e, x = .endstop e → e.Filled α)
    (hr : r.add x = .ok r') : r'.Covered := by
  cases x with
  | stepper s => exact h.addStepper hr
  | endstop e => exact h.addEndstop (hx e rfl) hr
  | others ss => exact h.addSteppersToEndstops hr

theorem add_isOk : (∃ r', r.add x = .ok r') ↔ ¬r.Clashes x := by
  cases x with
  | stepper s =>
    simp only [add,addStepper_eq_map,map_isOk,mapM_isOk,Endstop.addStepper_isOk,Clashes]
    push Not
    rfl
  | endstop e =>
    simp only [add,addEndstop_eq_map,map_isOk,Endstop.addSteppers_isOk,Clashes]
    push Not
    rfl
  | others ss =>
    simp only [add,addSteppersToEndstops_eq_map,map_isOk,mapM_isOk,Endstop.addSteppers_isOk,Clashes]
    push Not
    rfl

theorem add_eq_error {y : ConfigError α} (h : r.add x = .error y) :
    ∃ endstop own stepper other : Name,
      other ≠ own ∧ y = .controllerMismatch endstop own stepper other := by
  cases x with
  | stepper s =>
    rw [add,addStepper_eq_map,map_eq_error] at h
    obtain ⟨e,-,he⟩ := mapM_eq_error h
    exact ⟨_,_,_,_,Endstop.addStepper_eq_error.1 he⟩
  | endstop e =>
    rw [add,addEndstop_eq_map,map_eq_error] at h
    obtain ⟨s,-,hs⟩ := Endstop.addSteppers_eq_error h
    exact ⟨_,_,_,_,hs⟩
  | others ss =>
    rw [add,addSteppersToEndstops_eq_map,map_eq_error] at h
    obtain ⟨e,-,he⟩ := mapM_eq_error h
    obtain ⟨s,-,hs⟩ := Endstop.addSteppers_eq_error he
    exact ⟨_,_,_,_,hs⟩

end Add

def joinAll (r : Rail α) (xs : List (Addition α)) : Rail α :=
  xs.foldl (fun r x => match join x r with | .ok _ r' | .error _ r' => r') r

theorem joinAll_cons (r : Rail α) (x : Addition α) (xs : List (Addition α)) :
    r.joinAll (x :: xs) = (match r.add x with | .ok r' => r' | .error _ => r).joinAll xs := by
  rw [joinAll,List.foldl_cons,join_eq_settle,InPlace.settle]
  cases r.add x <;> rfl

theorem Covered.joinAll {r : Rail α} {xs : List (Addition α)} (h : r.Covered)
    (hx : ∀ e, .endstop e ∈ xs → e.Filled α) : (r.joinAll xs).Covered := by
  induction xs generalizing r with
  | nil => exact h
  | cons x xs ih =>
    have hxs (e : Endstop) (he : .endstop e ∈ xs) := hx e (List.mem_cons_of_mem x he)
    rw [joinAll_cons]
    cases hr : r.add x with
    | error y => exact ih h hxs
    | ok r' => exact ih (h.add (fun e he => hx e (he ▸ List.mem_cons_self)) hr) hxs

/-- Endstops cover their rail: whatever has come to a rail, each of its endstops stops each of its
motors, knows none twice and only those of its own controller. An addition is made as a whole, or it
is refused, where an endstop and a motor that it brings together sit on different controllers, and
leaves the rail as it was. -/
theorem endstops_cover [Scalar α] (name : String) (xs : List (Addition α))
    (h : ∀ e, .endstop e ∈ xs → e.Filled α) :
    ((ofName name).joinAll xs).Covered ∧
      ∀ (r : Rail α) (x : Addition α),
        (∀ r', join x r = .ok () r' ↔ r.add x = .ok r') ∧
        ((∃ y r', join x r = .error y r') ↔ r.Clashes x) ∧
        ∀ y r', join x r = .error y r' → r' = r ∧ ∃ endstop own stepper other : Name,
          other ≠ own ∧ y = .controllerMismatch endstop own stepper other := by
  refine ⟨(covered_ofName name).joinAll h,fun r x => ?_⟩
  rw [join_eq_settle]
  refine ⟨fun r' => InPlace.settle_eq_ok,?_,fun y r' hy => ?_⟩
  · simp only [InPlace.settle_eq_error,exists_and_left,exists_eq,and_true]
    rw [← not_iff_not,← add_isOk]
    cases r.add x <;> simp
  · obtain ⟨hy,rfl⟩ := InPlace.settle_eq_error.1 hy
    exact ⟨rfl,add_eq_error hy⟩

/-- Motors of two controllers. The endstop of the second one is refused, and so are two motors of
another rail, though the endstop that is there would have stopped the first of them. -/
theorem endstops_cover_two_controllers :
    let on (controller name : String) : StepperRef := ⟨.clip name,.clip controller⟩
    let e : Endstop := { Endstop.ofPin "x" "PA0" "mcu" with steppers := [on "mcu" "s"] }
    let x : Addition ℝ := .others [on "mcu" "b",on "board" "c"]
    let xs := [.endstop e,.stepper (.ofName "a" "mcu" 1),.endstop (.ofPin "y" "PB0" "board"),x]
    let r := (ofName "r").joinAll xs
    (∀ e, .endstop e ∈ xs → e.Filled ℝ) ∧ r.Covered ∧
      r.endstops = [{ e with steppers := [on "mcu" "s",on "mcu" "a"] }] ∧
      ∃ y, join x r = .error y r := by
  intro on e x xs r
  have hfilled (f : Endstop) (hf : .endstop f ∈ xs) : f.Filled ℝ := by
    obtain rfl | rfl : f = e ∨ f = .ofPin "y" "PB0" "board" := by simpa [xs,x] using hf
    · exact .addStepper (on "mcu" "s") (.ofPin "x" "PA0" "mcu") rfl
    · exact .ofPin "y" "PB0" "board"
  obtain ⟨hcovered,hjoin⟩ := endstops_cover "r" xs hfilled
  obtain ⟨-,hclash,hleft⟩ := hjoin r x
  obtain ⟨y,r',hy⟩ := hclash.2 ⟨_,List.mem_cons_self,on "board" "c",by simp,by decide⟩
  exact ⟨hfilled,hcovered,rfl,y,(hleft y r' hy).1 ▸ hy⟩

end Rail

end Gantry
