import Mathlib
import Gantry.Proofs.Results

/-!
Programs in place: they change a state piece by piece and ask in between for what may be refused.
A refusal ends such a program and leaves the state as it is by then, so a program that stops halfway
shows it. An operation on whole states is the program that keeps the old state when it is refused.
-/
set_option autoImplicit false

namespace Gantry

namespace InPlace
variable {ε σ τ α β : Type}

def ask (f : σ → Except ε α) : EStateM ε σ α := fun s =>
  match f s with
  | .ok a => .ok a s
  | .error e => .error e s

def settle (f : σ → Except ε σ) : EStateM ε σ Unit := fun s =>
  match f s with
  | .ok s' => .ok () s'
  | .error e => .error e s

theorem settle_congr {f g : σ → Except ε σ} {s : σ} (h : f s = g s) : settle f s = settle g s := by
  unfold settle
  rw [h]

theorem settle_eq_ok {f : σ → Except ε σ} {s s' : σ} {u : Unit} :
    settle f s = .ok u s' ↔ f s = .ok s' := by
  unfold settle
  cases f s <;> simp

theorem settle_eq_error {f : σ → Except ε σ} {s s' : σ} {e : ε} :
    settle f s = .error e s' ↔ f s = .error e ∧ s' = s := by
  unfold settle
  cases f s <;> simp [eq_comm]

def paired (f : σ → Except ε α × σ) : EStateM ε σ α := fun s =>
  match f s with
  | (.ok a,s') => .ok a s'
  | (.error e,s') => .error e s'

theorem paired_eq_error {f : σ → Except ε α × σ} {s s' : σ} {e : ε} :
    paired f s = .error e s' ↔ f s = (.error e,s') := by
  obtain ⟨r,u,h⟩ : ∃ r u, f s = (r,u) := ⟨_,_,rfl⟩
  cases r <;> simp [paired,h]

theorem ask_bind_modify (f : σ → Except ε α) (g : σ → σ) :
    (ask f >>= fun _ => modify g) = settle fun s => (f s).map fun _ => g s := by
  funext s
  cases h : f s <;> simp [ask,settle,bind,EStateM.bind,modify,modifyGet,MonadStateOf.modifyGet,
    EStateM.modifyGet,Except.map,h]

theorem forM_ask {f : α → σ → Except ε Unit} (xs : List α) :
    (xs.forM fun x => ask (f x)) = ask fun s => xs.forM fun x => f x s := by
  induction xs with
  | nil => rfl
  | cons x xs ih =>
    funext s
    have hl : ((x :: xs).forM fun x => ask (f x)) =
      ask (f x) >>= fun _ => xs.forM fun x => ask (f x) := rfl
    have hr : ((x :: xs).forM fun x => f x s) = f x s >>= fun _ => xs.forM fun x => f x s := rfl
    rw [hl,ih]
    cases hx : f x s <;> simp [ask,bind,EStateM.bind,Except.bind,hx,hr]

theorem forM_modify {f : α → σ → σ} (xs : List α) :
    (xs.forM fun x => modify (f x) : EStateM ε σ PUnit) =
      modify fun s => xs.foldl (fun s x => f x s) s := by
  induction xs with
  | nil => rfl
  | cons x xs ih =>
    have hl : ((x :: xs).forM fun x => modify (f x) : EStateM ε σ PUnit) =
      modify (f x) >>= fun _ => xs.forM fun x => modify (f x) := rfl
    rw [hl,ih]
    rfl

/-- Lets a program work on a part of the state. What it has done by a refusal stays done. -/
def onPart (part : σ → τ) (put : τ → σ → σ) (p : EStateM ε τ α) : EStateM ε σ α := fun s =>
  match p (part s) with
  | .ok a t => .ok a (put t s)
  | .error e t => .error e (put t s)

theorem onPart_modify_bind_pure (part : σ → τ) (put : τ → σ → σ) (f : τ → τ) (a : α) :
    (onPart part put (modify f >>= fun _ => pure a) : EStateM ε σ α) =
      modify (fun s => put (f (part s)) s) >>= fun _ => pure a := rfl

/-- Lets a program work on the entries of a list in order. A refusal leaves the later ones alone. -/
def each (p : EStateM ε σ Unit) : List σ → EStateM.Result ε (List σ) Unit
  | [] => .ok () []
  | s :: ss =>
    match p s with
    | .error e s => .error e (s :: ss)
    | .ok _ s =>
      match each p ss with
      | .ok _ ss => .ok () (s :: ss)
      | .error e ss => .error e (s :: ss)

theorem each_modify (f : σ → σ) :
    each (modify f : EStateM ε σ PUnit) = (modify (List.map f) : EStateM ε (List σ) PUnit) := by
  funext ss
  induction ss with
  | nil => rfl
  | cons s ss ih =>
    have hs : (modify f : EStateM ε σ PUnit) s = .ok () (f s) := rfl
    simp only [each,hs,ih]
    rfl

def outcome (p : EStateM ε σ Unit) (s : σ) : Except ε σ :=
  match p s with
  | .ok _ s' => .ok s'
  | .error e _ => .error e

/-- Lets a program work on a copy of a part and gives the copy. A refusal drops it and leaves the
state as it is. -/
def onCopy (part : σ → τ) (p : EStateM ε τ Unit) : EStateM ε σ τ := ask fun s => outcome p (part s)

@[simp] theorem outcome_settle (f : σ → Except ε σ) : outcome (settle f) = f := by
  funext s
  simp only [outcome,settle]
  cases f s <;> rfl

theorem outcome_forM (p : α → EStateM ε σ Unit) (xs : List α) (s : σ) :
    outcome (xs.forM p) s = xs.foldlM (fun s x => outcome (p x) s) s := by
  induction xs generalizing s with
  | nil => rfl
  | cons x xs ih =>
    have hl : (x :: xs).forM p = p x >>= fun _ => xs.forM p := rfl
    rw [hl,List.foldlM_cons]
    simp only [← ih]
    simp only [outcome,bind,EStateM.bind]
    cases p x s <;> rfl

theorem outcome_each (p : EStateM ε σ Unit) (ss : List σ) :
    outcome (each p) ss = ss.mapM (outcome p) := by
  induction ss with
  | nil => rfl
  | cons s ss ih =>
    rw [List.mapM_cons,← ih]
    simp only [outcome,each]
    cases p s with
    | error e s' => rfl
    | ok u s' => cases each p ss <;> rfl

theorem onCopy_bind_modify (part : σ → τ) (p : EStateM ε τ Unit) (g : τ → σ → σ) :
    (onCopy part p >>= fun t => modify (g t)) =
      settle fun s => (outcome p (part s)).map fun t => g t s := by
  funext s
  simp only [onCopy,ask,settle,bind,EStateM.bind]
  cases outcome p (part s) <;> rfl

/-- A refusal at the second entry: the first one has been changed, the third one has not. -/
example : each (fun n : Nat => if n = 0 then .error () n else .ok () (n + 1)) [4,0,6] =
    .error () [5,0,6] := rfl

end InPlace

end Gantry
