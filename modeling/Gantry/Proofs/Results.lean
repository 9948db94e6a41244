import Mathlib

set_option autoImplicit false

namespace Gantry

namespace Results
variable {ε α β : Type}

theorem ok_bind (a : α) (f : α → Except ε β) : (Except.ok a >>= f) = f a := rfl

theorem error_bind (e : ε) (f : α → Except ε β) : (Except.error e >>= f) = .error e := rfl

theorem bind_eq_ok {x : Except ε α} {f : α → Except ε β} {b : β} :
    x >>= f = .ok b ↔ ∃ a, x = .ok a ∧ f a = .ok b := by
  cases x <;> simp [bind,Except.bind]

theorem throw_bind_ne_ok {e : ε} {f : α → Except ε β} {b : β} :
    (throw e >>= f : Except ε β) ≠ .ok b := by
  simp [throw,throwThe,MonadExceptOf.throw,bind,Except.bind]

theorem check_eq_ok {x : Except ε Unit} {f : Unit → Except ε β} {b : β} :
    x >>= f = .ok b ↔ x = .ok () ∧ f () = .ok b := by
  cases x <;> simp [bind,Except.bind]

theorem map_eq_ok {x : Except ε α} {f : α → β} {b : β} :
    x.map f = .ok b ↔ ∃ a, x = .ok a ∧ f a = b := by
  cases x <;> simp [Except.map]

theorem map_isOk {x : Except ε α} {f : α → β} :
    (∃ b, x.map f = .ok b) ↔ ∃ a, x = .ok a := by
  cases x <;> simp [Except.map]

theorem map_eq_error {x : Except ε α} {f : α → β} {e : ε} :
    x.map f = .error e ↔ x = .error e := by
  cases x <;> simp [Except.map]

theorem pure_eq_ok {a b : α} : (pure a : Except ε α) = .ok b ↔ a = b := by
  simp [pure,Except.pure]

theorem forM_eq_ok {f : α → Except ε Unit} {xs : List α} :
    xs.forM f = .ok () ↔ ∀ x ∈ xs, f x = .ok () := by
  induction xs with
  | nil => exact ⟨fun _ _ h => absurd h List.not_mem_nil,fun _ => rfl⟩
  | cons x xs ih =>
    have hc : (x :: xs).forM f = f x >>= fun _ => xs.forM f := rfl
    rw [hc,bind_eq_ok,List.forall_mem_cons,← ih]
    exact ⟨fun ⟨_,hx,hs⟩ => ⟨hx,hs⟩,fun ⟨hx,hs⟩ => ⟨(),hx,hs⟩⟩

/-- A check of successive numbers is refused for what refuses the lowest of them. -/
theorem forM_range_eq_error {f : Nat → Except ε Unit} {n : Nat} {e : ε} :
    (List.range n).forM f = .error e ↔
      ∃ i, i < n ∧ f i = .error e ∧ ∀ j, j < i → f j = .ok () := by
  induction n with
  | zero => simp [pure,Except.pure]
  | succ n ih =>
    have hstep : (List.range (n + 1)).forM f = (List.range n).forM f >>= fun _ => f n := by
      rw [List.range_succ,List.forM_eq_forM,List.forM_append]
      simp
    rw [hstep]
    cases hr : (List.range n).forM f with
    | error e' =>
      rw [hr] at ih
      rw [error_bind,ih]
      constructor
      · rintro ⟨i,hi,h⟩
        exact ⟨i,by omega,h⟩
      · rintro ⟨i,hi,hf,hj⟩
        -- the last number was not reached, for otherwise all others had passed
        have hin : i ≠ n := by
          rintro rfl
          have hok := forM_eq_ok.2 fun j h => hj j (List.mem_range.1 h)
          rw [hok] at hr
          cases hr
        exact ⟨i,by omega,hf,hj⟩
    | ok u =>
      have hok := forM_eq_ok.1 hr
      rw [ok_bind]
      constructor
      · intro hn
        exact ⟨n,by omega,hn,fun j hj => hok j (List.mem_range.2 hj)⟩
      · rintro ⟨i,hi,hf,-⟩
        have hin : ¬i < n := fun h => by rw [hok i (List.mem_range.2 h)] at hf; cases hf
        rwa [show i = n by omega] at hf

theorem forM_eq_map_mapM {f : α → Except ε Unit} {g : α → Except ε β}
    {xs : List α} (h : ∀ x ∈ xs, f x = (g x).map fun _ => ()) :
    xs.forM f = (xs.mapM g).map fun _ => () := by
  induction xs with
  | nil => rfl
  | cons x xs ih =>
    obtain ⟨hx,hxs⟩ := List.forall_mem_cons.1 h
    have hl : (x :: xs).forM f = f x >>= fun _ => xs.forM f := rfl
    rw [hl,hx,ih hxs,List.mapM_cons]
    cases g x with
    | error e => rfl
    | ok y => cases xs.mapM g <;> rfl

theorem mapM_eq_ok {f : α → Except ε β} {g : α → β} {xs : List α}
    (h : ∀ x ∈ xs, f x = .ok (g x)) : xs.mapM f = .ok (xs.map g) := by
  induction xs with
  | nil => rfl
  | cons x xs ih =>
    rw [List.mapM_cons,h x List.mem_cons_self,ih fun y hy => h y (List.mem_cons_of_mem x hy)]
    rfl

theorem mapM_eq_ok_iff {f : α → Except ε β} {xs : List α} {ys : List β} :
    xs.mapM f = .ok ys ↔ List.Forall₂ (fun x y => f x = .ok y) xs ys := by
  induction xs generalizing ys with
  | nil => cases ys <;> simp [pure,Except.pure]
  | cons x xs ih =>
    simp only [List.mapM_cons,bind_eq_ok,pure_eq_ok,ih,List.forall₂_cons_left_iff]
    constructor
    · rintro ⟨y,hy,ys,hys,rfl⟩
      exact ⟨y,ys,hy,hys,rfl⟩
    · rintro ⟨y,ys,hy,hys,rfl⟩
      exact ⟨y,hy,ys,hys,rfl⟩

theorem exists_of_mem_mapM {f : α → Except ε β} {xs : List α} {ys : List β}
    (h : xs.mapM f = .ok ys) {y : β} (hy : y ∈ ys) : ∃ x ∈ xs, f x = .ok y := by
  have hall := mapM_eq_ok_iff.1 h
  clear h
  induction hall with
  | nil => cases hy
  | @cons x z xs ys hx _ ih =>
    rcases List.mem_cons.1 hy with rfl | hy
    · exact ⟨x,List.mem_cons_self,hx⟩
    · obtain ⟨u,hu,huy⟩ := ih hy
      exact ⟨u,List.mem_cons_of_mem x hu,huy⟩

theorem mapM_eq_error {f : α → Except ε β} {xs : List α} {e : ε} (h : xs.mapM f = .error e) :
    ∃ x ∈ xs, f x = .error e := by
  induction xs with
  | nil => cases h
  | cons x xs ih =>
    rw [List.mapM_cons] at h
    cases hx : f x with
    | error e' =>
      rw [hx] at h
      cases h
      exact ⟨x,List.mem_cons_self,hx⟩
    | ok y =>
      rw [hx,ok_bind] at h
      cases hxs : xs.mapM f with
      | error e' =>
        rw [hxs] at h
        cases h
        obtain ⟨u,hu,hue⟩ := ih hxs
        exact ⟨u,List.mem_cons_of_mem x hu,hue⟩
      | ok ys =>
        rw [hxs] at h
        cases h

theorem mapM_isOk {f : α → Except ε β} {xs : List α} :
    (∃ ys, xs.mapM f = .ok ys) ↔ ∀ x ∈ xs, ∃ y, f x = .ok y := by
  induction xs with
  | nil => exact ⟨fun _ _ hx => absurd hx List.not_mem_nil,fun _ => ⟨[],rfl⟩⟩
  | cons x xs ih =>
    rw [List.forall_mem_cons,← ih]
    simp only [List.mapM_cons,bind_eq_ok,pure_eq_ok]
    exact ⟨fun ⟨_,y,hy,ys,hys,_⟩ => ⟨⟨y,hy⟩,ys,hys⟩,
      fun ⟨⟨y,hy⟩,ys,hys⟩ => ⟨y :: ys,y,hy,ys,hys,rfl⟩⟩

/-- Two attempts come out alike: both are refused for the same reason, or both succeed with results
that belong together. -/
def Alike (R : α → β → Prop) (x : Except ε α) (y : Except ε β) : Prop :=
  (∃ e, x = .error e ∧ y = .error e) ∨ ∃ a b, x = .ok a ∧ y = .ok b ∧ R a b

namespace Alike
variable {R : α → β → Prop} {x : Except ε α} {y : Except ε β}

theorem refl {R : α → α → Prop} (h : ∀ a, x = .ok a → R a a) : Alike R x x := by
  cases x with
  | error e => exact Or.inl ⟨e,rfl,rfl⟩
  | ok a => exact Or.inr ⟨a,a,rfl,rfl,h a rfl⟩

theorem map {α' β' : Type} {S : α' → β' → Prop} {f : α → α'} {g : β → β'} (h : Alike R x y)
    (hf : ∀ a b, R a b → S (f a) (g b)) : Alike S (x.map f) (y.map g) := by
  rcases h with ⟨e,rfl,rfl⟩ | ⟨a,b,rfl,rfl,hab⟩
  · exact Or.inl ⟨e,rfl,rfl⟩
  · exact Or.inr ⟨f a,g b,rfl,rfl,hf a b hab⟩

theorem mapError {ε' : Type} (h : Alike R x y) (f : ε → ε') :
    Alike R (x.mapError f) (y.mapError f) := by
  rcases h with ⟨e,rfl,rfl⟩ | ⟨a,b,rfl,rfl,hab⟩
  · exact Or.inl ⟨f e,rfl,rfl⟩
  · exact Or.inr ⟨a,b,rfl,rfl,hab⟩

theorem mapM {γ : Type} {f : γ → Except ε α} {g : γ → Except ε β}
    {xs : List γ} (h : ∀ x ∈ xs, Alike R (f x) (g x)) :
    Alike (List.Forall₂ R) (xs.mapM f) (xs.mapM g) := by
  induction xs with
  | nil => exact Or.inr ⟨[],[],rfl,rfl,.nil⟩
  | cons x xs ih =>
    obtain ⟨hx,hxs⟩ := List.forall_mem_cons.1 h
    rw [List.mapM_cons,List.mapM_cons]
    rcases hx with ⟨e,hf,hg⟩ | ⟨a,b,hf,hg,hab⟩
    · rw [hf,hg]
      exact Or.inl ⟨e,rfl,rfl⟩
    · rw [hf,hg]
      rcases ih hxs with ⟨e,hf,hg⟩ | ⟨as,bs,hf,hg,habs⟩
      · rw [hf,hg]
        exact Or.inl ⟨e,rfl,rfl⟩
      · rw [hf,hg]
        exact Or.inr ⟨a :: as,b :: bs,rfl,rfl,.cons hab habs⟩

end Alike

/-- An attempt hinges on a condition: where it holds there is one result, and elsewhere a refusal for
a reason of one kind. -/
structure Hinged (E : ε → Prop) (P : Prop) (a : α) (x : Except ε α) : Prop where
  yields : P → x = .ok a
  refuses : ¬P → ∃ e, x = .error e ∧ E e

namespace Hinged
variable {E : ε → Prop} {P Q : Prop} {a : α} {b : β} {x : Except ε α} {f : α → Except ε β}

theorem ok : Hinged E True a (.ok a) := ⟨fun _ => rfl,fun h => absurd trivial h⟩

theorem congr (hx : Hinged E P a x) (h : P ↔ Q) : Hinged E Q a x := by rwa [← propext h]

theorem bind (hx : Hinged E P a x) (hf : Hinged E Q b (f a)) :
    Hinged E (P ∧ Q) b (x >>= f) where
  yields := fun ⟨hp,hq⟩ => by rw [hx.yields hp,ok_bind,hf.yields hq]
  refuses := fun hn => by
    by_cases hp : P
    · rw [hx.yields hp,ok_bind]
      exact hf.refuses fun hq => hn ⟨hp,hq⟩
    · obtain ⟨e,rfl,he⟩ := hx.refuses hp
      exact ⟨e,rfl,he⟩

theorem map (g : α → β) (hx : Hinged E P a x) : Hinged E P (g a) (x.map g) where
  yields := fun hp => by rw [hx.yields hp]; rfl
  refuses := fun hn => by
    obtain ⟨e,rfl,he⟩ := hx.refuses hn
    exact ⟨e,rfl,he⟩

theorem exists_eq_ok (hx : Hinged E P a x) : (∃ c, x = .ok c) ↔ P := by
  refine ⟨fun ⟨c,hc⟩ => ?_,fun hp => ⟨a,hx.yields hp⟩⟩
  by_contra hn
  obtain ⟨e,he,-⟩ := hx.refuses hn
  exact absurd (hc.symm.trans he) (by simp)

theorem eq_of_ok (hx : Hinged E P a x) {c : α} (hc : x = .ok c) : c = a :=
  Except.ok.inj (hc.symm.trans (hx.yields (hx.exists_eq_ok.1 ⟨c,hc⟩)))

theorem error (hx : Hinged E P a x) {e : ε} (he : x = .error e) : E e := by
  by_cases hp : P
  · exact absurd (he.symm.trans (hx.yields hp)) (by simp)
  · obtain ⟨e',he',h⟩ := hx.refuses hp
    cases he.symm.trans he'
    exact h

end Hinged

end Results

end Gantry
