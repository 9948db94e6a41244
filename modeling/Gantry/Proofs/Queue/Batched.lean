import Mathlib
import Gantry.Proofs.Queue.Reclaimed

/-!
Finalizing in batches. What one request to finalize passes on and reclaims, a later one that reclaims
no less would have passed on and reclaimed itself, also if segments were added in between. So a queue
that is finalized often holds in the end what it would hold if it had been finalized once.
-/
set_option autoImplicit false

namespace Gantry
variable {α : Type}

namespace Channel

theorem takeWhile_dropWhile_of_imp {β : Type} {p q : β → Bool} (h : ∀ x, p x = true → q x = true)
    (xs ys : List β) : xs.takeWhile p ++ (xs.dropWhile p ++ ys).takeWhile q = (xs ++ ys).takeWhile q ∧
      (xs.dropWhile p ++ ys).dropWhile q = (xs ++ ys).dropWhile q := by
  induction xs with
  | nil => simp
  | cons x xs ih => by_cases hx : p x = true <;> simp [hx,h,ih]

def extend (c : Channel α) (ms : List (Segment α)) : Channel α := { c with active := c.active ++ ms }

@[simp] theorem extend_nil (c : Channel α) : c.extend [] = c := by simp [extend]

@[simp] theorem extend_push (c : Channel α) (m : Segment α) (ms : List (Segment α)) :
    (c.push m).extend ms = c.extend (m :: ms) := by
  simp [extend,push]

variable [Scalar α] {r s : Option α} {after after' : α}

/-- What was dropped before more segments came would be dropped with them. -/
theorem drop_append (h : ∀ t, t < after → t < after') (ms ns : List (Segment α)) (r : Option α) :
    drop after' ((drop after ms r).1 ++ ns) (drop after ms r).2 = drop after' (ms ++ ns) r := by
  induction ms generalizing r with
  | nil => rfl
  | cons m ms ih =>
    cases ms with
    | nil => rfl
    | cons n ms =>
      by_cases hm : m.endTime < after
      · have hlate := h _ hm
        simpa [drop,hm,hlate] using ih (some (later r m.endTime))
      · simp [drop,hm]

theorem reclaim_extend (hr : ∀ m, ended r m = true → ended s m = true)
    (ha : ∀ t, t < after → t < after') (c : Channel α) (ms : List (Segment α)) :
    ((((c.retire r).reclaim after).extend ms).retire s).reclaim after' =
      ((c.extend ms).retire s).reclaim after' := by
  obtain ⟨htake,hdrop⟩ := takeWhile_dropWhile_of_imp hr c.active ms
  have hkept := drop_append ha (c.history ++ c.active.takeWhile (ended r))
    ((c.active.dropWhile (ended r) ++ ms).takeWhile (ended s)) c.reclaimed
  rw [List.append_assoc,htake] at hkept
  simp [reclaim,retire,extend,hkept,hdrop]

end Channel

namespace SegmentQueue

theorem ext {q p : SegmentQueue α} (hc : q.channels = p.channels) (hf : q.finalized = p.finalized) :
    q = p := by
  cases q
  cases p
  simp_all

def Request.isAdd : Request α → Bool
  | .add _ => true
  | .finalize _ _ => false

variable [Scalar α]

section Advance
variable [LawfulScalar α] (r : Option α) (before before' : α)

theorem ended_advance {m : Segment α} (h : Channel.ended r m = true) :
    Channel.ended (advance r before) m = true := by
  cases r with
  | none => cases h
  | some f =>
    by_cases hlt : f < before
    · have hslack := LawfulScalar.add_slack (LawfulScalar.le_of_lt hlt)
      simp only [Channel.ended,Bool.not_eq_true',decide_eq_false_iff_not] at h
      simp only [advance,hlt,if_true,Channel.ended,Bool.not_eq_true',decide_eq_false_iff_not]
      exact fun hm => h (LawfulScalar.lt_of_le_of_lt hslack hm)
    · simpa [advance,hlt] using h

omit [LawfulScalar α] in
theorem advance_of_not_lt {f t : α} (h : ¬f < t) : advance (some f) t = some f := if_neg h

omit [LawfulScalar α] in
theorem advance_of_lt {f t : α} (h : f < t) : advance (some f) t = some t := if_pos h

theorem advance_of_undefined {t : α} (h : ¬t ≤ t) : advance r t = r := by
  cases r with
  | none => simp [advance,Scalar.isNaN,h]
  | some f => exact advance_of_not_lt fun hlt => h (LawfulScalar.le_right (LawfulScalar.le_of_lt hlt))

theorem advance_advance :
    advance (advance r before) before' = advance r (Scalar.larger before before') := by
  -- An undefined `before` drops out of both sides.
  by_cases hb : before ≤ before
  · have hnan := LawfulScalar.isNaN_eq_false.2 hb
    by_cases hlt : before < before'
    · have hb' := LawfulScalar.le_right (LawfulScalar.le_of_lt hlt)
      have hnan' := LawfulScalar.isNaN_eq_false.2 hb'
      simp only [Scalar.larger,hlt,true_or,if_true]
      cases r with
      | none => simp [advance,hnan,hnan',hlt]
      | some f =>
        by_cases hf : f < before
        · have hf' := LawfulScalar.lt_of_lt_of_le hf (LawfulScalar.le_of_lt hlt)
          rw [advance_of_lt hf,advance_of_lt hlt,advance_of_lt hf']
        · rw [advance_of_not_lt hf]
    · simp only [Scalar.larger,hlt,hnan,Bool.false_eq_true,or_self,if_false]
      cases r with
      | none => simp [advance,hnan,hlt]
      | some f =>
        by_cases hf : f < before
        · rw [advance_of_lt hf,advance_of_not_lt hlt]
        · have hf' : ¬f < before' := fun h =>
            have hb' := LawfulScalar.le_right (LawfulScalar.le_of_lt h)
            hf (LawfulScalar.lt_of_lt_of_le h (LawfulScalar.le_of_not_lt hb hb' hlt))
          rw [advance_of_not_lt hf,advance_of_not_lt hf']
  · have hnan : Scalar.isNaN before = true := by simp [Scalar.isNaN,hb]
    simp only [Scalar.larger,hnan,or_true,if_true,advance_of_undefined r hb]

end Advance

def extend (q : SegmentQueue α) (ms : List (Nat × Segment α)) : SegmentQueue α :=
  ms.foldl (fun q (i,m) => q.push i m) q

def forChannel (i : Nat) (ms : List (Nat × Segment α)) : List (Segment α) :=
  ms.filterMap fun x => if x.1 = i then some x.2 else none

omit [Scalar α] in
theorem getElem?_extend (q : SegmentQueue α) (ms : List (Nat × Segment α)) (i : Nat) :
    (q.extend ms).channels[i]? = q.channels[i]?.map (·.extend (forChannel i ms)) := by
  induction ms generalizing q with
  | nil => simp [extend,forChannel]
  | cons x ms ih =>
    have hx := ih (q.push x.1 x.2)
    rw [getElem?_push] at hx
    by_cases h : x.1 = i
    · simpa [extend,forChannel,h,Function.comp_def] using hx
    · simpa [extend,forChannel,h] using hx

omit [Scalar α] in
theorem extend_append (q : SegmentQueue α) (ms ns : List (Nat × Segment α)) :
    q.extend (ms ++ ns) = (q.extend ms).extend ns := List.foldl_append

variable [LawfulScalar α]

/-- A queue that has been finalized, extended and finalized further has forgotten the first time. -/
theorem finalize_extend {after after' : α} (h : ∀ t, t < after → t < after') (q : SegmentQueue α)
    (before before' : α) (ms : List (Nat × Segment α)) :
    ((q.finalize before after).extend ms).finalize before' after' =
      (q.extend ms).finalize (Scalar.larger before before') after' := by
  have hf (p : SegmentQueue α) : (p.extend ms).finalized = p.finalized := finalized_foldl_push p ms
  have hfinalized : ((q.finalize before after).extend ms).finalized =
    advance q.finalized before := hf _
  have hboundary := advance_advance q.finalized before before'
  refine ext (List.ext_getElem? fun i => ?_) ?_
  · simp only [getElem?_finalize,getElem?_extend,Option.map_map,hfinalized,hf,← hboundary]
    refine congrArg (fun f => Option.map f _) (funext fun c => ?_)
    exact c.reclaim_extend (fun m => ended_advance _ before') h _
  · simp only [finalize,hf]
    exact hboundary

section Placed
variable {q p : SegmentQueue α} {e : Entry α}

def placed (q : SegmentQueue α) : Entry α → List (Nat × Segment α)
  | .segment i m => [(i,m)]
  | .move t mv => q.segmentsOf t mv

omit [LawfulScalar α] in
theorem add_extend (h : q.add e = .ok p) : p = q.extend (q.placed e) := by
  cases e with
  | segment i m => exact (append_eq_ok.1 h).2
  | move t mv => exact (appendMove_eq_ok.1 h).2

omit [LawfulScalar α] in
theorem Trimmed.placed (h : q.Trimmed p) (e : Entry α) : p.placed e = q.placed e := by
  cases e <;> simp [SegmentQueue.placed,segmentsOf,covered,h.length]

end Placed

end SegmentQueue

namespace Ledger
open SegmentQueue
variable [Scalar α] [LawfulScalar α]

/-- A queue that reclaimed no more than it will have to by a time. -/
theorem finalize_run {n : Nat} {rs : List (Request α)} {after : α}
    (h : ∀ b a, .finalize b a ∈ rs → a ≤ after) :
    (run n (rs.filter Request.isAdd)).queue.Trimmed (run n rs).queue ∧ ∀ ms before,
      ((run n rs).queue.extend ms).finalize before after =
        ((run n (rs.filter Request.isAdd)).queue.extend ms).finalize
          ((run n rs).befores.foldr Scalar.larger before) after := by
  induction rs using List.reverseRecOn with
  | nil => exact ⟨.refl _,fun _ _ => rfl⟩
  | append_singleton rs r ih =>
    obtain ⟨ht,hall⟩ := ih fun b a hmem => h b a (List.mem_append_left _ hmem)
    -- The trimmed queue refuses what the full one refuses, so additions run side by side.
    cases r with
    | add e =>
      simp only [List.filter_append,List.filter_singleton,Request.isAdd,cond_true,run_snoc]
      rcases ht.add e with ⟨err,hp,hq⟩ | ⟨p,q,hp,hq,hpq⟩
      · rw [record_add_of_error hp,record_add_of_error hq]
        exact ⟨ht,hall⟩
      · rw [record_add_of_ok hp,record_add_of_ok hq]
        refine ⟨hpq,fun ms before => ?_⟩
        simp only [add_extend hp,add_extend hq,ht.placed,← extend_append]
        exact hall _ before
    | finalize b a =>
      have ha := h b a (by simp)
      simp only [List.filter_append,List.filter_singleton,Request.isAdd,cond_false,List.append_nil,
        run_snoc]
      refine ⟨ht.trans (.finalize _ b a),fun ms before => ?_⟩
      have hlt : ∀ t, t < a → t < after := fun t htm => LawfulScalar.lt_of_lt_of_le htm ha
      simp only [record,List.foldr_append,List.foldr_cons,List.foldr_nil]
      rw [finalize_extend hlt]
      exact hall ms _

/-- Two requests to finalize, of which the second reclaims no less, come to one up to the later of
their times; the same request again changes nothing. However often a queue has been finalized between
additions, once it is finalized up to its latest time it holds what it would hold without. -/
theorem finalize_batched :
    (∀ (q : SegmentQueue α) (before before' after after' : α), after ≤ after' →
      (q.finalize before after).finalize before' after' =
        q.finalize (Scalar.larger before before') after') ∧
    (∀ (q : SegmentQueue α) (before after : α),
      (q.finalize before after).finalize before after = q.finalize before after) ∧
    ∀ (n : Nat) (rs : List (Request α)) (before after : α),
      (∀ b a, .finalize b a ∈ rs → a ≤ after) →
      (run n rs).queue.finalize before after =
        (run n (rs.filter Request.isAdd)).queue.finalize
          ((run n rs).befores.foldr Scalar.larger before) after := by
  refine ⟨fun q b b' a a' ha => ?_,fun q b a => ?_,fun n rs b a h => (finalize_run h).2 [] b⟩
  · exact finalize_extend (fun t ht => LawfulScalar.lt_of_lt_of_le ht ha) q b b' []
  · have hself : Scalar.larger b b = b := ite_self b
    exact (finalize_extend (fun t ht => ht) q b b []).trans (by rw [hself]; rfl)

def often : List (Request Float) :=
  [.add (.segment 0 ⟨0,0,0,1,0,5,5,0⟩),.finalize 1 0,.add (.segment 0 ⟨1,5,0,1,0,0,0,0⟩),
    .finalize 4 1.5,.add (.segment 0 ⟨2,5,0,1,0,5,5,0⟩),.finalize 2 1.5]

/-- The first of them is reclaimed on the way, the second one only in the end. -/
theorem finalize_batched_of_often : ((run 1 often).queue.kept 0).length = 2 ∧
    ((run 1 often).reclaimed 0).length = 1 ∧
    (run 1 often).queue.finalize 2 2.5 =
      (run 1 (often.filter Request.isAdd)).queue.finalize 4 2.5 ∧
    (((run 1 often).queue.finalize 2 2.5).kept 0).length = 1 := by
  have hmax : (run 1 often).befores.foldr Scalar.larger 2 = 4 := by decide +kernel
  have hall := (@finalize_batched Float _ _).2.2 1 often 2 2.5 fun b a h => by
    simp only [often,List.mem_cons,List.not_mem_nil,or_false] at h
    rcases h with h | h | h | h | h | h <;> cases h
    · decide +kernel
    · decide +kernel
    · decide +kernel
  rw [hmax] at hall
  refine ⟨?_,?_,hall,?_⟩
  · decide +kernel
  · decide +kernel
  · decide +kernel

end Ledger

end Gantry
