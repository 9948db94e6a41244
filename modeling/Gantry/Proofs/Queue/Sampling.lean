import Mathlib
import Gantry.Proofs.Queue.Guarded
import Gantry.Proofs.Queue.Swept

set_option autoImplicit false

namespace Gantry

namespace Samples

section Iterator
variable {α : Type} [Scalar α] {s : Samples α}

theorem rest_succ (s : Samples α) (k : Nat) : s.rest (k + 1) = (s.rest k).next.2 :=
  Function.iterate_succ_apply' _ k s

theorem rest_of_done (h : s.done = true) (k : Nat) : s.rest k = s := by
  induction k with
  | zero => rfl
  | succ k ih => rw [rest_succ,ih,next_of_done h]

theorem take_of_ended {n m : Nat} {sample : Nat → α × α}
    (h : ∀ k < n, (s.rest k).next.1 = some (sample k)) (hn : (s.rest n).next.1 = none)
    (hm : n ≤ m) : s.take m = (List.range n).map sample := by
  induction n generalizing s m sample with
  | zero => exact take_of_none hn m
  | succ n ih =>
    obtain ⟨m,rfl⟩ : ∃ j, m = j + 1 := ⟨m - 1,by omega⟩
    have hrest := @ih s.next.2 m (fun k => sample (k + 1)) (fun k hk => h (k + 1) (by omega)) hn
      (by omega)
    have hfirst : s.next.1 = some (sample 0) := h 0 (by omega)
    rw [take_of_some hfirst,hrest,List.range_succ_eq_map]
    simp [Function.comp_def]

end Iterator

section Range
variable {l : Timeline ℝ} {f : ℝ → ℝ} {start stop interval : ℝ} {last : ℕ}

noncomputable def time (start stop interval : ℝ) (last k : ℕ) : ℝ :=
  if k < last then start + k * interval else stop

/-- The number of the last sample: the first one that comes to the end, up to the slack. -/
def Last (start stop interval : ℝ) : ℕ → Prop :=
  IsLeast {k : ℕ | stop - timeEpsilon ≤ start + k * interval}

theorem exists_last (hi : 0 < interval) : ∃ last, Last start stop interval last := by
  classical
  obtain ⟨k,hk⟩ := exists_nat_ge ((stop - start) / interval)
  have hreach : stop - timeEpsilon ≤ start + k * interval := by
    have := (div_le_iff₀ hi).1 hk
    linarith [timeEpsilon_pos]
  have hex : ∃ k : ℕ, stop - timeEpsilon ≤ start + k * interval := ⟨k,hreach⟩
  exact ⟨Nat.find hex,Nat.find_spec hex,fun _ h => Nat.find_min' hex h⟩

theorem Last.lt (h : Last start stop interval last) {k : ℕ} (hk : k < last) :
    start + k * interval < stop - timeEpsilon :=
  not_le.1 fun hle => absurd (h.2 hle) (not_le.2 hk)

theorem Last.le_ceil (h : Last start stop interval last) (hi : 0 < interval) :
    last ≤ ⌈(stop - start) / interval⌉₊ := by
  refine h.2 ?_
  have hle := (div_le_iff₀ hi).1 (Nat.le_ceil ((stop - start) / interval))
  show stop - timeEpsilon ≤ start + ⌈(stop - start) / interval⌉₊ * interval
  linarith [timeEpsilon_pos]

theorem Last.time_strictMono (h : Last start stop interval last) (hi : 0 < interval) :
    StrictMonoOn (time start stop interval last) (Set.Iic last) := by
  intro j _ k hk hjk
  have hj : j < last := hjk.trans_le hk
  have hcast : (j : ℝ) < k := Nat.cast_lt.2 hjk
  unfold time
  rw [if_pos hj]
  split
  · nlinarith
  · linarith [h.lt hj,timeEpsilon_pos]

theorem Last.nextTime (h : Last start stop interval last) {k : ℕ} (hk : k ≤ last) :
    (⟨l,start,stop,interval,k,false⟩ : Samples ℝ).nextTime =
      (time start stop interval last k,decide (k = last)) := by
  unfold Samples.nextTime time
  rcases hk.lt_or_eq with hlt | rfl
  · have hshort := not_le.2 (h.lt hlt)
    simp [hshort,hlt,hlt.ne]
  · have hreach : stop - timeEpsilon ≤ start + k * interval := h.1
    simp [hreach]

theorem Last.next (h : Last start stop interval last) (hf : ∀ t, l.positionAt t = some (f t))
    {k : ℕ} (hk : k ≤ last) : (⟨l,start,stop,interval,k,false⟩ : Samples ℝ).next =
      (some (time start stop interval last k,f (time start stop interval last k)),
        ⟨l,start,stop,interval,k + 1,decide (k = last)⟩) := by
  have hn := h.nextTime (l := l) hk
  rw [next_of_some rfl (hf _),hn]

theorem Last.rest (h : Last start stop interval last) (hf : ∀ t, l.positionAt t = some (f t))
    {k : ℕ} (hk : k ≤ last) : (⟨l,start,stop,interval,0,false⟩ : Samples ℝ).rest k =
      ⟨l,start,stop,interval,k,false⟩ := by
  induction k with
  | zero => rfl
  | succ k ih =>
    have hlt : k < last := hk
    rw [rest_succ,ih hlt.le,h.next hf hlt.le]
    simp [hlt.ne]

theorem Last.rest_of_lt (h : Last start stop interval last) (hf : ∀ t, l.positionAt t = some (f t))
    {k : ℕ} (hk : last < k) : (⟨l,start,stop,interval,0,false⟩ : Samples ℝ).rest k =
      ⟨l,start,stop,interval,last + 1,true⟩ := by
  have hfirst : (⟨l,start,stop,interval,0,false⟩ : Samples ℝ).rest (last + 1) =
      ⟨l,start,stop,interval,last + 1,true⟩ := by
    rw [rest_succ,h.rest hf le_rfl,h.next hf le_rfl]
    simp
  obtain ⟨j,rfl⟩ := Nat.exists_eq_add_of_le' (Nat.succ_le_of_lt hk)
  have hsplit : (⟨l,start,stop,interval,0,false⟩ : Samples ℝ).rest (j + (last + 1)) =
      ((⟨l,start,stop,interval,0,false⟩ : Samples ℝ).rest (last + 1)).rest j :=
    Function.iterate_add_apply _ j (last + 1) _
  rw [hsplit,hfirst]
  exact rest_of_done rfl j

variable (f start stop interval last) in
structure Ends (s : Samples ℝ) : Prop where
  least : Last start stop interval last
  times : StrictMonoOn (time start stop interval last) (Set.Iic last)
  sample : ∀ k ≤ last, (s.rest k).next.1 =
    some (time start stop interval last k,f (time start stop interval last k))
  ended : ∀ k, last < k → (s.rest k).next.1 = none
  index : ∀ k, (s.rest k).index ≤ last + 1
  toList : s.toList = (List.range (last + 1)).map fun k =>
    (time start stop interval last k,f (time start stop interval last k))

theorem Last.ends (h : Last start stop interval last) (hi : 0 < interval)
    (hf : ∀ t, l.positionAt t = some (f t)) :
    Ends f start stop interval last ⟨l,start,stop,interval,0,false⟩ := by
  have hsample : ∀ k ≤ last, ((⟨l,start,stop,interval,0,false⟩ : Samples ℝ).rest k).next.1 =
      some (time start stop interval last k,f (time start stop interval last k)) := fun k hk => by
    rw [h.rest hf hk,h.next hf hk]
  have hended : ∀ k, last < k →
      ((⟨l,start,stop,interval,0,false⟩ : Samples ℝ).rest k).next.1 = none := fun k hk => by
    rw [h.rest_of_lt hf hk,next_of_done rfl]
  refine ⟨h,h.time_strictMono hi,hsample,hended,fun k => ?_,?_⟩
  · rcases Nat.lt_or_ge last k with hk | hk
    · rw [h.rest_of_lt hf hk]
    · rw [h.rest hf hk]
      exact hk.trans (Nat.le_succ last)
  · refine take_of_ended (fun k hk => hsample k (Nat.le_of_lt_succ hk)) (hended _ (Nat.lt_succ_self _)) ?_
    have hceil := h.le_ceil hi
    simp only [bound,Scalar.ceil_exact]
    omega

end Range

end Samples

namespace Ledger
open SegmentQueue Samples

theorem exists_positionAt {n : ℕ} {rs : List (Request ℝ)} {i : ℕ} {c : Channel ℝ}
    (hc : (run n rs).queue.channels[i]? = some c) (hi : (run n rs).acceptedOn i ≠ []) :
    ∃ f : ℝ → ℝ, ∀ t, c.positionAt t = some (f t) := by
  have hn : i < n := (channels_run n rs).1 ▸ (List.getElem?_eq_some_iff.1 hc).1
  obtain ⟨d,hd,hk⟩ := kept_run n rs hn
  obtain rfl : c = d := Option.some.inj (hc.symm.trans hd)
  have hne : c.timeline ≠ [] := List.reverse_ne_nil_iff.2 (hk.ne_nil hi)
  choose f hf using Timeline.positionAt_isSome (α := ℝ) hne
  exact ⟨f,hf⟩

/-- A range of a channel that ever received a segment is sampled to its end: the samples go on, in
strict order, until one comes to the end up to the slack; that one lies at the end, and there is none
after it. A range that ends before it starts has none. -/
theorem pull_ends {n : ℕ} {rs : List (Request ℝ)} {i : ℕ} (hi : (run n rs).acceptedOn i ≠ [])
    {start stop interval : ℝ} {s : Samples ℝ}
    (hs : (run n rs).queue.pull i start stop interval = .ok s) :
    ∃ f : ℝ → ℝ, (∀ t, (run n rs).queue.positionAt i t = .ok (some (f t))) ∧
      (start ≤ stop → ∃ last, s.Ends f start stop interval last) ∧
      (stop < start → ∀ k, (s.rest k).next.1 = none) := by
  obtain ⟨c,hc,⟨-,hpos⟩,-,-,-,rfl⟩ := pull_eq_ok.1 hs
  obtain ⟨f,hf⟩ := exists_positionAt hc hi
  refine ⟨f,fun t => by rw [positionAt_eq hc,hf],fun hle => ?_,fun hlt k => ?_⟩
  · obtain ⟨last,hlast⟩ : ∃ last, Last start stop interval last := exists_last hpos
    rw [decide_eq_false (not_lt.2 hle)]
    exact ⟨last,hlast.ends hpos hf⟩
  · rw [decide_eq_true hlt,rest_of_done rfl,next_of_done rfl]

noncomputable def resting : SegmentQueue ℝ := (ofChannels 1).push 0 (.hold 0 4 2)

theorem run_resting : run 1 [.add (.segment 0 (.hold 0 4 2))] =
    { queue := resting, accepted := [.segment 0 (.hold 0 4 2)] } := by
  have hvalid : (Segment.hold 0 4 2 : Segment ℝ).validate = .ok () :=
    Segment.validate_eq_ok ⟨le_rfl,zero_le_two,le_rfl⟩ (by simp [Segment.reachesCruise,Segment.hold])
  have hadd : (ofChannels 1 : SegmentQueue ℝ).add (.segment 0 (.hold 0 4 2)) = .ok resting :=
    (swept_ofChannels 0).append hvalid le_rfl
  have hreplay : replay 1 [.segment 0 (.hold 0 4 2)] = .ok resting := by simpa [replay] using hadd
  exact run_of_replay hreplay

/-- A second and a bit, sampled every half second: the third sample comes short of the end. -/
theorem pull_ends_of_resting :
    (run 1 [.add (.segment 0 (.hold 0 4 2))] : Ledger ℝ).acceptedOn 0 ≠ [] ∧
      ∃ s, (run 1 [.add (.segment 0 (.hold 0 4 2))] : Ledger ℝ).queue.pull 0 0 1.25 0.5 = .ok s ∧
        s.toList.map Prod.fst = [0,0.5,1,1.25] ∧ ∀ k, 4 ≤ k → (s.rest k).next.1 = none := by
  have hi : (run 1 [.add (.segment 0 (.hold 0 4 2))] : Ledger ℝ).acceptedOn 0 ≠ [] := by
    simp [run_resting,acceptedOn,Entry.on]
  have hs : (run 1 [.add (.segment 0 (.hold 0 4 2))] : Ledger ℝ).queue.pull 0 0 1.25 0.5 =
      .ok ⟨[.hold 0 4 2],0,1.25,0.5,0,decide ((1.25 : ℝ) < 0)⟩ := by
    rw [run_resting]
    exact pull_eq_ok.2 ⟨_,rfl,⟨rfl,by norm_num⟩,rfl,rfl,by simp [Channel.push],rfl⟩
  obtain ⟨f,-,hends,-⟩ := pull_ends hi hs
  obtain ⟨last,h⟩ := hends (by norm_num)
  have hlast : last = 3 := by
    refine h.least.unique ⟨?_,fun k hk => ?_⟩
    · norm_num [timeEpsilon_exact]
    · have hreach : (1.25 : ℝ) - timeEpsilon ≤ 0 + k * 0.5 := hk
      rw [timeEpsilon_exact] at hreach
      have hcast : (2 : ℝ) < k := by linarith
      exact_mod_cast hcast
  subst hlast
  refine ⟨hi,_,hs,?_,fun k hk => h.ended k hk⟩
  rw [h.toList]
  norm_num [List.range_succ,time]

end Ledger

end Gantry
