import Mathlib
import Gantry.Proofs.Transform.Commanded
import Gantry.Proofs.Transform.Turns

/-!
The position that a pivot remembers, and the one that is read in front of it. A read and a move
leave the two equal, and each slot with the distance from one of its stages. A change of the extra
axes reads nothing again: what is remembered then stays current exactly if the stages turn as
before.
-/
set_option autoImplicit false

namespace Gantry

variable {α : Type}

theorem ExtraAxes.lt_of_slot? {axes : ExtraAxes} {name : String} {i : Nat}
    (h : axes.slot? name = some i) : i < axes.coordinateLength := by
  obtain ⟨k,hk,rfl⟩ := Option.map_eq_some_iff.1 h
  obtain ⟨hlt,-⟩ := List.idxOf?_eq_some_iff.1 hk
  exact Nat.add_lt_add_left hlt base

namespace Pivot

theorem fits_resolve (p : Pivot α) (axes : ExtraAxes) :
    (p.resolve axes).Fits axes.coordinateLength := by
  refine ⟨Nat.le_trans (by decide) (Nat.le_add_right ExtraAxes.base _),fun s hs i hi => ?_⟩
  obtain ⟨t,-,rfl⟩ := List.mem_map.1 hs
  exact ExtraAxes.lt_of_slot? hi

theorem resolve_resolve (p : Pivot α) (axes axes' : ExtraAxes) :
    (p.resolve axes).resolve axes' = p.resolve axes' := by
  simp [resolve,Stage.resolve,Function.comp_def]

theorem Coaxial.bundled {p : Pivot α} (h : p.Coaxial) : Stage.Bundled p.stages where
  line s t e hst hs ht :=
    h t (hst.subset (by simp)) s (hst.subset (by simp)) (by simp [ht]) (by simp [hs])
  between s t u e hstu hs _ ht :=
    h t (hstu.subset (by simp)) s (hstu.subset (by simp)) ht (by simp [hs])

variable [Scalar α] {p : Pivot α} {u v d : List α} {e : Nat}

def found (p : Pivot α) (u : List α) : List (Nat × α) :=
  Stage.found p.axisToRadians (heading (u.drop 3)) p.stages (.ofCoord u)

def Remembers (p : Pivot α) : Prop :=
  ∀ e r, (e,r) ∈ p.found p.lastPos → p.lastRadii2[e]? = some r

theorem exists_found_forward (hp : p.Registered) (h : p.coords u .forward = .ok (v,d))
    (hs : ∃ s ∈ p.stages, s.slot = some e) : ∃ r, d[e]? = some r ∧ (e,r) ∈ p.found u := by
  obtain ⟨before,m,after,hl,hm,hafter⟩ := Stage.exists_last_of_slot hs
  exact ⟨_,getElem?_coords hp h hl hm hafter,Stage.mem_found.2 ⟨before,m,after,hl,hm,rfl⟩⟩

theorem sends_congr {q : Pivot α} (hp : p.Registered) (hq : q.Registered) (hu : q.Fits u.length)
    (hw : walk p.axisToRadians (heading (u.drop 3)) p.stages (.ofCoord u) =
      walk q.axisToRadians (heading (u.drop 3)) q.stages (.ofCoord u)) (h : p.Sends u v) :
    q.Sends u v := by
  obtain ⟨d,h⟩ := h
  obtain ⟨v',d',h'⟩ := hu.coords .forward
  obtain ⟨x,y,z,rest,a,rfl,rfl,ha⟩ := coords_eq hp h
  obtain ⟨_,_,_,_,b,hu',rfl,hb⟩ := coords_eq hq h'
  cases hu'
  obtain rfl : a = b := ha.trans (hw.trans hb.symm)
  exact ⟨d',h'⟩

end Pivot

namespace Transform

/-- What becomes of a chain by reads, by moves to coordinates of a length, and by changes of the
extra axes to some of a set, any number of times. -/
inductive Used [Scalar α] (n : Nat) (A : Set ExtraAxes) (t : Transform α) : Transform α → Prop
  | start : Used n A t t
  | read {t' : Transform α} (h : Used n A t t') : Used n A t t'.getPosition.2
  | move {t' : Transform α} (h : Used n A t t') {target : List α} (hn : target.length = n)
      (speed : α) : Used n A t (t'.moveTo target speed).2
  | update {t' : Transform α} (h : Used n A t t') {axes : ExtraAxes} (ha : axes ∈ A) :
      Used n A t (t'.resolve axes)

def Current [Scalar α] : Transform α → Prop
  | .over p next => (Transform.over p next).getPosition.1 = .ok p.lastPos ∧ p.Remembers
  | _ => False

theorem Current.exists_read [Scalar α] {t : Transform α} (h : t.Current) :
    ∃ pos, t.getPosition.1 = .ok pos := by
  cases t with
  | «over» p next => exact ⟨p.lastPos,h.1⟩
  | _ => exact h.elim

end Transform

/-- Whatever is done with a pivot over the end of a chain at coordinates of a length, from its first
read on it is current after every call. -/
def Pivot.StaysCurrent [Scalar α] (p : Pivot α) (n : Nat) (A : Set ExtraAxes) : Prop :=
  ∀ base t u, base.position.length = n → Transform.Used n A (.over p (.terminal base)) t →
    Transform.Used n A t.getPosition.2 u → u.Current

namespace Pivot

structure TurnsAlike (p : Pivot α) (n : Nat) (q : Pivot α) : Prop where
  registered : q.Registered
  fits : q.Fits n
  factor : q.axisToRadians = p.axisToRadians
  resolve : ∀ axes, (q.resolve axes).stages = (p.resolve axes).stages
  exchanged : Stage.Exchanged (Stage.turning p.stages) (Stage.turning q.stages)

section TurnsAlike
variable {p q r : Pivot α} {n : Nat} {axes : ExtraAxes}

theorem turnsAlike_self (hp : p.Registered) (hn : p.Fits n) : p.TurnsAlike n p :=
  ⟨hp,hn,rfl,fun _ => rfl,.refl _⟩

theorem TurnsAlike.resolved (h : p.TurnsAlike n q) (hn : axes.coordinateLength = n)
    (hex : Stage.Exchanged (Stage.turning p.stages) (Stage.turning (p.resolve axes).stages)) :
    p.TurnsAlike n (q.resolve axes) where
  registered := q.registered_resolve axes
  fits := hn ▸ q.fits_resolve axes
  factor := h.factor
  resolve axes' := by rw [resolve_resolve,h.resolve]
  exchanged := by rwa [h.resolve]

theorem TurnsAlike.follows [Scalar α] (h : p.TurnsAlike n q) (hq : q.Follows r) :
    p.TurnsAlike n r := by
  obtain rfl | ⟨_,_,rfl,-⟩ := hq
  · exact h
  · exact ⟨h.registered,h.fits,h.factor,h.resolve,h.exchanged⟩

end TurnsAlike

end Pivot

section Exact
variable [Trigonometry]

namespace Pivot
variable {p q q' : Pivot ℝ} {n e : Nat} {u v d : List ℝ} {r r' : ℝ} {base : Terminal ℝ}

theorem getElem?_coords_reverse (hp : p.Registered) (h : p.coords u .reverse = .ok (v,d))
    {before after : List (Stage ℝ)} {s : Stage ℝ} (hl : p.stages = before ++ s :: after)
    (hs : s.slot = some e) (hbefore : ∀ t ∈ before, t.slot ≠ some e) :
    d[e]? = some (s.radius2 (walk p.axisToRadians (heading (v.drop 3)) before (.ofCoord v))) := by
  have hback : p.along .reverse = after.reverse ++ s :: before.reverse := by simp [along,hl]
  rw [getElem?_coords hp h hback hs fun t ht => hbefore t (List.mem_reverse.1 ht)]
  -- what the stage finds then is what it has turned
  have hpoint := ofCoord_coords hp h
  have hdrop : v.drop 3 = u.drop 3 := by
    obtain ⟨x,y,z,rest,q,rfl,rfl,-⟩ := coords_eq hp h
    rfl
  rw [hback,walk_append,walk_cons] at hpoint
  have hturned := walk_neg_walk (-p.axisToRadians) (heading (u.drop 3))
    (s.place (p.factor .reverse) (heading (u.drop 3))
      (walk (p.factor .reverse) (heading (u.drop 3)) after.reverse (.ofCoord u))) before.reverse
  rw [neg_neg,List.reverse_reverse] at hturned
  rw [hdrop,hpoint]
  exact congrArg some ((congrArg s.radius2 hturned).trans (Stage.radius2_place ..)).symm

theorem exists_found_reverse (hp : p.Registered) (h : p.coords u .reverse = .ok (v,d))
    (hs : ∃ s ∈ p.stages, s.slot = some e) : ∃ r, d[e]? = some r ∧ (e,r) ∈ p.found v := by
  obtain ⟨before,s,after,hl,hs,hbefore⟩ := Stage.exists_first_of_slot hs
  exact ⟨_,getElem?_coords_reverse hp h hl hs hbefore,
    Stage.mem_found.2 ⟨before,s,after,hl,hs,rfl⟩⟩

theorem Marked.exists_found (hm : p.Marked) (hp : p.Registered)
    (hs : ∃ s ∈ p.stages, s.slot = some e) :
    ∃ r, p.lastRadii2[e]? = some r ∧ (e,r) ∈ p.found p.lastPos := by
  obtain ⟨v,h⟩ | ⟨u,h⟩ := hm
  · exact exists_found_forward hp h hs
  · exact exists_found_reverse hp h hs

theorem TurnsAlike.found_perm (h : p.TurnsAlike n q) (u : List ℝ) :
    (p.found u).Perm (q.found u) := by
  have hperm := h.exchanged.found_perm p.axisToRadians (heading (u.drop 3)) (.ofCoord u)
  rw [Stage.found_turning,Stage.found_turning] at hperm
  rwa [found,found,h.factor]

theorem TurnsAlike.remembers (h : p.TurnsAlike n q) (hb : Stage.Bundled p.stages) (hm : q.Marked) :
    q.Remembers := by
  intro e r hr
  obtain ⟨before,s,after,hl,hs,-⟩ := Stage.mem_found.1 hr
  obtain ⟨r',hr',hfound⟩ := hm.exists_found h.registered ⟨s,by simp [hl],hs⟩
  rw [hr']
  exact congrArg some (hb.found_unique ((h.found_perm _).mem_iff.2 hfound)
    ((h.found_perm _).mem_iff.2 hr))

theorem TurnsAlike.sends (h : p.TurnsAlike n q) (h' : p.TurnsAlike n q') (hu : u.length = n)
    (hs : q.Sends u v) : q'.Sends u v := by
  refine sends_congr h.registered h'.registered (hu ▸ h'.fits) ?_ hs
  have hwalk := (h.exchanged.symm.trans h'.exchanged).walk_eq p.axisToRadians
    (heading (u.drop 3)) (.ofCoord u)
  rw [Stage.walk_turning,Stage.walk_turning] at hwalk
  rwa [h.factor,h'.factor]

theorem current_iff (hp : p.Registered) : (Transform.over p (.terminal base)).Current ↔
    p.Sends p.lastPos base.position ∧ p.Remembers := by
  refine and_congr ((Transform.reads_iff hp).trans ⟨?_,fun hs => ⟨_,rfl,hs⟩⟩) Iff.rfl
  rintro ⟨c,hc,hs⟩
  cases hc
  exact hs

end Pivot

namespace Transform
variable {p q : Pivot ℝ} {t t' : Transform ℝ} {n : Nat} {axes : ExtraAxes} {A : Set ExtraAxes}
  {target : List ℝ}

def Carries (p : Pivot ℝ) (n : Nat) (t : Transform ℝ) : Prop :=
  ∃ q base, t = .over q (.terminal base) ∧ base.position.length = n ∧ p.TurnsAlike n q

theorem Carries.read (h : t.Carries p n) (hb : Stage.Bundled p.stages) :
    t.getPosition.2.Carries p n ∧ t.getPosition.2.Current := by
  obtain ⟨q,base,rfl,hbase,hq⟩ := h
  obtain ⟨pos,d,hc⟩ := (hbase ▸ hq.fits : q.Fits base.position.length).coords .reverse
  have hread : (Transform.over q (.terminal base)).getPosition.2 =
      .over (q.arrive pos d) (.terminal base) := by
    simp [getPosition,hc]
  have hm : (q.arrive pos d).Marked := .inr ⟨base.position,hc⟩
  have harrive := hq.follows (.inr ⟨pos,d,rfl,hm⟩)
  obtain ⟨e,he⟩ := Pivot.coords_undone hq.registered hc
  rw [hread]
  refine ⟨⟨_,base,rfl,hbase,harrive⟩,(Pivot.current_iff harrive.registered).2 ⟨⟨e,he⟩,?_⟩⟩
  exact harrive.remembers hb hm

theorem Carries.moveTo_isOk (h : t.Carries p n) (hn : target.length = n) (speed : ℝ) :
    ∃ t', t.moveTo target speed = (.ok (),t') ∧ t'.Level n := by
  obtain ⟨q,base,rfl,hbase,hq⟩ := h
  obtain ⟨t',hr,hlevel⟩ : ∃ t', (Transform.over q (.terminal base)).refresh target.length =
      (.ok (),t') ∧ t'.Level n := by
    by_cases hlen : q.lastPos.length = target.length
    · exact ⟨.over q (.terminal base),by simp [refresh,hlen],hlen.trans hn,hq.fits,hbase⟩
    · have hreach : (Transform.over q (.terminal base)).Reaches n := ⟨hq.fits,trivial⟩
      obtain ⟨pos,t',ht,rfl⟩ := hreach.getPosition fun b hb => by cases hb; exact hbase
      exact ⟨t',by simp [refresh,hlen,ht,Except.map],level_of_getPosition ht⟩
  have hdepth : t'.depth = 1 := by
    have hbare := (kept_refresh speed target.length (Transform.over q (.terminal base))).bare
    rw [hr] at hbare
    exact depth_of_bare hbare
  -- a second look at the length finds it as it should be
  have hagain : (Transform.over q (.terminal base)).moveTo target speed =
      moveWithin 1 speed target t' := by
    rw [moveTo,show (Transform.over q (.terminal base)).depth = 1 from rfl]
    unfold moveWithin
    rw [hr,hn,hlevel.refresh_self]
  rw [hagain]
  exact hlevel.moveWithin_isOk hdepth.le hn speed

theorem Carries.move (h : t.Carries p n) (hb : Stage.Bundled p.stages) (hn : target.length = n)
    (speed : ℝ) : (t.moveTo target speed).2.Carries p n ∧ (t.moveTo target speed).2.Current := by
  obtain ⟨t',hm,hlevel⟩ := h.moveTo_isOk hn speed
  obtain ⟨q,base,rfl,hbase,hq⟩ := h
  obtain ⟨q',next,ht,hfollows,hmarked⟩ := follows_moveTo q (.terminal base) target speed
  have hbare := (kept_moveTo (Transform.over q (.terminal base)) target speed).bare
  rw [hm] at ht hbare hmarked ⊢
  obtain rfl : t' = .over q' next := ht
  have hlike := hq.follows hfollows
  cases next with
  | detached p => cases hlevel.2.2
  | «over» p next => simp [bare] at hbare
  | terminal base' =>
    obtain ⟨⟨hlast,image,hsends,hrests⟩,-⟩ := rests_of_moveWithin hm
    refine ⟨⟨q',base',rfl,hlevel.2.2,hlike⟩,(Pivot.current_iff hlike.registered).2
      ⟨?_,hlike.remembers hb (hmarked rfl)⟩⟩
    rw [hlast,show base'.position = image from hrests]
    exact hsends

theorem Carries.update (h : t.Carries p n) (hn : axes.coordinateLength = n)
    (hex : Stage.Exchanged (Stage.turning p.stages) (Stage.turning (p.resolve axes).stages)) :
    (t.resolve axes).Carries p n ∧ (t.Current → (t.resolve axes).Current) := by
  obtain ⟨q,base,rfl,hbase,hq⟩ := h
  have hresolved := hq.resolved hn hex
  refine ⟨⟨_,base,rfl,hbase,hresolved⟩,fun hc => ?_⟩
  obtain ⟨hsends,hrem⟩ := (Pivot.current_iff hq.registered).1 hc
  refine (Pivot.current_iff hresolved.registered).2 ⟨hq.sends hresolved ?_ hsends,fun e r hr => ?_⟩
  · obtain ⟨d,hd⟩ := hsends
    exact (Pivot.length_coords hd).symm.trans hbase
  · exact hrem e r ((hq.found_perm _).mem_iff.1 ((hresolved.found_perm _).mem_iff.2 hr))

theorem Carries.used (h : t.Carries p n) (hb : Stage.Bundled p.stages)
    (hA : ∀ axes ∈ A, axes.coordinateLength = n)
    (hex : ∀ axes ∈ A, Stage.Exchanged (Stage.turning p.stages)
      (Stage.turning (p.resolve axes).stages)) (hu : Used n A t t') :
    t'.Carries p n ∧ (t.Current → t'.Current) := by
  induction hu with
  | start => exact ⟨h,id⟩
  | read _ ih =>
    obtain ⟨hcarries,hcurrent⟩ := ih.1.read hb
    exact ⟨hcarries,fun _ => hcurrent⟩
  | move _ hn speed ih =>
    obtain ⟨hcarries,hcurrent⟩ := ih.1.move hb hn speed
    exact ⟨hcarries,fun _ => hcurrent⟩
  | update _ ha ih =>
    obtain ⟨hcarries,hcurrent⟩ := ih.1.update (hA _ ha) (hex _ ha)
    exact ⟨hcarries,hcurrent ∘ ih.2⟩

end Transform

theorem Pivot.staysCurrent_of_exchanged {p : Pivot ℝ} {n : Nat} {A : Set ExtraAxes}
    (hp : p.Registered) (hn : p.Fits n) (hb : Stage.Bundled p.stages)
    (hA : ∀ axes ∈ A, axes.coordinateLength = n)
    (hex : ∀ axes ∈ A, Stage.Exchanged (Stage.turning p.stages)
      (Stage.turning (p.resolve axes).stages)) : p.StaysCurrent n A := by
  intro base t u hbase ht hu
  have hcarries : (Transform.over p (.terminal base)).Carries p n :=
    ⟨p,base,rfl,hbase,turnsAlike_self hp hn⟩
  obtain ⟨hread,hcurrent⟩ := ((hcarries.used hb hA hex ht).1).read hb
  exact (hread.used hb hA hex hu).2 hcurrent

end Exact

namespace Pivot
variable {p q : Pivot ℝ} {n k : Nat} {A : Set ExtraAxes} {θ : Nat → ℝ} {v : Vector3 ℝ}

theorem heading_coordinate (hp : p.Registered) (hn : p.Fits (k + 3)) {s : Stage ℝ}
    (hs : s ∈ p.stages) {i : Nat} (hi : s.slot = some i) :
    heading ((coordinate v θ k).drop 3) i = θ i := by
  rw [heading_drop _ ((hp s hs).three_le hi)]
  exact getD_coordinate_of_fits hp hn v θ s hs i hi

theorem found_coordinate (hp : p.Registered) (hn : p.Fits (k + 3)) (v : Vector3 ℝ) (θ : Nat → ℝ) :
    p.found (coordinate v θ k) = Stage.found p.axisToRadians θ p.stages v :=
  Stage.found_congr fun _ hs _ hi => heading_coordinate hp hn hs hi

theorem ofCoord_of_sends (hp : p.Registered) (hn : p.Fits (k + 3)) {c : List ℝ}
    (h : p.Sends (coordinate v θ k) c) :
    Vector3.ofCoord c = walk p.axisToRadians θ p.stages v := by
  obtain ⟨d,h⟩ := h
  rw [ofCoord_coords hp h]
  exact walk_congr _ fun _ hs _ hi => heading_coordinate hp hn (mem_along.1 hs) hi

theorem exists_read (hp : p.Registered) {u : List ℝ} (hu : p.Fits u.length) :
    ∃ base d, base.position.length = u.length ∧
      (Transform.over p (.terminal base)).getPosition.2 =
        .over (p.arrive u d) (.terminal base) := by
  obtain ⟨c,d,hc⟩ := hu.coords .forward
  obtain ⟨e,he⟩ := @coords_undone .real _ _ _ _ _ hp hc
  have he : p.coords c .reverse = .ok (u,e) := he
  exact ⟨⟨c,#[]⟩,e,length_coords hc,by simp [Transform.getPosition,he]⟩

theorem StaysCurrent.fits (h : p.StaysCurrent n A) : p.Fits n := by
  obtain ⟨pos,hpos⟩ := (h ⟨List.replicate n 0,#[]⟩ _ _ (by simp) .start .start).exists_read
  rw [Transform.getPosition_getPosition,Transform.getPosition_over,Results.bind_eq_ok] at hpos
  obtain ⟨c,hc,hpos⟩ := hpos
  obtain rfl : List.replicate n 0 = c := Except.ok.inj hc
  obtain ⟨⟨pos,d⟩,hcoords,-⟩ := Results.map_eq_ok.1 hpos
  simpa using coords_fits hcoords

theorem StaysCurrent.read (h : p.StaysCurrent n A) (hp : p.Registered) {u : List ℝ}
    (hu : u.length = n) : ∃ base d, (Transform.over (p.arrive u d) (.terminal base)).Current ∧
      ∀ axes ∈ A, (Transform.over ((p.resolve axes).arrive u d) (.terminal base)).Current := by
  subst hu
  obtain ⟨base,d,hbase,hread⟩ := exists_read hp h.fits
  refine ⟨base,d,hread ▸ h base _ _ hbase .start .start,fun axes ha => ?_⟩
  have hupdate := h base _ _ hbase .start (.update .start ha)
  rw [hread] at hupdate
  exact hupdate

theorem bundled_of_remembers (hp : p.Registered) (hn : p.Fits (k + 3)) (hf : p.axisToRadians ≠ 0)
    (h : ∀ u : List ℝ, u.length = k + 3 → ∃ d, (p.arrive u d).Remembers) :
    Stage.Bundled p.stages := by
  refine Stage.bundled_of_found hf fun θ v e r r' hr hr' => ?_
  obtain ⟨d,hd⟩ := h (coordinate v θ k) (by simp)
  have hfound : (p.arrive (coordinate v θ k) d).found (coordinate v θ k) =
      Stage.found p.axisToRadians θ p.stages v := found_coordinate hp hn v θ
  rw [← hfound] at hr hr'
  exact Option.some.inj ((hd e r hr).symm.trans (hd e r' hr'))

theorem StaysCurrent.bundled (h : p.StaysCurrent (k + 3) A) (hp : p.Registered)
    (hf : p.axisToRadians ≠ 0) : Stage.Bundled p.stages := by
  refine bundled_of_remembers hp h.fits hf fun u hu => ?_
  obtain ⟨base,d,hcurrent,-⟩ := h.read hp hu
  exact ⟨d,hcurrent.2⟩

/-- What is read before and after a change of the extra axes shows the turns of both. -/
theorem StaysCurrent.exchanged (h : p.StaysCurrent (k + 3) A) (hp : p.Registered)
    (hf : p.axisToRadians ≠ 0) {axes : ExtraAxes} (ha : axes ∈ A) :
    Stage.Exchanged (Stage.turning p.stages) (Stage.turning (p.resolve axes).stages) := by
  have hp' := p.registered_resolve axes
  have hsends {u : List ℝ} (hu : u.length = k + 3) :
      ∃ c, p.Sends u c ∧ (p.resolve axes).Sends u c := by
    obtain ⟨base,d,hcurrent,hupdated⟩ := h.read hp hu
    exact ⟨base.position,((@current_iff .real (p.arrive u d) _ hp).1 hcurrent).1,
      ((@current_iff .real ((p.resolve axes).arrive u d) _ hp').1 (hupdated axes ha)).1⟩
  have hfits : (p.resolve axes).Fits (k + 3) := by
    obtain ⟨c,-,d,hd⟩ := hsends (length_coordinate ⟨0,0,0⟩ (fun _ => 0) k)
    simpa using coords_fits hd
  have hbundled : Stage.Bundled (p.resolve axes).stages := by
    refine bundled_of_remembers hp' hfits hf fun u hu => ?_
    obtain ⟨base,d,-,hupdated⟩ := h.read hp hu
    exact ⟨d,(hupdated axes ha).2⟩
  refine Stage.exchanged_of_walk_eq (Stage.bundled_turning.2 (h.bundled hp hf))
    (Stage.bundled_turning.2 hbundled) hf (fun s hs => (List.mem_filter.1 hs).2)
    (fun s hs => (List.mem_filter.1 hs).2) fun θ v => ?_
  obtain ⟨c,hc,hc'⟩ := hsends (length_coordinate v θ k)
  rw [Stage.walk_turning,Stage.walk_turning,← ofCoord_of_sends hp h.fits hc]
  exact ofCoord_of_sends hp' hfits hc'

/-- With any sine and cosine, or with the real ones alone, a pivot stays current over the end of a
chain exactly if the coordinates reach its slots, its stages are in bundles, and each of the changes
of the extra axes leaves the turns as they are but for exchanges of neighbours around one line. -/
theorem staysCurrent_tfae (hp : p.Registered) (hf : p.axisToRadians ≠ 0)
    (hA : ∀ axes ∈ A, axes.coordinateLength = n) :
    [p.Fits n ∧ Stage.Bundled p.stages ∧ ∀ axes ∈ A,
        Stage.Exchanged (Stage.turning p.stages) (Stage.turning (p.resolve axes).stages),
      ∀ T : Trigonometry, @StaysCurrent ℝ (@circularScalar T) p n A,
      p.StaysCurrent n A].TFAE := by
  tfae_have 1 → 2 := fun ⟨hn,hb,hex⟩ T => @staysCurrent_of_exchanged T p n A hp hn hb hA hex
  tfae_have 2 → 3 := fun h => h .real
  tfae_have 3 → 1 := by
    intro h
    obtain ⟨k,rfl⟩ := Nat.exists_eq_add_of_le' h.fits.1
    exact ⟨h.fits,h.bundled hp hf,fun axes ha => h.exchanged hp hf ha⟩
  tfae_finish

noncomputable def twins : Pivot ℝ where
  stages := [⟨"a",.z,⟨0,0,0⟩,none⟩,⟨"b",.z,⟨0,0,0⟩,none⟩]
  invResolution := 1
  axisToRadians := 2

theorem staysCurrent_twins : (twins.resolve ⟨["a","b"]⟩).Registered ∧
    (twins.resolve ⟨["a","b"]⟩).axisToRadians ≠ 0 ∧
    (∀ axes ∈ ({⟨["a","b"]⟩,⟨["b","a"]⟩} : Set ExtraAxes), axes.coordinateLength = 6) ∧
    (twins.resolve ⟨["a","b"]⟩).StaysCurrent 6 {⟨["a","b"]⟩,⟨["b","a"]⟩} := by
  have hp := twins.registered_resolve ⟨["a","b"]⟩
  have hf : (twins.resolve ⟨["a","b"]⟩).axisToRadians ≠ 0 := two_ne_zero
  have hA : ∀ axes ∈ ({⟨["a","b"]⟩,⟨["b","a"]⟩} : Set ExtraAxes), axes.coordinateLength = 6 := by
    rintro axes (rfl | rfl) <;> rfl
  refine ⟨hp,hf,hA,((staysCurrent_tfae hp hf hA).out 0 2).1 ?_⟩
  have hcoaxial : (twins.resolve ⟨["a","b"]⟩).Coaxial := by
    intro s hs s' hs' _ _
    simp only [resolve,twins,List.map_cons,List.map_nil,List.mem_cons,List.not_mem_nil,
      or_false] at hs hs'
    rcases hs with rfl | rfl <;> rcases hs' with rfl | rfl <;> rfl
  refine ⟨twins.fits_resolve ⟨["a","b"]⟩,hcoaxial.bundled,?_⟩
  rintro axes (rfl | rfl)
  · exact .refl _
  · exact .trans (.swap (s := ⟨"a",.z,⟨0,0,0⟩,some 4⟩) (t := ⟨"b",.z,⟨0,0,0⟩,some 5⟩) rfl [])
      (.cons rfl rfl (.cons rfl rfl .nil))

end Pivot

/-- A spindle that has been read at a quarter of a turn, and whose axis then makes way for another one,
still has the position in front of its turn for the last one. -/
theorem Activation.resolve_leaves_behind :
    ((Pivot.ofResolution 0.1 360 : Except (ConfigError ℝ) (Pivot ℝ)) >>=
      (·.addStage "c" .z ⟨0,0,0⟩)) = .ok spindle ∧
    (⟨["b"]⟩ : ExtraAxes).coordinateLength = [0,10,0,0,90].length ∧ ∃ t q next,
    (Transform.over (spindle.resolve ⟨["c"]⟩) (.terminal ⟨[0,10,0,0,90],#[]⟩)).getPosition =
      (.ok [10,0,0,0,90],t) ∧ t.resolve ⟨["b"]⟩ = .over q next ∧ q.lastPos = [10,0,0,0,90] ∧
    (t.resolve ⟨["b"]⟩).getPosition.1 = .ok [0,10,0,0,90] := by
  have hslot : (⟨["b"]⟩ : ExtraAxes).slot? "c" = none := by decide
  refine ⟨made_spindle,rfl,.over ((spindle.resolve ⟨["c"]⟩).arrive [10,0,0,0,90] [0,0,0,0,100])
    (.terminal ⟨[0,10,0,0,90],#[]⟩),_,_,?_,rfl,rfl,?_⟩
  · simp [Transform.getPosition,coords_spindle_quarter]
  · simp [Transform.getPosition,Transform.resolve,Pivot.coords,Pivot.along,Pivot.resolve,
      Pivot.arrive,Stage.resolve,spindle,hslot,Turned.pass,Turned.coord]

end Gantry
