import Mathlib
import Gantry.Proofs.Transform.Chain
import Gantry.Proofs.Transform.Rigid

set_option autoImplicit false

namespace Gantry

variable {α : Type}

namespace Transform

def Registered : Transform α → Prop
  | .terminal _ => True
  | .detached p => p.Registered
  | .over p next => p.Registered ∧ next.Registered

theorem registered_bare (t : Transform α) : t.bare.Registered ↔ t.Registered := by
  induction t with
  | terminal base => rfl
  | detached p => rfl
  | «over» p next ih => exact and_congr Iff.rfl ih

theorem registered_of_bare {t u : Transform α} (h : u.bare = t.bare) (hr : t.Registered) :
    u.Registered :=
  (registered_bare u).1 (h ▸ (registered_bare t).2 hr)

/-- A chain rests at a position: its front pivot was last sent there, and what is behind it rests
at the image. -/
def RestsAt [Scalar α] : Transform α → List α → Prop
  | .terminal base, pos => base.position = pos
  | .detached _, _ => False
  | .over p next, pos => p.lastPos = pos ∧ ∃ image, p.Sends pos image ∧ next.RestsAt image

end Transform

namespace Pivot

noncomputable def resolution (p : Pivot ℝ) : ℝ := 1 / p.invResolution

noncomputable def step (last target : List ℝ) (i n : Nat) : List ℝ :=
  List.zipWith (fun a b => a + (b - a) * i / n) last target

variable [Trigonometry] {p : Pivot ℝ} {target : List ℝ} {plan : Plan ℝ}

/-- The plan of a move cuts the straight line from the last position to the target evenly, by the
longest arc that a stage may sweep. -/
structure Straight (p : Pivot ℝ) (target : List ℝ) (plan : Plan ℝ) : Prop where
  level : p.lastPos.length = target.length
  count : plan.targets.length = max 1 ⌈p.travel target plan.radii2 / p.resolution⌉₊
  steps : ∀ i, (h : i + 1 < plan.targets.length) →
    p.Sends (step p.lastPos target (i + 1) plan.targets.length) plan.targets[i]
  final : ∃ image, plan.targets.getLast? = some image ∧
    p.coords target .forward = .ok (image,plan.radii2)

theorem cuts_exact (last target : List ℝ) (n : Nat) :
    cuts last target n = (List.range (n - 1)).map fun i => step last target (i + 1) n := by
  unfold cuts
  refine List.map_congr_left fun i _ => ?_
  have h (a b : ℝ) : a + (b - a) * (((i + 1 : Nat) : ℝ) * (1 / (n : ℝ))) =
      a + (b - a) * ((i + 1 : Nat) : ℝ) / n := by
    rw [mul_one_div,mul_div_assoc]
  exact congrArg (fun f => List.zipWith f last target) (funext₂ h)

theorem straight_of_plan (hl : p.lastPos.length = target.length) (h : p.plan target = .ok plan) :
    p.Straight target plan := by
  obtain ⟨image,images,himage,himages,htargets⟩ := plan_eq_ok.1 h
  have hpieces : ⌈p.travel target plan.radii2 / p.resolution⌉₊ =
      Scalar.ceil (p.travel target plan.radii2 * p.invResolution) := by
    rw [resolution,div_div_eq_mul_div,div_one]
    rfl
  have hlen := himages.length_eq
  rw [stops,cuts_exact,List.length_map,List.length_range] at hlen
  have hcount : plan.targets.length = max 1 ⌈p.travel target plan.radii2 / p.resolution⌉₊ := by
    rw [htargets,List.length_append,List.length_singleton,hpieces]
    omega
  refine ⟨hl,hcount,fun i hi => ?_,image,by simp [htargets],himage⟩
  rw [hpieces] at hcount
  have hn : plan.targets.length = Scalar.ceil (p.travel target plan.radii2 * p.invResolution) := by
    omega
  have hi' : i < images.length := by rw [← hlen]; omega
  have hs := himages.get (by rw [himages.length_eq]; exact hi') hi'
  simp only [stops,cuts_exact,List.get_eq_getElem,List.getElem_map,List.getElem_range] at hs
  simp only [htargets,List.getElem_append_left hi']
  rwa [← htargets,hn]

theorem coords_of_idle (hp : p.stages = []) (x y z : ℝ) (rest : List ℝ) (pass : Pass) :
    p.coords (x :: y :: z :: rest) pass =
      .ok (x :: y :: z :: rest,List.replicate (rest.length + 3) 0) := by
  cases pass <;> simp only [coords,along,hp] <;> rfl

/-- A pivot without stages sends a move on as it is. -/
theorem Straight.targets_eq (h : p.Straight target plan) (hp : p.stages = []) :
    plan.targets = [target] := by
  have htravel : p.travel target plan.radii2 = 0 := by rw [travel,hp]; rfl
  obtain ⟨image,hlast,himage⟩ := h.final
  obtain ⟨x,y,z,rest,rfl⟩ := exists_cartesian (three_le_of_coords himage)
  rw [coords_of_idle hp] at himage
  obtain ⟨rfl,-⟩ := Prod.mk.inj (Except.ok.inj himage)
  have hlen := h.count
  rw [htravel,zero_div,Nat.ceil_zero,Nat.max_zero] at hlen
  obtain ⟨v,hv⟩ := List.length_eq_one_iff.1 hlen
  rw [hv] at hlast ⊢
  exact congrArg (fun v => [v]) (Option.some.inj hlast)

end Pivot

namespace Transform
variable [Trigonometry]

mutual

/-- How a chain makes a move, and the coordinates that reach its end in turn: the end takes a move as
it is, and a pivot has every target of a straight plan moved to behind it. -/
inductive Moved (speed : ℝ) : Transform ℝ → List ℝ → List (List ℝ) → Transform ℝ → Prop
  | terminal (base : Terminal ℝ) (target : List ℝ) :
      Moved speed (.terminal base) target [target] (.terminal (base.record target speed))
  | pivot {p : Pivot ℝ} {target : List ℝ} {plan : Pivot.Plan ℝ} {reached : List (List ℝ)}
      {next next' : Transform ℝ} (straight : p.Straight target plan)
      (relayed : Relayed speed next plan.targets reached next') :
      Moved speed (.over p next) target reached (.over (p.arrive target plan.radii2) next')

inductive Relayed (speed : ℝ) :
    Transform ℝ → List (List ℝ) → List (List ℝ) → Transform ℝ → Prop
  | nil (t : Transform ℝ) : Relayed speed t [] [] t
  | cons {t t' t'' : Transform ℝ} {target : List ℝ} {targets reached reached' : List (List ℝ)}
      (moved : Moved speed t target reached t') (relayed : Relayed speed t' targets reached' t'') :
      Relayed speed t (target :: targets) (reached ++ reached') t''

end

variable {t t' : Transform ℝ} {d n : Nat} {speed : ℝ} {target pos : List ℝ}

mutual

theorem Moved.ne_nil : ∀ {t t' : Transform ℝ} {target : List ℝ} {reached : List (List ℝ)},
    Moved speed t target reached t' → reached ≠ []
  | _,_,_,_,.terminal _ _ => List.cons_ne_nil _ _
  | _,_,_,_,.pivot straight relayed => relayed.ne_nil fun h => by
    have hcount := straight.count
    rw [h,List.length_nil] at hcount
    omega

theorem Relayed.ne_nil : ∀ {t t' : Transform ℝ} {targets reached : List (List ℝ)},
    Relayed speed t targets reached t' → targets ≠ [] → reached ≠ []
  | _,_,_,_,.nil _,h => absurd rfl h
  | _,_,_,_,.cons moved _,_ => List.append_ne_nil_of_left_ne_nil moved.ne_nil _

end

mutual

theorem Moved.base?_eq : ∀ {t t' : Transform ℝ} {base : Terminal ℝ} {target : List ℝ}
    {reached : List (List ℝ)}, Moved speed t target reached t' → t.base? = some base →
      t'.base? = some (base.recordAll (reached.map (·,speed)))
  | _,_,_,_,_,.terminal _ _,h => by cases h; rfl
  | _,_,_,_,_,.pivot _ relayed,h => relayed.base?_eq h

theorem Relayed.base?_eq : ∀ {t t' : Transform ℝ} {base : Terminal ℝ}
    {targets reached : List (List ℝ)}, Relayed speed t targets reached t' → t.base? = some base →
      t'.base? = some (base.recordAll (reached.map (·,speed)))
  | _,_,_,_,_,.nil _,h => h
  | _,_,_,_,_,.cons moved relayed,h => by
    rw [relayed.base?_eq (moved.base?_eq h),List.map_append,Terminal.recordAll_append]

end

structure Made (speed : ℝ) (t : Transform ℝ) (target : List ℝ) (t' : Transform ℝ) : Prop where
  moved : ∃ reached, Moved speed t target reached t'
  rests : t'.RestsAt target

theorem relayed_of_sendAll {send : List ℝ → Transform ℝ → Except (Error ℝ) Unit × Transform ℝ}
    (hsend : ∀ v u, v.length = n → u.Level n → u.depth ≤ d →
      ∃ u', send v u = (.ok (),u') ∧ u'.Level n ∧ u'.depth ≤ d ∧ Made speed u v u')
    {targets : List (List ℝ)} (htargets : ∀ v ∈ targets, v.length = n) (ht : t.Level n)
    (hd : t.depth ≤ d) (hne : targets ≠ []) :
    ∃ t', sendAll send targets t = (.ok (),t') ∧ (∃ reached, Relayed speed t targets reached t') ∧
      ∀ v ∈ targets.getLast?, t'.RestsAt v := by
  induction targets generalizing t with
  | nil => exact absurd rfl hne
  | cons v targets ih =>
    obtain ⟨hv,htargets⟩ := List.forall_mem_cons.1 htargets
    obtain ⟨u,hu,hlevel,hdepth,⟨_,hmoved⟩,hrests⟩ := hsend v t hv ht hd
    rw [sendAll_cons_ok hu]
    cases targets with
    | nil =>
      refine ⟨u,rfl,⟨_,.cons hmoved (.nil u)⟩,fun w hw => ?_⟩
      obtain rfl : v = w := by simpa using hw
      exact hrests
    | cons w targets =>
      obtain ⟨u',hu',⟨_,hrelayed⟩,hlast⟩ := ih htargets hlevel hdepth (by simp)
      exact ⟨u',hu',⟨_,.cons hmoved hrelayed⟩,by simpa using hlast⟩

theorem Level.made (h : t.Level n) (hd : t.depth ≤ d) (hn : target.length = n) (speed : ℝ) :
    ∃ t', moveWithin d speed target t = (.ok (),t') ∧ Made speed t target t' := by
  induction d generalizing t target with
  | zero =>
    cases t with
    | terminal base => exact ⟨_,moveWithin_of_terminal rfl,⟨_,.terminal base target⟩,rfl⟩
    | detached p => exact h.elim
    | «over» p next => simp [depth] at hd
  | succ d ih =>
    have hr : t.refresh target.length = (.ok (),t) := hn ▸ h.refresh_self
    cases t with
    | terminal base => exact ⟨_,moveWithin_of_terminal rfl,⟨_,.terminal base target⟩,rfl⟩
    | detached p => exact h.elim
    | «over» p next =>
      obtain ⟨hlast,hfit,hnext⟩ := h
      obtain ⟨plan,hp⟩ := (Pivot.plan_isOk (hlast.symm ▸ hfit)).2 (hn.symm ▸ hfit)
      have hs := Pivot.straight_of_plan (hlast.trans hn.symm) hp
      obtain ⟨image,hlastimage,himage⟩ := hs.final
      have htargets : ∀ v ∈ plan.targets, v.length = n := by
        intro v hv
        rcases Pivot.length_of_mem_targets hp hv with hv | hv <;> omega
      -- every piece meets a chain of the same length and depth, so the hypothesis applies to it
      have hsend : ∀ v u, v.length = n → u.Level n → u.depth ≤ d →
          ∃ u', moveWithin d speed v u = (.ok (),u') ∧ u'.Level n ∧ u'.depth ≤ d ∧
            Made speed u v u' := by
        intro v u hv hu hdu
        obtain ⟨u',hm,hlevel⟩ := hu.moveWithin_isOk hdu hv speed
        obtain ⟨u'',hm',hmade⟩ := ih hu hdu hv
        cases hm.symm.trans hm'
        have hb : u'.bare = u.bare := by simpa [hm] using (kept_moveWithin d speed v u).bare
        exact ⟨u',hm,hlevel,(depth_of_bare hb).trans_le hdu,hmade⟩
      obtain ⟨next',hsent,⟨_,hrelayed⟩,hrests⟩ := relayed_of_sendAll hsend htargets hnext
        (Nat.le_of_succ_le_succ hd) (by rintro h; simp [h] at hlastimage)
      refine ⟨.over (p.arrive target plan.radii2) next',?_,⟨_,.pivot hs hrelayed⟩,⟨rfl,image,?_⟩⟩
      · rw [moveWithin_of_planned hr hp,hsent]
      · exact ⟨⟨_,himage⟩,hrests image hlastimage⟩

theorem reads_iff {p : Pivot ℝ} {next : Transform ℝ} (hp : p.Registered) :
    (Transform.over p next).getPosition.1 = .ok pos ↔
      ∃ c, next.getPosition.1 = .ok c ∧ p.Sends pos c := by
  rw [getPosition_over,Results.bind_eq_ok]
  refine exists_congr fun c => and_congr_right fun _ => ?_
  constructor
  · intro h
    obtain ⟨⟨u,d⟩,hcoords,rfl⟩ := Results.map_eq_ok.1 h
    obtain ⟨e,he⟩ := Pivot.coords_undone hp hcoords
    exact ⟨e,he⟩
  · rintro ⟨d,h⟩
    obtain ⟨e,he⟩ := Pivot.coords_undone hp h
    exact Results.map_eq_ok.2 ⟨(pos,e),he,rfl⟩

theorem RestsAt.getPosition (h : t.RestsAt pos) (hr : t.Registered) :
    t.getPosition.1 = .ok pos := by
  induction t generalizing pos with
  | terminal base => exact congrArg _ h
  | detached p => exact h.elim
  | «over» p next ih =>
    obtain ⟨-,image,himage,hnext⟩ := h
    exact (reads_iff hr.1).2 ⟨image,ih hnext hr.2,himage⟩

end Transform

namespace TransformHost
variable [Trigonometry]

/-- A move succeeds, goes along the straight line through every pivot of the chain, and ends exactly
at its target. The end of the chain takes what reaches it in order, all of it at one speed. -/
theorem moveTo_straight {h : TransformHost ℝ} (hp : h.transform.Primed)
    (hr : h.transform.Registered) {base : Terminal ℝ} (hb : h.transform.base? = some base)
    {target : List ℝ} (hlen : target.length = base.position.length) (speed : ℝ) :
    ∃ t base' reached, h.moveTo target speed = (.ok (),⟨t,target⟩) ∧
      h.transform.Moved speed target reached t ∧ t.RestsAt target ∧
      (⟨t,target⟩ : TransformHost ℝ).getPosition.1 = .ok target ∧ t.base? = some base' ∧
      base'.moves.toList = base.moves.toList ++ reached.map (·,speed) ∧
      reached.getLast? = some base'.position := by
  obtain ⟨n,hlevel⟩ := hp.level
  obtain ⟨b,hb',hn⟩ := hlevel.base?
  cases hb.symm.trans hb'
  obtain ⟨t,ht,⟨reached,hmoved⟩,hrests⟩ := hlevel.made le_rfl (hlen.trans hn) speed
  have hm : h.transform.moveTo target speed = (.ok (),t) := ht
  have hbare := (Transform.kept_moveTo h.transform target speed).bare
  rw [hm] at hbare
  refine ⟨t,_,reached,by rw [moveTo,hm],hmoved,hrests,
    hrests.getPosition (Transform.registered_of_bare hbare hr),hmoved.base?_eq hb,
    base.moves_recordAll _,?_⟩
  exact base.getLast?_recordAll hmoved.ne_nil

end TransformHost

namespace Transform

section Idle
variable [Trigonometry] {p : Pivot ℝ} {base : Terminal ℝ} {u : Transform ℝ} {speed : ℝ}
  {targets reached : List (List ℝ)}

/-- Behind a pivot without stages the end of the chain takes every move as it was sent. -/
theorem Relayed.reached_eq (h : Relayed speed (.over p (.terminal base)) targets reached u)
    (hp : p.stages = []) : reached = targets := by
  induction targets generalizing p base reached with
  | nil => cases h; rfl
  | cons target targets ih =>
    cases h with
    | cons moved relayed =>
      cases moved with
      | pivot straight sent =>
        rw [straight.targets_eq hp] at sent
        cases sent with
        | cons moved none =>
          cases moved
          cases none
          rw [ih relayed hp]
          rfl

end Idle

noncomputable def threeStagesChain : Transform ℝ :=
  .over .threeStages (.over { invResolution := 2, axisToRadians := 1 }
    (.terminal ⟨[1,4,2,0,0],#[]⟩))

theorem registered_threeStagesChain : threeStagesChain.Registered :=
  ⟨Pivot.registered_threeStages,nofun,trivial⟩

noncomputable def swung (c : ℝ) : List ℝ :=
  [1 - 7 * Real.sin (c * 2),7 * Real.cos (c * 2) - 3,2,0,c]

theorem coords_threeStages (c : ℝ) :
    Pivot.threeStages.coords [1,4,2,0,c] .forward = .ok (swung c,[0,0,0,0,49]) := by
  norm_num [Pivot.coords,Pivot.along,Pivot.factor,Pivot.threeStages,Results.ok_bind,Turned.pass,
    Turned.coord,Stage.rotate,Vector3.rotate,Vector3.radius2,Vector3.plane,Vector3.sub,Vector3.add,
    turn_real,swung,sub_eq_add_neg,add_comm (1 : ℝ),pure,Except.pure]
  rfl

theorem coords_threeStages_reverse :
    Pivot.threeStages.coords [1,4,2,0,0] .reverse = .ok ([1,4,2,0,0],[0,0,0,0,0]) := by
  simp [Pivot.coords,Pivot.along,Pivot.factor,Pivot.threeStages,Results.ok_bind,Turned.pass,
    Turned.coord,Stage.rotate,Vector3.rotate,Vector3.radius2,Vector3.plane,Vector3.sub,Vector3.add,
    turn_real]

noncomputable def threeStagesRead : Pivot ℝ := Pivot.threeStages.arrive [1,4,2,0,0] [0,0,0,0,0]

theorem getPosition_threeStagesChain : threeStagesChain.getPosition =
    (.ok [1,4,2,0,0],.over threeStagesRead
      (.over (({ invResolution := 2, axisToRadians := 1 } : Pivot ℝ).arrive [1,4,2,0,0] [0,0,0,0,0])
        (.terminal ⟨[1,4,2,0,0],#[]⟩))) := by
  have hidle : ({ invResolution := 2, axisToRadians := 1 } : Pivot ℝ).coords [1,4,2,0,0] .reverse =
      .ok ([1,4,2,0,0],[0,0,0,0,0]) := @Pivot.coords_of_idle .real _ rfl ..
  simp [threeStagesChain,Transform.getPosition,hidle,coords_threeStages_reverse,threeStagesRead]

/-- The second stage turns by two sevenths of a radian, seven from its line. -/
theorem travel_threeStages : threeStagesRead.travel [1,4,2,0,1 / 7] [0,0,0,0,49] = 2 := by
  have hseven : √(49 : ℝ) = 7 := by
    rw [show (49 : ℝ) = 7 ^ 2 by norm_num,Real.sqrt_sq (by norm_num)]
  simp [Pivot.travel,Pivot.sweep,threeStagesRead,Pivot.threeStages,Pivot.arrive,
    List.filterMap_cons,hseven]
  norm_num

theorem targets_threeStages {plan : Pivot.Plan ℝ}
    (h : @Pivot.Straight .real threeStagesRead [1,4,2,0,1 / 7] plan) :
    plan.targets = [swung (1 / 14),swung (1 / 7)] := by
  obtain ⟨image,hlast,himage⟩ := @Pivot.Straight.final .real _ _ _ h
  obtain ⟨rfl,hradii⟩ :=
    Prod.mk.inj (Except.ok.inj ((coords_threeStages (1 / 7)).symm.trans himage))
  have hcount : plan.targets.length =
      max 1 ⌈threeStagesRead.travel [1,4,2,0,1 / 7] plan.radii2 / (1 / 1)⌉₊ :=
    @Pivot.Straight.count .real _ _ _ h
  rw [← hradii,travel_threeStages] at hcount
  obtain ⟨u,v,huv⟩ := List.length_eq_two.1 (hcount.trans (by norm_num))
  obtain ⟨d,hd⟩ := @Pivot.Straight.steps .real _ _ _ h 0 (by simp [huv])
  have hstep : Pivot.step threeStagesRead.lastPos [1,4,2,0,1 / 7] (0 + 1) plan.targets.length =
      [1,4,2,0,1 / 14] := by
    norm_num [Pivot.step,threeStagesRead,Pivot.arrive,huv]
  rw [hstep] at hd
  have hu := (Prod.mk.inj (Except.ok.inj ((coords_threeStages (1 / 14)).symm.trans hd))).1
  simp only [huv,List.getElem_cons_zero] at hu
  simp only [huv,List.getLast?_cons_cons,List.getLast?_singleton,Option.some.injEq] at hlast
  rw [huv,← hu,hlast]

end Transform

/-- Having read its position, a host makes a move through both pivots and rests at the target. The end
of the chain has taken two moves, of which the first leads half the way. -/
theorem TransformHost.moveTo_straight_threeStages :
    ∃ t base, Transform.threeStagesChain.getPosition.2 = t ∧ t.Primed ∧ t.Registered ∧
      t.base? = some base ∧ base.position = [1,4,2,0,0] ∧
      ∃ u base', (⟨t,[]⟩ : TransformHost ℝ).moveTo [1,4,2,0,1 / 7] 25 =
          (.ok (),⟨u,[1,4,2,0,1 / 7]⟩) ∧
        u.RestsAt [1,4,2,0,1 / 7] ∧ u.base? = some base' ∧
        base'.moves.toList = [(Transform.swung (1 / 14),25),(Transform.swung (1 / 7),25)] := by
  have hread := Transform.getPosition_threeStagesChain
  have hr := (Transform.kept_getPosition 0 Transform.threeStagesChain).bare
  have hreg := Transform.registered_of_bare hr Transform.registered_threeStagesChain
  rw [hread] at hreg ⊢
  obtain ⟨u,base',reached,hmove,hmoved,hrests,-,hbase,hlog,-⟩ :=
    @moveTo_straight .real ⟨_,[]⟩ (.read hread) hreg _ rfl [1,4,2,0,1 / 7] rfl 25
  refine ⟨_,_,rfl,.read hread,hreg,rfl,rfl,u,base',hmove,hrests,hbase,?_⟩
  cases hmoved with
  | pivot straight relayed =>
    rw [Transform.targets_threeStages straight] at relayed
    rw [hlog,@Transform.Relayed.reached_eq .real _ _ _ _ _ _ relayed rfl]
    rfl

end Gantry
