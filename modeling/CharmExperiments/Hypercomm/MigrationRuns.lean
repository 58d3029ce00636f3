import CharmExperiments.Hypercomm.Leaving
import CharmExperiments.Hypercomm.Migration

/-!
# Runs in which elements migrate

`archive/path2.0/include/hypercomm/workgroup.hpp` and the task of
`archive/path2.0/examples/relaxation/pgm.cpp`. Between any two entries any element may
be moved (`migrating`). An array that does so runs as one that does not: its states are
those of the array without moves up to `active_`, which every entry sets before user
code reads it (`step_active`).

The payloads of reductions do not survive a move, so in general an element may only
move while it buffers none. The relaxation never does: a result comes when its task
waits for it (`only_ghosts`).
-/

namespace CharmExperiments.Hypercomm

open CharmExperiments.Lib

variable {β σ δ : Type} {n : Nat}

/-! ## What `active_` is at the start of an entry does not matter -/

section Active

variable {P : Program σ δ} {g g' : Workgroup σ δ} {fuel : Nat}

theorem resumeOrBuffer_active (x : TaskId) {tid : TaskId} {payload : Payload δ}
    (h : g.resumeOrBuffer P fuel tid payload = some g') :
    ∃ y, ({ g with active := x } : Workgroup σ δ).resumeOrBuffer P fuel tid payload =
      some { g' with active := y } := by
  have hsame : ({ g with active := x } : Workgroup σ δ).resumeObserved P tid payload =
      g.resumeObserved P tid payload := rfl
  unfold Workgroup.resumeOrBuffer Workgroup.resume at h ⊢
  rw [hsame]
  cases hobs : g.resumeObserved P tid payload with
  | none =>
    rw [hobs] at h
    obtain rfl := Option.some.inj h
    exact ⟨x, rfl⟩
  | some observed =>
    -- the task was set active before its continuation ran
    rw [hobs] at h
    exact ⟨g'.active, h⟩

theorem deliver_active (x : TaskId) {e : Entry δ} (h : g.deliver P fuel e = some g') :
    ∃ y, ({ g with active := x } : Workgroup σ δ).deliver P fuel e =
      some { g' with active := y } := by
  cases e with
  | create msg => exact ⟨g'.active, h⟩
  | resumeMessage msg => exact resumeOrBuffer_active x h
  | resumeReduction msg => exact resumeOrBuffer_active x h

theorem issued_active (B : Behaviour σ δ) (x y : TaskId) (e : Entry δ) :
    B.issued { g with active := x } e { g' with active := y } = B.issued g e g' := by
  cases e <;> rfl

end Active

namespace WorkgroupArray

/-- The array with other values in `active_`. -/
def withActive (active : Fin n → TaskId) (s : WorkgroupArray n σ δ) :
    WorkgroupArray n σ δ :=
  { s with elements := fun i => { s.elements i with active := active i } }

theorem withActive_self (s : WorkgroupArray n σ δ) :
    s.withActive (fun i => (s.elements i).active) = s := rfl

theorem withActive_withActive (active active' : Fin n → TaskId)
    (s : WorkgroupArray n σ δ) : (s.withActive active).withActive active' =
    s.withActive active' := rfl

/-- An updated element, and what is in its `active_`. -/
theorem update_active (elements : Fin n → Workgroup σ δ) (active : Fin n → TaskId) (i : Fin n)
    (g : Workgroup σ δ) (y : TaskId) :
    Function.update (fun j => ({ elements j with active := active j } : Workgroup σ δ)) i
        { g with active := y } =
      fun j => { Function.update elements i g j with active := Function.update active i y j } := by
  funext j
  by_cases hj : j = i
  · subst hj
    rw [Function.update_self, Function.update_self, Function.update_self]
  · rw [Function.update_of_ne hj, Function.update_of_ne hj, Function.update_of_ne hj]

variable [DecidableEq δ] {B : Fin n → Behaviour σ δ}
variable {combines : List (ReducerType × δ) → δ → Bool} {s s' : WorkgroupArray n σ δ}

/-- **Every step is taken alike whatever is in `active_`.** -/
theorem step_active {x : Action n δ} (h : s.step B combines x = some s')
    (active : Fin n → TaskId) :
    ∃ active', (s.withActive active).step B combines x =
      some (s'.withActive active') := by
  cases x with
  | launch host kind data =>
    obtain rfl := Option.some.inj h
    refine ⟨active, congrArg some ?_⟩
    have hupdate := update_active s.elements active host
      ((s.elements host).generateId (thisIndex host)).2 (active host)
    rw [Function.update_eq_self] at hupdate
    show WorkgroupArray.mk _ _ _ _ _ = WorkgroupArray.mk _ _ _ _ _
    exact congrArg (fun elements => WorkgroupArray.mk elements _ _ _ _) hupdate
  | deliver i e fuel =>
    obtain ⟨hmem, g, hg, rfl⟩ := deliver_some h
    obtain ⟨y, hy⟩ := deliver_active (active i) hg
    refine ⟨Function.update active i y, ?_⟩
    have hmem' : (i.val, e) ∈ (s.withActive active).flight := hmem
    have hstep : (s.withActive active).step B combines (.deliver i e fuel) =
        some ((s.withActive active).after B i e { g with active := y }) := by
      show (if _ then _ else _) = _
      rw [if_pos hmem']
      exact congrArg (Option.map _) hy
    rw [hstep]
    refine congrArg some ?_
    have hissued :
        (B i).issued { s.elements i with active := active i } e { g with active := y } =
        (B i).issued (s.elements i) e g := issued_active (B i) (active i) y e
    unfold after
    show WorkgroupArray.mk _ _ _ _ _ = WorkgroupArray.mk _ _ _ _ _
    rw [show (s.withActive active).elements i = { s.elements i with active := active i } from rfl,
      hissued, ← update_active]
    rfl
  | reduce root data =>
    refine ⟨active, ?_⟩
    replace h : s.reduce combines root data = some s' := h
    show (s.withActive active).reduce combines root data = _
    unfold reduce at h ⊢
    split at h
    next hready =>
      have hready' :
          (s.withActive active).contributed.Ready
          (s.withActive active).reductions.length :=
        hready
      rw [dif_pos hready']
      dsimp only at h ⊢
      split at h
      next hcombines =>
        obtain rfl := Option.some.inj h
        exact if_pos hcombines
      next => cases h
    next => cases h

/-! ## Arrays whose elements move -/

/-- A step of the array, or a move of an element: how its maps are iterated, where
its payloads are, and what the constructor leaves in `active_`. -/
inductive Event (n : Nat) (δ : Type)
  | act (x : Action n δ)
  | migrate (i : Fin n) (o : Order) (mv : Moving δ) (active : TaskId)

/-- The array with moves between the entries. -/
def migrating (M : Pups β σ δ) (T : Transition (WorkgroupArray n σ δ) (Action n δ)) :
    Transition (WorkgroupArray n σ δ) (Event n δ) where
  init := T.init
  step s
    | .act x => T.step s x
    | .migrate i o mv active => ((s.elements i).migrate M mv o active).map fun g =>
      { s with elements := Function.update s.elements i g }

omit [DecidableEq δ] in
/-- What a run of the array without moves does, it does with moves. -/
theorem migrating_run (M : Pups β σ δ)
    (T : Transition (WorkgroupArray n σ δ) (Action n δ))
    (s : WorkgroupArray n σ δ) (xs : List (Action n δ)) :
    (migrating M T).run s (xs.map Event.act) = T.run s xs := by
  unfold Transition.run
  rw [List.foldlM_map]
  rfl

/-- The steps are allowed by `C`, and an element moves when `K` holds of the move and
of what the element buffers. -/
def MayMove (C : WorkgroupArray n σ δ → Action n δ → Prop)
    (K : Moving δ → (TaskId → ContinuationId → List (Payload δ)) → Prop)
    (s : WorkgroupArray n σ δ) : Event n δ → Prop
  | .act x => C s x
  | .migrate i o mv _ => o.Of (s.elements i) ∧ K mv (s.elements i).queue

/-- Moves make no difference. -/
structure Transparent (M : Pups β σ δ)
    (T : Transition (WorkgroupArray n σ δ) (Action n δ))
    (C : WorkgroupArray n σ δ → Action n δ → Prop)
    (K : Moving δ → (TaskId → ContinuationId → List (Payload δ)) → Prop)
    (s : WorkgroupArray n σ δ) : Prop where
  /-- Up to `active_` the state is one of the array without moves, and whatever that
  does next this can do. -/
  plain : ∃ t active, T.Reachable C t ∧ s = t.withActive active ∧
    ∀ x t', T.step t x = some t' → ∃ active', T.step s x = some (t'.withActive active')
  /-- Every element can be packed, -/
  packs : ∀ i, ∃ o : Order, o.Of (s.elements i)
  /-- and arrives as it was. -/
  arrives : ∀ i o mv active, o.Of (s.elements i) → K mv (s.elements i).queue →
    (s.elements i).migrate M mv o active = some { s.elements i with active }

section Migrating

variable {M : Pups β σ δ} {T : Transition (WorkgroupArray n σ δ) (Action n δ)}
variable {C : WorkgroupArray n σ δ → Action n δ → Prop}
variable {K : Moving δ → (TaskId → ContinuationId → List (Payload δ)) → Prop}
variable {t : WorkgroupArray n σ δ}

/-- What holds of elements without members and is kept by the small steps holds of
all elements. -/
theorem reachable_elements {I : Workgroup σ δ → Prop}
    (hstep : ∀ s, T.step s = s.step B combines)
    (hinit : ∀ s, T.init s → ∀ i, I (s.elements i))
    (hlast : ∀ g last, I g → I { g with lastTask := last })
    (hI : ∀ i g g', I g → Small (B i).program g g' → I g')
    (h : T.Reachable C t) (i : Fin n) :
    I (t.elements i) := by
  have hall : ∀ i, I (t.elements i) := by
    refine Transition.Reachable.invariant (I := fun t => ∀ i, I (t.elements i)) hinit
      (fun s x s' hs _ hx => ?_) h
    rw [hstep] at hx
    have hput : ∀ (i : Fin n) (g : Workgroup σ δ), I g →
        ∀ j, I (Function.update s.elements i g j) := by
      intro i g hg j
      by_cases hj : j = i
      · subst hj
        rw [Function.update_self]
        exact hg
      · rw [Function.update_of_ne hj]
        exact hs j
    cases x with
    | launch host kind data =>
      obtain rfl := Option.some.inj hx
      exact hput host _ (hlast _ _ (hs host))
    | deliver j e fuel =>
      obtain ⟨_, g, hg, rfl⟩ := deliver_some hx
      exact hput j g (deliver_keeps (hI j) (hs j) hg)
    | reduce root data =>
      replace hx : s.reduce combines root data = some s' := hx
      unfold reduce at hx
      split at hx
      next =>
        dsimp only at hx
        split at hx
        next =>
          obtain rfl := Option.some.inj hx
          exact hs
        next => cases hx
      next => cases hx
  exact hall i

/-- **Moves make no difference** where what is buffered survives them. -/
theorem transparent (hstep : ∀ s, T.step s = s.step B combines)
    (hinit : ∀ s, T.init s → ∀ i, (s.elements i).tasks = (fun _ => none) ∧
      (s.elements i).buffers = fun _ => none)
    (hpup : ∀ i, Pupable M (B i).program)
    (hC : ∀ t active x, C (t.withActive active) x → C t x)
    (hK : ∀ t, T.Reachable C t → ∀ i mv, K mv (t.elements i).queue →
      BuffersKept M mv (t.elements i))
    (h : (migrating M T).Reachable (MayMove C K) s) : Transparent M T C K s := by
  have hmovable : ∀ t, T.Reachable C t → ∀ i, Movable M (t.elements i) := by
    intro t ht i
    refine reachable_elements hstep (fun s hs i tid task htask => ?_)
      (fun g last hg => hg) (fun i g g' hg hsmall => small_movable
        (hpup i) hg hsmall) ht i
    rw [(hinit s hs i).1] at htask
    cases htask
  have hfinite : ∀ t, T.Reachable C t → ∀ i, FiniteQueues (t.elements i) := by
    intro t ht i
    refine reachable_elements hstep (fun s hs i tid map hmap => ?_) (fun g last hg => hg)
      (fun i g g' hg hsmall => small_finite hg hsmall) ht i
    rw [(hinit s hs i).2] at hmap
    cases hmap
  have harrives : ∀ t, T.Reachable C t → ∀ active i o mv x,
      o.Of ((t.withActive active).elements i) →
        K mv ((t.withActive active).elements i).queue →
      ((t.withActive active).elements i).migrate M mv o x =
        some { t.elements i with active := x } :=
    fun t ht active i o mv x ho hmv => migrate_eq (hmovable t ht i) (hK t ht i mv hmv)
      ⟨ho.tasks, ho.buffers, ho.queues⟩ x
  have hplain : ∃ t active, T.Reachable C t ∧ s = t.withActive active := by
    induction h with
    | init h => exact ⟨_, _, .init h, (withActive_self _).symm⟩
    | @step s s' ev _ hc hs ih =>
      obtain ⟨t, active, ht, rfl⟩ := ih
      cases ev with
      | act x =>
        -- the array without moves takes the same step
        replace hs : T.step (t.withActive active) x = some s' := hs
        rw [hstep] at hs
        obtain ⟨active', hback⟩ := step_active hs fun i => (t.elements i).active
        rw [withActive_withActive, withActive_self, ← hstep] at hback
        obtain ⟨active'', hforth⟩ := step_active (by rw [← hstep]; exact hback) active
        rw [hs] at hforth
        exact ⟨_, _, .step ht (hC t active x hc) hback, Option.some.inj hforth⟩
      | migrate i o mv x =>
        have hmove := harrives t ht active i o mv x hc.1 hc.2
        replace hs : (((t.withActive active).elements i).migrate M mv o x).map
          _ = some s' := hs
        rw [hmove] at hs
        obtain rfl := Option.some.inj hs
        refine ⟨t, Function.update active i x, ht, ?_⟩
        have hupdate := update_active t.elements active i (t.elements i) x
        rw [Function.update_eq_self] at hupdate
        exact congrArg (fun elements => WorkgroupArray.mk elements _ _ _ _) hupdate
  obtain ⟨t, active, ht, rfl⟩ := hplain
  refine ⟨⟨t, active, ht, rfl, fun x t' hx => ?_⟩, fun i => ?_, harrives t ht active⟩
  · rw [hstep] at hx ⊢
    exact step_active hx active
  · obtain ⟨o, ho⟩ := exists_order (hfinite t ht i)
    exact ⟨o, ho.tasks, ho.buffers, ho.queues⟩

end Migrating

end WorkgroupArray

/-- What is buffered are payloads of task messages. -/
def OfTaskMessages (M : Pups β σ δ) (C : Charm) (mv : Moving δ)
    (queue : TaskId → ContinuationId → List (Payload δ)) : Prop :=
  ∀ tid id, ∀ p ∈ queue tid id, Lies M C (mv.held p) p

section Arrays

variable [DecidableEq δ]

/-- **Migration makes no difference** to an array, as long as no element moves that
buffers the result of a reduction. -/
theorem migration_transparent (M : Pups β σ δ) (C : Charm) (B : Fin n → Behaviour σ δ)
    (combines : List (ReducerType × δ) → δ → Bool) (last : Fin n → BitVec 32)
    (hpup : ∀ i, Pupable M (B i).program) {s : WorkgroupArray n σ δ}
    (h : (WorkgroupArray.migrating M (WorkgroupArray.system B combines last)).Reachable
      (WorkgroupArray.MayMove (fun _ _ => True) (OfTaskMessages M C)) s) :
    WorkgroupArray.Transparent M (WorkgroupArray.system B combines last) (fun _ _ => True)
      (OfTaskMessages M C) s := by
  refine WorkgroupArray.transparent (fun _ => rfl) (fun s hs i => ?_) hpup
    (fun _ _ _ _ => trivial) (fun t _ i mv hmv tid id p hp => (hmv tid id p hp).kept) h
  obtain ⟨active, rfl⟩ := hs
  exact ⟨rfl, rfl⟩

end Arrays

/-! ## The relaxation buffers ghosts only -/

section Foreign

variable [DecidableEq δ] {B : Fin n → Behaviour σ δ}
variable {combines : List (ReducerType × δ) → δ → Bool} {allowed : Nat → δ → Prop}
variable {host : Fin n} {kind : TaskKind} {data : δ} {s : WorkgroupArray n σ δ}

/-- After one launch nothing is buffered for any other task. -/
theorem foreign_queues
    (h : (WorkgroupArray.launchedSystem B combines host kind data).Reachable
      (OneLaunch allowed) s) (i : Fin n) {t : TaskId}
        (ht : t ≠ (launchMessage host kind data).tid) :
    (s.elements i).queue t = fun _ => [] := by
  induction h with
  | init h =>
    obtain ⟨active, rfl⟩ := h
    have hnone : (((WorkgroupArray.init (fun _ => 0) active : WorkgroupArray n σ
      δ).launch host kind
        data).elements i).buffers = fun _ => none := by
      unfold WorkgroupArray.launch
      dsimp only
      by_cases hi : i = host
      · subst hi
        rw [Function.update_self]
        rfl
      · rw [Function.update_of_ne hi]
        rfl
    funext id
    rw [Workgroup.queue, hnone]
  | @step s s' x hreach hc hs ih =>
    cases x with
    | launch => exact hc.elim
    | deliver j e fuel =>
      obtain ⟨hmem, g, hg, rfl⟩ := deliver_some hs
      obtain ⟨u, _, hruns⟩ := reachable_solo hreach
      have hne : t ≠ e.tid := by
        rw [hruns.own _ hmem]
        exact ht
      by_cases hi : i = j
      · subst hi
        show (Function.update s.elements i g i).queue t = _
        rw [Function.update_self, ((deliver_turn hg).same t hne).queue]
        exact ih
      · show (Function.update s.elements j g i).queue t = _
        rw [Function.update_of_ne hi]
        exact ih
    | reduce root d =>
      replace hs : s.reduce combines root d = some s' := hs
      unfold WorkgroupArray.reduce at hs
      split at hs
      next =>
        dsimp only at hs
        split at hs
        next =>
          obtain rfl := Option.some.inj hs
          exact ih
        next => cases hs
      next => cases hs

end Foreign

/-- How often the grid was received. -/
def Phase.grids : Phase → Nat
  | done _ => 1
  | _ => 0

namespace Relaxing

variable {E : Type} [DecidableEq E] {X : Relaxing n E} {P : Nat → Prop}
variable {u u' : Solo n (Relaxation E) (Bytes E)} {φ : Fin n → Phase}
variable {i : Fin n} {ψ : Phase} {p : Option (Payload (Bytes E))}

/-- How often the grid was sent to element `i`. -/
def gridsFor (i : Fin n) (rs : List (ReductionMsg (Bytes E))) : Nat :=
  if i.val = 0 ∧ (rs.any fun msg => msg.refnum = gridId) = true then 1 else 0

/-- What is on its way besides ghosts and errors. -/
structure Grids (u : Solo n (Relaxation E) (Bytes E)) (φ : Fin n → Phase) : Prop where
  grid : ∀ i, (u.pending i gridId).length + (φ i).grids ≤ gridsFor i u.reductions
  other : ∀ i id, id ≠ ghostId → id ≠ maxErrorId → id ≠ gridId → u.pending i id = []

omit [DecidableEq E] in
theorem Change.grids {φ : Phase} (h : X.Change i φ ψ p) :
    ψ.grids ≤ φ.grids + (readBy i i p gridId).length := by
  cases h with
  | @finish r p hid _ =>
    have hread : readBy i i (some p) gridId = [p] := by
      rw [readBy, if_pos rfl, Option.filter_some, if_pos (decide_eq_true hid)]
      rfl
    rw [hread]
    exact Nat.le_add_left _ _
  | start | again =>
    unfold going
    split <;> exact Nat.zero_le _
  | _ => exact Nat.zero_le _

omit [DecidableEq E] in
theorem grids_move (h : Grids u φ) (hm : X.Move u u' i (φ i) ψ p) :
    Grids u' (Function.update φ i ψ) where
  grid q := by
    have hperm := (hm.pending q gridId).length_eq
    have hsent : sentTo i q (φ i) ψ gridId = ([] : List (Payload (Bytes E))) :=
      if_neg fun hc => by cases hc.2.1
    rw [hsent, List.append_nil, List.length_append] at hperm
    have hgrid := h.grid q
    rw [hm.reductions]
    by_cases hq : q = i
    · subst hq
      have hchange := hm.change.grids
      rw [Function.update_self]
      omega
    · rw [Function.update_of_ne hq]
      omega
  other q id hghost herror hgrid := by
    have hperm := hm.pending q id
    have hsent : sentTo i q (φ i) ψ id = ([] : List (Payload (Bytes E))) :=
      if_neg fun hc => hghost hc.2.1
    rw [hsent, List.append_nil, h.other q id hghost herror hgrid] at hperm
    exact (List.append_eq_nil_iff.mp hperm.nil_eq.symm).2

theorem grids_arrive (h : Grids u φ) {e : Entry (Bytes E)} {payload : Payload (Bytes E)}
    (hmem : (i.val, e) ∈ u.flight) (hp : e.payload? = some payload) :
    Grids (u.arrive i e payload) φ where
  grid q := by
    rw [(pending_arrive hmem hp q gridId).length_eq]
    exact h.grid q
  other q id hghost herror hgrid := by
    have hperm := pending_arrive hmem hp q id
    rw [h.other q id hghost herror hgrid] at hperm
    exact hperm.eq_nil

omit [DecidableEq E] in
/-- The result of a reduction of errors. -/
theorem grids_error (h : Grids u φ) (e : E) :
    Grids { u with
      reductions := u.reductions ++ [X.errorResult e]
      flight := u.flight ++ (List.range n).map fun i =>
        (i, .resumeReduction (X.errorResult e)) } φ := by
  have hmail : ∀ (q : Fin n) id, id ≠ maxErrorId → mail q id ((List.range n).map fun i =>
      (i, .resumeReduction (X.errorResult e))) = [] := fun q id hid =>
    (mail_all q id (e := .resumeReduction (X.errorResult e)) rfl).trans
    (if_neg fun h => hid h.symm)
  have hpending : ∀ (q : Fin n) id, id ≠ maxErrorId → (Solo.pending { u with
      reductions := u.reductions ++ [X.errorResult e]
      flight := u.flight ++ (List.range n).map fun i =>
        (i, .resumeReduction (X.errorResult e)) } q id).Perm (u.pending q id) := by
    intro q id hid
    have hperm :=
      pending_append u (u.reductions ++ [X.errorResult e]) ((List.range n).map fun i =>
      (i, .resumeReduction (X.errorResult e))) q id
    rwa [hmail q id hid, List.append_nil] at hperm
  refine ⟨fun q => ?_, fun q id hghost herror hgrid => ?_⟩
  · rw [(hpending q gridId (by decide)).length_eq]
    have hsame : gridsFor q (u.reductions ++ [X.errorResult e]) =
        gridsFor q u.reductions := by
      unfold gridsFor
      rw [List.any_append]
      exact congrArg (fun b => if q.val = 0 ∧ b = true then 1 else 0) (Bool.or_false _)
    rw [hsame]
    exact h.grid q
  · have hperm := hpending q id herror
    rw [h.other q id hghost herror hgrid] at hperm
    exact hperm.eq_nil

omit [DecidableEq E] in
/-- The result of the one reduction for the grid. -/
theorem grids_grid (h : Grids u φ) (hnone : ∀ msg ∈ u.reductions, msg.refnum ≠ gridId)
    (values : List Nat) :
    Grids { u with
      reductions := u.reductions ++ [X.gridResult values]
      flight := u.flight ++ [0].map fun i =>
        (i, .resumeReduction (X.gridResult values)) } φ := by
  have hmail : ∀ (q : Fin n) id, mail q id ([0].map fun i =>
      (i, .resumeReduction (X.gridResult values))) = if 0 = q.val ∧ gridId = id then
        [⟨gridId, .set values⟩] else [] := fun q id =>
    mail_single q.val id (x := (0, .resumeReduction (X.gridResult values))) rfl
  have hpending := fun (q : Fin n) id =>
    pending_append u (u.reductions ++ [X.gridResult values])
    ([0].map fun i => (i, .resumeReduction (X.gridResult values))) q id
  have hbefore : ∀ q : Fin n, gridsFor q u.reductions = 0 := by
    intro q
    refine if_neg fun hc => ?_
    obtain ⟨msg, hmsg, hrefnum⟩ := List.any_eq_true.mp hc.2
    exact hnone msg hmsg (of_decide_eq_true hrefnum)
  refine ⟨fun q => ?_, fun q id hghost herror hgrid => ?_⟩
  · have hgrid := h.grid q
    rw [hbefore] at hgrid
    rw [(hpending q gridId).length_eq, List.length_append, hmail]
    have hany : ((u.reductions ++ [X.gridResult values]).any fun msg => msg.refnum =
        gridId) = true :=
      List.any_eq_true.mpr ⟨_, List.mem_append_right _ List.mem_cons_self,
        decide_eq_true rfl⟩
    unfold gridsFor
    rw [hany]
    by_cases hq : q.val = 0
    · rw [if_pos ⟨hq.symm, rfl⟩, if_pos ⟨hq, rfl⟩, List.length_singleton]
      omega
    · rw [if_neg fun hc => hq hc.1.symm, if_neg fun hc => hq hc.1, List.length_nil]
      omega
  · have hperm := hpending q id
    rw [hmail, if_neg fun hc => hgrid hc.2.symm, List.append_nil,
      h.other q id hghost herror hgrid] at hperm
    exact hperm.eq_nil

theorem grids_reduce (h : X.RoundsInv P u φ) (hg : Grids u φ) (hP : ∀ k, P k → X.Alike k)
    {root : Fin n} {data : Bytes E} {cs : Fin n → Contribution (Bytes E)}
    (hcs : ∀ i, (u.contributed i)[u.reductions.length]? = some (cs i))
    (hcombines : relaxationCombines (WorkgroupArray.reduced cs) data = true) :
    Grids { u with
      reductions := u.reductions ++ [WorkgroupArray.result cs root data]
      flight := u.flight ++ ((cs root).cb.targets n).map fun i =>
        (i, .resumeReduction (WorkgroupArray.result cs root data)) } φ := by
  rcases agree h.phases h.loop hP hcs with hall | hall
  · obtain ⟨e, rfl⟩ := combines_errors (fun i => (hall i).2) hcombines
    have hmsg : WorkgroupArray.result cs root (.error e) = X.errorResult e := by
      unfold WorkgroupArray.result
      rw [result_tid root (fun i => by rw [(hall i).2]; rfl), (hall root).2]
      rfl
    have htargets : (cs root).cb.targets n = List.range n := by
      rw [(hall root).2]
      rfl
    rw [hmsg, htargets]
    exact grids_error hg e
  · obtain ⟨values, rfl, hperm⟩ := combines_grid root (fun i => (hall i).2.2) hcombines
    have hmsg : WorkgroupArray.result cs root (.set values) = X.gridResult values := by
      unfold WorkgroupArray.result
      rw [result_tid root (fun i => by rw [(hall i).2.2]; rfl), (hall root).2.2]
      rfl
    have htargets : (cs root).cb.targets n = [0] := by
      rw [(hall root).2.2]
      rfl
    rw [hmsg, htargets]
    refine grids_grid hg (fun msg hmem hrefnum => ?_) values
    -- an earlier grid would have been that of an earlier round
    obtain ⟨k, hk, rfl⟩ := List.getElem_of_mem hmem
    rcases h.loop.results k _
      (List.getElem?_eq_getElem hk) with ⟨e, he, _⟩ | ⟨_, _, _, hleft⟩
    · rw [he] at hrefnum
      cases hrefnum
    · have hrounds := (hleft root).2
      rw [(hall root).2.1] at hrounds
      omega

theorem steps_grids (hP : ∀ k, P k → X.Alike k) (hzero : P 0)
    (h : Solo.Steps X.behaviours relaxationCombines (X.Allows P) X.tid
      (Solo.start X.message) u) :
    ∃ φ, X.RoundsInv P u φ ∧ Grids u φ := by
  induction h with
  | refl =>
    exact ⟨_, roundsInv_start hzero, fun q => by rw [start_pending]; exact Nat.zero_le _,
      fun q id _ _ _ => start_pending X.message q id⟩
  | tail _ hstep ih =>
    obtain ⟨φ, hinv, hgrids⟩ := ih
    cases hstep with
    | create hmem hnone =>
      obtain ⟨ψ, hm⟩ := create_move hinv.phases hmem hnone
      exact ⟨_, roundsInv_move hinv hm, grids_move hgrids hm⟩
    | arrive hmem hp => exact ⟨φ, roundsInv_arrive hinv hmem hp,
      grids_arrive hgrids hmem hp⟩
    | read htask hact hq =>
      obtain ⟨ψ, hm⟩ := read_move hinv.phases hinv.loop hinv.mail htask hact hq
      exact ⟨_, roundsInv_move hinv hm, grids_move hgrids hm⟩
    | reduce hcs hcombines hallowed =>
      exact ⟨φ, roundsInv_reduce hinv hP hcs hcombines hallowed,
        grids_reduce hinv hgrids hP hcs hcombines⟩

/-- **Only ghosts are buffered** between entries: an error or the grid is read when it
comes. -/
theorem only_ghosts {s : WorkgroupArray n (Relaxation E) (Bytes E)}
    (hruns : RunsSolo X.behaviours X.message s u) (h : X.RoundsInv P u φ) (hg : Grids u φ)
    {id : ContinuationId} {payload : Payload (Bytes E)} (hp : payload ∈ u.queues i id) :
    ∃ j r, payload = ⟨ghostId, .ghost j r⟩ := by
  have hpending : payload ∈ u.pending i id := List.mem_append_right _ hp
  -- what the task waits for is not there
  have hblocked : ∀ task, u.tasks i = some task → task.active = true →
      task.continuation ≠ id := by
    intro task htask hact hid
    have hnil := (hruns.holds i).blocked task htask hact
    rw [hid] at hnil
    rw [hnil] at hp
    cases hp
  have hborn : φ i ≠ .unborn → ∃ task, u.tasks i = some task ∧ X.Worker i (φ i) task := by
    intro hφ
    cases htask : u.tasks i with
    | none => exact absurd (h.phases.unborn i htask) hφ
    | some task => exact ⟨task, rfl, h.phases.worker i task htask⟩
  by_cases hghost : id = ghostId
  · subst hghost
    exact h.mail.onlyGhosts i payload hpending
  by_cases herror : id = maxErrorId
  · subst herror
    rw [h.mail.errors] at hpending
    cases hφ : φ i with
    | error r =>
      obtain ⟨task, htask, hw⟩ := hborn (by rw [hφ]; exact Phase.noConfusion)
      rw [hφ] at hw
      exact absurd hw.waits.2.1 (hblocked task htask hw.waits.1)
    | _ =>
      rw [hφ] at hpending
      cases hpending
  by_cases hgrid : id = gridId
  · subst hgrid
    have hcount := hg.grid i
    have hpos : 0 < (u.pending i gridId).length := List.length_pos_of_mem hpending
    unfold gridsFor at hcount
    split at hcount
    next hsent =>
      obtain ⟨msg, hmsg, hrefnum⟩ := List.any_eq_true.mp hsent.2
      obtain ⟨k, hk, rfl⟩ := List.getElem_of_mem hmsg
      have hleft : (φ i).hasLeft = true := by
        rcases h.loop.results k _
          (List.getElem?_eq_getElem hk) with ⟨e, he, _⟩ | ⟨_, _, _, hleft⟩
        · rw [he] at hrefnum
          cases hrefnum
        · exact (hleft i).1
      cases hφ : φ i with
      | left r =>
        obtain ⟨task, htask, hw⟩ := hborn (by rw [hφ]; exact Phase.noConfusion)
        rw [hφ] at hw
        have hwaits : if i.val = 0 then task.active = true ∧ task.continuation = gridId
            else task.active = false := hw.waits
        rw [if_pos hsent.1] at hwaits
        exact absurd hwaits.2 (hblocked task htask hwaits.1)
      | done r =>
        rw [hφ] at hcount
        have hgrids : (Phase.done r).grids = 1 := rfl
        omega
      | _ =>
        rw [hφ] at hleft
        cases hleft
    next => omega
  rw [hg.other i id hghost herror hgrid] at hpending
  cases hpending

/-- What is buffered in the array without moves are ghosts of its one task. -/
theorem queued_ghosts (hzero : X.Alike 0) {t : WorkgroupArray n (Relaxation E) (Bytes E)}
    (ht : X.system.Reachable (OneLaunch (X.Allows X.Alike)) t) {tid : TaskId}
    {id : ContinuationId} {p : Payload (Bytes E)} (hp : p ∈ (t.elements i).queue tid id) :
    tid = X.tid ∧ id = ghostId ∧ ∃ j r, p = ⟨ghostId, .ghost j r⟩ := by
  obtain ⟨u, hsteps, hruns⟩ := reachable_solo ht
  obtain ⟨φ, hinv, hgrids⟩ := steps_grids (fun _ h => h) hzero hsteps
  by_cases htid : tid = X.tid
  · subst htid
    have hqueue : u.queues i = (t.elements i).queue X.tid := (hruns.holds i).queue
    rw [← hqueue] at hp
    obtain ⟨j, r, rfl⟩ := only_ghosts hruns hinv hgrids hp
    exact ⟨rfl, (hinv.phases.keyed i id _ hp).symm, j, r, rfl⟩
  · rw [foreign_queues ht i htid] at hp
    cases hp

end Relaxing

/-- `relaxation_task::pup`, from the routines of its members. `rounds`, which is not in
the source, is carried along. -/
def Relaxation.pup {E : Type} (bool : Puper β Bool) (double : Puper β E)
    (int : Puper β Int) (nat : Puper β Nat) : Puper β (Relaxation E) :=
  (bool.andThen (double.andThen (bool.andThen (bool.andThen (int.andThen (int.andThen
    (int.andThen (int.andThen (int.andThen nat))))))))).via
    (fun r => (r.converged, r.tolerance, r.hasLeft, r.hasRight, r.nRecvd, r.nNeighbors,
      r.nWorkers, r.it, r.maxIters, r.rounds))
    (fun x => match x with
      | (converged, tolerance, hasLeft, hasRight, nRecvd, nNeighbors,
        nWorkers, it, maxIters,
          rounds) =>
        ⟨converged, hasLeft, hasRight, tolerance, nRecvd, nNeighbors,
          nWorkers, it, maxIters, rounds⟩)

/-- What `pup.h` does with the types of the members of a task. -/
structure Scalars (β E : Type) where
  bool : Puper β Bool
  double : Puper β E
  int : Puper β Int
  bool_arrives : ∀ b, bool.Arrives b b
  double_arrives : ∀ x, double.Arrives x x
  int_arrives : ∀ k, int.Arrives k k

section Relaxations

variable {E : Type}

/-- The routines of an element of the relaxation, whose program has one type of tasks. -/
def relaxationPups (S : PupStl β) (N : Scalars β E) (read : (Nat → Byte) → Bytes E) :
    Pups β (Relaxation E) (Bytes E) where
  stl := S
  self _ := Relaxation.pup N.bool N.double N.int S.nat
  read

/-- Every member of the task is carried. -/
theorem relaxation_arrives (S : PupStl β) (N : Scalars β E) (r : Relaxation E) :
    (Relaxation.pup N.bool N.double N.int S.nat).Arrives r r := by
  have hparts := Puper.Arrives.andThen (N.bool_arrives r.converged)
    (.andThen (N.double_arrives r.tolerance) (.andThen (N.bool_arrives r.hasLeft)
      (.andThen (N.bool_arrives r.hasRight) (.andThen (N.int_arrives r.nRecvd)
        (.andThen (N.int_arrives r.nNeighbors) (.andThen (N.int_arrives r.nWorkers)
          (.andThen (N.int_arrives r.it) (.andThen (N.int_arrives r.maxIters)
            (S.nat_arrives r.rounds)))))))))
  exact Puper.Arrives.via (f := fun r : Relaxation E =>
    (r.converged, r.tolerance, r.hasLeft, r.hasRight, r.nRecvd, r.nNeighbors, r.nWorkers,
      r.it, r.maxIters, r.rounds)) hparts

/-- The ghosts that are buffered lie as they were sent. -/
def GhostsLie (M : Pups β (Relaxation E) (Bytes E)) (C : Charm) (mv : Moving (Bytes E))
    (queue : TaskId → ContinuationId → List (Payload (Bytes E))) : Prop :=
  ∀ tid id, ∀ p ∈ queue tid id, ∀ j r, p.data = .ghost j r → Lies M C (mv.held p) p

variable [DecidableEq E]

/-- **The relaxation may migrate at any time**: where the loop tests of all workers agree,
no element ever buffers anything but ghosts, and moves make no difference. -/
theorem relaxation_migrates (S : PupStl β) (N : Scalars β E)
    (read : (Nat → Byte) → Bytes E) (C : Charm) (X : Relaxing n E) (hzero : X.Alike 0)
    {s : WorkgroupArray n (Relaxation E) (Bytes E)}
    (h : (WorkgroupArray.migrating (relaxationPups S N read) X.system).Reachable
      (WorkgroupArray.MayMove (OneLaunch (X.Allows X.Alike))
        (GhostsLie (relaxationPups S N read) C))
      s) :
    WorkgroupArray.Transparent (relaxationPups S N read) X.system
      (OneLaunch (X.Allows X.Alike))
        (GhostsLie (relaxationPups S N read) C) s ∧
      ∀ i tid id, ∀ p ∈ (s.elements i).queue tid id, ∃ j r, p =
        ⟨ghostId, .ghost j r⟩ := by
  have hghosts : ∀ t, X.system.Reachable (OneLaunch (X.Allows X.Alike)) t → ∀ i tid id,
      ∀ p ∈ (t.elements i).queue tid id, ∃ j r, p = ⟨ghostId, .ghost j r⟩ := by
    intro t ht i tid id p hp
    exact (Relaxing.queued_ghosts hzero ht hp).2.2
  have hstep : ∀ s, X.system.step s = s.step X.behaviours relaxationCombines :=
    fun _ => rfl
  have htransparent := WorkgroupArray.transparent hstep (fun s hs i => ?_)
    (fun i => ⟨fun _ _ => relaxation_arrives S N _, fun _ _ _ _ =>
      relaxation_arrives S N _⟩)
    (fun t active x hx => ?_) (fun t ht i mv hmv tid id p hp => ?_) h
  · refine ⟨htransparent, ?_⟩
    obtain ⟨t, active, ht, rfl, _⟩ := htransparent.plain
    exact hghosts t ht
  · obtain ⟨active, rfl⟩ := hs
    unfold WorkgroupArray.launch
    dsimp only
    by_cases hi : i = X.host
    · subst hi
      rw [Function.update_self]
      exact ⟨rfl, rfl⟩
    · rw [Function.update_of_ne hi]
      exact ⟨rfl, rfl⟩
  · cases x <;> exact hx
  · obtain ⟨j, r, rfl⟩ := hghosts t ht i tid id p hp
    exact (hmv tid id _ hp j r rfl).kept

end Relaxations

/-! ## Two elements that move -/

/-- What a plain stream holds: numbers, and messages whole. -/
inductive Token
  | nat (k : Nat)
  | int (k : Int)
  | message (m : CkMessage)

namespace Token

/-- A number as one token. -/
def number {α : Type} (f : α → Nat) (g : Nat → α) : Puper Token α where
  pack a := some [.nat (f a)]
  unpack
    | .nat k :: rest => some (g k, rest)
    | _ => none

theorem number_arrives {α : Type} {f : α → Nat} {g : Nat → α}
    (h : ∀ a, g (f a) = a) (a : α) : (number f g).Arrives a a := by
  refine ⟨_, rfl, fun rest => ?_⟩
  show some (g (f a), rest) = _
  rw [h]

theorem ofNat_word {w : Nat} (x : BitVec w) : BitVec.ofNat w x.toNat = x := by
  rw [BitVec.ofNat_toNat, BitVec.setWidth_eq]

/-- Plain routines: every map and queue after its length, a pointer as what it points to. -/
def stl : PupStl Token where
  nat := number id id
  bits w := number BitVec.toNat (BitVec.ofNat w)
  taskId := ((number BitVec.toNat (BitVec.ofNat 32)).andThen
    (number BitVec.toNat (BitVec.ofNat 32))).via (fun tid => (tid.host, tid.task))
    (fun x => ⟨x.1, x.2⟩)
  message :=
    { pack := fun m => some [.message m]
      unpack := fun bs => match bs with
        | .message m :: rest => some (m, rest)
        | _ => none }
  map P Q := .list (number id id) (P.andThen Q)
  deque P := .list (number id id) P
  uniquePtr P := P
  nat_arrives := number_arrives fun _ => rfl
  bits_arrives _ := number_arrives ofNat_word
  taskId_arrives tid := Puper.Arrives.via (f := fun tid : TaskId => (tid.host, tid.task))
    (.andThen (number_arrives ofNat_word tid.host)
      (number_arrives ofNat_word tid.task))
  message_arrives m := ⟨[.message m], rfl, fun _ => rfl⟩
  map_arrives := .list (number_arrives fun _ => rfl)
  deque_arrives := .list (number_arrives fun _ => rfl)
  uniquePtr_arrives h := h

end Token

/-- A task that greets element 1 with its argument, and adds up the greetings. -/
def greeter : Behaviour Nat Nat where
  creator kind payload := (⟨true, kind, 0, payload.data⟩, [.send 1 0 payload.data])
  continuation _ task payload := ({ task with self := task.self + payload.data }, [])

/-- Two elements for it. -/
abbrev greeters : Transition (WorkgroupArray 2 Nat Nat) (WorkgroupArray.Action 2 Nat) :=
  WorkgroupArray.system (fun _ => greeter) addUp fun _ => 0

/-- Its routines; user code reads one byte. -/
def greeterPups : Pups Token Nat Nat where
  stl := Token.stl
  self _ := Token.number id id
  read f := (f 0).toNat

/-- The greeting 3, as it is sent. -/
def greeting : CkMessage := (charm16.alloc 0x1000 (fun _ => 0) 1).store [3]

/-- The greeting is held at one address and goes to another. -/
def greetingMove : Moving Nat where
  held p := .ofTaskMessage charm16 { greeting.sendTo 0x2000 with refnum := p.refnum }
  place _ := 0x3000
  heap _ := 9

/-- The two messages before the move. -/
def greeterCreate : Entry Nat := .create ⟨⟨0, 0⟩, 0, 0, 3⟩
def greeterGreeting : Entry Nat := .resumeMessage ⟨⟨0, 0⟩, 0, 0, 3⟩

/-- The array when element 1 was greeted before its task is created. -/
def greeted : WorkgroupArray 2 Nat Nat :=
  (((WorkgroupArray.init (fun _ => 0) fun _ => ⟨0, 0⟩).launch ⟨0, Nat.two_pos⟩ 0 3).after
    (fun _ => greeter) ⟨0, Nat.two_pos⟩ greeterCreate
    { active := ⟨0, 0⟩
      lastTask := 1
      tasks := Function.update (fun _ => none) ⟨0, 0⟩ (some ⟨true, 0, 0, 3⟩)
      buffers := Function.update (fun _ => none) ⟨0, 0⟩ (some fun _ => none)
      ran := [] }).after (fun _ => greeter) ⟨1, Nat.one_lt_two⟩ greeterGreeting
    ((Workgroup.init ⟨0, 0⟩).buffer ⟨0, 0⟩ ⟨0, 3⟩)

theorem greeted_run : (WorkgroupArray.migrating greeterPups greeters).run
    (.init (fun _ => 0) fun _ => ⟨0, 0⟩)
    [.act (.launch 0 0 3), .act (.deliver 0 greeterCreate 1),
      .act (.deliver 1 greeterGreeting 1)] = some greeted := rfl

/-- The greeting is a payload of a task message. -/
theorem greeted_buffers :
    OfTaskMessages greeterPups charm16 greetingMove (greeted.elements 1).queue := by
  intro tid id p hp
  have hqueue : (greeted.elements 1).queue =
    ((Workgroup.init ⟨0, 0⟩ : Workgroup Nat Nat).buffer
      ⟨0, 0⟩ ⟨0, 3⟩).queue := rfl
  rw [hqueue] at hp
  have hone : p = ⟨0, 3⟩ := by
    by_cases htid : tid = ⟨0, 0⟩
    · subst htid
      rw [buffer_queue] at hp
      by_cases hid : id = 0
      · subst hid
        exact List.mem_singleton.mp hp
      · have hne : id ≠ (⟨0, 3⟩ : Payload Nat).id := hid
        rw [Function.update_of_ne hne] at hp
        cases hp
    · rw [(buffer_same _ htid _).queue] at hp
      cases hp
  subst hone
  have hpack : charm16.packArgs 0x1000 (fun _ => 0) [3] = some greeting := rfl
  refine lies_sent hpack 0x2000 fun f hf => ?_
  show (f 0).toNat = 3
  rw [hf 0 Nat.zero_lt_one]
  rfl

theorem greeter_pupable (i : Fin 2) :
    Pupable greeterPups ((fun _ => greeter : Fin 2 → Behaviour Nat Nat) i).program :=
  ⟨fun _ _ => Token.number_arrives (fun _ => rfl) _,
    fun _ _ _ _ => Token.number_arrives (fun _ => rfl) _⟩

/-- Element 1 moves with the greeting. -/
theorem migration_transparent_greeting : ∃ o : Order, ∃ s : WorkgroupArray 2 Nat Nat,
    (WorkgroupArray.migrating greeterPups greeters).step greeted
      (.migrate 1 o greetingMove ⟨7, 7⟩) = some s ∧
    (s.elements 1).queue ⟨0, 0⟩ 0 = [⟨0, 3⟩] ∧
    WorkgroupArray.Transparent greeterPups greeters (fun _ _ => True)
      (OfTaskMessages greeterPups charm16) s := by
  have hact : ∀ x ∈ ([.act (.launch 0 0 3), .act (.deliver 0 greeterCreate 1),
      .act (.deliver 1 greeterGreeting 1)] : List (WorkgroupArray.Event 2 Nat)), ∀ t,
      WorkgroupArray.MayMove (σ := Nat) (fun _ _ => True)
        (OfTaskMessages greeterPups charm16) t x := by
    intro x hx t
    rcases List.mem_cons.mp hx with rfl | hx
    · trivial
    rcases List.mem_cons.mp hx with rfl | hx
    · trivial
    rw [List.mem_singleton.mp hx]
    trivial
  have hreach : (WorkgroupArray.migrating greeterPups greeters).Reachable
      (WorkgroupArray.MayMove (fun _ _ => True)
        (OfTaskMessages greeterPups charm16)) greeted :=
    Transition.run_reachable _ hact (.init ⟨_, rfl⟩) greeted_run
  have hbefore :=
    migration_transparent greeterPups charm16 (fun _ => greeter) addUp (fun _ => 0)
    greeter_pupable hreach
  obtain ⟨o, ho⟩ := hbefore.packs 1
  have hmay : WorkgroupArray.MayMove (fun _ _ => True)
    (OfTaskMessages greeterPups charm16) greeted
      (.migrate 1 o greetingMove ⟨7, 7⟩) := ⟨ho, greeted_buffers⟩
  have hmove := hbefore.arrives 1 o greetingMove ⟨7, 7⟩ ho greeted_buffers
  have hstep : (WorkgroupArray.migrating greeterPups greeters).step greeted
      (.migrate 1 o greetingMove ⟨7, 7⟩) = some { greeted with
        elements := Function.update greeted.elements 1
          { greeted.elements 1 with active := ⟨7, 7⟩ } } := congrArg (Option.map _) hmove
  exact ⟨o, _, hstep, rfl, migration_transparent greeterPups charm16 (fun _ =>
    greeter) addUp
    (fun _ => 0) greeter_pupable (.step hreach hmay hstep)⟩

/-- An `int`, or a double that is a whole number, as one token. -/
def Token.whole : Puper Token Int where
  pack k := some [.int k]
  unpack
    | .int k :: rest => some (k, rest)
    | _ => none

/-- `bool` as 0 or 1, and whole numbers for doubles. -/
def Token.scalars : Scalars Token Int where
  bool := Token.number Bool.toNat fun k => k == 1
  double := Token.whole
  int := Token.whole
  bool_arrives := Token.number_arrives fun b => by cases b <;> rfl
  double_arrives k := ⟨[.int k], rfl, fun _ => rfl⟩
  int_arrives k := ⟨[.int k], rfl, fun _ => rfl⟩

/-- Two bytes are read as a ghost. -/
def pairPups : Pups Token (Relaxation Int) (Bytes Int) :=
  relaxationPups Token.stl Token.scalars fun f => .ghost (f 0).toNat (f 1).toNat

/-- The second ghost of worker 0, as it is sent. -/
def secondGhost : CkMessage := (charm16.alloc 0x1000 (fun _ => 0) 2).store [0, 2]

/-- The ghost is held at one address and goes to another. -/
def ghostMove : Moving (Bytes Int) where
  held p := .ofTaskMessage charm16 { secondGhost.sendTo 0x2000 with refnum := p.refnum }
  place _ := 0x3000
  heap _ := 9

/-- Worker `q` still waits for the error of the first round when the second ghost of
worker `p` comes. -/
def pairAhead (p q : Fin 2) : List (WorkgroupArray.Action 2 (Bytes Int)) :=
  let X := Relaxing.pair fun _ => -1
  [.deliver p (.create X.message) 3, .deliver q (.create X.message) 3,
    .deliver p (.resumeMessage ⟨X.tid, 0, ghostId, .ghost 1 1⟩) 3,
    .deliver q (.resumeMessage ⟨X.tid, 0, ghostId, .ghost 0 1⟩) 3, .reduce p (.error 2),
    .deliver p (.resumeReduction (X.errorResult 2)) 3,
    .deliver q (.resumeMessage ⟨X.tid, 0, ghostId, .ghost 0 2⟩) 3]

/-- It reads both, and the second round goes to its end. -/
def pairBehind (p q : Fin 2) : List (WorkgroupArray.Action 2 (Bytes Int)) :=
  let X := Relaxing.pair fun _ => -1
  [.deliver q (.resumeReduction (X.errorResult 2)) 4,
    .deliver p (.resumeMessage ⟨X.tid, 0, ghostId, .ghost 1 2⟩) 3, .reduce p (.error 2),
    .deliver p (.resumeReduction (X.errorResult 2)) 3,
    .deliver q (.resumeReduction (X.errorResult 2)) 3, .reduce p (.set [0, 1]),
    .deliver p (.resumeReduction (X.gridResult [0, 1])) 3]

theorem ghostMove_lies {queue : TaskId → ContinuationId → List (Payload (Bytes Int))}
    (hqueue : ∀ tid id, ∀ p ∈ queue tid id, p = ⟨ghostId, .ghost 0 2⟩) :
    GhostsLie pairPups charm16 ghostMove queue := by
  intro tid id p hp j r _
  obtain rfl := hqueue tid id p hp
  have hpack : charm16.packArgs 0x1000 (fun _ => 0) [0, 2] = some secondGhost := rfl
  refine lies_sent hpack 0x2000 fun f hf => ?_
  show Bytes.ghost (f 0).toNat (f 1).toNat = _
  rw [hf 0 Nat.two_pos, hf 1 Nat.one_lt_two]
  rfl

theorem pair_alike (k : Nat) : (Relaxing.pair fun _ => -1).Alike k :=
  fun _ _ => Iff.rfl

theorem pair_only (xs : List (WorkgroupArray.Action 2 (Bytes Int)))
    (hxs : xs.all Relaxing.noLaunch = true) :
    ∀ x ∈ xs, ∀ s : WorkgroupArray 2 (Relaxation Int) (Bytes Int),
      OneLaunch ((Relaxing.pair fun _ => -1).Allows (Relaxing.pair fun _ => -1).Alike)
        s x :=
  Relaxing.noLaunch_only (fun k _ _ _ _ => pair_alike (k + 1)) hxs

/-- Deliveries and reductions alone may come at any time. -/
theorem pair_may (xs : List (WorkgroupArray.Action 2 (Bytes Int)))
    (hxs : xs.all Relaxing.noLaunch = true) :
    ∀ x ∈ xs.map WorkgroupArray.Event.act,
      ∀ s : WorkgroupArray 2 (Relaxation Int) (Bytes Int), WorkgroupArray.MayMove
        (OneLaunch ((Relaxing.pair fun _ => -1).Allows (Relaxing.pair fun _ => -1).Alike))
        (GhostsLie pairPups charm16) s x := by
  intro x hx s
  obtain ⟨a, ha, rfl⟩ := List.mem_map.mp hx
  exact pair_only xs hxs a ha s

/-- Worker 1 has its task and one ghost when it is to move, and the rest of the run goes
through wherever it then lies. -/
theorem pair_run : ∃ s, (Relaxing.pair fun _ => -1).system.run
      (Relaxing.launched (Relaxing.pair fun _ => -1)) (pairAhead 0 1) = some s ∧
    ((s.elements 1).tasks (Relaxing.pair fun _ => -1).tid).isSome = true ∧
    (s.elements 1).queue (Relaxing.pair fun _ => -1).tid ghostId =
      [⟨ghostId, .ghost 0 2⟩] ∧
    ∃ t, (Relaxing.pair fun _ => -1).system.run { s with
      elements := Function.update s.elements 1 { s.elements 1 with active := ⟨5, 5⟩ } }
        (pairBehind 0 1) = some t := by
  let X := Relaxing.pair fun _ => -1
  have hrun : ((X.system.run (Relaxing.launched X) (pairAhead 0 1)).map fun s =>
      (((s.elements 1).tasks X.tid).isSome, (s.elements 1).queue X.tid ghostId)) =
        some (true, [⟨ghostId, .ghost 0 2⟩]) := by
    decide +kernel
  have hrest : (((X.system.run (Relaxing.launched X) (pairAhead 0 1)).map fun s =>
      { s with
        elements := Function.update s.elements 1 { s.elements 1 with active := ⟨5, 5⟩ } }).bind
          fun s => X.system.run s (pairBehind 0 1)).isSome = true := by
    decide +kernel
  obtain ⟨s, hs, hlists⟩ := Option.map_eq_some_iff.mp hrun
  obtain ⟨htask, hqueue⟩ := Prod.mk.inj hlists
  rw [hs, Option.map_some, Option.bind_some] at hrest
  obtain ⟨t, ht⟩ := Option.isSome_iff_exists.mp hrest
  exact ⟨s, hs, htask, hqueue, t, ht⟩

/-- The one ghost that worker 1 holds lies as worker 0 sent it. -/
theorem pairAhead_lies {s : WorkgroupArray 2 (Relaxation Int) (Bytes Int)}
    (hs : (Relaxing.pair fun _ => -1).system.Reachable (OneLaunch
      ((Relaxing.pair fun _ => -1).Allows (Relaxing.pair fun _ => -1).Alike)) s)
    (hqueue : (s.elements 1).queue (Relaxing.pair fun _ => -1).tid ghostId =
      [⟨ghostId, .ghost 0 2⟩]) :
    GhostsLie pairPups charm16 ghostMove (s.elements 1).queue := by
  refine ghostMove_lies fun tid id p hp => ?_
  obtain ⟨rfl, rfl, _⟩ := Relaxing.queued_ghosts (pair_alike 0) hs hp
  rw [hqueue] at hp
  exact List.mem_singleton.mp hp

/-- Two workers; the second moves with its task and a ghost of the round to come. -/
theorem relaxation_migrates_ghost : ∃ s t, ∃ o : Order,
    (WorkgroupArray.migrating pairPups (Relaxing.pair fun _ => -1).system).run
      (Relaxing.launched (Relaxing.pair fun _ => -1))
      ((pairAhead 0 1).map .act) = some s ∧
    ((s.elements 1).tasks (Relaxing.pair fun _ => -1).tid).isSome = true ∧
    (s.elements 1).queue (Relaxing.pair fun _ => -1).tid ghostId =
    [⟨ghostId, .ghost 0 2⟩] ∧
    (WorkgroupArray.migrating pairPups (Relaxing.pair fun _ => -1).system).run s
      (.migrate 1 o ghostMove ⟨5, 5⟩ :: (pairBehind 0 1).map .act) = some t ∧
    WorkgroupArray.Transparent pairPups (Relaxing.pair fun _ => -1).system
        (OneLaunch ((Relaxing.pair fun _ => -1).Allows (Relaxing.pair fun _ => -1).Alike))
        (GhostsLie pairPups charm16) t ∧
      ∀ i tid id, ∀ p ∈ (t.elements i).queue tid id, ∃ j r, p =
        ⟨ghostId, .ghost j r⟩ := by
  let X := Relaxing.pair fun _ => -1
  obtain ⟨s, hs, htask, hqueue, t, ht⟩ := pair_run
  have hmoving : (WorkgroupArray.migrating pairPups X.system).run (Relaxing.launched X)
      ((pairAhead 0 1).map .act) = some s := (WorkgroupArray.migrating_run ..).trans hs
  have hreach : (WorkgroupArray.migrating pairPups X.system).Reachable
      (WorkgroupArray.MayMove (OneLaunch (X.Allows X.Alike))
        (GhostsLie pairPups charm16)) s :=
    Transition.run_reachable _ (pair_may (pairAhead 0 1) rfl) (.init ⟨_, rfl⟩)
      hmoving
  have hbefore :=
    (relaxation_migrates Token.stl Token.scalars _ charm16 X (pair_alike 0) hreach).1
  have hlies : GhostsLie pairPups charm16 ghostMove (s.elements 1).queue :=
    pairAhead_lies (Transition.run_reachable _ (pair_only (pairAhead 0 1) rfl)
      (.init ⟨_, rfl⟩) hs) hqueue
  obtain ⟨o, ho⟩ := hbefore.packs 1
  have hstep : (WorkgroupArray.migrating pairPups X.system).step s
      (.migrate 1 o ghostMove ⟨5, 5⟩) = some { s with
        elements := Function.update s.elements 1
          { s.elements 1 with active := ⟨5, 5⟩ } } :=
    congrArg (Option.map _) (hbefore.arrives 1 o ghostMove ⟨5, 5⟩ ho hlies)
  have hafter := (WorkgroupArray.migrating_run pairPups X.system _ _).trans ht
  refine ⟨s, t, o, hmoving, htask, hqueue, ?_,
    relaxation_migrates Token.stl Token.scalars _ charm16 X (pair_alike 0)
      (Transition.run_reachable _ (pair_may (pairBehind 0 1) rfl)
        (.step (a := .migrate 1 o ghostMove ⟨5, 5⟩) hreach ⟨ho, hlies⟩ hstep) hafter)⟩
  rw [Transition.run, List.foldlM_cons, hstep]
  exact hafter

end CharmExperiments.Hypercomm
