import CharmExperiments.Hypercomm.Isolation

/-!
# One reduction stream for all tasks

Every task of an array contributes to the same stream of reductions, matched by
position, and the id of the result is the bitwise and of the ids contributed.
With one task that is right. With several it is right as long as the tasks
contribute in the same order on every element (`Aligned`): then every reduction
is of one task (`OwnReductions`), and what is left of a run when only one task
is looked at is a run in which that task was launched alone (`Alike`).

Nothing makes the order agree: `create` messages are not ordered, and
`mixed_reduction` is two tasks whose constructors contribute, created in
different orders on two elements.
-/

namespace CharmExperiments.Hypercomm

open CharmExperiments.Lib
open CharmExperiments.Lib.Contributions (getElem?_extend_cases grows_extend agree_extend)

variable {n : Nat} {σ δ : Type}

/-! ## Lists -/

/-- A kept entry stands where the kept ones before it end. -/
theorem getElem?_filter_of_some {β : Type} {p : β → Bool} {l : List β} {k : Nat} {x : β}
    (hx : l[k]? = some x) (hp : p x = true) :
    (l.filter p)[((l.take k).filter p).length]? = some x := by
  obtain ⟨hk, hx⟩ := List.getElem?_eq_some_iff.mp hx
  have hsplit : l = l.take k ++ x :: l.drop (k + 1) := by
    rw [← hx, ← List.drop_eq_getElem_cons hk, List.take_append_drop]
  have hfilter : l.filter p = (l.take k).filter p ++ x :: (l.drop (k + 1)).filter p := by
    conv_lhs => rw [hsplit, List.filter_append, List.filter_cons_of_pos hp]
  rw [hfilter, List.getElem?_append_right (Nat.le_refl _), Nat.sub_self]
  rfl

/-- Ids that are all one id are reduced to it. -/
theorem reducedId_eq {ids : List TaskId} {tid : TaskId} (hne : ids ≠ [])
    (hall : ∀ x ∈ ids, x = tid) : reducedId ids = tid := by
  induction ids with
  | nil => exact absurd rfl hne
  | cons x ids ih =>
    obtain rfl := hall x List.mem_cons_self
    show TaskId.and x (reducedId ids) = x
    cases ids with
    | nil =>
      show TaskId.and x ⟨BitVec.allOnes 32, BitVec.allOnes 32⟩ = x
      rw [TaskId.and, BitVec.and_allOnes, BitVec.and_allOnes]
    | cons y ids =>
      rw [ih (List.cons_ne_nil _ _) fun z hz => hall z (List.mem_cons_of_mem x hz)]
      simp [TaskId.and]

/-! ## The condition -/

section Condition

/-- The contributions element `i` makes while it runs `e`. -/
def WorkgroupArray.made (B : Fin n → Behaviour σ δ) (a : WorkgroupArray n σ δ) (i : Fin n)
    (e : Entry δ) (fuel : Nat) : List (Contribution δ) :=
  match (a.elements i).deliver (B i).program fuel e with
  | none => []
  | some g => ((B i).issued (a.elements i) e g).filterMap Issued.contribution

/-- The task that contributes is the one whose contribution of that rank the
other elements have already, if they have one: the tasks contribute in one order
on all elements. -/
def Aligned (B : Fin n → Behaviour σ δ) (a : WorkgroupArray n σ δ) :
    WorkgroupArray.Action n δ → Prop
  | .deliver i e fuel => ∀ (q : Fin n) (k : Nat) c d, (a.made B i e fuel)[k]? = some c →
      (a.contributed q)[(a.contributed i).length + k]? = some d → d.owner = c.owner
  | _ => True

theorem aligned_iff {B : Fin n → Behaviour σ δ} {a : WorkgroupArray n σ δ} {i : Fin n}
    {e : Entry δ} {fuel : Nat} :
    (∀ q : Fin n,
      ∀ x ∈ (a.made B i e fuel).zip ((a.contributed q).drop (a.contributed i).length),
      x.2.owner = x.1.owner) ↔ Aligned B a (.deliver i e fuel) := by
  refine ⟨fun h q k c d hc hd => ?_, fun h q x hx => ?_⟩
  · rw [← List.getElem?_drop] at hd
    exact h q (c, d) (List.mem_of_getElem? (List.getElem?_zip_eq_some.mpr ⟨hc, hd⟩))
  · obtain ⟨k, hk⟩ := List.mem_iff_getElem?.mp hx
    obtain ⟨hc, hd⟩ := List.getElem?_zip_eq_some.mp hk
    rw [List.getElem?_drop] at hd
    exact h q k x.1 x.2 hc hd

instance (B : Fin n → Behaviour σ δ) (a : WorkgroupArray n σ δ) :
    DecidablePred (Aligned B a)
  | .launch .. => isTrue trivial
  | .deliver .. => decidable_of_iff _ aligned_iff
  | .reduce .. => isTrue trivial

/-- The counter of the launching element does not wrap around. -/
def NoWrap (a : WorkgroupArray n σ δ) : WorkgroupArray.Action n δ → Prop
  | .launch host _ _ => (a.elements host).lastTask ≠ BitVec.allOnes 32
  | _ => True

instance (a : WorkgroupArray n σ δ) : DecidablePred (NoWrap a)
  | .launch host _ _ =>
    inferInstanceAs (Decidable ((a.elements host).lastTask ≠ BitVec.allOnes 32))
  | .deliver .. => isTrue trivial
  | .reduce .. => isTrue trivial

/-- Nothing but `tid` is launched. -/
def OnlyLaunch (tid : TaskId) (a : WorkgroupArray n σ δ) : WorkgroupArray.Action n δ →
    Prop
  | .launch host _ _ => ((a.elements host).generateId (thisIndex host)).1 = tid
  | _ => True

end Condition

/-! ## What is claimed of the reductions -/

/-- Every reduction carries the id of a task and combines one contribution of
that task from every element; only such results are delivered. -/
structure OwnReductions (combines : List (ReducerType × δ) → δ → Bool)
    (a : WorkgroupArray n σ δ) : Prop where
  formed : ∀ (k : Nat) msg, a.reductions[k]? = some msg → ∃ cs : Fin n → Contribution δ,
    (∀ i, (a.contributed i)[k]? = some (cs i) ∧ (cs i).owner = msg.results.1) ∧
    combines (WorkgroupArray.reduced cs) msg.results.2 = true
  delivered : ∀ i msg, Entry.resumeReduction msg ∈ a.handled i → msg ∈ a.reductions

/-- What concerns the task `tid` is the same in both: its state, queues and log on
every element, what the elements ran for it and contributed for it, its results
and its messages. -/
structure SameTask (tid : TaskId) (s a : WorkgroupArray n σ δ) : Prop where
  elements : ∀ i, SameFor (s.elements i) (a.elements i) tid
  handled : ∀ i, a.handled i = (s.handled i).filter fun e => e.tid = tid
  contributed : ∀ i, a.contributed i = (s.contributed i).filter fun c => c.owner = tid
  reductions : a.reductions = s.reductions.filter fun msg => msg.results.1 = tid
  flight : a.flight = s.flight.filter fun x => x.2.tid = tid

/-! ## Every reduction is of one task -/

/-- The invariant behind `OwnReductions`. -/
structure Tagged (combines : List (ReducerType × δ) → δ → Bool)
    (a : WorkgroupArray n σ δ) :
    Prop extends OwnReductions combines a where
  tid : ∀ i, ∀ c ∈ a.contributed i, c.tid = c.owner
  agree : a.contributed.Agree Contribution.owner
  sent : ∀ i msg, (i, Entry.resumeReduction msg) ∈ a.flight → msg ∈ a.reductions

section Steps

variable {B : Fin n → Behaviour σ δ} {combines : List (ReducerType × δ) → δ → Bool}
variable {a a' : WorkgroupArray n σ δ}

theorem init_tagged (last : Fin n → BitVec 32) (active : Fin n → TaskId) :
    Tagged combines (WorkgroupArray.init last active : WorkgroupArray n σ δ) where
  formed := fun _ _ h => by cases h
  delivered := fun _ _ h => by cases h
  tid := fun _ _ h => by cases h
  agree := fun _ _ _ _ _ h => by cases h
  sent := fun _ _ h => by cases h

theorem launch_tagged (h : Tagged combines a) (host : Fin n)
    (kind : TaskKind) (data : δ) :
    Tagged combines (a.launch host kind data) where
  formed := h.formed
  delivered := h.delivered
  tid := h.tid
  agree := h.agree
  sent := by
    intro i msg hmem
    rcases List.mem_append.mp hmem with hmem | hmem
    · exact h.sent i msg hmem
    · obtain ⟨_, _, heq⟩ := List.mem_map.mp hmem
      cases (Prod.mk.inj heq).2

/-- The contributions of an entry are its task's. -/
theorem contribution_own {B : Behaviour σ δ} {e : Entry δ} {g g' : Workgroup σ δ}
    (h : Turn g g' e.tid) {c : Contribution δ}
    (hc : c ∈ (B.issued g e g').filterMap Issued.contribution) :
    c.owner = e.tid ∧ c.tid = e.tid := by
  obtain ⟨x, hx, hxc⟩ := List.mem_filterMap.mp hc
  obtain ⟨howner, hactive⟩ := issued_own B h hx
  unfold Issued.contribution at hxc
  split at hxc
  next =>
    obtain rfl := Option.some.inj hxc
    exact ⟨howner, hactive⟩
  next => cases hxc

/-- The messages of an entry are for its task. -/
theorem message_own {B : Behaviour σ δ} {e : Entry δ} {g g' : Workgroup σ δ}
    (h : Turn g g' e.tid) {m : Nat × Entry δ}
    (hm : m ∈ (B.issued g e g').flatMap (Issued.messages n)) :
    ∃ msg, m.2 = .resumeMessage msg ∧ msg.tid = e.tid := by
  obtain ⟨x, hx, hxm⟩ := List.mem_flatMap.mp hm
  obtain ⟨_, hactive⟩ := issued_own B h hx
  unfold Issued.messages at hxm
  split at hxm
  next =>
    obtain rfl := List.mem_singleton.mp hxm
    exact ⟨_, rfl, hactive⟩
  next =>
    obtain ⟨_, _, rfl⟩ := List.mem_map.mp hxm
    exact ⟨_, rfl, hactive⟩
  next => cases hxm

/-- The contributions of an entry, seen by one task. -/
theorem contributions_filter {B : Behaviour σ δ} {e : Entry δ} {g g' : Workgroup σ δ}
    (h : Turn g g' e.tid) (tid : TaskId) :
    ((B.issued g e g').filterMap Issued.contribution).filter (fun c => c.owner = tid)
      = if e.tid = tid then (B.issued g e g').filterMap Issued.contribution else [] := by
  split
  next heq =>
    refine List.filter_eq_self.mpr fun c hc => decide_eq_true ?_
    rw [(contribution_own h hc).1, heq]
  next hne =>
    refine List.filter_eq_nil_iff.mpr fun c hc heq => hne ?_
    rw [← (contribution_own h hc).1, of_decide_eq_true heq]

/-- The messages of an entry, seen by one task. -/
theorem messages_filter {B : Behaviour σ δ} {e : Entry δ} {g g' : Workgroup σ δ}
    (h : Turn g g' e.tid) (tid : TaskId) :
    ((B.issued g e g').flatMap (Issued.messages n)).filter (fun x => x.2.tid = tid)
      = if e.tid = tid then (B.issued g e g').flatMap (Issued.messages n) else [] := by
  split
  next heq =>
    refine List.filter_eq_self.mpr fun m hm => decide_eq_true ?_
    obtain ⟨msg, hmsg, htid⟩ := message_own h hm
    rw [hmsg, ← heq]
    exact htid
  next hne =>
    refine List.filter_eq_nil_iff.mpr fun m hm heq => hne ?_
    obtain ⟨msg, hmsg, htid⟩ := message_own h hm
    rw [hmsg] at heq
    exact htid.symm.trans (of_decide_eq_true heq)

/-- A reduction formed by contributions of one task carries its id. -/
theorem reduced_tid (h : Tagged combines a) {k : Nat} (hk : a.contributed.Ready k)
    (root : Fin n) (data : δ) :
    (WorkgroupArray.result (a.rank k hk) root data).results.1 = (a.rank k hk root).owner ∧
    ∀ i, (a.rank k hk i).owner = (a.rank k hk root).owner := by
  have hget : ∀ i, (a.contributed i)[k]? = some (a.rank k hk i) :=
    fun i => List.getElem?_eq_getElem (hk i)
  have howner : ∀ i, (a.rank k hk i).owner = (a.rank k hk root).owner :=
    fun i => h.agree k i root _ _ (hget i) (hget root)
  refine ⟨reducedId_eq ?_ ?_, howner⟩
  · exact List.ne_nil_of_mem (List.mem_map_of_mem (List.mem_finRange root))
  · intro x hx
    obtain ⟨i, _, rfl⟩ := List.mem_map.mp hx
    rw [h.tid i _ (List.mem_of_getElem? (hget i)), howner i]

theorem reduce_tagged (h : Tagged combines a) {root : Fin n} {data : δ}
    (hs : a.reduce combines root data = some a') : Tagged combines a' := by
  unfold WorkgroupArray.reduce at hs
  split at hs
  next hk =>
    dsimp only at hs
    split at hs
    next hcomb =>
      obtain rfl := Option.some.inj hs
      obtain ⟨htid, howner⟩ := reduced_tid h hk root data
      refine ⟨⟨?_, ?_⟩, h.tid, h.agree, ?_⟩
      · intro k msg hmsg
        rcases Nat.lt_trichotomy k a.reductions.length with hlt | rfl | hgt
        · rw [List.getElem?_append_left hlt] at hmsg
          exact h.formed k msg hmsg
        · rw [List.getElem?_concat_length] at hmsg
          obtain rfl := Option.some.inj hmsg
          refine ⟨a.rank _ hk, fun i => ⟨List.getElem?_eq_getElem (hk i), ?_⟩, hcomb⟩
          exact (howner i).trans htid.symm
        · rw [List.getElem?_eq_none (by simp; omega)] at hmsg
          cases hmsg
      · intro i msg hmsg
        exact List.mem_append_left _ (h.delivered i msg hmsg)
      · intro i msg hmsg
        rcases List.mem_append.mp hmsg with hmsg | hmsg
        · exact List.mem_append_left _ (h.sent i msg hmsg)
        · obtain ⟨_, _, heq⟩ := List.mem_map.mp hmsg
          obtain ⟨_, heq⟩ := Prod.mk.inj heq
          obtain rfl := Entry.resumeReduction.inj heq
          exact List.mem_append_right _ List.mem_cons_self
    next => cases hs
  next => cases hs

variable [DecidableEq δ]

/-- A delivery that was made. -/
theorem deliver_some {i : Fin n} {e : Entry δ} {fuel : Nat}
    (hs : a.deliver B i e fuel = some a') :
    (i.val, e) ∈ a.flight ∧ ∃ g, (a.elements i).deliver (B i).program fuel e = some g ∧
      a' = a.after B i e g := by
  unfold WorkgroupArray.deliver at hs
  split at hs
  next hmem =>
    obtain ⟨g, hg, rfl⟩ := Option.map_eq_some_iff.mp hs
    exact ⟨hmem, g, hg, rfl⟩
  next => cases hs

theorem deliver_tagged (h : Tagged combines a) {i : Fin n} {e : Entry δ} {fuel : Nat}
    (hc : Aligned B a (.deliver i e fuel)) (hs : a.deliver B i e fuel = some a') :
    Tagged combines a' := by
  obtain ⟨hmem, g, hg, rfl⟩ := deliver_some hs
  have hturn := deliver_turn hg
  have hmade : a.made B i e fuel
      = ((B i).issued (a.elements i) e g).filterMap Issued.contribution := by
    rw [WorkgroupArray.made, hg]
  have hgrows := grows_extend a.contributed i
    (((B i).issued (a.elements i) e g).filterMap Issued.contribution)
  refine ⟨⟨?_, ?_⟩, ?_, ?_, ?_⟩
  · intro k msg hmsg
    obtain ⟨cs, hcs, hcomb⟩ := h.formed k msg hmsg
    refine ⟨cs, fun q => ⟨?_, (hcs q).2⟩, hcomb⟩
    obtain ⟨rest, hrest⟩ := hgrows q
    show (a.contributed.extend i _ q)[k]? = _
    rw [← hrest, List.getElem?_append_left (List.getElem?_eq_some_iff.mp (hcs q).1).1]
    exact (hcs q).1
  · intro q msg hmsg
    by_cases hq : q = i
    · subst hq
      rw [show (a.after B q e g).handled q = a.handled q ++ [e] from
        Function.update_self ..] at hmsg
      rcases List.mem_append.mp hmsg with hmsg | hmsg
      · exact h.delivered q msg hmsg
      · rw [← List.mem_singleton.mp hmsg] at hmem
        exact h.sent _ msg hmem
    · rw [show (a.after B i e g).handled q = a.handled q from
        Function.update_of_ne hq _ _] at hmsg
      exact h.delivered q msg hmsg
  · intro q c hmem
    obtain ⟨k, hk⟩ := List.mem_iff_getElem?.mp hmem
    rcases getElem?_extend_cases hk with hk | ⟨_, j, _, hj⟩
    · exact h.tid q c (List.mem_of_getElem? hk)
    · obtain ⟨howner, htid⟩ := contribution_own hturn (List.mem_of_getElem? hj)
      rw [howner, htid]
  · refine agree_extend h.agree fun q k c d hx hy => ?_
    rw [← hmade] at hx
    exact hc q k c d hx hy
  · intro q msg hmsg
    rcases List.mem_append.mp hmsg with hmsg | hmsg
    · exact h.sent q msg (List.mem_of_mem_erase hmsg)
    · obtain ⟨m, hm, _⟩ := message_own hturn hmsg
      cases hm

/-- **Aligned steps keep every reduction to one task.** -/
theorem step_tagged (h : Tagged combines a) {x : WorkgroupArray.Action n δ}
    (hc : Aligned B a x) (hs : a.step B combines x = some a') : Tagged combines a' := by
  cases x with
  | launch host kind data =>
    obtain rfl := Option.some.inj hs
    exact launch_tagged h host kind data
  | deliver i e fuel => exact deliver_tagged h hc hs
  | reduce root data => exact reduce_tagged h hs

end Steps

/-! ## One task of many, and the task alone -/

/-- The counters an array counts from when `tid` is the next id of its host. -/
def startAt (tid : TaskId) (i : Fin n) : BitVec 32 :=
  if thisIndex i = tid.host then tid.task else 0

/-- `a` is what is left of `s` when only `tid` is looked at. -/
structure Alike (tid : TaskId) (s a : WorkgroupArray n σ δ) :
    Prop extends SameTask tid s a where
  last : ∀ i, thisIndex i = tid.host →
    ((s.elements i).lastTask.toNat ≤ tid.task.toNat ∧
      (a.elements i).lastTask = tid.task) ∨
    tid.task.toNat < (s.elements i).lastTask.toNat

section Projection

variable {B : Fin n → Behaviour σ δ} {combines : List (ReducerType × δ) → δ → Bool}
variable {s s' a : WorkgroupArray n σ δ} {tid : TaskId}

theorem init_alike (tid : TaskId) (active : Fin n → TaskId) :
    Alike tid (WorkgroupArray.init (fun _ => 0) active : WorkgroupArray n σ δ)
      (WorkgroupArray.init (startAt tid) active) where
  elements := fun _ => ⟨rfl, rfl, rfl⟩
  handled := fun _ => rfl
  contributed := fun _ => rfl
  reductions := rfl
  flight := rfl
  last := by
    intro i hi
    exact Or.inl ⟨Nat.zero_le _, if_pos hi⟩

/-- The counter goes up by one. -/
theorem launch_last {last : BitVec 32} (h : last ≠ BitVec.allOnes 32) :
    (last + 1).toNat = last.toNat + 1 := by
  have hne : last.toNat ≠ 2 ^ 32 - 1 := by
    intro heq
    exact h (BitVec.eq_of_toNat_eq (by rw [heq, BitVec.toNat_allOnes]))
  have hlt := last.isLt
  rw [BitVec.toNat_add, show (1 : BitVec 32).toNat = 1 from rfl]
  omega

theorem launch_elements (tid : TaskId) (s : WorkgroupArray n σ δ) (host : Fin n)
    (kind : TaskKind) (data : δ) (i : Fin n) :
    SameFor (s.elements i) ((s.launch host kind data).elements i) tid ∧
    ((s.launch host kind data).elements i).lastTask
      = if i = host then (s.elements i).lastTask + 1 else (s.elements i).lastTask := by
  have helem : (s.launch host kind data).elements i
      = Function.update s.elements host { s.elements host with
          lastTask := (s.elements host).lastTask + 1 } i := rfl
  rw [helem]
  by_cases hi : i = host
  · subst hi
    rw [Function.update_self, if_pos rfl]
    exact ⟨⟨rfl, rfl, rfl⟩, rfl⟩
  · rw [Function.update_of_ne hi, if_neg hi]
    exact ⟨SameFor.refl _ _, rfl⟩

/-- The messages of a launch, seen by one task. -/
theorem launch_flight {t : TaskId} (kind : TaskKind) (data : δ) :
    (((List.range n).map fun i => (i, Entry.create ⟨t, kind, 0, data⟩)).filter
      fun x : Nat × Entry δ => x.2.tid = tid)
      = if t = tid then (List.range n).map fun i => (i, Entry.create ⟨t, kind, 0, data⟩)
        else [] := by
  split
  next h =>
    refine List.filter_eq_self.mpr fun x hx => ?_
    obtain ⟨_, _, rfl⟩ := List.mem_map.mp hx
    exact decide_eq_true h
  next h =>
    refine List.filter_eq_nil_iff.mpr fun x hx => ?_
    obtain ⟨_, _, rfl⟩ := List.mem_map.mp hx
    exact fun heq => h (of_decide_eq_true heq)

/-- A launch of another task. -/
theorem launch_alike_other (h : Alike tid s a) {host : Fin n} {kind : TaskKind} {data : δ}
    (hwrap : (s.elements host).lastTask ≠ BitVec.allOnes 32)
    (hne : ((s.elements host).generateId (thisIndex host)).1 ≠ tid) :
    Alike tid (s.launch host kind data) a where
  elements := fun i =>
    (launch_elements tid s host kind data i).1.symm.trans (h.elements i)
  handled := h.handled
  contributed := h.contributed
  reductions := h.reductions
  flight := by
    show a.flight = (s.flight ++ _).filter _
    rw [List.filter_append, launch_flight, if_neg hne, List.append_nil]
    exact h.flight
  last := by
    intro i hi
    rw [(launch_elements tid s host kind data i).2]
    by_cases hih : i = host
    · subst hih
      have hlast := launch_last hwrap
      have hnext : (s.elements i).lastTask ≠ tid.task := by
        intro heq
        refine hne ?_
        show (⟨thisIndex i, (s.elements i).lastTask⟩ : TaskId) = tid
        rw [hi, heq]
      have hnext : (s.elements i).lastTask.toNat ≠ tid.task.toNat :=
        fun heq => hnext (BitVec.eq_of_toNat_eq heq)
      rw [if_pos rfl]
      rcases h.last i hi with ⟨hle, ha⟩ | hlt
      · exact Or.inl ⟨by omega, ha⟩
      · exact Or.inr (by omega)
    · rw [if_neg hih]
      exact h.last i hi

/-- The launch of the task itself, which the array alone makes too. -/
theorem launch_alike (kind : TaskKind) (data : δ) (h : Alike tid s a) {host : Fin n}
    (hwrap : (s.elements host).lastTask ≠ BitVec.allOnes 32)
    (heq : ((s.elements host).generateId (thisIndex host)).1 = tid) :
    ((a.elements host).generateId (thisIndex host)).1 = tid ∧
    Alike tid (s.launch host kind data) (a.launch host kind data) := by
  have hhost : thisIndex host = tid.host := congrArg TaskId.host heq
  have htask : (s.elements host).lastTask = tid.task := congrArg TaskId.task heq
  have ha : (a.elements host).lastTask = tid.task := by
    rcases h.last host hhost with ⟨_, ha⟩ | hlt
    · exact ha
    · rw [htask] at hlt
      omega
  have hgen : ((a.elements host).generateId (thisIndex host)).1 = tid := by
    show (⟨thisIndex host, (a.elements host).lastTask⟩ : TaskId) = tid
    rw [hhost, ha]
  refine ⟨hgen, ⟨⟨fun i => ?_, h.handled, h.contributed, h.reductions, ?_⟩,
    fun i hi => ?_⟩⟩
  · exact ((launch_elements tid s host kind data i).1.symm.trans (h.elements i)).trans
      (launch_elements tid a host kind data i).1
  · show a.flight ++ _ = (s.flight ++ _).filter _
    rw [List.filter_append, launch_flight, if_pos heq, h.flight, heq, hgen]
  · rw [(launch_elements tid s host kind data i).2,
      (launch_elements tid a host kind data i).2]
    by_cases hih : i = host
    · subst hih
      have hlast := launch_last hwrap
      rw [if_pos rfl, if_pos rfl]
      rw [htask] at hlast ⊢
      exact Or.inr (by omega)
    · rw [if_neg hih, if_neg hih]
      exact h.last i hi

/-- The tasks of the reductions formed are those of the contributions used. -/
theorem Tagged.owners (h : Tagged combines s) (i : Fin n) :
    ((s.contributed i).take s.reductions.length).map Contribution.owner
      = s.reductions.map fun msg => msg.results.1 := by
  refine List.ext_getElem? fun k => ?_
  rw [List.getElem?_map, List.getElem?_map, List.getElem?_take]
  split
  next hk =>
    obtain ⟨cs, hcs, _⟩ := h.formed k _ (List.getElem?_eq_getElem hk)
    rw [List.getElem?_eq_getElem hk, (hcs i).1, Option.map_some,
      Option.map_some, (hcs i).2]
  next hk => rw [List.getElem?_eq_none (Nat.le_of_not_lt hk)]; rfl

/-- The next reduction of the task alone is the one formed now, if it is the
task's. -/
theorem rank_alike (ht : Tagged combines s) (h : Alike tid s a) {i : Fin n}
    {c : Contribution δ}
    (hc : (s.contributed i)[s.reductions.length]? = some c) (howner : c.owner = tid) :
    (a.contributed i)[a.reductions.length]? = some c := by
  have hpos := getElem?_filter_of_some (p := fun c : Contribution δ => c.owner = tid) hc
    (decide_eq_true howner)
  have hlen : (((s.contributed i).take s.reductions.length).filter
      fun c => c.owner = tid).length = a.reductions.length := by
    have hcount := congrArg (List.countP fun t => t = tid) (ht.owners i)
    rw [List.countP_map, List.countP_map] at hcount
    rw [h.reductions, ← List.countP_eq_length_filter, ← List.countP_eq_length_filter]
    exact hcount
  rw [h.contributed i, ← hlen]
  exact hpos

/-- A reduction is another task's, or the array alone forms it too. -/
theorem reduce_alike (ht : Tagged combines s) (h : Alike tid s a)
    {root : Fin n} {data : δ}
    (hs : s.reduce combines root data = some s') :
    Alike tid s' a ∨ ∃ a', a.reduce combines root data = some a' ∧ Alike tid s' a' := by
  unfold WorkgroupArray.reduce at hs
  split at hs
  next hk =>
    dsimp only at hs
    split at hs
    next hcomb =>
      obtain rfl := Option.some.inj hs
      obtain ⟨htid, howner⟩ := reduced_tid ht hk root data
      have hflight : ∀ (cb : Callback) (msg : ReductionMsg δ),
          (((cb.targets n).map fun i => (i, Entry.resumeReduction msg)).filter
            fun x : Nat × Entry δ => x.2.tid = tid)
          = if msg.results.1 = tid then (cb.targets n).map fun i =>
            (i, .resumeReduction msg)
            else [] := by
        intro cb msg
        split
        next heq =>
          refine List.filter_eq_self.mpr fun x hx => ?_
          obtain ⟨_, _, rfl⟩ := List.mem_map.mp hx
          exact decide_eq_true heq
        next hne =>
          refine List.filter_eq_nil_iff.mpr fun x hx heq => hne ?_
          obtain ⟨_, _, rfl⟩ := List.mem_map.mp hx
          exact of_decide_eq_true heq
      -- a reduction of this task is seen by both, one of another task by none
      by_cases heq : (s.rank s.reductions.length hk root).owner = tid
      · refine Or.inr ?_
        have hget : ∀ i, (a.contributed i)[a.reductions.length]?
            = some (s.rank s.reductions.length hk i) :=
          fun i => rank_alike ht h (List.getElem?_eq_getElem (hk i))
            ((howner i).trans heq)
        have hready : a.contributed.Ready a.reductions.length :=
          fun i => (List.getElem?_eq_some_iff.mp (hget i)).1
        have hrank : a.rank a.reductions.length hready =
            s.rank s.reductions.length hk := by
          funext i
          exact Option.some.inj
            ((List.getElem?_eq_getElem (hready i)).symm.trans (hget i))
        unfold WorkgroupArray.reduce
        rw [dif_pos hready]
        simp only [hrank, hcomb, if_true]
        refine ⟨_, rfl, ⟨h.elements, h.handled, h.contributed, ?_, ?_⟩, h.last⟩
        · rw [List.filter_append, h.reductions, List.filter_cons_of_pos, List.filter_nil]
          exact decide_eq_true (htid.trans heq)
        · rw [List.filter_append, h.flight, hflight, if_pos (htid.trans heq)]
      · refine Or.inl ⟨⟨h.elements, h.handled, h.contributed, ?_, ?_⟩, h.last⟩
        · rw [List.filter_append, List.filter_cons_of_neg, List.filter_nil,
            List.append_nil]
          · exact h.reductions
          · rw [decide_eq_true_eq, htid]
            exact heq
        · rw [List.filter_append, hflight, if_neg (htid.symm ▸ heq), List.append_nil]
          exact h.flight
    next => cases hs
  next => cases hs

variable [DecidableEq δ]

/-- The element that ran an entry keeps its counter. -/
theorem after_last {i : Fin n} {e : Entry δ} {g : Workgroup σ δ}
    (ht : Turn (s.elements i) g e.tid) (q : Fin n) :
    ((s.after B i e g).elements q).lastTask = (s.elements q).lastTask := by
  show (Function.update s.elements i g q).lastTask = _
  by_cases hq : q = i
  · subst hq
    rw [Function.update_self]
    exact ht.last
  · rw [Function.update_of_ne hq]

/-- An entry of another task. -/
theorem deliver_alike_other (h : Alike tid s a) {i : Fin n} {e : Entry δ}
    {g : Workgroup σ δ}
    (ht : Turn (s.elements i) g e.tid) (hne : e.tid ≠ tid) :
    Alike tid (s.after B i e g) a where
  elements := by
    intro q
    show SameFor (Function.update s.elements i g q) _ _
    by_cases hq : q = i
    · subst hq
      rw [Function.update_self]
      exact (ht.same tid hne.symm).symm.trans (h.elements q)
    · rw [Function.update_of_ne hq]
      exact h.elements q
  handled := by
    intro q
    show _ = (Function.update s.handled i _ q).filter _
    by_cases hq : q = i
    · subst hq
      rw [Function.update_self, List.filter_append, h.handled,
        List.filter_cons_of_neg (by simpa using hne), List.filter_nil, List.append_nil]
    · rw [Function.update_of_ne hq]
      exact h.handled q
  contributed := by
    intro q
    show _ = (s.contributed.extend i _ q).filter _
    unfold Contributions.extend
    by_cases hq : q = i
    · subst hq
      rw [Function.update_self, List.filter_append, h.contributed,
        contributions_filter ht, if_neg hne, List.append_nil]
    · rw [Function.update_of_ne hq]
      exact h.contributed q
  reductions := h.reductions
  flight := by
    show _ = (s.flight.erase (i.val, e) ++ _).filter _
    rw [List.filter_append, messages_filter ht, if_neg hne, List.append_nil,
      ← List.erase_filter, List.erase_of_not_mem, h.flight]
    -- what is filtered out was never in the flight of the task
    intro hmem
    exact hne (of_decide_eq_true (List.mem_filter.mp hmem).2)
  last := by
    intro q hq
    rw [after_last ht]
    exact h.last q hq

/-- An entry of the task itself, which the array alone runs too. -/
theorem deliver_alike_same (h : Alike tid s a) {i : Fin n} {e : Entry δ}
    {g g' : Workgroup σ δ}
    (ht : Turn (s.elements i) g e.tid) (ht' : Turn (a.elements i) g' e.tid)
    (hs : SameFor g g' e.tid) (heq : e.tid = tid) :
    Alike tid (s.after B i e g) (a.after B i e g') := by
  subst heq
  have hissued := issued_alike (B i) ht ht' (h.elements i) hs
  refine ⟨⟨fun q => ?_, fun q => ?_, fun q => ?_, h.reductions, ?_⟩, fun q hq => ?_⟩
  · show SameFor (Function.update s.elements i g q) (Function.update a.elements i g' q) _
    by_cases hq : q = i
    · subst hq
      rw [Function.update_self, Function.update_self]
      exact hs
    · rw [Function.update_of_ne hq, Function.update_of_ne hq]
      exact h.elements q
  · show Function.update a.handled i _ q = (Function.update s.handled i _ q).filter _
    by_cases hq : q = i
    · subst hq
      have hown : [e].filter (fun x : Entry δ => x.tid = e.tid) = [e] :=
        List.filter_cons_of_pos (decide_eq_true rfl)
      rw [Function.update_self, Function.update_self, List.filter_append, h.handled, hown]
    · rw [Function.update_of_ne hq, Function.update_of_ne hq]
      exact h.handled q
  · show a.contributed.extend i _ q = (s.contributed.extend i _ q).filter _
    rw [hissued]
    unfold Contributions.extend
    by_cases hq : q = i
    · subst hq
      rw [Function.update_self, Function.update_self, List.filter_append, h.contributed,
        contributions_filter ht, if_pos rfl]
    · rw [Function.update_of_ne hq, Function.update_of_ne hq]
      exact h.contributed q
  · show a.flight.erase (i.val, e) ++ _ = (s.flight.erase (i.val, e) ++ _).filter _
    rw [List.filter_append, hissued, messages_filter ht, if_pos rfl,
      ← List.erase_filter, h.flight]
  · rw [after_last ht, after_last ht']
    exact h.last q hq

/-- **A step is another task's, or the array alone takes it too.** -/
theorem step_alike (ht : Tagged combines s) (h : Alike tid s a)
    {x : WorkgroupArray.Action n δ} (hwrap : NoWrap s x)
    (hs : s.step B combines x = some s') :
    Alike tid s' a ∨ ∃ a', OnlyLaunch tid a x ∧ a.step B combines x = some a' ∧
      Alike tid s' a' := by
  cases x with
  | launch host kind data =>
    obtain rfl := Option.some.inj hs
    by_cases heq : ((s.elements host).generateId (thisIndex host)).1 = tid
    · obtain ⟨hgen, halike⟩ := launch_alike kind data h hwrap heq
      exact Or.inr ⟨_, hgen, rfl, halike⟩
    · exact Or.inl (launch_alike_other h hwrap heq)
  | deliver i e fuel =>
    obtain ⟨hmem, g, hg, rfl⟩ := deliver_some hs
    have hturn := deliver_turn hg
    by_cases heq : e.tid = tid
    · refine Or.inr ?_
      obtain ⟨g', hg', hsame⟩ := deliver_alike (heq ▸ h.elements i) hg
      have hmem' : (i.val, e) ∈ a.flight := by
        rw [h.flight]
        exact List.mem_filter.mpr ⟨hmem, decide_eq_true heq⟩
      refine ⟨a.after B i e g', trivial, ?_,
        deliver_alike_same h hturn (deliver_turn hg') hsame heq⟩
      show a.deliver B i e fuel = _
      rw [WorkgroupArray.deliver, if_pos hmem', hg']
      rfl
    · exact Or.inl (deliver_alike_other h hturn heq)
  | reduce root data =>
    rcases reduce_alike ht h hs with h' | ⟨a', ha', h'⟩
    · exact Or.inl h'
    · exact Or.inr ⟨a', trivial, ha', h'⟩

/-! ## What holds of every aligned run -/

/-- Every aligned run is, for one task, a run of the task alone. -/
theorem reachable_alike (tid : TaskId)
    (h : (WorkgroupArray.system B combines fun _ => 0).Reachable
      (fun s x => Aligned B s x ∧ NoWrap s x) s) :
    Tagged combines s ∧ ∃ a, (WorkgroupArray.system B combines (startAt tid)).Reachable
      (OnlyLaunch tid) a ∧ Alike tid s a := by
  induction h with
  | init h =>
    obtain ⟨active, rfl⟩ := h
    exact ⟨init_tagged _ _, _, .init ⟨active, rfl⟩, init_alike tid active⟩
  | step _ hc hs ih =>
    obtain ⟨ht, a, ha, halike⟩ := ih
    refine ⟨step_tagged ht hc.1 hs, ?_⟩
    rcases step_alike ht halike hc.2 hs with h' | ⟨a', honly, hstep, h'⟩
    · exact ⟨a, ha, h'⟩
    · exact ⟨a', .step ha honly hstep, h'⟩

/-- **Tasks that contribute in one order do not share their reductions.** In
every run in which the tasks contribute in the same order on every element, and
no launch counter wraps, each reduction carries the id of the task whose
contributions it combines, one from every element; and what concerns a task, its
results included, is what a run gives in which it was launched alone. -/
theorem reductions_own
    (h : (WorkgroupArray.system B combines fun _ => 0).Reachable
      (fun s x => Aligned B s x ∧ NoWrap s x) s) :
    OwnReductions combines s ∧
    ∀ tid, ∃ a, (WorkgroupArray.system B combines (startAt tid)).Reachable
      (OnlyLaunch tid) a ∧
      SameTask tid s a := by
  refine ⟨(reachable_alike ⟨0, 0⟩ h).1.toOwnReductions, fun tid => ?_⟩
  obtain ⟨_, a, ha, halike⟩ := reachable_alike tid h
  exact ⟨a, ha, halike.toSameTask⟩

end Projection

/-! ## Two tasks on two elements -/

/-- A task that contributes its argument when it is constructed, and ends with
the sum. -/
def contributor : Behaviour Nat Nat where
  creator kind payload :=
    (⟨true, kind, 0, payload.data⟩, [.allReduce 0 payload.data (.other 0)])
  continuation _ task payload := ({ task with active := false, self := payload.data }, [])

/-- A reducer that adds. -/
def addUp (cs : List (ReducerType × Nat)) (data : Nat) : Bool :=
  data = (cs.map Prod.snd).sum

/-- The `create` messages of the first two launches of element 0. -/
def createOne : Entry Nat := .create ⟨⟨0, 0⟩, 0, 0, 1⟩
def createTen : Entry Nat := .create ⟨⟨0, 1⟩, 0, 0, 10⟩

/-- Both tasks are created first on one element: each gets its own sum. -/
theorem reductions_own_pair : ∃ s : WorkgroupArray 2 Nat Nat,
    (WorkgroupArray.system (fun _ => contributor) addUp fun _ => 0).follow
      (fun s x => decide (Aligned (fun _ => contributor) s x ∧ NoWrap s x))
      (.init (fun _ => 0) fun _ => ⟨0, 0⟩)
      [.launch 0 0 1, .launch 0 0 10, .deliver 0 createOne 1, .deliver 1 createOne 1,
        .deliver 0 createTen 1, .deliver 1 createTen 1, .reduce 0 2,
          .reduce 1 20] = some s ∧
    s.reductions = [⟨0, ⟨0, 0⟩, 2⟩, ⟨0, ⟨0, 1⟩, 20⟩] ∧ OwnReductions addUp s ∧
    ∀ tid, ∃ a, (WorkgroupArray.system (fun _ => contributor) addUp
      (startAt tid)).Reachable (OnlyLaunch tid) a ∧ SameTask tid s a := by
  have hrun : ((WorkgroupArray.system (fun _ => contributor) addUp fun _ => 0).follow
      (fun s x => decide (Aligned (fun _ => contributor) s x ∧ NoWrap s x))
      (.init (fun _ => 0) fun _ => ⟨0, 0⟩)
      [.launch 0 0 1, .launch 0 0 10, .deliver 0 createOne 1, .deliver 1 createOne 1,
        .deliver 0 createTen 1, .deliver 1 createTen 1, .reduce 0 2, .reduce 1 20]).map
      (fun s : WorkgroupArray 2 Nat Nat => s.reductions)
      = some [⟨0, ⟨0, 0⟩, 2⟩, ⟨0, ⟨0, 1⟩, 20⟩] := by
    decide +kernel
  obtain ⟨s, hs, hreductions⟩ := Option.map_eq_some_iff.mp hrun
  obtain ⟨hown, halone⟩ := reductions_own (Transition.follow_reachable
    (fun _ _ hc => of_decide_eq_true hc) _ (.init ⟨_, rfl⟩) hs)
  exact ⟨s, hs, hreductions, hown, halone⟩

/-- **Created in different orders, two tasks share a reduction.** Task ⟨0, 0⟩ is
resumed with 11, the sum of its own 1 on element 0 and the other task's 10 on
element 1, where it would get 2 alone. -/
theorem mixed_reduction : ∃ s : WorkgroupArray 2 Nat Nat,
    (WorkgroupArray.system (fun _ => contributor) addUp fun _ => 0).Reachable
      (fun _ _ => True) s ∧
    .resumeReduction ⟨0, ⟨0, 0⟩, 11⟩ ∈ s.handled 0 ∧ ¬ OwnReductions addUp s := by
  have hrun : ((WorkgroupArray.system (fun _ => contributor) addUp fun _ => 0).run
      (.init (fun _ => 0) fun _ => ⟨0, 0⟩)
      [.launch 0 0 1, .launch 0 0 10, .deliver 0 createOne 1, .deliver 0 createTen 1,
        .deliver 1 createTen 1, .deliver 1 createOne 1, .reduce 0 11,
        .deliver 0 (.resumeReduction ⟨0, ⟨0, 0⟩, 11⟩) 1]).map
      (fun s : WorkgroupArray 2 Nat Nat => (s.handled 0, s.reductions,
        (s.contributed 1).map Contribution.owner))
      = some ([createOne, createTen, .resumeReduction ⟨0, ⟨0, 0⟩, 11⟩],
        [⟨0, ⟨0, 0⟩, 11⟩], [⟨0, 1⟩, ⟨0, 0⟩]) := by
    decide +kernel
  obtain ⟨s, hs, hsum⟩ := Option.map_eq_some_iff.mp hrun
  obtain ⟨hhandled, hsum⟩ := Prod.mk.inj hsum
  obtain ⟨hreductions, howners⟩ := Prod.mk.inj hsum
  refine ⟨s, Transition.run_reachable _ (fun _ _ _ => trivial)
    (.init ⟨_, rfl⟩) hs, ?_, ?_⟩
  · rw [hhandled]
    exact List.mem_of_getLast? rfl
  · intro hown
    obtain ⟨cs, hcs, _⟩ := hown.formed 0 _ (by rw [hreductions]; rfl)
    have howner := congrArg (fun l => l[0]?) howners
    rw [List.getElem?_map, (hcs 1).1, Option.map_some, (hcs 1).2] at howner
    cases howner

end CharmExperiments.Hypercomm
