import CharmExperiments.Charmlite.BcastSim
import Mathlib.Algebra.BigOperators.Group.Finset.Basic

/-!
# All elements of a group execute the same broadcasts

The PEs and the network together, as the ordered broadcast of
`Lib.TreeBroadcast`: `System.bcast` reads off what the elements of a group have
executed and where its copies are. A step of the system is a run of one PE,
which makes steps of that broadcast (`Runs.sim`); what the other PEs and the
network hold meanwhile is the `World` of that PE. So while the numbers last the
elements execute what the root does, in its order (`broadcasts_in_order`).
-/

namespace CharmExperiments.Charmlite

open CharmExperiments.Lib

/-- What a PE holds, summed over some PEs. -/
def System.over {M : Type} [AddCommMonoid M] (s : System) (ps : Finset Nat) (f : Pe → M) :
    M :=
  ∑ q ∈ ps, f (s.pes q)

/-- The broadcasts of `g` in the state of the system. -/
def System.bcast (X : Machine) (g : CollectiveIndex) (s : System) :
    TreeBroadcast.State MessageId where
  executed := fun p => (s.pes p).executed g (encode p)
  copies := fun c =>
    if c < X.numPes then
      copiesIn g c (s.net.map (·.2)) + s.over (Finset.range X.numPes) (·.copies g c)
    else 0

/-- The broadcasts that were called for `g`. -/
def System.requested (X : Machine) (g : CollectiveIndex) (s : System) :
    Multiset MessageId :=
  s.over (Finset.range X.numPes) (·.requested g)

/-- What the other PEs hold, and `net`. -/
def System.world (X : Machine) (g : CollectiveIndex) (s : System) (p : Nat)
    (net : List (Nat × Message)) : World where
  start := .init
  executed := fun q => (s.pes q).executed g (encode q)
  copies := fun c => copiesIn g c (net.map (·.2))
    + s.over ((Finset.range X.numPes).erase p) (·.copies g c)
  requests := requestsIn g (net.map (·.2))
    + s.over ((Finset.range X.numPes).erase p) fun pe => pe.requests g + ↑(pe.rooted g)
  requested := s.over ((Finset.range X.numPes).erase p) (·.requested g)

/-- The invariant of the system. -/
structure BcastInv (X : Machine) (g : CollectiveIndex) (s : System) : Prop where
  net : ∀ r ∈ s.net, BcastOk X r.2
  pes : ∀ p, p < X.numPes → NumberInv X g p (s.pes p) ∧ Placed (s.pes p) ∧
    (s.pes p).sent = []
  count : requestsIn g (s.net.map (·.2))
    + s.over (Finset.range X.numPes) (fun pe => pe.requests g + ↑(pe.rooted g)) =
      s.requested X g
  steps : (s.requested X g).card < 2 ^ 16 →
    Relation.ReflTransGen (TreeBroadcast.Step X.tree) .init (s.bcast X g)

section Over

variable {M : Type} [AddCommMonoid M] {s : System} {n p : Nat} {pe : Pe} {f : Pe → M}

theorem over_erase (hp : p < n) :
    s.over (Finset.range n) f = s.over ((Finset.range n).erase p) f + f (s.pes p) := by
  rw [add_comm]
  exact (Finset.add_sum_erase _ (fun q => f (s.pes q)) (Finset.mem_range.mpr hp)).symm

theorem over_settle (hp : p < n) : (s.settle p pe).over (Finset.range n) f
    = s.over ((Finset.range n).erase p) f + f { pe with sent := [] } := by
  rw [over_erase hp]
  refine congrArg₂ (· + ·) (Finset.sum_congr rfl fun q hq => ?_) ?_
  · show f (Function.update s.pes p _ q) = _
    rw [Function.update_of_ne (Finset.ne_of_mem_erase hq)]
  · show f (Function.update s.pes p _ p) = _
    rw [Function.update_self]

end Over

section BcastInv

variable {X : Machine} {g : CollectiveIndex} {s s' : System} {p : Nat} {pe : Pe}
  {hand net : List Message}

/-- A PE starts with what the invariant says of it; the message it was given
comes from the network. -/
theorem BcastInv.start (h : BcastInv X g s) (hp : p < X.numPes)
    {net : List (Nat × Message)}
    {hand : List Message} (hcopies : ∀ c, copiesIn g c (s.net.map (·.2))
      = copiesIn g c (net.map (·.2)) + copiesIn g c hand)
    (hrequests : requestsIn g (s.net.map (·.2))
      = requestsIn g (net.map (·.2)) + requestsIn g hand) :
    Sim X g p (s.world X g p net) hand (s.pes p) where
  inv := (h.pes p hp).1
  placed := (h.pes p hp).2.1
  count := by
    have hcount := h.count
    rw [System.requested, over_erase hp, over_erase hp, hrequests] at hcount
    refine Eq.trans ?_ hcount
    simp only [System.world]
    abel
  steps := by
    intro hlt
    have hrequested : (s.world X g p net).requested + (s.pes p).requested g =
        s.requested X g := by
      rw [System.requested, over_erase hp]
      rfl
    rw [hrequested] at hlt
    have hnow : (s.world X g p net).now X g p hand (s.pes p) = s.bcast X g := by
      refine TreeBroadcast.State.ext (Function.update_eq_self _ _) (funext fun c => ?_)
      simp only [World.now, System.world, System.bcast]
      rw [over_erase hp, hcopies]
      split
      next => abel
      next => rfl
    rw [hnow]
    exact h.steps hlt

/-- When the PE is done its messages are under way. -/
theorem BcastInv.settle (h : BcastInv X g s) (hp : p < X.numPes)
    {net : List (Nat × Message)}
    (hnet : ∀ r ∈ net, r ∈ s.net) (hsim : Sim X g p (s.world X g p net) [] pe) :
    BcastInv X g (System.settle ⟨s.pes, net⟩ p pe) := by
  -- what was sent is in flight, and no longer with the PE
  have hsent : ∀ c, copiesIn g c ((net ++ pe.sent).map (·.2))
      + ({ pe with sent := [] } : Pe).copies g c = copiesIn g c (net.map (·.2)) +
        pe.copies g c := by
    intro c
    show _ + (0 + copiesIn g c (pe.collectiveBuffer g) +
      copiesIn g c (pe.queue g (encode c))) = _
    rw [List.map_append, copiesIn_append, Pe.copies]
    abel
  have hrequests : requestsIn g ((net ++ pe.sent).map (·.2))
      + ({ pe with sent := [] } : Pe).requests g = requestsIn g (net.map (·.2)) +
        pe.requests g := by
    show _ + (0 + requestsIn g (pe.collectiveBuffer g)) = _
    rw [List.map_append, requestsIn_append, Pe.requests]
    abel
  have hrequested : (System.settle ⟨s.pes, net⟩ p pe).requested X g
      = (s.world X g p net).requested + pe.requested g := by
    rw [System.requested, over_settle hp]
    rfl
  refine ⟨?_, ?_, ?_, ?_⟩
  · intro r hr
    rcases List.mem_append.mp hr with hold | hnew
    · exact h.net r (hnet r hold)
    · exact hsim.inv.all.sent r hnew
  · intro q hq
    by_cases hqp : q = p
    · subst hqp
      show NumberInv X g q (Function.update s.pes q _ q) ∧
        Placed (Function.update s.pes q _ q) ∧
        (Function.update s.pes q _ q).sent = []
      rw [Function.update_self]
      exact ⟨hsim.inv.same hsim.inv.all.settle hsim.inv.home (fun _ => rfl)
        (fun _ => rfl) rfl, ⟨hsim.placed.queue, hsim.placed.waiting⟩, rfl⟩
    · show NumberInv X g q (Function.update s.pes p _ q) ∧
        Placed (Function.update s.pes p _ q) ∧
        (Function.update s.pes p _ q).sent = []
      rw [Function.update_of_ne hqp]
      exact h.pes q hq
  · have hcount := hsim.count
    rw [requestsIn_nil, add_zero] at hcount
    rw [hrequested, ← hcount, over_settle hp, add_left_comm, ← add_assoc (requestsIn g _)]
    refine (congrArg (fun m : Multiset MessageId => _ + (m + _)) hrequests).trans ?_
    simp only [System.world, System.over]
    show _ + (requestsIn g (net.map (·.2)) + pe.requests g + ↑(pe.rooted g)) = _
    abel
  · intro hlt
    rw [hrequested] at hlt
    have hnow : (System.settle ⟨s.pes, net⟩ p pe).bcast X g =
        (s.world X g p net).now X g p [] pe := by
      refine TreeBroadcast.State.ext (funext fun q => ?_) (funext fun c => ?_)
      · simp only [System.bcast, System.settle, World.now]
        by_cases hqp : q = p
        · subst hqp
          rw [Function.update_self, Function.update_self]
          rfl
        · rw [Function.update_of_ne hqp, Function.update_of_ne hqp]
          rfl
      · simp only [System.bcast, World.now]
        rw [over_settle hp, add_left_comm]
        split
        next =>
          refine (congrArg (fun m : Multiset _ => _ + m) (hsent c)).trans ?_
          simp only [System.world, System.over, copiesIn_nil]
          abel
        next => rfl
    rw [hnow]
    exact hsim.steps hlt

theorem init_bcastInv : BcastInv X g .init where
  net := fun _ hr => by cases hr
  pes := fun p hp => ⟨⟨Pe.init_all, (fun _ h => by cases h), fun _ => rfl, rfl⟩,
    ⟨(fun _ _ h => by cases h), fun _ _ h => by cases h⟩, rfl⟩
  count := by
    have hzero : ∀ f : Pe → Multiset MessageId, f .init = 0 →
        System.over .init (Finset.range X.numPes) f = 0 := fun f hf =>
      Finset.sum_eq_zero fun _ _ => hf
    rw [hzero _ rfl, System.requested, hzero _ rfl]
    rfl
  steps := by
    intro _
    have hinit : System.bcast X g .init = .init := by
      refine TreeBroadcast.State.ext rfl (funext fun c => ?_)
      show (if _ then 0 + ∑ _ ∈ _, (0 : Multiset _) else 0) = 0
      rw [Finset.sum_const_zero]
      split <;> rfl
    rw [hinit]

theorem step_bcastInv (hX : X.Within Call.Proper) (h : BcastInv X g s) {a : System.Action}
    (ha : a.Within Call.Proper) (hs : s.step X a = some s') : BcastInv X g s' := by
  rcases System.step_cases hs with ⟨p, fuel, c, pe, rfl, hp, hrun, rfl⟩ |
    ⟨j, fuel, p, msg, pe, rfl, hj, hp, hrun, rfl⟩
  · have hstart : Sim X g p (s.world X g p s.net) [] (s.pes p) :=
      h.start hp (fun c => (add_zero _).symm) (add_zero _).symm
    exact h.settle hp (fun r hr => hr) (Runs.sim hX hp hrun ha hstart)
  · have hmem := List.mem_of_getElem? hj
    have hnet : ∀ r ∈ s.net.eraseIdx j, r ∈ s.net :=
      fun r hr => List.mem_of_mem_eraseIdx hr
    -- the message is taken in hand
    have hperm : (s.net.map (·.2)).Perm ((s.net.eraseIdx j).map (·.2) ++ [msg]) := by
      obtain ⟨hlt, hget⟩ := List.getElem?_eq_some_iff.mp hj
      have hcons := (List.getElem_cons_eraseIdx_perm hlt).symm.map (·.2)
      rw [hget] at hcons
      exact hcons.trans (List.perm_append_singleton _ _).symm
    have hcopies : ∀ c, copiesIn g c (s.net.map (·.2))
        = copiesIn g c ((s.net.eraseIdx j).map (·.2)) + copiesIn g c [msg] := by
      intro c
      rw [← copiesIn_append]
      exact Multiset.coe_eq_coe.mpr (hperm.filterMap _)
    have hrequests : requestsIn g (s.net.map (·.2))
        = requestsIn g ((s.net.eraseIdx j).map (·.2)) + requestsIn g [msg] := by
      rw [← requestsIn_append]
      exact Multiset.coe_eq_coe.mpr (hperm.filterMap _)
    have hstart := h.start hp hcopies hrequests
    unfold Machine.Delivers at hrun
    split at hrun
    next hkind =>
      -- a message that makes a collective is no broadcast
      have hidle : msg.Idle g :=
        ⟨fun c => copiesIn_singleton_zero fun hc =>
          Bool.noConfusion (hkind.symm.trans hc.1), requestsIn_singleton_zero fun hc =>
            Bool.noConfusion (hkind.symm.trans hc.1)⟩
      refine h.settle hp hnet (Runs.sim hX hp hrun.2 trivial ?_)
      refine (hstart.drop hidle).move ?_ (hstart.placed.create msg)
        (fun c => ?_) rfl rfl rfl rfl
      · exact (numberInv_systemKept hX g).create p _ msg hkind hrun.1
          (h.net _ hmem) hstart.inv
      · have hqueue : (X.create msg (s.pes p)).queue g (encode c) =
            (s.pes p).queue g (encode c) := by
          unfold Pe.queue
          by_cases hg : g = msg.collective
          · subst hg
            simp [Machine.create, hrun.1, Collective.new]
          · simp [Machine.create, Function.update_of_ne hg]
        rw [Pe.copies, hqueue]
        rfl
    next hkind =>
      exact h.settle hp hnet (Runs.sim hX hp hrun
        ⟨h.net _ hmem, Bool.eq_false_iff.mpr hkind⟩ hstart)

theorem reachable_bcastInv (hX : X.Within Call.Proper)
    (h : X.system.Reachable (fun _ a => a.Within Call.Proper) s) : BcastInv X g s := by
  refine h.invariant ?_ ?_
  · rintro _ rfl
    exact init_bcastInv
  · intro s a s' hi ha hs
    exact step_bcastInv hX hi ha hs

/-! ## What was executed -/

/-- The requests are messages that were issued. -/
theorem requested_issued : s.requested X g = requestsIn g (s.issued X) := by
  unfold System.requested System.over System.issued
  induction X.numPes with
  | zero => rfl
  | succ n ih =>
    rw [Finset.sum_range_succ, ih, List.range_succ, List.flatMap_append,
      requestsIn_append]
    congr 1
    rw [List.flatMap_cons, List.flatMap_nil, List.append_nil]
    rfl

theorem request_sublist {l : List Message} :
    (l.filterMap (Message.request g)).Sublist (l.map (·.id)) := by
  induction l with
  | nil => exact .slnil
  | cons m l ih =>
    rw [List.map_cons]
    by_cases hm : m.collectiveKind = false ∧ m.collective = g ∧ m.chare = chareBcastRoot
    · rw [List.filterMap_cons_some (show m.request g = some m.id from if_pos hm)]
      exact ih.cons_cons _
    · rw [List.filterMap_cons_none (show m.request g = none from if_neg hm)]
      exact ih.cons _

/-- No broadcast is processed by the root twice. -/
theorem rooted_nodup (hX : X.Within Call.Proper)
    (h : X.system.Reachable (fun _ a => a.Within Call.Proper) s) (hp : p < X.numPes) :
    ((s.pes p).rooted g).Nodup := by
  have hrequested : (s.requested X g).Nodup := by
    rw [requested_issued]
    exact request_sublist.nodup (issued_nodup hX h)
  have hle : (↑((s.pes p).rooted g) : Multiset MessageId) ≤ s.requested X g := by
    rw [← (reachable_bcastInv hX h).count, over_erase hp, ← add_assoc, ← add_assoc]
    exact Multiset.le_add_left _ _
  exact Multiset.nodup_of_le hle hrequested

end BcastInv

/-- A copy of a broadcast of `g`, numbered by the root. -/
def Message.CopyOf (g : CollectiveIndex) (m : Message) : Prop :=
  m.collective = g ∧ m.bcast ≠ 0

/-- No copy is in flight, none is in a buffer. -/
structure System.NoCopies (X : Machine) (g : CollectiveIndex) (s : System) : Prop where
  net : ∀ r ∈ s.net, ¬ r.2.CopyOf g
  waiting : ∀ p, p < X.numPes → ∀ m ∈ (s.pes p).collectiveBuffer g, ¬ m.CopyOf g
  queue : ∀ p, p < X.numPes → ∀ idx, ∀ m ∈ (s.pes p).queue g idx, ¬ m.CopyOf g

theorem noCopies_copies {X : Machine} {g : CollectiveIndex} {s : System}
    (h : s.NoCopies X g) (hsent : ∀ p, p < X.numPes → (s.pes p).sent = []) (c : Nat) :
    (s.bcast X g).copies c = 0 := by
  have hnone : ∀ l : List Message, (∀ m ∈ l, ¬ m.CopyOf g) → copiesIn g c l = 0 :=
    fun l hl =>
    copiesIn_eq_zero fun m hm hc => hl m hm ⟨hc.2.1, hc.2.2.2⟩
  show (if _ then _ + s.over _ _ else _) = (0 : Multiset _)
  have hpes : s.over (Finset.range X.numPes) (·.copies g c) = 0 := by
    refine Finset.sum_eq_zero fun p hp => ?_
    have hp := Finset.mem_range.mp hp
    show (s.pes p).copies g c = 0
    rw [Pe.copies, hsent p hp, hnone _ (h.waiting p hp), hnone _ (h.queue p hp _)]
    rfl
  rw [hpes, hnone]
  · split <;> rfl
  · intro m hm
    obtain ⟨r, hr, rfl⟩ := List.mem_map.mp hm
    exact h.net r hr

/-- **All elements execute the root's broadcasts.** In every state between handler
runs, after fewer than 65536 broadcasts were called on a group, each element has
executed a prefix of what the root element has, each broadcast once; and all of
it when no copy is in flight or in a buffer. -/
theorem broadcasts_in_order {X : Machine} (hX : X.Within Call.Proper) {s : System}
    (h : X.system.Reachable (fun _ a => a.Within Call.Proper) s) {g : CollectiveIndex}
    (hlt : (s.requested X g).card < 65536) :
    (∀ p, p < X.numPes →
      (s.pes p).executed g (encode p) <+: (s.pes 0).executed g (encode (0 : Nat)) ∧
      ((s.pes p).executed g (encode p)).Nodup) ∧
    (s.NoCopies X g → ∀ p, p < X.numPes →
      (s.pes p).executed g (encode p) = (s.pes 0).executed g (encode (0 : Nat))) := by
  have hinv := reachable_bcastInv (g := g) hX h
  have htree := TreeBroadcast.steps_inv (TreeBroadcast.init_inv X.tree) (hinv.steps hlt)
  refine ⟨fun p hp => ?_, fun hnone p hp => ?_⟩
  · have hle := htree.executed_le hp
    have h0 : 0 < X.numPes := by omega
    refine ⟨hle, (hle.sublist).nodup ?_⟩
    show ((s.pes 0).executed g (encode 0)).Nodup
    rw [(hinv.pes 0 h0).1.root]
    exact (List.take_sublist _ _).nodup (rooted_nodup hX h h0)
  · exact htree.executed_eq
      (fun c _ => noCopies_copies hnone (fun q hq => (hinv.pes q hq).2.2) c) hp

/-- A broadcast that both elements of a group execute. -/
theorem broadcasts_in_order_pair : ∃ s, pairMachine.system.run .init
    [.call 0 1 (.constructGroup 1 1), .deliver 0 3, .deliver 0 3,
      .deliver 0 9, .deliver 0 9, .call 1 3 (.broadcast pairGroup 5), .deliver 0 9,
        .deliver 0 9, .deliver 0 9] = some s ∧
    ((s.pes 0).executed pairGroup (encode 0)).length = 1 ∧
    ((s.pes 1).executed pairGroup (encode 1) <+: (s.pes 0).executed pairGroup (encode 0) ∧
      ((s.pes 1).executed pairGroup (encode 1)).Nodup) ∧
    (s.NoCopies pairMachine pairGroup →
      (s.pes 1).executed pairGroup (encode 1) = (s.pes 0).executed pairGroup
      (encode 0)) := by
  have hrun : ∃ s, pairMachine.system.run .init
      [.call 0 1 (.constructGroup 1 1), .deliver 0 3, .deliver 0 3,
        .deliver 0 9, .deliver 0 9, .call 1 3 (.broadcast pairGroup 5), .deliver 0 9,
          .deliver 0 9, .deliver 0 9] = some s ∧
      ((s.pes 0).executed pairGroup (encode 0)).length = 1 ∧
      (requestsIn pairGroup (s.issued pairMachine)).card = 1 := ⟨_, rfl, rfl, rfl⟩
  obtain ⟨s, hrun, hone, hcard⟩ := hrun
  refine ⟨s, hrun, hone, ?_⟩
  have hX : pairMachine.Within Call.Proper := fun _ _ _ _ hc => by cases hc
  have hreach : pairMachine.system.Reachable (fun _ a => a.Within Call.Proper) s := by
    refine Transition.run_reachable _ ?_ (.init rfl) hrun
    intro a ha t
    rcases a with ⟨p, fuel, c⟩ | _
    · simp only [List.mem_cons, System.Action.call.injEq, reduceCtorEq, List.not_mem_nil,
        or_false, false_or] at ha
      rcases ha with ⟨_, _, rfl⟩ | ⟨_, _, rfl⟩ <;> trivial
    · trivial
  have hall := broadcasts_in_order hX hreach (g := pairGroup)
    (by rw [requested_issued, hcard]; decide)
  exact ⟨hall.1 1 (by decide), fun hnone => hall.2 hnone 1 (by decide)⟩

end CharmExperiments.Charmlite
