import CharmExperiments.Lfq.Channel
import CharmExperiments.Lib.Progress

/-!
# Two processes with a queue each way

The test programs of the queue have two processes and two queues: each process enqueues
into the one and dequeues from the other. `Programs` is what the processes do with what
their calls return, `Duplex` their steps on the queues themselves, and `Wires` what they
mean: a call takes effect in one step, on a list of what was sent and received. Every
run of `Duplex` is one of `Wires` (`duplex_simulates`), so what a program keeps to is
shown on `Wires`.

That nothing gets stuck is shown on `Duplex`. Wherever the processes are in their calls,
these can be brought to an end (`settles`), and then a call on a queue that is not full,
or not empty, succeeds (`enqueues`, `dequeues`).
-/

namespace CharmExperiments.Lfq

open CharmExperiments.Lib

variable {w : Nat} {γ : Type}

/-- What a process does next. -/
inductive Ask (w : Nat)
  | enqueue (value : Bytes w)
  | dequeue (result : Bytes w)
  | compute
  | ended

/-- What it gets. -/
inductive Reply (w : Nat)
  | enqueued (ret : Bool)
  | dequeued (ret : Bool) (result : Bytes w)
  | computed

/-- The programs of the two processes, on all that is theirs. What the one gets does not
change what the other does next. -/
structure Programs (w : Nat) (γ : Type) where
  ask : γ → Bool → Ask w
  next : γ → Bool → Reply w → γ
  apart : ∀ g p r, ask (next g p r) (!p) = ask g (!p)

/-- The processes and the queue that each dequeues from. -/
structure Duplex (w : Nat) (γ : Type) where
  queues : Bool → Queue w
  progs : γ

namespace Duplex

def setQueue (s : Duplex w γ) (p : Bool) (q : Queue w) : Duplex w γ :=
  { s with queues := Function.update s.queues p q }

/-- Process `p` gets a reply, when there is one. -/
def reply (P : Programs w γ) (s : Duplex w γ) (p : Bool) (r : Option (Reply w)) :
    Duplex w γ :=
  { s with progs := r.elim s.progs (P.next s.progs p) }

/-- A step of process `p`. -/
def step (N : Nat) (P : Programs w γ) (s : Duplex w γ) (p : Bool) : Option (Duplex w γ) :=
  match P.ask s.progs p with
  | .enqueue value =>
    let (q, ret) := (s.queues !p).send N value
    some ((s.setQueue (!p) q).reply P p (ret.map .enqueued))
  | .dequeue result =>
    let (q, ret) := (s.queues p).receive N result
    some ((s.setQueue p q).reply P p (ret.map fun r => .dequeued r.1 r.2))
  | .compute => some (s.reply P p (some .computed))
  | .ended => none

/-- The queues are new and the programs are at `g`. -/
def system (N : Nat) (P : Programs w γ) (g : γ) : Transition (Duplex w γ) Bool where
  init s := s.progs = g ∧ ∀ p, ∃ junk, s.queues p = .new junk
  step := step N P

end Duplex

/-- What the processes have sent and received. -/
structure Wires (w : Nat) (γ : Type) where
  sent : Bool → List (Bytes w)
  received : Bool → List (Bytes w)
  progs : γ

/-- The call that process `p` makes is done, or the process goes on. -/
inductive Wires.Step (N : Nat) (P : Programs w γ) (p : Bool) : Wires w γ → Wires w γ →
    Prop
  | sent {a : Wires w γ} {value : Bytes w} (hask : P.ask a.progs p = .enqueue value) :
    Step N P p a ⟨Function.update a.sent p (a.sent p ++ [value]), a.received,
      P.next a.progs p (.enqueued true)⟩
  | refused {a : Wires w γ} {value : Bytes w} (hask : P.ask a.progs p = .enqueue value)
    (hfull : N ≤ (a.sent p).length) :
    Step N P p a ⟨a.sent, a.received, P.next a.progs p (.enqueued false)⟩
  | received {a : Wires w γ} {result value : Bytes w}
    (hask : P.ask a.progs p = .dequeue result)
    (hvalue : a.received p ++ [value] <+: a.sent (!p)) :
    Step N P p a ⟨a.sent, Function.update a.received p (a.received p ++ [value]),
      P.next a.progs p (.dequeued true value)⟩
  | missed {a : Wires w γ} {result : Bytes w} (value : Bytes w)
    (hask : P.ask a.progs p = .dequeue result) :
    Step N P p a ⟨a.sent, a.received, P.next a.progs p (.dequeued false value)⟩
  | computed {a : Wires w γ} (hask : P.ask a.progs p = .compute) :
    Step N P p a ⟨a.sent, a.received, P.next a.progs p .computed⟩

/-- What the calls made so far can have led to. -/
inductive Wires.Reachable (N : Nat) (P : Programs w γ) (g : γ) : Wires w γ → Prop
  | init : Reachable N P g ⟨fun _ => [], fun _ => [], g⟩
  | step {a a' : Wires w γ} (p : Bool) : Reachable N P g a → Wires.Step N P p a a' →
    Reachable N P g a'

/-- What holds initially and is kept by every call holds of all that is reached. -/
theorem Wires.Reachable.invariant {N : Nat} {P : Programs w γ} {g : γ}
    {I : Wires w γ → Prop}
    (hinit : I ⟨fun _ => [], fun _ => [], g⟩)
    (hstep : ∀ a a' p, I a → Wires.Step N P p a a' → I a') {a : Wires w γ}
    (h : Wires.Reachable N P g a) : I a := by
  induction h with
  | init => exact hinit
  | step p _ hs ih => exact hstep _ _ p ih hs

/-- The calls of process `p` that are in progress are the one it asks for. -/
def Calling (P : Programs w γ) (s : Duplex w γ) (p : Bool) : Prop :=
  match P.ask s.progs p with
  | .enqueue value => Asks value ((s.queues !p).producers 0) ∧
    (s.queues p).consumer = none
  | .dequeue _ => (s.queues !p).producers 0 = none
  | _ => (s.queues !p).producers 0 = none ∧ (s.queues p).consumer = none

/-- The queues carry what was sent and received. -/
structure Sim (N : Nat) (P : Programs w γ) (s : Duplex w γ) (a : Wires w γ) : Prop where
  progs : s.progs = a.progs
  carries : ∀ p, Carries N (s.queues p) (a.sent (!p)) (a.received p)
  calling : ∀ p, Calling P s p

/-! ## One step -/

section Step

variable {N : Nat} {P : Programs w γ} {s : Duplex w γ} {p : Bool} {q : Queue w}

theorem not_ne_self (p : Bool) : (!p) ≠ p := by
  cases p <;> decide

/-- Of two, the one that is not `p`. -/
theorem eq_not_of_ne {p p' : Bool} (h : p' ≠ p) : p' = !p := by
  cases p <;> cases p' <;> first | rfl | exact absurd rfl h

@[simp] theorem reply_queues (r : Option (Reply w)) :
    (s.reply P p r).queues = s.queues := rfl

@[simp] theorem setQueue_progs : (s.setQueue p q).progs = s.progs := rfl

@[simp] theorem setQueue_self : (s.setQueue p q).queues p = q := Function.update_self ..

@[simp] theorem setQueue_not : (s.setQueue p q).queues (!p) = s.queues (!p) :=
  Function.update_of_ne (not_ne_self p) ..

@[simp] theorem setQueue_not_self : (s.setQueue (!p) q).queues p = s.queues p :=
  Function.update_of_ne (not_ne_self p).symm ..

theorem step_enqueue {value : Bytes w} {ret : Option Bool}
    (hask : P.ask s.progs p = .enqueue value)
    (hsend : (s.queues !p).send N value = (q, ret)) :
    s.step N P p = some ((s.setQueue (!p) q).reply P p (ret.map .enqueued)) := by
  unfold Duplex.step
  simp only [hask, hsend]

theorem step_dequeue {result : Bytes w} {ret : Option (Bool × Bytes w)}
    (hask : P.ask s.progs p = .dequeue result)
    (hreceive : (s.queues p).receive N result = (q, ret)) :
    s.step N P p =
      some ((s.setQueue p q).reply P p (ret.map fun r => .dequeued r.1 r.2)) := by
  unfold Duplex.step
  simp only [hask, hreceive]

theorem step_compute (hask : P.ask s.progs p = .compute) :
    s.step N P p = some (s.reply P p (some .computed)) := by
  unfold Duplex.step
  simp only [hask]

theorem calling_enqueue {value : Bytes w} (hask : P.ask s.progs p = .enqueue value) :
    Calling P s p ↔ Asks value ((s.queues !p).producers 0) ∧
      (s.queues p).consumer = none := by
  unfold Calling
  simp only [hask]

theorem calling_dequeue {result : Bytes w} (hask : P.ask s.progs p = .dequeue result) :
    Calling P s p ↔ (s.queues !p).producers 0 = none := by
  unfold Calling
  simp only [hask]

theorem calling_compute (hask : P.ask s.progs p = .compute) :
    Calling P s p ↔ (s.queues !p).producers 0 = none ∧ (s.queues p).consumer = none := by
  unfold Calling
  simp only [hask]

theorem calling_ended (hask : P.ask s.progs p = .ended) :
    Calling P s p ↔ (s.queues !p).producers 0 = none ∧ (s.queues p).consumer = none := by
  unfold Calling
  simp only [hask]

/-- A process with no call in progress may go on to any. -/
theorem calling_idle (hsend : (s.queues !p).producers 0 = none)
    (hreceive : (s.queues p).consumer = none) : Calling P s p := by
  cases hask : P.ask s.progs p with
  | enqueue value =>
    rw [calling_enqueue hask, hsend]
    exact ⟨trivial, hreceive⟩
  | dequeue result => exact (calling_dequeue hask).mpr hsend
  | compute => exact (calling_compute hask).mpr ⟨hsend, hreceive⟩
  | ended => exact (calling_ended hask).mpr ⟨hsend, hreceive⟩

end Step

/-! ## Simulation -/

section Simulation

variable {N : Nat} {P : Programs w γ} {g : γ} {s s' : Duplex w γ}
  {a : Wires w γ} {p : Bool}

/-- The other process is where it was. -/
theorem Sim.other (h : Sim N P s a) (hask : P.ask s'.progs (!p) = P.ask s.progs (!p))
    (hsend : (s'.queues p).producers = (s.queues p).producers)
    (hreceive : (s'.queues !p).consumer = (s.queues !p).consumer) :
    Calling P s' (!p) := by
  have hcalling := h.calling (!p)
  unfold Calling at hcalling ⊢
  rw [Bool.not_not] at hcalling ⊢
  rw [hask, hsend, hreceive]
  exact hcalling

/-- One queue is as `hq` says, the other as it was. -/
theorem Sim.carries_update (h : Sim N P s a) {q : Queue w}
    {sent received : Bool → List (Bytes w)}
    (hq : Carries N q (sent (!p)) (received p)) (hsent : sent p = a.sent p)
    (hreceived : received (!p) = a.received (!p)) :
    ∀ p', Carries N ((s.setQueue p q).queues p') (sent (!p')) (received p') := by
  intro p'
  by_cases hpp : p' = p
  · subst hpp
    rw [setQueue_self]
    exact hq
  · obtain rfl := eq_not_of_ne hpp
    have hcarries := h.carries (!p)
    rw [Bool.not_not] at hcarries ⊢
    rw [setQueue_not, hsent, hreceived]
    exact hcarries

/-- The queue that process `p` enqueues into is as `hq` says, the other as it was. -/
theorem Sim.carries_send (h : Sim N P s a) {q : Queue w} {sent : Bool → List (Bytes w)}
    (hq : Carries N q (sent p) (a.received (!p))) (hsent : sent (!p) = a.sent (!p)) :
    ∀ p', Carries N ((s.setQueue (!p) q).queues p') (sent (!p')) (a.received p') := by
  refine h.carries_update (p := !p) ?_ hsent rfl
  rw [Bool.not_not]
  exact hq

/-- A step of `enqueue`. -/
theorem enqueue_sim (hN : 0 < N) (h : Sim N P s a)
    (hroom : (a.sent p).length + 1 < 2 ^ 64)
    {value : Bytes w} (hask : P.ask s.progs p = .enqueue value)
    (hs : s.step N P p = some s') :
    ∃ a', (a' = a ∨ Wires.Step N P p a a') ∧ Sim N P s' a' := by
  obtain ⟨hasks, hidle⟩ := (calling_enqueue hask).mp (h.calling p)
  have hcarries := h.carries (!p)
  rw [Bool.not_not] at hcarries
  have hspec := send_spec hN hcarries hasks hroom
  have hconsumer := send_consumer (N := N) (q := s.queues !p) value
  rcases hsend : (s.queues !p).send N value with ⟨q, ret⟩
  rw [hsend] at hspec hconsumer
  obtain rfl := Option.some.inj ((step_enqueue hask hsend).symm.trans hs)
  have hother : ∀ r, Calling P ((s.setQueue (!p) q).reply P p r) (!p) := by
    intro r
    refine h.other ?_ (by simp) (by simpa using hconsumer)
    cases r with
    | none => rfl
    | some r => exact P.apart s.progs p r
  cases ret with
  | none =>
    -- the call goes on
    refine ⟨a, Or.inl rfl, h.progs, h.carries_send hspec.1 rfl, fun p' => ?_⟩
    by_cases hpp : p' = p
    · subst hpp
      refine (calling_enqueue (s := (s.setQueue (!p') q).reply P p' none) hask).mpr ?_
      simpa using ⟨hspec.2, hidle⟩
    · obtain rfl := eq_not_of_ne hpp
      exact hother none
  | some b =>
    -- the call returns
    refine ⟨⟨Function.update a.sent p (if b then a.sent p ++ [value]
      else a.sent p), a.received, P.next a.progs p (.enqueued b)⟩, Or.inr ?_, ?_,
        ?_, fun p' => ?_⟩
    · rw [h.progs] at hask
      cases b with
      | true => exact .sent hask
      | false =>
        have hstep :=
          Wires.Step.refused (N := N) (P := P) (p := p) (a := a) hask (hspec.2.2 rfl)
        rw [if_neg Bool.false_ne_true, Function.update_eq_self]
        exact hstep
    · show P.next s.progs p _ = _
      rw [h.progs]
    · refine h.carries_send ?_ (Function.update_of_ne (not_ne_self p) ..)
      show Carries N q (Function.update a.sent p _ p) _
      rw [Function.update_self]
      exact hspec.1
    · by_cases hpp : p' = p
      · subst hpp
        exact calling_idle (by simpa using hspec.2.1) (by simpa using hidle)
      · obtain rfl := eq_not_of_ne hpp
        exact hother _

/-- A step of `dequeue`. -/
theorem dequeue_sim (hN : 0 < N) (h : Sim N P s a) {result : Bytes w}
    (hask : P.ask s.progs p = .dequeue result) (hs : s.step N P p = some s') :
    ∃ a', (a' = a ∨ Wires.Step N P p a a') ∧ Sim N P s' a' := by
  have hidle := (calling_dequeue hask).mp (h.calling p)
  have hspec := receive_spec hN (h.carries p) result
  have hproducers := receive_producers (N := N) (q := s.queues p) result
  rcases hreceive : (s.queues p).receive N result with ⟨q, ret⟩
  rw [hreceive] at hspec hproducers
  obtain rfl := Option.some.inj ((step_dequeue hask hreceive).symm.trans hs)
  have hother : ∀ r, Calling P ((s.setQueue p q).reply P p r) (!p) := by
    intro r
    refine h.other ?_ (by simpa using hproducers) (by simp)
    cases r with
    | none => rfl
    | some r => exact P.apart s.progs p r
  rcases ret with _ | ⟨b, value⟩
  · -- the call goes on
    refine ⟨a, Or.inl rfl, h.progs, h.carries_update hspec rfl rfl, fun p' => ?_⟩
    by_cases hpp : p' = p
    · subst hpp
      refine (calling_dequeue (s := (s.setQueue p' q).reply P p' none) hask).mpr ?_
      simpa using hidle
    · obtain rfl := eq_not_of_ne hpp
      exact hother none
  · -- the call returns
    refine ⟨⟨a.sent, Function.update a.received p
      (if b then a.received p ++ [value] else a.received p),
      P.next a.progs p (.dequeued b value)⟩, Or.inr ?_, ?_, ?_, fun p' => ?_⟩
    · rw [h.progs] at hask
      cases b with
      | true => exact .received hask hspec.1.isPrefix
      | false =>
        have hstep := Wires.Step.missed (N := N) (P := P) (p := p) (a := a) value hask
        rw [if_neg Bool.false_ne_true, Function.update_eq_self]
        exact hstep
    · show P.next s.progs p _ = _
      rw [h.progs]
    · refine h.carries_update ?_ rfl (Function.update_of_ne (not_ne_self p) ..)
      show Carries N q _ (Function.update a.received p _ p)
      rw [Function.update_self]
      exact hspec.1
    · by_cases hpp : p' = p
      · subst hpp
        exact calling_idle (by simpa using hidle) (by simpa using hspec.2)
      · obtain rfl := eq_not_of_ne hpp
        exact hother _

/-- **Every step is one of a call, or none.** -/
theorem step_sim (hN : 0 < N) (h : Sim N P s a) (hroom : (a.sent p).length + 1 < 2 ^ 64)
    (hs : s.step N P p = some s') : ∃ a', (a' = a ∨ Wires.Step N P p a a') ∧
    Sim N P s' a' := by
  cases hask : P.ask s.progs p with
  | enqueue value => exact enqueue_sim hN h hroom hask hs
  | dequeue result => exact dequeue_sim hN h hask hs
  | compute =>
    obtain ⟨hsend, hreceive⟩ := (calling_compute hask).mp (h.calling p)
    obtain rfl := Option.some.inj ((step_compute hask).symm.trans hs)
    refine ⟨⟨a.sent, a.received, P.next a.progs p .computed⟩, Or.inr ?_, ?_,
      h.carries, fun p' => ?_⟩
    · rw [h.progs] at hask
      exact .computed hask
    · show P.next s.progs p _ = _
      rw [h.progs]
    · by_cases hpp : p' = p
      · subst hpp
        exact calling_idle hsend hreceive
      · obtain rfl := eq_not_of_ne hpp
        exact h.other (P.apart s.progs p .computed) rfl rfl
  | ended =>
    unfold Duplex.step at hs
    simp only [hask] at hs
    cases hs

/-- **The queues do what their calls say.** In every run in which fewer than 2^64 values
are sent either way. -/
theorem duplex_simulates (hN : 0 < N)
    (hroom : ∀ a p, Wires.Reachable N P g a → (a.sent p).length + 1 < 2 ^ 64)
    (h : (Duplex.system N P g).Reachable (fun _ _ => True) s) :
    ∃ a, Wires.Reachable N P g a ∧ Sim N P s a := by
  refine h.invariant (I := fun s => ∃ a, Wires.Reachable N P g a ∧ Sim N P s a) ?_ ?_
  · intro s hinit
    obtain ⟨hprogs, hnew⟩ := hinit
    refine ⟨_, .init, hprogs, fun p => ?_, fun p => ?_⟩
    · obtain ⟨junk, hjunk⟩ := hnew p
      rw [hjunk]
      exact new_carries junk
    · obtain ⟨junk, hjunk⟩ := hnew p
      obtain ⟨junk', hjunk'⟩ := hnew (!p)
      exact calling_idle (by rw [hjunk']; rfl) (by rw [hjunk]; rfl)
  · intro s p s' hs _ hstep
    obtain ⟨a, ha, hsim⟩ := hs
    obtain ⟨a', hle, hsim'⟩ := step_sim hN hsim (hroom a p ha) hstep
    rcases hle with rfl | hle
    · exact ⟨a', ha, hsim'⟩
    · exact ⟨a', .step p ha hle, hsim'⟩

end Simulation

/-! ## Progress -/

/-- Process `p` has no call in progress. -/
def Idle (s : Duplex w γ) (p : Bool) : Prop :=
  (s.queues !p).producers 0 = none ∧ (s.queues p).consumer = none

/-- The call that process `p` makes does not wait for a lock of the other process. -/
def Free (P : Programs w γ) (s : Duplex w γ) (p : Bool) : Prop :=
  match P.ask s.progs p with
  | .enqueue _ => reading (s.queues !p).consumer = false ∨
    writing ((s.queues !p).producers 0) = true
  | .dequeue _ => writing ((s.queues p).producers 0) = false ∨
    engaged (s.queues p).consumer = true
  | _ => True

section Progress

variable {N : Nat} {P : Programs w γ} {g : γ} {s : Duplex w γ} {a : Wires w γ} {p : Bool}
  {q q' : Queue w}

theorem setQueue_setQueue : (s.setQueue p q).setQueue p q' = s.setQueue p q' := by
  unfold Duplex.setQueue
  rw [Function.update_idem]

/-- What a process does alone on its queue, the two do. -/
theorem sends_leads {value : Bytes w} {b : Bool} (hsends : Sends N value q b q') :
    ∀ {s : Duplex w γ}, P.ask s.progs p = .enqueue value → s.queues (!p) = q →
      (Duplex.system N P g).Leads s
      ((s.setQueue (!p) q').reply P p (some (.enqueued b))) := by
  induction hsends with
  | last hsend =>
    intro s hask hq
    rw [← hq] at hsend
    exact .single (step_enqueue hask hsend)
  | @step q q₁ q' b hsend _ ih =>
    intro s hask hq
    rw [← hq] at hsend
    have hrest := ih (s := s.setQueue (!p) q₁) hask setQueue_self
    rw [setQueue_setQueue] at hrest
    exact .head (step_enqueue hask hsend) hrest

theorem receives_leads {result : Bytes w} {r : Bool × Bytes w}
    (hreceives : Receives N q result r q') :
    ∀ {s : Duplex w γ}, P.ask s.progs p = .dequeue result → s.queues p = q →
      (Duplex.system N P g).Leads s
      ((s.setQueue p q').reply P p (some (.dequeued r.1 r.2))) := by
  induction hreceives with
  | last hreceive =>
    intro s hask hq
    rw [← hq] at hreceive
    exact .single (step_dequeue hask hreceive)
  | @step q q₁ q' result r hreceive _ ih =>
    intro s hask hq
    rw [← hq] at hreceive
    have hrest := ih (s := s.setQueue p q₁) hask setQueue_self
    rw [setQueue_setQueue] at hrest
    exact .head (step_dequeue hask hreceive) hrest

/-- The call of process `p` has come to its end, and the other process is where it was. -/
structure Ended (p : Bool) (s s' : Duplex w γ) : Prop where
  idle : Idle s' p
  producers : (s'.queues p).producers = (s.queues p).producers
  consumer : (s'.queues !p).consumer = (s.queues !p).consumer

theorem enqueue_ends (hN : 0 < N) (h : Sim N P s a)
    (hroom : (a.sent p).length + 1 < 2 ^ 64)
    {value : Bytes w} (hask : P.ask s.progs p = .enqueue value) (hfree : Free P s p) :
    ∃ b s', (Duplex.system N P g).Leads s s' ∧ Ended p s s' ∧
      s'.progs = P.next s.progs p (.enqueued b) ∧
        (Admits N (s.queues !p) → b = true) := by
  obtain ⟨hasks, hidle⟩ := (calling_enqueue hask).mp (h.calling p)
  have hcarries := h.carries (!p)
  rw [Bool.not_not] at hcarries
  unfold Free at hfree
  simp only [hask] at hfree
  obtain ⟨b, q', hsends, hb⟩ := sends_return hN hcarries hasks hroom hfree
  obtain ⟨hnone, hconsumer⟩ := hsends.ends hN hcarries hasks hroom
  refine ⟨b, _, sends_leads hsends hask rfl, ⟨⟨?_, ?_⟩, ?_, ?_⟩, rfl, hb⟩
  · simpa using hnone
  · simpa using hidle
  · simp
  · simpa using hconsumer

theorem dequeue_ends (hN : 0 < N) (h : Sim N P s a) {result : Bytes w}
    (hask : P.ask s.progs p = .dequeue result) (hfree : Free P s p) :
    ∃ b r s', (Duplex.system N P g).Leads s s' ∧ Ended p s s' ∧
      s'.progs = P.next s.progs p (.dequeued b r) ∧ (Offers (s.queues p) → b = true) := by
  have hidle := (calling_dequeue hask).mp (h.calling p)
  unfold Free at hfree
  simp only [hask] at hfree
  obtain ⟨b, r, q', hreceives, hb⟩ := receives_return hN (h.carries p) hfree result
  obtain ⟨hnone, hproducers⟩ := hreceives.ends hN (h.carries p)
  refine ⟨b, r, _, receives_leads hreceives hask rfl, ⟨⟨?_, ?_⟩, ?_, ?_⟩, rfl, hb⟩
  · simpa using hidle
  · simpa using hnone
  · simpa using hproducers
  · simp

/-- A call that waits for no lock comes to its end. -/
theorem call_ends (hN : 0 < N) (h : Sim N P s a) (hroom : (a.sent p).length + 1 < 2 ^ 64)
    (hfree : Free P s p) : ∃ s', (Duplex.system N P g).Leads s s' ∧ Ended p s s' := by
  cases hask : P.ask s.progs p with
  | enqueue value =>
    obtain ⟨_, s', hleads, hended, _⟩ := enqueue_ends (g := g) hN h hroom hask hfree
    exact ⟨s', hleads, hended⟩
  | dequeue result =>
    obtain ⟨_, _, s', hleads, hended, _⟩ := dequeue_ends (g := g) hN h hask hfree
    exact ⟨s', hleads, hended⟩
  | compute => exact ⟨s, .refl s, (calling_compute hask).mp (h.calling p), rfl, rfl⟩
  | ended => exact ⟨s, .refl s, (calling_ended hask).mp (h.calling p), rfl, rfl⟩

/-- A process waits for no process that is idle. -/
theorem free_of_idle (hidle : Idle s (!p)) : Free P s p := by
  obtain ⟨hsend, hreceive⟩ := hidle
  rw [Bool.not_not] at hsend
  unfold Free
  split
  next =>
    rw [hreceive]
    exact Or.inl rfl
  next =>
    rw [hsend]
    exact Or.inl rfl
  next => trivial

theorem engaged_of_reading {c : Option (Dequeue w)} (h : reading c = true) :
    engaged c = true := by
  unfold reading at h
  split at h <;> first | rfl | cases h

/-- A process that has the lock its peer needs does not wait for its own. -/
theorem free_of_reading (h : Sim N P s a) (hread : reading (s.queues p).consumer = true) :
    Free P s p := by
  have hcalling := h.calling p
  unfold Free
  cases hask : P.ask s.progs p with
  | enqueue value =>
    rw [((calling_enqueue hask).mp hcalling).2] at hread
    cases hread
  | dequeue result => exact Or.inr (engaged_of_reading hread)
  | compute => trivial
  | ended => trivial

theorem free_of_writing (h : Sim N P s a)
    (hwrite : writing ((s.queues !p).producers 0) = true) :
    Free P s p := by
  have hcalling := h.calling p
  unfold Free
  cases hask : P.ask s.progs p with
  | enqueue value => exact Or.inr hwrite
  | dequeue result =>
    rw [(calling_dequeue hask).mp hcalling] at hwrite
    cases hwrite
  | compute => trivial
  | ended => trivial

/-- The two do not wait for each other. -/
theorem Sim.free_or (h : Sim N P s a) (p : Bool) : Free P s p ∨ Free P s (!p) := by
  by_cases hfree : Free P s p
  · exact Or.inl hfree
  · right
    unfold Free at hfree
    split at hfree
    next =>
      rw [not_or, Bool.not_eq_false] at hfree
      exact free_of_reading h hfree.1
    next =>
      rw [not_or, Bool.not_eq_false] at hfree
      refine free_of_writing h ?_
      rw [Bool.not_not]
      exact hfree.1
    next => exact absurd trivial hfree

variable (hN : 0 < N) (hroom : ∀ a p, Wires.Reachable N P g a →
  (a.sent p).length + 1 < 2 ^ 64)

include hN hroom

/-- Where steps lead, calls lead. -/
theorem leads_sim {s' : Duplex w γ} (ha : Wires.Reachable N P g a) (h : Sim N P s a)
    (hleads : (Duplex.system N P g).Leads s s') :
    ∃ a', Relation.ReflTransGen (fun a a' => ∃ p, Wires.Step N P p a a') a a' ∧
      Wires.Reachable N P g a' ∧ Sim N P s' a' := by
  obtain ⟨ps, hps⟩ := hleads
  induction ps generalizing s a with
  | nil =>
    obtain rfl := Option.some.inj hps
    exact ⟨a, .refl, ha, h⟩
  | cons p ps ih =>
    rw [Transition.run, List.foldlM_cons] at hps
    obtain ⟨s₁, hstep, hrest⟩ := Option.bind_eq_some_iff.mp hps
    obtain ⟨a₁, hle, hsim⟩ := step_sim hN h (hroom a p ha) hstep
    rcases hle with rfl | hle
    · exact ih ha hsim hrest
    · obtain ⟨a', hcalls, ha', hsim'⟩ := ih (.step p ha hle) hsim hrest
      exact ⟨a', .head ⟨p, hle⟩ hcalls, ha', hsim'⟩

/-- With the calls of process `p` at their end, those of the other can be brought there. -/
theorem both_idle (hs : (Duplex.system N P g).Reachable (fun _ _ => True) s)
    (hidle : Idle s p) : ∃ s', (Duplex.system N P g).Leads s s' ∧ Idle s' p ∧
    Idle s' (!p) := by
  obtain ⟨a, ha, hsim⟩ := duplex_simulates hN hroom hs
  obtain ⟨s', hleads, hended⟩ := call_ends (g := g) (p := !p) hN hsim (hroom a _ ha)
    (free_of_idle (by rw [Bool.not_not]; exact hidle))
  refine ⟨s', hleads, ⟨?_, ?_⟩, hended.idle⟩
  · rw [hended.producers]
    exact hidle.1
  · have hconsumer := hended.consumer
    rw [Bool.not_not] at hconsumer
    rw [hconsumer]
    exact hidle.2

/-- **The calls in progress can be brought to their end**, wherever they are. -/
theorem settles (hs : (Duplex.system N P g).Reachable (fun _ _ => True) s) :
    ∃ s', (Duplex.system N P g).Leads s s' ∧ ∀ p, Idle s' p := by
  obtain ⟨a, ha, hsim⟩ := duplex_simulates hN hroom hs
  obtain ⟨p, hfree⟩ : ∃ p, Free P s p := by
    rcases hsim.free_or true with hfree | hfree
    · exact ⟨_, hfree⟩
    · exact ⟨_, hfree⟩
  obtain ⟨s₁, hleads, hended⟩ := call_ends (g := g) hN hsim (hroom a _ ha) hfree
  obtain ⟨s', hleads', hidle, hidle'⟩ :=
    both_idle hN hroom (hleads.reachable hs) hended.idle
  refine ⟨s', hleads.trans hleads', fun p' => ?_⟩
  by_cases hpp : p' = p
  · rw [hpp]
    exact hidle
  · rw [eq_not_of_ne hpp]
    exact hidle'

omit hN hroom

/-- **A call on a queue that is not full succeeds**, -/
theorem enqueues (hN : 0 < N) (h : Sim N P s a) (hroom : (a.sent p).length + 1 < 2 ^ 64)
    (hidle : ∀ p, Idle s p) {value : Bytes w} (hask : P.ask s.progs p = .enqueue value)
    (hlt : (a.sent p).length < (a.received (!p)).length + N) :
    ∃ s', (Duplex.system N P g).Leads s s' ∧
      s'.progs = P.next s.progs p (.enqueued true) := by
  have hcarries := h.carries (!p)
  rw [Bool.not_not] at hcarries
  obtain ⟨b, s', hleads, _, hprogs, hb⟩ := enqueue_ends (g := g) hN h hroom hask
    (free_of_idle (hidle _))
  rw [hb (send_admits hcarries (hidle p).1 hlt)] at hprogs
  exact ⟨s', hleads, hprogs⟩

/-- **and one on a queue that is not empty.** -/
theorem dequeues (hN : 0 < N) (h : Sim N P s a) (hidle : ∀ p, Idle s p) {result : Bytes w}
    (hask : P.ask s.progs p = .dequeue result)
    (hlt : (a.received p).length < (a.sent (!p)).length) :
    ∃ value s', (Duplex.system N P g).Leads s s' ∧
      s'.progs = P.next s.progs p (.dequeued true value) := by
  obtain ⟨b, value, s', hleads, _, hprogs, hb⟩ := dequeue_ends (g := g) hN h hask
    (free_of_idle (hidle _))
  rw [hb (receive_offers (h.carries p) (hidle p).2 hlt)] at hprogs
  exact ⟨value, s', hleads, hprogs⟩

end Progress

end CharmExperiments.Lfq
