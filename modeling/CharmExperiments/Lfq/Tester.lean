import CharmExperiments.Lfq.Duplex

/-!
# The test of the queue

`archive/lfq/tester.cc`: two processes, each with a queue of its own. In 16 iterations
each enqueues the numbers 1 to 16 into the queue of the other and then dequeues 16
numbers from its own, which it asserts to be 1 to 16.

This is the loop of `main` on queues that are constructed before either process enters
it. With a queue that is constructed late both results fail, as the construction
discards what it holds (`Lfq.Open`).

The assertion holds in every interleaving of the steps of the calls (`test_sound`),
though a process that is ahead starts the next iteration before its peer has taken the
numbers of the last. And the test cannot get stuck: the queues are as long as an
iteration, so of two processes that both wait for room each would be ahead of the other
(`test_passes`).

Mirroring notes:
- Both calls of `open` have returned in both processes, and both queues are
  constructed: the system starts there. `close` is left out.
- An `int` is its bytes, low byte first.
-/

namespace CharmExperiments.Lfq

open CharmExperiments.Lib

/-- `num_msgs_`. -/
def numMsgs : Nat := 16

/-- An `int`. -/
def intBytes (i : Nat) : Bytes 4 := fun k => UInt8.ofNat (i / 256 ^ k.val)

/-- Where `main` is. -/
inductive Place
  /-- `while (!theirs->enqueue(i));` -/
  | sending (it i : Nat)
  /-- `while (!mine->dequeue(&j));` -/
  | receiving (it i : Nat) (j : Bytes 4)
  /-- `assert(false)`, as `i != j`. -/
  | failed
  /-- "all tests passed" -/
  | passed

namespace Place

/-- `for (std::intptr_t i = 1; i <= num_msgs_; i++)` goes on, and after it the other
loop starts. -/
def afterSend (it i : Nat) : Place :=
  if i + 1 ≤ numMsgs then .sending it (i + 1) else .receiving it 1 (intBytes 0)

/-- `if (i != j) assert(false)`, and `for (auto i = 1; i <= num_msgs_; i++)` goes on, or
that of the iterations. -/
def afterReceive (it i : Nat) (j : Bytes 4) : Place :=
  if intBytes i ≠ j then .failed
  else if i + 1 ≤ numMsgs then .receiving it (i + 1) (intBytes 0)
  else if it + 1 < numMsgs then .sending (it + 1) 1
  else .passed

/-- What `main` does next. -/
def ask : Place → Ask 4
  | .sending _ i => .enqueue (intBytes i)
  | .receiving _ _ j => .dequeue j
  | .failed => .ended
  | .passed => .ended

/-- Where it goes on. -/
def next : Place → Reply 4 → Place
  | .sending it i, .enqueued true => afterSend it i
  | .receiving it i _, .dequeued true j => afterReceive it i j
  | place, _ => place

end Place

/-- `main` of both processes. -/
def testers : Programs 4 (Bool → Place) where
  ask places p := (places p).ask
  next places p r := Function.update places p ((places p).next r)
  apart places p r := by rw [Function.update_of_ne (not_ne_self p)]

/-- The processes start. -/
def testStart : Bool → Place := fun _ => .sending 0 1

/-- The test: its processes on its queues. -/
def testSystem : Transition (Duplex 4 (Bool → Place)) Bool :=
  Duplex.system numMsgs testers testStart

/-! ## What the processes count -/

/-- The first `n` numbers that are sent. -/
def messages (n : Nat) : List (Bytes 4) :=
  (List.range n).map fun k => intBytes (k % numMsgs + 1)

section Asks

variable {place : Place}

theorem ask_enqueue {value : Bytes 4} (h : place.ask = .enqueue value) :
    ∃ it i, place = .sending it i ∧ value = intBytes i := by
  cases place with
  | sending it i => exact ⟨it, i, rfl, (Ask.enqueue.inj h).symm⟩
  | _ => cases h

theorem ask_dequeue {result : Bytes 4} (h : place.ask = .dequeue result) :
    ∃ it i, place = .receiving it i result := by
  cases place with
  | receiving it i j => exact ⟨it, i, by rw [Ask.dequeue.inj h]⟩
  | _ => cases h

theorem ask_ne_compute : place.ask ≠ .compute := by
  cases place <;> intro h <;> cases h

/-- A refused enqueue is called again, -/
theorem next_refused : place.next (.enqueued false) = place := by
  cases place <;> rfl

/-- as is a dequeue that finds nothing. -/
theorem next_missed {result : Bytes 4} : place.next (.dequeued false result) = place := by
  cases place <;> rfl

end Asks

/-- The loops are within their bounds, and nothing failed. -/
def Place.Running : Place → Prop
  | .sending it i => it < numMsgs ∧ 1 ≤ i ∧ i ≤ numMsgs
  | .receiving it i _ => it < numMsgs ∧ 1 ≤ i ∧ i ≤ numMsgs
  | .failed => False
  | .passed => True

/-- How many numbers a process has sent. -/
def Place.sent : Place → Nat
  | .sending it i => it * numMsgs + (i - 1)
  | .receiving it _ _ => (it + 1) * numMsgs
  | _ => numMsgs * numMsgs

/-- How many it has received. -/
def Place.received : Place → Nat
  | .sending it _ => it * numMsgs
  | .receiving it i _ => it * numMsgs + (i - 1)
  | _ => numMsgs * numMsgs

/-- What a process has sent and received is what its place says. -/
structure TestInv (a : Wires 4 (Bool → Place)) : Prop where
  running : ∀ p, (a.progs p).Running
  sent : ∀ p, a.sent p = messages (a.progs p).sent
  received : ∀ p, a.received p = messages (a.progs p).received

theorem messages_length (n : Nat) : (messages n).length = n := by
  rw [messages, List.length_map, List.length_range]

theorem messages_succ (n : Nat) :
    messages (n + 1) = messages n ++ [intBytes (n % numMsgs + 1)] := by
  rw [messages, List.range_succ, List.map_append]
  rfl

/-- What comes next in a part of the messages. -/
theorem messages_next {n m : Nat} {value : Bytes 4}
    (h : messages n ++ [value] <+: messages m) :
    value = intBytes (n % numMsgs + 1) := by
  have hlt : n < m := by
    have hlen := h.length_le
    rw [List.length_append, messages_length, messages_length] at hlen
    exact hlen
  have hget := h.getElem (i := n)
    (by rw [List.length_append, messages_length]; exact Nat.lt_succ_self n)
  rw [List.getElem_append_right (by rw [messages_length])] at hget
  simpa [messages_length, messages] using hget

/-- The numbers of an iteration. -/
theorem counted {it i : Nat} (hlo : 1 ≤ i) (hhi : i ≤ numMsgs) :
    (it * numMsgs + (i - 1)) % numMsgs + 1 = i := by
  unfold numMsgs at hhi ⊢
  omega

/-! ## Where the loops go on -/

section Loops

variable {it i : Nat} {j : Bytes 4}

theorem afterSend_running (h : (Place.sending it i).Running) :
    (Place.afterSend it i).Running ∧ (Place.afterSend it i).sent =
    (Place.sending it i).sent + 1 ∧ (Place.afterSend it i).received =
    (Place.sending it i).received := by
  obtain ⟨hit, hlo, hhi⟩ := h
  unfold Place.afterSend
  split
  next hi =>
    refine ⟨⟨hit, by omega, hi⟩, ?_, rfl⟩
    show it * numMsgs + (i + 1 - 1) = it * numMsgs + (i - 1) + 1
    omega
  next hi =>
    refine ⟨⟨hit, Nat.le_refl 1, by decide⟩, ?_, ?_⟩
    · show (it + 1) * numMsgs = it * numMsgs + (i - 1) + 1
      rw [Nat.add_mul]
      omega
    · show it * numMsgs + (1 - 1) = it * numMsgs
      omega

theorem afterReceive_running (h : (Place.receiving it i j).Running) {value : Bytes 4}
    (hvalue : value = intBytes i) :
    (Place.afterReceive it i value).Running ∧
    (Place.afterReceive it i value).sent = (Place.receiving it i j).sent ∧
    (Place.afterReceive it i value).received = (Place.receiving it i j).received + 1 := by
  obtain ⟨hit, hlo, hhi⟩ := h
  unfold Place.afterReceive
  rw [if_neg (not_not.mpr hvalue.symm)]
  split
  next hi =>
    refine ⟨⟨hit, by omega, hi⟩, rfl, ?_⟩
    show it * numMsgs + (i + 1 - 1) = it * numMsgs + (i - 1) + 1
    omega
  next hi =>
    split
    next hit' =>
      refine ⟨⟨hit', Nat.le_refl 1, by decide⟩, ?_, ?_⟩
      · show (it + 1) * numMsgs + (1 - 1) = (it + 1) * numMsgs
        omega
      · show (it + 1) * numMsgs = it * numMsgs + (i - 1) + 1
        rw [Nat.add_mul]
        omega
    next hit' =>
      have hlast : it + 1 = numMsgs := by omega
      refine ⟨trivial, ?_, ?_⟩
      · show numMsgs * numMsgs = (it + 1) * numMsgs
        rw [hlast]
      · show numMsgs * numMsgs = it * numMsgs + (i - 1) + 1
        have hmul : (it + 1) * numMsgs = it * numMsgs + numMsgs := Nat.succ_mul it numMsgs
        rw [hlast] at hmul
        omega

end Loops

/-! ## Every run -/

theorem start_inv : TestInv ⟨fun _ => [], fun _ => [], testStart⟩ :=
  ⟨fun _ => ⟨by decide, Nat.le_refl 1, by decide⟩, fun _ => rfl, fun _ => rfl⟩

section Runs

variable {a a' : Wires 4 (Bool → Place)} {p : Bool}

/-- A process goes on as `hplace` says; the other is where it was. -/
theorem TestInv.update (h : TestInv a) (p : Bool) {place : Place}
    (sent received : List (Bytes 4)) (hrunning : place.Running)
    (hsent : sent = messages place.sent)
    (hreceived : received = messages place.received) :
    TestInv ⟨Function.update a.sent p sent, Function.update a.received p received,
      Function.update a.progs p place⟩ := by
  refine ⟨fun p' => ?_, fun p' => ?_, fun p' => ?_⟩ <;> by_cases hpp : p' = p
  · subst hpp
    show (Function.update a.progs p' place p').Running
    rw [Function.update_self]
    exact hrunning
  · show (Function.update a.progs p place p').Running
    rw [Function.update_of_ne hpp]
    exact h.running p'
  · subst hpp
    show Function.update a.sent p' sent p' =
      messages (Function.update a.progs p' place p').sent
    rw [Function.update_self, Function.update_self]
    exact hsent
  · show Function.update a.sent p sent p' =
      messages (Function.update a.progs p place p').sent
    rw [Function.update_of_ne hpp, Function.update_of_ne hpp]
    exact h.sent p'
  · subst hpp
    show Function.update a.received p' received p' =
      messages (Function.update a.progs p' place p').received
    rw [Function.update_self, Function.update_self]
    exact hreceived
  · show Function.update a.received p received p' =
      messages (Function.update a.progs p place p').received
    rw [Function.update_of_ne hpp, Function.update_of_ne hpp]
    exact h.received p'

theorem tester_step (h : TestInv a) (hs : Wires.Step numMsgs testers p a a') :
    TestInv a' := by
  have hrunning := h.running p
  have hsent := h.sent p
  have hreceived := h.received p
  have hnext : ∀ r, testers.next a.progs p r =
      Function.update a.progs p ((a.progs p).next r) :=
    fun _ => rfl
  cases hs with
  | @sent value hask =>
    obtain ⟨it, i, hplace, rfl⟩ := ask_enqueue hask
    rw [hnext, hplace]
    rw [hplace] at hrunning hsent hreceived
    obtain ⟨hrun, hs, hr⟩ := afterSend_running hrunning
    have hupdate := h.update p (a.sent p ++ [intBytes i]) (a.received p) hrun ?_ ?_
    · rw [Function.update_eq_self] at hupdate
      exact hupdate
    · rw [hs, messages_succ, hsent, show (Place.sending it i).sent % numMsgs + 1 = i from
        counted hrunning.2.1 hrunning.2.2]
    · rw [hr, hreceived]
  | refused hask _ =>
    rw [hnext, next_refused, Function.update_eq_self]
    exact ⟨h.running, h.sent, h.received⟩
  | @received result value hask hvalue =>
    obtain ⟨it, i, hplace⟩ := ask_dequeue hask
    rw [hnext, hplace]
    rw [hplace] at hrunning hsent hreceived
    -- the value is the next one that the peer sent
    rw [hreceived, h.sent (!p)] at hvalue
    have hcount : (Place.receiving it i result).received % numMsgs + 1 = i :=
      counted hrunning.2.1 hrunning.2.2
    have hvalue := messages_next hvalue
    rw [hcount] at hvalue
    obtain ⟨hrun, hs, hr⟩ := afterReceive_running hrunning hvalue
    have hupdate := h.update p (a.sent p) (a.received p ++ [value]) hrun ?_ ?_
    · rw [Function.update_eq_self] at hupdate
      exact hupdate
    · rw [hs, hsent]
    · rw [hr, messages_succ, hreceived, hcount, hvalue]
  | missed hask =>
    rw [hnext, next_missed, Function.update_eq_self]
    exact ⟨h.running, h.sent, h.received⟩
  | computed hask => exact absurd hask ask_ne_compute

/-- What the calls made so far can have led to. -/
theorem wires_inv {a : Wires 4 (Bool → Place)}
    (h : Wires.Reachable numMsgs testers testStart a) :
    TestInv a :=
  h.invariant start_inv fun _ _ _ => tester_step

theorem sent_le {place : Place} (h : place.Running) : place.sent ≤ numMsgs * numMsgs := by
  cases place with
  | sending it i =>
    obtain ⟨hit, hlo, hhi⟩ := h
    show it * 16 + (i - 1) ≤ 16 * 16
    unfold numMsgs at hit hhi
    omega
  | receiving it i j =>
    obtain ⟨hit, _, _⟩ := h
    show (it + 1) * 16 ≤ 16 * 16
    unfold numMsgs at hit
    omega
  | failed => exact h.elim
  | passed => exact Nat.le_refl _

theorem tester_room {a : Wires 4 (Bool → Place)} {p : Bool}
    (h : Wires.Reachable numMsgs testers testStart a) :
    (a.sent p).length + 1 < 2 ^ 64 := by
  have hle := sent_le ((wires_inv h).running p)
  rw [(wires_inv h).sent, messages_length]
  unfold numMsgs at hle
  omega

/-- What the test shows of the queues. -/
structure Passes (s : Duplex 4 (Bool → Place)) : Prop where
  /-- No assertion failed, in the test or in the queues. -/
  asserts : ∀ p, s.progs p ≠ .failed ∧ (s.queues p).producers 0 ≠ some .aborted ∧
    (s.queues p).consumer ≠ some .aborted
  /-- What a process has received is the first part of what its peer has sent. -/
  order : ∀ p, (s.queues p).dequeued = messages (s.progs p).received ∧
    (s.progs p).received ≤ (s.progs !p).sent
  /-- A process that has passed has received all of it, in order. -/
  complete : ∀ p, s.progs p = .passed →
    (s.queues p).dequeued = (List.replicate 16 ((List.range' 1 16).map intBytes)).flatten

/-- **The test passes.** In every interleaving of the steps of the two processes. -/
theorem test_sound {s : Duplex 4 (Bool → Place)}
    (h : testSystem.Reachable (fun _ _ => True) s) : Passes s := by
  obtain ⟨a, ha, hsim⟩ := duplex_simulates (by decide) (fun _ _ => tester_room) h
  have hinv := wires_inv ha
  have hdequeued : ∀ p, (s.queues p).dequeued = messages (s.progs p).received := by
    intro p
    rw [(hsim.carries p).dequeued, hinv.received, hsim.progs]
  refine ⟨fun p => ⟨fun hfailed => ?_, ?_, ?_⟩, fun p => ⟨hdequeued p, ?_⟩,
    fun p hpassed => ?_⟩
  · have hrunning := hinv.running p
    rw [← hsim.progs, hfailed] at hrunning
    exact hrunning
  · exact (hsim.carries p).inv.runs.1 0
  · exact (hsim.carries p).inv.runs.2
  · have hlen := (hsim.carries p).isPrefix.length_le
    rw [hinv.received, hinv.sent, messages_length, messages_length, ← hsim.progs] at hlen
    exact hlen
  · rw [hdequeued, hpassed]
    decide +kernel

/-- The test at its start. -/
def testInit : Duplex 4 (Bool → Place) := ⟨fun _ => .new fun _ => intBytes 0, testStart⟩

theorem testInit_reachable : testSystem.Reachable (fun _ _ => True) testInit :=
  .init ⟨rfl, fun _ => ⟨_, rfl⟩⟩

/-- The first process has sent its first number. -/
theorem test_sound_first :
    ∃ s, testSystem.run testInit (List.replicate 12 false) = some s ∧
    (s.queues true).admitted.length = 1 ∧ Passes s := by
  have hrun : (testSystem.run testInit (List.replicate 12 false)).map
      (fun s => (s.queues true).admitted.length) = some 1 := by decide +kernel
  obtain ⟨s, hrun, hlen⟩ := Option.map_eq_some_iff.mp hrun
  exact ⟨s, hrun, hlen, test_sound (Transition.run_reachable _ (fun _ _ _ => trivial)
    testInit_reachable hrun)⟩

end Runs

/-! ## Nothing gets stuck -/

/-- A bound on the calls a process has left to succeed. -/
def Place.left : Place → Nat
  | .sending it i => (numMsgs - it) * (2 * numMsgs + 2) + (numMsgs + 1) +
    (numMsgs + 1 - i)
  | .receiving it i _ => (numMsgs - it) * (2 * numMsgs + 2) + (numMsgs + 1 - i)
  | _ => 0

/-- The calls that both have left. -/
def callsLeft (places : Bool → Place) : Nat := (places false).left + (places true).left

/-- The call that process `p` makes can succeed. -/
def CanCall (places : Bool → Place) (p : Bool) : Prop :=
  match places p with
  | .sending _ _ => (places p).sent < (places !p).received + numMsgs
  | .receiving _ _ _ => (places p).received < (places !p).sent
  | _ => False

section Progress

variable {places : Bool → Place} {p : Bool}

theorem afterSend_left (it i : Nat) : (Place.afterSend it i).left <
    (Place.sending it i).left := by
  unfold Place.afterSend
  split
  · show (16 - it) * 34 + 17 + (17 - (i + 1)) < (16 - it) * 34 + 17 + (17 - i)
    unfold numMsgs at *
    omega
  · show (16 - it) * 34 + (17 - 1) < (16 - it) * 34 + 17 + (17 - i)
    omega

theorem afterReceive_left (it i : Nat) (j value : Bytes 4) :
    (Place.afterReceive it i value).left ≤ (Place.receiving it i j).left ∧
      (it < numMsgs → (Place.afterReceive it i value).left <
        (Place.receiving it i j).left) := by
  show _ ≤ (16 - it) * 34 + (17 - i) ∧ (it < 16 → _ < (16 - it) * 34 + (17 - i))
  unfold Place.afterReceive
  split
  · show 0 ≤ _ ∧ (it < 16 → 0 < _)
    omega
  · split
    · show (16 - it) * 34 + (17 - (i + 1)) ≤ _ ∧
        (it < 16 → (16 - it) * 34 + (17 - (i + 1)) < _)
      unfold numMsgs at *
      omega
    · split
      · show (16 - (it + 1)) * 34 + 17 + (17 - 1) ≤ _ ∧
          (it < 16 → (16 - (it + 1)) * 34 + 17 + (17 - 1) < _)
        unfold numMsgs at *
        omega
      · show 0 ≤ _ ∧ (it < 16 → 0 < _)
        omega

theorem next_left (place : Place) (r : Reply 4) : (place.next r).left ≤ place.left := by
  cases place with
  | sending it i =>
    rcases r with ⟨_ | _⟩ | _ | _
    · exact Nat.le_refl _
    · exact Nat.le_of_lt (afterSend_left it i)
    · exact Nat.le_refl _
    · exact Nat.le_refl _
  | receiving it i j =>
    rcases r with _ | ⟨_ | _, value⟩ | _
    · exact Nat.le_refl _
    · exact Nat.le_refl _
    · exact (afterReceive_left it i j value).1
    · exact Nat.le_refl _
  | failed => exact Nat.le_refl _
  | passed => exact Nat.le_refl _

/-- Only the calls of the process that gets the reply are fewer. -/
theorem callsLeft_update (places : Bool → Place) (p : Bool) (place : Place) :
    callsLeft (Function.update places p place) + (places p).left = callsLeft places +
      place.left := by
  unfold callsLeft
  cases p with
  | false =>
    rw [Function.update_self, Function.update_of_ne (by decide)]
    omega
  | true =>
    rw [Function.update_self, Function.update_of_ne (by decide)]
    omega

theorem callsLeft_next (places : Bool → Place) (p : Bool) (r : Reply 4) :
    callsLeft (testers.next places p r) ≤ callsLeft places := by
  have hle := next_left (places p) r
  have hupdate := callsLeft_update places p ((places p).next r)
  show callsLeft (Function.update places p _) ≤ _
  omega

theorem left_pos {place : Place} (h : place.Running) (hplace : place ≠ .passed) :
    0 < place.left := by
  cases place with
  | sending it i =>
    show 0 < (16 - it) * 34 + 17 + (17 - i)
    omega
  | receiving it i j =>
    obtain ⟨hit, _, _⟩ := h
    show 0 < (16 - it) * 34 + (17 - i)
    unfold numMsgs at hit
    omega
  | failed => exact h.elim
  | passed => exact absurd rfl hplace

/-- A process is at most an iteration further with sending. -/
theorem sent_near {place : Place} (h : place.Running) :
    place.received ≤ place.sent ∧ place.sent ≤ place.received + numMsgs ∧
    place.sent + place.received ≤ 2 * (numMsgs * numMsgs) := by
  cases place with
  | sending it i =>
    simp only [Place.Running, Place.sent, Place.received, numMsgs] at *
    omega
  | receiving it i j =>
    simp only [Place.Running, Place.sent, Place.received, numMsgs] at *
    omega
  | failed => exact h.elim
  | passed => decide

/-- A process that cannot go on has done more calls than its peer. -/
theorem ahead_of_stuck (hrunning : ∀ p, (places p).Running) (hplace : places p ≠ .passed)
    (hstuck : ¬CanCall places p) :
    (places !p).sent + (places !p).received < (places p).sent + (places p).received := by
  have hnear := sent_near (hrunning !p)
  have hrun := hrunning p
  unfold CanCall at hstuck
  cases hp : places p with
  | sending it i =>
    rw [hp] at hstuck hrun
    simp only [Place.Running, Place.sent, Place.received, numMsgs] at *
    omega
  | receiving it i j =>
    rw [hp] at hstuck hrun
    simp only [Place.Running, Place.sent, Place.received, numMsgs] at *
    omega
  | failed =>
    rw [hp] at hrun
    exact hrun.elim
  | passed => exact absurd hp hplace

/-- **The two do not wait for each other.** -/
theorem someone_calls (hrunning : ∀ p, (places p).Running) (hplace : places p ≠ .passed) :
    ∃ p, CanCall places p := by
  by_contra hnone
  have hahead := ahead_of_stuck hrunning hplace fun h => hnone ⟨p, h⟩
  by_cases hpassed : places (!p) = .passed
  · have hbound := (sent_near (hrunning p)).2.2
    rw [hpassed, show Place.passed.sent = 256 from rfl,
      show Place.passed.received = 256 from rfl]
      at hahead
    unfold numMsgs at hbound
    omega
  · have hahead' := ahead_of_stuck hrunning hpassed fun h => hnone ⟨!p, h⟩
    rw [Bool.not_not] at hahead'
    omega

variable {s : Duplex 4 (Bool → Place)}

/-- With no call in progress one can be made that succeeds. -/
theorem call_succeeds (hs : testSystem.Reachable (fun _ _ => True) s)
    (hidle : ∀ p, Idle s p) (hplace : s.progs p ≠ .passed) :
    ∃ s', testSystem.Leads s s' ∧ callsLeft s'.progs < callsLeft s.progs := by
  obtain ⟨a, ha, hsim⟩ := duplex_simulates (by decide) (fun _ _ => tester_room) hs
  have hinv := wires_inv ha
  have hrunning : ∀ p, (s.progs p).Running := by
    rw [hsim.progs]
    exact hinv.running
  obtain ⟨p, hcan⟩ := someone_calls hrunning hplace
  have hlen : ∀ p, (a.sent p).length = (s.progs p).sent ∧
      (a.received p).length = (s.progs p).received := by
    intro p
    rw [hinv.sent, hinv.received, messages_length, messages_length, hsim.progs]
    exact ⟨rfl, rfl⟩
  have hfewer : ∀ r, ((s.progs p).next r).left < (s.progs p).left →
      callsLeft (testers.next s.progs p r) < callsLeft s.progs := by
    intro r hlt
    have hupdate := callsLeft_update s.progs p ((s.progs p).next r)
    show callsLeft (Function.update s.progs p _) < _
    omega
  unfold CanCall at hcan
  cases hp : s.progs p with
  | sending it i =>
    simp only [hp] at hcan
    have hask : testers.ask s.progs p = .enqueue (intBytes i) := congrArg Place.ask hp
    obtain ⟨s', hleads, hprogs⟩ := enqueues (g := testStart) (by decide) hsim
      (tester_room ha) hidle hask (by
        rw [(hlen p).1, (hlen !p).2, hp]
        exact hcan)
    refine ⟨s', hleads, ?_⟩
    rw [hprogs]
    refine hfewer _ ?_
    rw [hp]
    exact afterSend_left it i
  | receiving it i j =>
    simp only [hp] at hcan
    have hask : testers.ask s.progs p = .dequeue j := congrArg Place.ask hp
    obtain ⟨value, s', hleads, hprogs⟩ := dequeues (g := testStart) (by decide) hsim
      hidle hask (by
        rw [(hlen p).2, (hlen !p).1, hp]
        exact hcan)
    refine ⟨s', hleads, ?_⟩
    rw [hprogs]
    refine hfewer _ ?_
    have hit := hrunning p
    rw [hp] at hit ⊢
    exact (afterReceive_left it i j value).2 hit.1
  | failed =>
    rw [hp] at hcan
    exact hcan.elim
  | passed =>
    rw [hp] at hcan
    exact hcan.elim

/-- No call adds to those that are left. -/
theorem callsLeft_leads {s' : Duplex 4 (Bool → Place)}
    (hs : testSystem.Reachable (fun _ _ => True) s) (hleads : testSystem.Leads s s') :
    callsLeft s'.progs ≤ callsLeft s.progs := by
  obtain ⟨a, ha, hsim⟩ := duplex_simulates (by decide) (fun _ _ => tester_room) hs
  obtain ⟨a', hcalls, ha', hsim'⟩ :=
    leads_sim (by decide) (fun _ _ => tester_room) ha hsim hleads
  rw [hsim.progs, hsim'.progs]
  clear hsim hsim' hleads hs ha ha'
  induction hcalls with
  | refl => exact Nat.le_refl _
  | tail _ hstep ih =>
    obtain ⟨p, hstep⟩ := hstep
    refine Nat.le_trans ?_ ih
    cases hstep with
    | sent _ => exact callsLeft_next _ _ _
    | refused _ _ => exact callsLeft_next _ _ _
    | received _ _ => exact callsLeft_next _ _ _
    | missed _ _ => exact callsLeft_next _ _ _
    | computed _ => exact callsLeft_next _ _ _

/-- A test that has not passed has calls left. -/
theorem callsLeft_pos (hs : testSystem.Reachable (fun _ _ => True) s)
    (hgoal : ¬∀ p, s.progs p = .passed) : 0 < callsLeft s.progs := by
  obtain ⟨p, hp⟩ := not_forall.mp hgoal
  obtain ⟨a, ha, hsim⟩ := duplex_simulates (by decide) (fun _ _ => tester_room) hs
  have hpos := left_pos (by rw [hsim.progs]; exact (wires_inv ha).running p) hp
  unfold callsLeft
  cases p with
  | false => omega
  | true => omega

/-- **The test can always pass.** Whatever the processes did so far, and wherever they are
in their calls, there is a way for both to get to the end. -/
theorem test_passes (hs : testSystem.Reachable (fun _ _ => True) s) :
    ∃ s', testSystem.Leads s s' ∧ ∀ p, s'.progs p = .passed := by
  refine Transition.leads_to_goal
    (I := fun n s => testSystem.Reachable (fun _ _ => True) s ∧
    callsLeft s.progs = n) ?_ _ s ⟨hs, rfl⟩
  intro n s hn
  obtain ⟨hs, rfl⟩ := hn
  by_cases hgoal : ∀ p, s.progs p = .passed
  · exact Or.inl hgoal
  · right
    obtain ⟨s₁, hleads, hidle⟩ := settles (by decide) (fun _ _ => tester_room) hs
    have hle := callsLeft_leads hs hleads
    have hs₁ := hleads.reachable hs
    by_cases hgoal₁ : ∀ p, s₁.progs p = .passed
    · -- the calls in progress were the last
      refine ⟨_, s₁, ?_, hleads, hs₁, rfl⟩
      have hzero : callsLeft s₁.progs = 0 := by
        unfold callsLeft
        rw [hgoal₁, hgoal₁]
        rfl
      rw [hzero]
      exact callsLeft_pos hs hgoal
    · obtain ⟨p, hp⟩ := not_forall.mp hgoal₁
      obtain ⟨s', hleads', hlt⟩ := call_succeeds hs₁ hidle hp
      exact ⟨_, s', Nat.lt_of_lt_of_le hlt hle, hleads.trans hleads',
        hleads'.reachable hs₁, rfl⟩

/-- From the start. -/
theorem test_passes_start : ∃ s', testSystem.Leads testInit s' ∧
    ∀ p, s'.progs p = .passed :=
  test_passes testInit_reachable

end Progress

end CharmExperiments.Lfq
