import CharmExperiments.Ipc.Xpmem
import CharmExperiments.Lfq.Duplex
import CharmExperiments.Lib.Bytes

/-!
# A number passed to and fro

`archive/xpmem-experiments/tester.cc`: two processes pass on a number. A message over
the queue in shared memory says only where the number is: in the one `int` that each
process has for it. The receiver reads the `int` of the sender through XPMEM, writes the
number after it into its own, and sends where that is. Nobody waits for an
acknowledgement, and nobody looks at what `enqueue` returns.

It works as there is one message at a time. In every interleaving no `int` is written
between the enqueue of its message and its reading, no enqueue is refused, the numbers
arrive as 0, 1, 2 and on, each at one process in turn, and when both schedulers have
ended all 32 have arrived and no message is left (`relay_sound`). And both can always
still end (`relay_ends`).

Mirroring notes:
- `false` is processing element 0, with `main`; `true` is its neighbour. A scheduler
  that is not started yet is one that has not taken its first step.
- `Setup` is what the code relies on: XPMEM gives either process access to the memory of
  both, and attaches what it is asked for. `recv_msg` asks for the window that
  `translate_address` asks for (`Ipc.attachBase`, `Ipc.attachBound`).
- `xpmem_detach` and `xpmem_release` undo what `recv_msg` attached, so that what a process
  has mapped before it is always the same.
- `seen` is what `recv_msg` prints.
-/

namespace CharmExperiments.XpmemExperiments

open CharmExperiments.Lib CharmExperiments.Lfq CharmExperiments.Ipc

/-- `kNumMsgs`. -/
def kNumMsgs : Nat := 32

/-- `sm_`. -/
structure Sm where
  segid : BitVec 64
  ptr : BitVec 64
  size : BitVec 64
deriving DecidableEq

/-- The members of the message in its bytes, low byte first. -/
def Sm.toBytes (m : Sm) : Lfq.Bytes 24 := fun k =>
  let member := if k.val < 8 then m.segid else if k.val < 16 then m.ptr else m.size
  UInt8.ofNat (member.toNat / 256 ^ (k.val % 8))

/-- The member of eight bytes at `offset`. -/
def word (b : Lfq.Bytes 24) (offset : Nat) : BitVec 64 :=
  BitVec.ofNat 64
    (leNat (fun i => if h : offset + i < 24 then (b ⟨offset + i, h⟩).toBitVec else 0) 8)

def Sm.ofBytes (b : Lfq.Bytes 24) : Sm := ⟨word b 0, word b 8, word b 16⟩

/-- Where a process is in `pseudo_scheduler`. -/
inductive Place
  /-- `while (!queue->dequeue(&msg));` -/
  | dequeuing (msg : Lfq.Bytes 24)
  /-- `recv_msg`, before `recvd` is read. -/
  | reading (msg : Sm)
  /-- `*(this->data) = recvd + 1`. -/
  | writing (recvd : Int)
  /-- `queue->enqueue(msg)`, and whether the loop goes on after it. -/
  | sending (status : Bool)
  | ended
  /-- A `CkEnforceMsg` of `recv_msg` failed, or there is no `int` where it reads. -/
  | aborted

/-- What does not change: the XPMEM library as a process finds it, what the process has
mapped, and whose memory an instance gives access to; the segments, where `data` points to,
and what is in `msg` before it is dequeued. -/
structure Setup where
  xpmem : Bool → Xpmem
  memory : Bool → Mapping
  owner : Bool → Int → Option Bool
  segid : Bool → BitVec 64
  data : Bool → Word
  junk : Lfq.Bytes 24
  maps : ∀ p, (xpmem p).Maps
  /-- Either process gets the memory of both, -/
  grants : ∀ p q, (xpmem p).get (segid q).toInt ≠ -1 ∧
    owner p ((xpmem p).get (segid q).toInt) = some q
  /-- and can attach the window of either `int`, -/
  attaches : ∀ p q, ((xpmem p).attach (memory p)
    ⟨(xpmem p).get (segid q).toInt, attachBase (data q)⟩
    (attachBound (data q) 4 - attachBase (data q))).1 ≠ -1
  /-- which is not at the end of memory. -/
  below : ∀ p, (data p).toNat + 4 + 2 ^ 23 ≤ 2 ^ 64

/-- The message of `send_msg(this->data, sizeof(int))`. -/
def Setup.message (M : Setup) (p : Bool) : Sm := ⟨M.segid p, M.data p, 4⟩

/-- The processes, with `*(this->data)`. -/
structure Relay where
  place : Bool → Place
  cell : Bool → Int
  seen : Bool → List Int

namespace Relay

variable (M : Setup)

/-- `*((int *)buf)`: whose `int` it is that the four bytes are the image of. -/
def readInt (g : Relay) (p : Bool) (memory : Mapping) (buf : Word) : Option Int :=
  (memory buf).bind fun (apid, _) =>
    (M.owner p apid).bind fun q =>
      if (List.range 4).all fun j =>
          memory (buf + BitVec.ofNat 64 j) =
            some (apid, M.data q + BitVec.ofNat 64 j) then
        some (g.cell q)
      else none

/-- `recv_msg` in process `p`, up to `recvd`. -/
def recvd (g : Relay) (p : Bool) (msg : Sm) : Option Int :=
  let apid := (M.xpmem p).get msg.segid.toInt
  if apid = -1 then none
  else
    let base := attachBase msg.ptr
    let bound := attachBound msg.ptr msg.size
    let (ctx, memory) := (M.xpmem p).attach (M.memory p) ⟨apid, base⟩ (bound - base)
    if ctx = -1 then none
    else g.readInt M p memory (ctx + (msg.ptr - base))

def goto (g : Relay) (p : Bool) (place : Place) : Relay :=
  { g with place := Function.update g.place p place }

/-- The loop of `pseudo_scheduler` goes on, or not. -/
def loop (g : Relay) (p : Bool) (status : Bool) : Relay :=
  g.goto p (if status then .dequeuing M.junk else .ended)

/-- What process `p` does next. -/
def ask (g : Relay) (p : Bool) : Ask 24 :=
  match g.place p with
  | .dequeuing msg => .dequeue msg
  | .reading _ => .compute
  | .writing _ => .compute
  | .sending _ => .enqueue (M.message p).toBytes
  | .ended => .ended
  | .aborted => .ended

/-- What comes of it. -/
def next (g : Relay) (p : Bool) (r : Reply 24) : Relay :=
  match g.place p, r with
  | .dequeuing _, .dequeued true msg => g.goto p (.reading (.ofBytes msg))
  | .reading msg, .computed =>
    match g.recvd M p msg with
    | none => g.goto p .aborted
    | some recvd =>
      let g := { g with seen := Function.update g.seen p (g.seen p ++ [recvd]) }
      if recvd < kNumMsgs - 1 then g.goto p (.writing recvd)
      else g.loop M p (recvd < kNumMsgs - 2)
  | .writing recvd, .computed =>
    { g with cell := Function.update g.cell p (recvd + 1) }.goto p
      (.sending (recvd < kNumMsgs - 2))
  | .sending status, .enqueued _ => g.loop M p status
  | _, _ => g

theorem goto_not (g : Relay) (p : Bool) (place : Place) : (g.goto p place).place (!p) =
    g.place (!p) :=
  Function.update_of_ne (not_ne_self p) ..

theorem next_not (g : Relay) (p : Bool) (r : Reply 24) :
    (g.next M p r).place (!p) = g.place (!p) := by
  unfold next
  split
  · exact goto_not ..
  · split
    · exact goto_not ..
    · dsimp only
      split
      · exact goto_not ..
      · exact goto_not ..
  · exact goto_not ..
  · exact goto_not ..
  · rfl

end Relay

/-- `pseudo_scheduler` of both processes. -/
def relays (M : Setup) : Programs 24 Relay where
  ask := Relay.ask M
  next := Relay.next M
  apart g p r := by
    unfold Relay.ask
    rw [Relay.next_not]

/-- `main` has written 0 and is in `send_msg`, after which its scheduler will run. -/
def relayStart (M : Setup) (cell : Int) : Relay where
  place p := if p then .dequeuing M.junk else .sending true
  cell p := if p then cell else 0
  seen _ := []

/-- The processes on their queues; `cell` is what is in the `int` of the neighbour. -/
def relaySystem (M : Setup) (cell : Int) : Transition (Duplex 24 Relay) Bool :=
  Duplex.system kNumMsgs (relays M) (relayStart M cell)

/-! ## Messages -/

theorem leNat_bytes (v : Nat) (f : Nat → BitVec 8)
    (hf : ∀ i < 8, f i = BitVec.ofNat 8 (v / 256 ^ i)) (hv : v < 256 ^ 8) :
    leNat f 8 = v := by
  rw [leNat_congr hf, leNat_digits, Nat.mod_eq_of_lt hv]

theorem word_toBytes (m : Sm) (offset : Nat) (member : BitVec 64) (ho : offset + 8 ≤ 24)
    (hmember : ∀ i < 8, (if offset + i < 8 then m.segid else if offset + i < 16 then m.ptr
      else m.size)
      = member) (hmod : offset % 8 = 0) : word m.toBytes offset = member := by
  have hbyte : ∀ i < 8, (if h : offset + i < 24 then (m.toBytes ⟨offset + i, h⟩).toBitVec
    else 0) =
      BitVec.ofNat 8 (member.toNat / 256 ^ i) := by
    intro i hi
    rw [dif_pos (by omega)]
    show (UInt8.ofNat ((if offset + i < 8 then m.segid else if offset + i < 16 then m.ptr
      else m.size).toNat / 256 ^ ((offset + i) % 8))).toBitVec = _
    rw [hmember i hi, show (offset + i) % 8 = i by omega]
    rfl
  unfold word
  rw [leNat_bytes member.toNat _ hbyte (Nat.lt_of_lt_of_eq member.isLt (by decide))]
  exact BitVec.ofNat_toNat .. |>.trans (BitVec.setWidth_eq member)

/-- **A message is read as it was written.** -/
theorem ofBytes_toBytes (m : Sm) : Sm.ofBytes m.toBytes = m := by
  unfold Sm.ofBytes
  rw [word_toBytes m 0 m.segid (by omega) (fun i hi => if_pos (by omega)) rfl,
    word_toBytes m 8 m.ptr (by omega)
      (fun i hi => by rw [if_neg (by omega), if_pos (by omega)]) rfl,
    word_toBytes m 16 m.size (by omega)
      (fun i hi => by rw [if_neg (by omega), if_neg (by omega)]) rfl]

/-- Four bytes that are the image of an `int` are read as it. -/
theorem readInt_image {M : Setup} {memory : Mapping} {p q : Bool}
    {buf : Word} {apid : Int}
    (howner : M.owner p apid = some q)
    (h : ∀ j < 4, memory (buf + BitVec.ofNat 64 j) =
      some (apid, M.data q + BitVec.ofNat 64 j))
    (g : Relay) : g.readInt M p memory buf = some (g.cell q) := by
  have hfirst : memory buf = some (apid, M.data q) := by
    have hzero := h 0 (Nat.succ_pos 3)
    rwa [BitVec.add_zero, BitVec.add_zero] at hzero
  unfold Relay.readInt
  rw [hfirst]
  show (M.owner p apid).bind _ = _
  rw [howner]
  exact if_pos (List.all_eq_true.mpr fun j hj =>
    decide_eq_true (h j (List.mem_range.mp hj)))

/-- The message of a process leads to its `int`. -/
theorem recvd_message (M : Setup) (g : Relay) (p q : Bool) :
    g.recvd M p (M.message q) = some (g.cell q) := by
  obtain ⟨hapid, howner⟩ := M.grants p q
  have hctx := M.attaches p q
  unfold Relay.recvd
  dsimp only [Setup.message]
  rw [if_neg hapid, if_neg hctx]
  exact readInt_image howner
    (fun j hj => attach_window (M.maps p) (Nat.le_of_ble_eq_true rfl)
    (M.below q) hctx hj) g

/-! ## One message at a time -/

/-- Who sends number `k`. -/
def speaker (k : Nat) : Bool := k % 2 == 1

/-- How many of the numbers below `k` process `p` sends. -/
def spoken (p : Bool) (k : Nat) : Nat := if p then k / 2 else (k + 1) / 2

/-- Those of the numbers below `k` that process `p` receives. -/
def heard (p : Bool) : Nat → List Int
  | 0 => []
  | k + 1 => if speaker k = !p then heard p k ++ [(k : Int)] else heard p k

/-- Where number `k` is. -/
inductive Phase
  /-- `enqueue` has not returned. -/
  | sending
  | flying
  /-- The message was dequeued. -/
  | reading
  /-- The number was read, and the next one is to be written. -/
  | writing
  /-- It was the last one. -/
  | finished

/-- The number was sent, received, read. -/
def Phase.sent : Phase → Nat
  | .sending => 0
  | _ => 1

def Phase.received : Phase → Nat
  | .sending => 0
  | .flying => 0
  | _ => 1

def Phase.read : Phase → Nat
  | .writing => 1
  | .finished => 1
  | _ => 0

/-- Where its sender is. -/
def Phase.speaking (M : Setup) (k : Nat) : Phase → Place
  | .sending => .sending (k < kNumMsgs - 1)
  | _ => if k < kNumMsgs - 1 then .dequeuing M.junk else .ended

/-- Where its receiver is. -/
def Phase.listening (M : Setup) (k : Nat) : Phase → Place
  | .sending => .dequeuing M.junk
  | .flying => .dequeuing M.junk
  | .reading => .reading (M.message (speaker k))
  | .writing => .writing k
  | .finished => .ended

/-- Number `k` is on its way, and nothing else is. -/
structure OnWay (M : Setup) (k : Nat) (ph : Phase) (a : Wires 24 Relay) : Prop where
  bound : k < kNumMsgs
  last : match ph with
    | .writing => k < kNumMsgs - 1
    | .finished => k = kNumMsgs - 1
    | _ => True
  sent : ∀ p, a.sent p = List.replicate (spoken p (k + ph.sent)) (M.message p).toBytes
  received : ∀ p, a.received p =
    List.replicate (spoken (!p) (k + ph.received)) (M.message (!p)).toBytes
  seen : ∀ p, a.progs.seen p = heard p (k + ph.read)
  cell : a.progs.cell (speaker k) = k
  speaking : a.progs.place (speaker k) = ph.speaking M k
  listening : a.progs.place (!speaker k) = ph.listening M k

theorem speaker_succ (k : Nat) : speaker (k + 1) = !speaker k := by
  unfold speaker
  rcases Nat.mod_two_eq_zero_or_one k with h | h
  · rw [h, show (k + 1) % 2 = 1 by omega]
    rfl
  · rw [h, show (k + 1) % 2 = 0 by omega]
    rfl

theorem spoken_speaker (k : Nat) :
    spoken (speaker k) (k + 1) = spoken (speaker k) k + 1 := by
  unfold spoken speaker
  rcases Nat.mod_two_eq_zero_or_one k with h | h
  · rw [h, if_neg (by decide), if_neg (by decide)]
    omega
  · rw [h, if_pos (by decide), if_pos (by decide)]
    omega

theorem spoken_listener (k : Nat) : spoken (!speaker k) (k + 1) =
    spoken (!speaker k) k := by
  unfold spoken speaker
  rcases Nat.mod_two_eq_zero_or_one k with h | h
  · rw [h, if_pos (by decide), if_pos (by decide)]
    omega
  · rw [h, if_neg (by decide), if_neg (by decide)]
    omega

theorem spoken_le (p : Bool) (k : Nat) : 2 * spoken p k ≤ k + 1 := by
  unfold spoken
  split <;> omega

theorem heard_speaker (k : Nat) : heard (speaker k) (k + 1) = heard (speaker k) k :=
  if_neg (not_ne_self (speaker k)).symm

theorem heard_listener (k : Nat) :
    heard (!speaker k) (k + 1) = heard (!speaker k) k ++ [(k : Int)] :=
  if_pos (Bool.not_not (speaker k)).symm

section Steps

variable {M : Setup} {k : Nat} {a a' : Wires 24 Relay}

theorem speaker_or_not (k : Nat) (p : Bool) : p = speaker k ∨ p = !speaker k := by
  by_cases hp : p = speaker k
  · exact Or.inl hp
  · exact Or.inr (eq_not_of_ne hp)

/-- Both processes, told by the number on its way. -/
theorem both_of {C : Bool → Prop} (k : Nat) (hs : C (speaker k))
    (hl : C (!speaker k)) (p : Bool) :
    C p := by
  rcases speaker_or_not k p with rfl | rfl
  · exact hs
  · exact hl

theorem goto_speaker (g : Relay) (k : Nat) (place : Place) :
    (g.goto (!speaker k) place).place (speaker k) = g.place (speaker k) :=
  Function.update_of_ne (not_ne_self _).symm ..

theorem start_onWay (cell : Int) :
    OnWay M 0 .sending ⟨fun _ => [], fun _ => [], relayStart M cell⟩ :=
  ⟨by decide, trivial, fun p => by cases p <;> rfl, fun p => by cases p <;> rfl,
    fun _ => rfl, rfl, rfl, rfl⟩

/-- A process whose queue is empty stays where it is. -/
theorem rests {p : Bool} {msg : Lfq.Bytes 24}
    (hplace : a.progs.place p = .dequeuing msg ∨ a.progs.place p = .ended)
    (hempty : (a.sent (!p)).length ≤ (a.received p).length)
    (hs : Wires.Step kNumMsgs (relays M) p a a') : a' = a := by
  have hask : Relay.ask M a.progs p = .dequeue msg ∨ Relay.ask M a.progs p = .ended := by
    unfold Relay.ask
    rcases hplace with hplace | hplace
    · left
      rw [hplace]
    · right
      rw [hplace]
  cases hs with
  | sent h => rcases hask with hask | hask <;> cases h.symm.trans hask
  | refused h _ => rcases hask with hask | hask <;> cases h.symm.trans hask
  | received h hvalue =>
    -- there is nothing to receive
    have hlen := hvalue.length_le
    rw [List.length_append] at hlen
    exact absurd hlen (by simp only [List.length_singleton]; omega)
  | missed value h =>
    have hsame : (relays M).next a.progs p (.dequeued false value) = a.progs := by
      show Relay.next M a.progs p _ = _
      unfold Relay.next
      rcases hplace with hplace | hplace <;> rw [hplace]
    rw [hsame]
  | computed h => rcases hask with hask | hask <;> cases h.symm.trans hask

/-- The sender of the number has nothing to receive. -/
theorem OnWay.speaker_rests {ph : Phase} (h : OnWay M k ph a)
    (hplace : ph.speaking M k = .dequeuing M.junk ∨ ph.speaking M k = .ended)
    (hs : Wires.Step kNumMsgs (relays M) (speaker k) a a') : a' = a := by
  have hextra : ∀ n ≤ 1, spoken (!speaker k) (k + n) = spoken (!speaker k) k := by
    intro n hn
    rcases Nat.le_one_iff_eq_zero_or_eq_one.mp hn with rfl | rfl
    · rfl
    · exact spoken_listener k
  refine rests (by rw [h.speaking]; exact hplace) ?_ hs
  rw [h.sent, h.received, List.length_replicate, List.length_replicate,
    hextra _ (by cases ph <;> decide), hextra _ (by cases ph <;> decide)]

theorem resting (k : Nat) :
    (if k < kNumMsgs - 1 then Place.dequeuing M.junk else .ended) =
    .dequeuing M.junk ∨ (if k < kNumMsgs - 1 then Place.dequeuing M.junk
      else .ended) = .ended := by
  split
  · exact Or.inl rfl
  · exact Or.inr rfl

/-- The number is sent, or is still to be. -/
theorem sending_step (h : OnWay M k .sending a) {p : Bool}
    (hs : Wires.Step kNumMsgs (relays M) p a a') : a' = a ∨ OnWay M k .flying a' := by
  rcases speaker_or_not k p with rfl | rfl
  · have hask : Relay.ask M a.progs (speaker k) =
        .enqueue (M.message (speaker k)).toBytes := by
      unfold Relay.ask
      rw [h.speaking]
      rfl
    cases hs with
    | @sent value hvalue =>
      obtain rfl := Ask.enqueue.inj (hvalue.symm.trans hask)
      have hnext : (relays M).next a.progs (speaker k) (.enqueued true) =
          a.progs.loop M (speaker k) (k < kNumMsgs - 1) := by
        show Relay.next M a.progs _ _ = _
        unfold Relay.next
        rw [h.speaking]
        rfl
      rw [hnext]
      right
      refine ⟨h.bound, trivial, both_of k ?_ ?_, h.received, h.seen, h.cell, ?_, ?_⟩
      · show Function.update a.sent _ _ _ = _
        rw [Function.update_self, h.sent]
        show _ = List.replicate (spoken (speaker k) (k + 1)) _
        rw [spoken_speaker, List.replicate_succ']
        rfl
      · show Function.update a.sent _ _ _ = List.replicate (spoken (!speaker k) (k + 1)) _
        rw [Function.update_of_ne (not_ne_self _), h.sent, spoken_listener]
        rfl
      · show Function.update a.progs.place _ _ _ = _
        rw [Function.update_self]
        show (if decide (k < kNumMsgs - 1) = true then _ else _) =
          if k < kNumMsgs - 1 then _ else _
        simp only [decide_eq_true_eq]
      · rw [show (a.progs.loop M (speaker k) _).place (!speaker k) =
          _ from Relay.goto_not ..]
        exact h.listening
    | refused hvalue hfull =>
      -- fewer than `kNumMsgs` messages were ever sent
      rw [h.sent, List.length_replicate] at hfull
      have hle := spoken_le (speaker k) (k + Phase.sending.sent)
      have hbound := h.bound
      rw [show k + Phase.sending.sent = k from rfl] at hle hfull
      unfold kNumMsgs at hfull hbound
      omega
    | received hvalue _ => cases hvalue.symm.trans hask
    | missed _ hvalue => cases hvalue.symm.trans hask
    | computed hvalue => cases hvalue.symm.trans hask
  · left
    refine rests (Or.inl h.listening) ?_ hs
    rw [h.sent, h.received, Bool.not_not, List.length_replicate, List.length_replicate]
    exact Nat.le_refl _

/-- The message is received, or is still to be. -/
theorem flying_step (h : OnWay M k .flying a) {p : Bool}
    (hs : Wires.Step kNumMsgs (relays M) p a a') : a' = a ∨ OnWay M k .reading a' := by
  rcases speaker_or_not k p with rfl | rfl
  · exact Or.inl (h.speaker_rests (resting k) hs)
  · have hask : Relay.ask M a.progs (!speaker k) = .dequeue M.junk := by
      unfold Relay.ask
      rw [h.listening]
      rfl
    cases hs with
    | @received result value _ hvalue =>
      have hmessage : value = (M.message (speaker k)).toBytes := by
        rw [Bool.not_not] at hvalue
        have hmem := hvalue.subset (List.mem_append_right _ List.mem_cons_self)
        rw [h.sent] at hmem
        exact List.eq_of_mem_replicate hmem
      have hnext : (relays M).next a.progs (!speaker k) (.dequeued true value) =
          a.progs.goto (!speaker k) (.reading (M.message (speaker k))) := by
        show Relay.next M a.progs _ _ = _
        unfold Relay.next
        rw [h.listening, hmessage]
        show a.progs.goto _ (.reading (Sm.ofBytes _)) = _
        rw [ofBytes_toBytes]
      rw [hnext]
      right
      refine ⟨h.bound, trivial, h.sent, both_of k ?_ ?_, h.seen, h.cell, ?_, ?_⟩
      · show Function.update a.received _ _ _ =
          List.replicate (spoken (!speaker k) (k + 1)) _
        rw [Function.update_of_ne (not_ne_self _).symm, h.received, spoken_listener]
        rfl
      · show Function.update a.received _ _ _ =
          List.replicate (spoken (!!speaker k) (k + 1)) _
        rw [Function.update_self, h.received, hmessage, Bool.not_not, spoken_speaker,
          List.replicate_succ']
        rfl
      · exact (goto_speaker _ _ _).trans h.speaking
      · exact Function.update_self ..
    | missed value _ =>
      have hsame : (relays M).next a.progs (!speaker k)
          (.dequeued false value) = a.progs := by
        show Relay.next M a.progs _ _ = _
        unfold Relay.next
        rw [h.listening]
        rfl
      left
      rw [hsame]
    | sent hvalue => cases hvalue.symm.trans hask
    | refused hvalue _ => cases hvalue.symm.trans hask
    | computed hvalue => cases hvalue.symm.trans hask

/-- The number is read, or is still to be. -/
theorem reading_step (h : OnWay M k .reading a) {p : Bool}
    (hs : Wires.Step kNumMsgs (relays M) p a a') :
    a' = a ∨ OnWay M k .writing a' ∨ OnWay M k .finished a' := by
  rcases speaker_or_not k p with rfl | rfl
  · exact Or.inl (h.speaker_rests (resting k) hs)
  · have hask : Relay.ask M a.progs (!speaker k) = .compute := by
      unfold Relay.ask
      rw [h.listening]
      rfl
    cases hs with
    | computed =>
      right
      let g : Relay := ⟨a.progs.place, a.progs.cell,
        Function.update a.progs.seen (!speaker k) (a.progs.seen (!speaker k) ++ [(k : Int)])⟩
      have hnext : (relays M).next a.progs (!speaker k) .computed =
          if (k : Int) < kNumMsgs - 1 then g.goto (!speaker k) (.writing k)
          else g.loop M (!speaker k) ((k : Int) < kNumMsgs - 2) := by
        show Relay.next M a.progs _ _ = _
        unfold Relay.next
        rw [h.listening]
        show (match a.progs.recvd M (!speaker k) (M.message (speaker k)) with
          | none => _ | some recvd => _) = _
        rw [recvd_message, h.cell]
      have hseen : ∀ p, g.seen p = heard p (k + 1) := by
        refine both_of k ?_ ?_
        · rw [heard_speaker, show g.seen (speaker k) = a.progs.seen (speaker k) from
            Function.update_of_ne (not_ne_self _).symm .., h.seen]
          rfl
        · rw [heard_listener, show g.seen (!speaker k) =
            a.progs.seen (!speaker k) ++ [(k : Int)] from
            Function.update_self .., h.seen]
          rfl
      have hspeaking : ∀ place, (g.goto (!speaker k) place).place (speaker k) =
          if k < kNumMsgs - 1 then .dequeuing M.junk else .ended :=
        fun place => (goto_speaker _ _ _).trans h.speaking
      have hbound := h.bound
      unfold kNumMsgs at hbound
      by_cases hlast : k < kNumMsgs - 1
      · left
        have hlast' : (k : Int) < kNumMsgs - 1 := by
          unfold kNumMsgs at hlast ⊢
          omega
        rw [hnext, if_pos hlast']
        exact ⟨h.bound, hlast, h.sent, h.received, hseen, h.cell, hspeaking _,
          Function.update_self ..⟩
      · right
        have hk : k = kNumMsgs - 1 := by
          unfold kNumMsgs at hlast ⊢
          omega
        rw [hnext, if_neg (by unfold kNumMsgs at hk ⊢; omega)]
        refine ⟨h.bound, hk, h.sent, h.received, hseen, h.cell, hspeaking _, ?_⟩
        show Function.update g.place _ _ _ = _
        rw [Function.update_self, hk]
        rfl
    | sent hvalue => cases hvalue.symm.trans hask
    | refused hvalue _ => cases hvalue.symm.trans hask
    | received hvalue _ => cases hvalue.symm.trans hask
    | missed _ hvalue => cases hvalue.symm.trans hask

/-- The next number is written, or is still to be. -/
theorem writing_step (h : OnWay M k .writing a) {p : Bool}
    (hs : Wires.Step kNumMsgs (relays M) p a a') :
    a' = a ∨ OnWay M (k + 1) .sending a' := by
  have hlast : k < kNumMsgs - 1 := h.last
  rcases speaker_or_not k p with rfl | rfl
  · exact Or.inl (h.speaker_rests (resting k) hs)
  · have hask : Relay.ask M a.progs (!speaker k) = .compute := by
      unfold Relay.ask
      rw [h.listening]
      rfl
    cases hs with
    | computed =>
      right
      have hnext : (relays M).next a.progs (!speaker k) .computed =
          ({ a.progs with cell := Function.update a.progs.cell (!speaker k) (k + 1) } : Relay).goto
            (!speaker k) (.sending ((k : Int) < kNumMsgs - 2)) := by
        show Relay.next M a.progs _ _ = _
        unfold Relay.next
        rw [h.listening]
        rfl
      rw [hnext]
      refine ⟨?_, trivial, h.sent, h.received, h.seen, ?_, ?_, ?_⟩
      · unfold kNumMsgs at hlast ⊢
        omega
      · rw [speaker_succ]
        exact Function.update_self ..
      · rw [speaker_succ]
        show Function.update a.progs.place _ _ _ = _
        rw [Function.update_self]
        refine congrArg Place.sending (decide_eq_decide.mpr ?_)
        unfold kNumMsgs
        omega
      · rw [speaker_succ, Bool.not_not]
        refine (goto_speaker _ _ _).trans (h.speaking.trans ?_)
        exact if_pos hlast
    | sent hvalue => cases hvalue.symm.trans hask
    | refused hvalue _ => cases hvalue.symm.trans hask
    | received hvalue _ => cases hvalue.symm.trans hask
    | missed _ hvalue => cases hvalue.symm.trans hask

/-- After the last number nothing happens. -/
theorem finished_step (h : OnWay M k .finished a) {p : Bool}
    (hs : Wires.Step kNumMsgs (relays M) p a a') : a' = a := by
  have hlast : k = kNumMsgs - 1 := h.last
  have hended : ∀ p, a.progs.place p = .ended := by
    refine both_of k ?_ ?_
    · rw [h.speaking]
      exact if_neg (by rw [hlast]; exact Nat.lt_irrefl _)
    · rw [h.listening]
      rfl
  have hask : Relay.ask M a.progs p = .ended := by
    unfold Relay.ask
    rw [hended]
  cases hs with
  | sent hvalue => cases hvalue.symm.trans hask
  | refused hvalue _ => cases hvalue.symm.trans hask
  | received hvalue _ => cases hvalue.symm.trans hask
  | missed _ hvalue => cases hvalue.symm.trans hask
  | computed hvalue => cases hvalue.symm.trans hask

/-- How far the numbers have come. -/
def Phase.index (k : Nat) : Phase → Nat
  | .sending => 4 * k
  | .flying => 4 * k + 1
  | .reading => 4 * k + 2
  | .writing => 4 * k + 3
  | .finished => 4 * k + 3

/-- There is always one number on its way, and it only gets further. -/
theorem onWay_step {ph : Phase} (h : OnWay M k ph a) {p : Bool}
    (hs : Wires.Step kNumMsgs (relays M) p a a') :
    a' = a ∨ ∃ k' ph', OnWay M k' ph' a' ∧ ph.index k < ph'.index k' := by
  cases ph with
  | sending => exact (sending_step h hs).imp_right fun h' =>
    ⟨_, _, h', Nat.lt_succ_self _⟩
  | flying => exact (flying_step h hs).imp_right fun h' => ⟨_, _, h', Nat.lt_succ_self _⟩
  | reading =>
    refine (reading_step h hs).imp_right fun h' => ?_
    rcases h' with h' | h'
    · exact ⟨_, _, h', Nat.lt_succ_self _⟩
    · exact ⟨_, _, h', Nat.lt_succ_self _⟩
  | writing => exact (writing_step h hs).imp_right fun h' =>
    ⟨_, _, h', Nat.lt_succ_self _⟩
  | finished => exact Or.inl (finished_step h hs)

theorem onWay_leads {ph : Phase} (h : OnWay M k ph a)
    (hs : Relation.ReflTransGen
      (fun a a' => ∃ p, Wires.Step kNumMsgs (relays M) p a a') a a') :
    a' = a ∨ ∃ k' ph', OnWay M k' ph' a' ∧ ph.index k < ph'.index k' := by
  induction hs with
  | refl => exact Or.inl rfl
  | tail _ hstep ih =>
    obtain ⟨p, hstep⟩ := hstep
    rcases ih with rfl | ⟨k₁, ph₁, h₁, hlt⟩
    · exact onWay_step h hstep
    · rcases onWay_step h₁ hstep with rfl | ⟨k', ph', h', hlt'⟩
      · exact Or.inr ⟨k₁, ph₁, h₁, hlt⟩
      · exact Or.inr ⟨k', ph', h', Nat.lt_trans hlt hlt'⟩

theorem reachable_onWay {cell : Int}
    (h : Wires.Reachable kNumMsgs (relays M) (relayStart M cell) a) :
    ∃ k ph, OnWay M k ph a := by
  refine h.invariant (I := fun a => ∃ k ph, OnWay M k ph a) ⟨_, _, start_onWay cell⟩ ?_
  intro a a' p hi hs
  obtain ⟨k, ph, hi⟩ := hi
  rcases onWay_step hi hs with rfl | ⟨k', ph', h', _⟩
  · exact ⟨k, ph, hi⟩
  · exact ⟨k', ph', h'⟩

end Steps

/-! ## Every run -/

section Runs

variable {M : Setup} {cell : Int} {s : Duplex 24 Relay}

theorem OnWay.sent_lt {k : Nat} {ph : Phase} {a : Wires 24 Relay}
    (h : OnWay M k ph a) (p : Bool) : (a.sent p).length < kNumMsgs := by
  have hbound := h.bound
  have hle := spoken_le p (k + ph.sent)
  have hph : ph.sent ≤ 1 := by cases ph <;> decide
  rw [h.sent, List.length_replicate]
  unfold kNumMsgs at hbound ⊢
  omega

theorem relay_room {a : Wires 24 Relay} {p : Bool}
    (h : Wires.Reachable kNumMsgs (relays M) (relayStart M cell) a) :
    (a.sent p).length + 1 < 2 ^ 64 := by
  obtain ⟨k, ph, hway⟩ := reachable_onWay h
  have hlt := hway.sent_lt p
  unfold kNumMsgs at hlt
  omega

/-- What the relay does. -/
structure Relays (s : Duplex 24 Relay) : Prop where
  /-- No assertion failed, and no enqueue is refused. -/
  asserts : ∀ p, s.progs.place p ≠ .aborted ∧ (s.queues p).producers 0 ≠ some .aborted ∧
    (s.queues p).consumer ≠ some .aborted ∧ (s.queues p).producers 0 ≠ some .undoCount
  /-- What the two have read is 0 and on, in turn. -/
  numbers : ∃ k ≤ kNumMsgs, ∀ p, s.progs.seen p = heard p k
  /-- When both have ended, these are all the numbers, and no message is left. -/
  complete : (∀ p, s.progs.place p = .ended) → ∀ p, s.progs.seen p = heard p kNumMsgs ∧
    (s.queues p).dequeued = (s.queues p).admitted

theorem OnWay.not_aborted {k : Nat} {ph : Phase} {a : Wires 24 Relay}
    (h : OnWay M k ph a) (p : Bool) :
    a.progs.place p ≠ .aborted := by
  rcases speaker_or_not k p with rfl | rfl
  · rw [h.speaking]
    intro habort
    cases ph with
    | sending => cases habort
    | _ => rcases resting (M := M) k with hrest | hrest <;> cases hrest.symm.trans habort
  · rw [h.listening]
    intro habort
    cases ph <;> cases habort

/-- Only after the last number both have ended. -/
theorem OnWay.finished_of_ended {k : Nat} {ph : Phase} {a : Wires 24 Relay}
    (h : OnWay M k ph a) (hended : ∀ p, a.progs.place p = .ended) : ph = .finished := by
  have hs := h.speaking.symm.trans (hended _)
  have hl := h.listening.symm.trans (hended _)
  cases ph with
  | sending => cases hs
  | finished => rfl
  | _ => cases hl

/-- **The numbers are passed on**, in every interleaving of the steps of the two. -/
theorem relay_sound (h : (relaySystem M cell).Reachable (fun _ _ => True) s) :
    Relays s := by
  obtain ⟨a, ha, hsim⟩ := duplex_simulates (by decide) (fun _ _ => relay_room) h
  obtain ⟨k, ph, hway⟩ := reachable_onWay ha
  refine ⟨fun p => ⟨?_, ?_, ?_, fun hundo => ?_⟩, ⟨k + ph.read, ?_, ?_⟩,
    fun hended p => ?_⟩
  · rw [hsim.progs]
    exact hway.not_aborted p
  · exact (hsim.carries p).inv.runs.1 0
  · exact (hsim.carries p).inv.runs.2
  · exact absurd ((hsim.carries p).full hundo) (Nat.not_le.mpr (hway.sent_lt _))
  · have hbound := hway.bound
    have hph : ph.read ≤ 1 := by cases ph <;> decide
    omega
  · rw [hsim.progs]
    exact hway.seen
  · rw [hsim.progs] at hended
    obtain rfl := hway.finished_of_ended hended
    have hk : k + 1 = kNumMsgs := by
      have hlast : k = kNumMsgs - 1 := hway.last
      rw [hlast]
      rfl
    -- no enqueue is in progress, and what was sent was received
    have hidle : (s.queues p).producers 0 = none := by
      have hask : (relays M).ask s.progs (!p) = .ended := by
        rw [hsim.progs]
        show Relay.ask M a.progs (!p) = _
        unfold Relay.ask
        rw [hended]
      have hcalling := ((calling_ended hask).mp (hsim.calling _)).1
      rw [Bool.not_not] at hcalling
      exact hcalling
    have hadm := (hsim.carries p).admitted
    rw [hidle, hway.sent, show k + Phase.finished.sent = kNumMsgs from hk] at hadm
    refine ⟨?_, ?_⟩
    · rw [hsim.progs, hway.seen, show k + Phase.finished.read = kNumMsgs from hk]
    · rw [(hsim.carries p).dequeued, hway.received, show k + Phase.finished.received =
        kNumMsgs from hk, hadm]
      exact (List.append_nil _).symm

/-- Two segments, with instances 5 and 6. -/
def twoSegments : Setup where
  xpmem _ := fixedXpmem
  memory _ _ := none
  owner _ apid := if apid = 5 then some false else if apid = 6 then some true else none
  segid p := if p then 2 else 1
  data p := if p then 4096 else 8192
  junk _ := 0
  maps _ := fixedXpmem_maps
  grants _ q := by cases q <;> decide
  attaches _ q := by cases q <;> decide
  below p := by cases p <;> decide

def relayInit : Duplex 24 Relay := ⟨fun _ => .new fun _ _ => 0, relayStart twoSegments 7⟩

theorem relayInit_reachable :
    (relaySystem twoSegments 7).Reachable (fun _ _ => True) relayInit :=
  .init ⟨rfl, fun _ => ⟨_, rfl⟩⟩

/-- The neighbour has read the first number. -/
theorem relay_sound_first : ∃ s, (relaySystem twoSegments 7).run relayInit
      (List.replicate 40 false ++ List.replicate 40 true) = some s ∧
    s.progs.seen true = [0] ∧ Relays s := by
  have hrun : ((relaySystem twoSegments 7).run relayInit
      (List.replicate 40 false ++ List.replicate 40 true)).map
        (fun s => s.progs.seen true) =
      some [0] := by
    decide +kernel
  obtain ⟨s, hrun, hseen⟩ := Option.map_eq_some_iff.mp hrun
  exact ⟨s, hrun, hseen, relay_sound (Transition.run_reachable _ (fun _ _ _ => trivial)
    relayInit_reachable hrun)⟩

/-- A call or a step of a process takes the number further when it moves the process. -/
theorem further {k : Nat} {ph : Phase} {a : Wires 24 Relay}
    (ha : Wires.Reachable kNumMsgs (relays M) (relayStart M cell) a)
    (hsim : Sim kNumMsgs (relays M) s a) (hway : OnWay M k ph a) {s' : Duplex 24 Relay}
    (hleads : (relaySystem M cell).Leads s s') (hmoved : s'.progs ≠ s.progs) :
    ∃ a' k' ph', Wires.Reachable kNumMsgs (relays M) (relayStart M cell) a' ∧
      Sim kNumMsgs (relays M) s' a' ∧ OnWay M k' ph' a' ∧ ph.index k < ph'.index k' := by
  obtain ⟨a', hcalls, ha', hsim'⟩ :=
    leads_sim (by decide) (fun _ _ => relay_room) ha hsim hleads
  rcases onWay_leads hway hcalls with rfl | ⟨k', ph', hway', hlt⟩
  · exact absurd (hsim'.progs.trans hsim.progs.symm) hmoved
  · exact ⟨a', k', ph', ha', hsim', hway', hlt⟩

/-- With no call in progress there is something that moves the number. -/
theorem moves (cell : Int) {k : Nat} {ph : Phase} {a : Wires 24 Relay}
    (hsim : Sim kNumMsgs (relays M) s a) (hway : OnWay M k ph a) (hidle : ∀ p, Idle s p)
    (hph : ph ≠ .finished) :
    ∃ s', (relaySystem M cell).Leads s s' ∧ s'.progs ≠ s.progs := by
  have hspeaking := hway.speaking
  have hlistening := hway.listening
  rw [← hsim.progs] at hspeaking hlistening
  have hask : ∀ p, (relays M).ask s.progs p = Relay.ask M s.progs p := fun _ => rfl
  have hnext : ∀ p r, (relays M).next s.progs p r = Relay.next M s.progs p r :=
    fun _ _ => rfl
  cases ph with
  | sending =>
    obtain ⟨s', hleads, hprogs⟩ :=
      enqueues (g := relayStart M cell) (p := speaker k) (by decide) hsim
      (Nat.lt_trans (Nat.succ_lt_succ (hway.sent_lt _)) (by decide)) hidle
      (by rw [hask]; unfold Relay.ask; rw [hspeaking]; rfl)
      (Nat.lt_of_lt_of_le (hway.sent_lt _) (Nat.le_add_left _ _))
    refine ⟨s', hleads, fun hsame => ?_⟩
    have hplace := congrArg (fun g => g.place (speaker k)) (hsame.symm.trans hprogs)
    simp only [hnext, Relay.next, hspeaking, Phase.speaking, Relay.loop, Relay.goto,
      Function.update_self] at hplace
    split at hplace <;> cases hplace
  | flying =>
    obtain ⟨value, s', hleads, hprogs⟩ :=
      dequeues (g := relayStart M cell) (p := !speaker k)
      (by decide) hsim hidle (by rw [hask]; unfold Relay.ask; rw [hlistening]; rfl) (by
        rw [hway.sent, hway.received, Bool.not_not, List.length_replicate,
          List.length_replicate]
        show spoken (speaker k) k < spoken (speaker k) (k + 1)
        rw [spoken_speaker]
        exact Nat.lt_succ_self _)
    refine ⟨s', hleads, fun hsame => ?_⟩
    have hplace := congrArg (fun g => g.place (!speaker k)) (hsame.symm.trans hprogs)
    simp only [hnext, Relay.next, hlistening, Phase.listening, Relay.goto,
      Function.update_self]
      at hplace
    cases hplace
  | reading =>
    refine ⟨_, .single (step_compute (p := !speaker k) (by
      rw [hask]
      unfold Relay.ask
      rw [hlistening]
      rfl)), fun hsame => ?_⟩
    have hplace := congrArg (fun g => g.place (!speaker k)) hsame
    rw [show (s.reply (relays M) (!speaker k) (some .computed)).progs =
      Relay.next M s.progs (!speaker k) .computed from rfl] at hplace
    simp only [Relay.next, hlistening, Phase.listening, recvd_message,
      Relay.loop, Relay.goto]
      at hplace
    split at hplace
    · dsimp only at hplace
      rw [Function.update_self] at hplace
      cases hplace
    · dsimp only at hplace
      rw [Function.update_self] at hplace
      split at hplace <;> cases hplace
  | writing =>
    refine ⟨_, .single (step_compute (p := !speaker k) (by
      rw [hask]
      unfold Relay.ask
      rw [hlistening]
      rfl)), fun hsame => ?_⟩
    have hplace := congrArg (fun g => g.place (!speaker k)) hsame
    rw [show (s.reply (relays M) (!speaker k) (some .computed)).progs =
      Relay.next M s.progs (!speaker k) .computed from rfl] at hplace
    simp only [Relay.next, hlistening, Phase.listening, Relay.goto,
      Function.update_self] at hplace
    cases hplace
  | finished => exact absurd rfl hph

/-- After the last number both have ended. -/
theorem OnWay.ended {k : Nat} {a : Wires 24 Relay}
    (h : OnWay M k .finished a) (p : Bool) :
    a.progs.place p = .ended := by
  have hlast : k = kNumMsgs - 1 := h.last
  rcases speaker_or_not k p with rfl | rfl
  · rw [h.speaking]
    exact if_neg (by rw [hlast]; exact Nat.lt_irrefl _)
  · rw [h.listening]
    rfl

theorem OnWay.index_lt {k : Nat} {ph : Phase} {a : Wires 24 Relay} (h : OnWay M k ph a) :
    ph.index k < 4 * kNumMsgs := by
  have hbound := h.bound
  unfold kNumMsgs at hbound ⊢
  cases ph <;> simp only [Phase.index] <;> omega

/-- The numbers have at most `n` phases to go. -/
def Away (M : Setup) (cell : Int) (n : Nat) (s : Duplex 24 Relay) : Prop :=
  (relaySystem M cell).Reachable (fun _ _ => True) s ∧
    ∃ a k ph, Wires.Reachable kNumMsgs (relays M) (relayStart M cell) a ∧
      Sim kNumMsgs (relays M) s a ∧ OnWay M k ph a ∧ 4 * kNumMsgs ≤ ph.index k + n

/-- The processes can end, or bring the numbers further. -/
theorem nearer (n : Nat) (s : Duplex 24 Relay) (h : Away M cell n s) :
    (∃ s', (relaySystem M cell).Leads s s' ∧ ∀ p, s'.progs.place p = .ended) ∨
      ∃ m s', m < n ∧ (relaySystem M cell).Leads s s' ∧ Away M cell m s' := by
  obtain ⟨hs, a, k, ph, ha, hsim, hway, hle⟩ := h
  obtain ⟨s₁, hleads, hidle⟩ := settles (by decide) (fun _ _ => relay_room) hs
  obtain ⟨a₁, hcalls, ha₁, hsim₁⟩ :=
    leads_sim (by decide) (fun _ _ => relay_room) ha hsim hleads
  obtain ⟨k₁, ph₁, hway₁, hle₁⟩ : ∃ k₁ ph₁, OnWay M k₁ ph₁ a₁ ∧
      ph.index k ≤ ph₁.index k₁ := by
    rcases onWay_leads hway hcalls with rfl | ⟨k₁, ph₁, hway₁, hlt⟩
    · exact ⟨k, ph, hway, Nat.le_refl _⟩
    · exact ⟨k₁, ph₁, hway₁, Nat.le_of_lt hlt⟩
  by_cases hfinished : ph₁ = .finished
  · subst hfinished
    left
    refine ⟨s₁, hleads, ?_⟩
    rw [hsim₁.progs]
    exact hway₁.ended
  · right
    obtain ⟨s', hleads', hmoved⟩ := moves cell hsim₁ hway₁ hidle hfinished
    obtain ⟨a', k', ph', ha', hsim', hway', hlt⟩ := further ha₁ hsim₁ hway₁ hleads' hmoved
    have hbound := hway₁.index_lt
    exact ⟨n - 1, s', by omega, hleads.trans hleads',
      hleads'.reachable (hleads.reachable hs), a', k', ph', ha', hsim', hway', by omega⟩

/-- **The relay can always end.** Whatever the processes did so far. -/
theorem relay_ends (hs : (relaySystem M cell).Reachable (fun _ _ => True) s) :
    ∃ s', (relaySystem M cell).Leads s s' ∧ ∀ p, s'.progs.place p = .ended := by
  obtain ⟨a, ha, hsim⟩ := duplex_simulates (by decide) (fun _ _ => relay_room) hs
  obtain ⟨k, ph, hway⟩ := reachable_onWay ha
  obtain ⟨s', hleads, s'', hleads', hended⟩ :=
    Transition.leads_to_goal nearer (4 * kNumMsgs) s
    ⟨hs, a, k, ph, ha, hsim, hway, Nat.le_add_left _ _⟩
  exact ⟨s'', hleads.trans hleads', hended⟩

/-- From the start. -/
theorem relay_ends_start :
    ∃ s', (relaySystem twoSegments 7).Leads relayInit s' ∧
      ∀ p, s'.progs.place p = .ended :=
  relay_ends relayInit_reachable

end Runs

end CharmExperiments.XpmemExperiments
