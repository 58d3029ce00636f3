import Mathlib.Data.List.Basic
import CharmExperiments.Lib.Transition

/-!
# Requests of messages whose size is not known

`warp/warp.hpp`: a `request` for an entry without a fixed size waits in `probes`.
`__run_once` probes for the first in line; when there is a message with its tag, it
allocates a buffer of the size the probe reported, posts a receive, and goes on with
the next; when there is none, it returns.

The probe and the receive are two operations of MPI, and both take any source. So a
receive can be matched to another message than was probed: `probed_fits` says when
each fits all the same, and that otherwise MPI may pick one that does not.
`front_waits` says what a return leaves in line.

Mirroring notes:
- `pending` has the messages that arrived and are not matched, `posted` the receives
  that are not matched. A receive may be matched to any message with its tag
  (`matchUp`), as `initialize` allows overtaking, at any time; MPI matches at the
  post when a message is pending, so the model allows more.
- A probe that fails and the return are two steps (`leaving`): messages arrive in
  between.
- Everything else `__run_once` does is left out: a request an entry function makes is
  one made outside the loop.
- `entry_table` is given by the sizes of its entries.
- `probed` marks the receives the loop posts, and `posts` has them in order;
  messages are numbered as they arrive. No function reads these.
-/

namespace CharmExperiments.Warp

open CharmExperiments.Lib

/-- `sizeof(message)`. -/
def headerSize : Nat := 32

/-- A message that arrived, the `id`-th one. -/
structure Arrived where
  id : Nat
  source : Nat
  tag : Int
  size : Nat
deriving DecidableEq

/-- `message::total_size`. -/
def Arrived.totalSize (m : Arrived) : Nat := m.size + headerSize

/-- An element of `probes`. -/
structure Probe where
  obj : Nat
  ep : Nat
  tag : Int
deriving DecidableEq

/-- A receive that was posted, with the message it was given as its buffer. -/
structure Receive where
  obj : Nat
  ep : Nat
  tag : Int
  size : Nat
  probed : Bool
deriving DecidableEq

def Receive.totalSize (r : Receive) : Nat := r.size + headerSize

/-- Where a rank is in the probe loop of `__run_once`. -/
inductive Loop
  | outside
  /-- Before a round. -/
  | probing
  /-- The probe succeeded, and reported `count` bytes. -/
  | found (count : Nat)
  /-- The probe failed: before the return. -/
  | leaving
deriving DecidableEq

structure Rank where
  probes : List Probe
  loop : Loop
  arrivals : Nat
  pending : List Arrived
  posted : List Receive
  matched : List (Receive × Arrived)
  posts : List Receive

/-- What can happen. `probe` says which message the probe found, if any. -/
inductive RankAction
  | request (obj ep : Nat) (tag : Int)
  | arrive (source : Nat) (tag : Int) (size : Nat)
  | run
  | probe (m : Option Arrived)
  | post
  | leave
  | matchUp (r : Receive) (m : Arrived)

namespace Rank

/-- `MPI_Irecv`. -/
def irecv (s : Rank) (r : Receive) : Rank := { s with posted := s.posted ++ [r] }

/-- `request(obj, ep, tag)`. -/
def request (entryTable : Nat → Option Nat) (s : Rank) (obj ep : Nat) (tag : Int) :
    Rank :=
  match entryTable ep with
  | some size => s.irecv ⟨obj, ep, tag, size, false⟩
  | none => { s with probes := s.probes ++ [⟨obj, ep, tag⟩] }

/-- `__request` of the first in line, and `probes.pop()`. -/
def post (s : Rank) (p : Probe) (rest : List Probe) (count : Nat) : Rank :=
  let r : Receive := ⟨p.obj, p.ep, p.tag, count - headerSize, true⟩
  { s.irecv r with probes := rest, loop := .probing, posts := s.posts ++ [r] }

/-- A message arrives. -/
def arrive (s : Rank) (source : Nat) (tag : Int) (size : Nat) : Rank :=
  { s with
    arrivals := s.arrivals + 1
    pending := s.pending ++ [⟨s.arrivals, source, tag, size⟩] }

/-- One step; `none` when it cannot be taken. -/
def step (entryTable : Nat → Option Nat) (s : Rank) : RankAction → Option Rank
  | .request obj ep tag =>
    if s.loop = .outside then some (s.request entryTable obj ep tag) else none
  | .arrive source tag size => some (s.arrive source tag size)
  | .run => if s.loop = .outside then some { s with loop := .probing } else none
  | .probe found =>
    if s.loop = .probing then
      match s.probes, found with
      | [], none => some { s with loop := .outside }
      | p :: _, none =>
        if ∃ m ∈ s.pending, m.tag = p.tag then none else some { s with loop := .leaving }
      | p :: _, some m =>
        if m ∈ s.pending ∧ m.tag = p.tag then some { s with loop := .found m.totalSize }
        else none
      | [], some _ => none
    else none
  | .post =>
    match s.loop, s.probes with
    | .found count, p :: rest => some (s.post p rest count)
    | _, _ => none
  | .leave => if s.loop = .leaving then some { s with loop := .outside } else none
  | .matchUp r m =>
    if r ∈ s.posted ∧ m ∈ s.pending ∧ r.tag = m.tag then
      some { s with
        posted := s.posted.erase r
        pending := s.pending.erase m
        matched := s.matched ++ [(r, m)] }
    else none

def init : Rank := ⟨[], .outside, 0, [], [], [], []⟩

/-- A rank as a transition system. -/
def system (entryTable : Nat → Option Nat) : Transition Rank RankAction where
  init s := s = init
  step := step entryTable

/-! ## Whether the message fits -/

/-- Every receive the loop posted and that was matched, was matched to a message that
fits its buffer. -/
def Fits (s : Rank) : Prop :=
  ∀ x ∈ s.matched, x.1.probed = true → x.2.totalSize ≤ x.1.totalSize

/-- Nothing is pending that is larger than what a probe reports, and nothing arrives
that is larger than the buffer of a receive it may be matched to. -/
def Largest (s : Rank) : RankAction → Prop
  | .probe (some m) => ∀ m' ∈ s.pending, m'.tag = m.tag → m'.size ≤ m.size
  | .arrive _ tag size =>
    (∀ r ∈ s.posted, r.probed = true → r.tag = tag → size ≤ r.size) ∧
      ∀ p rest count, s.probes = p :: rest → s.loop = .found count → p.tag = tag →
        size ≤ count - headerSize
  | .request .. | .run | .probe none | .post | .leave | .matchUp .. => True

/-- Every message pending fits every receive that may be matched to it. -/
structure FitsInv (s : Rank) : Prop where
  posted : ∀ r ∈ s.posted, r.probed = true → ∀ m ∈ s.pending, m.tag = r.tag →
    m.size ≤ r.size
  found : ∀ p rest count, s.probes = p :: rest → s.loop = .found count →
    ∀ m ∈ s.pending, m.tag = p.tag → m.size ≤ count - headerSize
  matched : s.Fits

variable {entryTable : Nat → Option Nat} {s s' : Rank}

/-- What a probe does: the loop ends, with nothing in line, or is about to, and
nothing has the tag of the first in line; or it found a message that has. -/
theorem probe_cases {found : Option Arrived}
    (hs : s.step entryTable (.probe found) = some s') :
    (s.loop = .probing ∧ found = none ∧ s' = { s with loop := .outside } ∧
      s.probes = []) ∨
    (s.loop = .probing ∧ found = none ∧ s' = { s with loop := .leaving } ∧
      ∀ p rest, s.probes = p :: rest → ∀ m ∈ s.pending, m.tag ≠ p.tag) ∨
    ∃ p rest m, found = some m ∧ s.probes = p :: rest ∧ m ∈ s.pending ∧ m.tag = p.tag ∧
      s' = { s with loop := .found m.totalSize } := by
  simp only [step] at hs
  split at hs
  next hloop =>
    cases hprobes : s.probes with
    -- no probe is outstanding, so nothing can be found
    | nil =>
      rw [hprobes] at hs
      cases found with
      | none =>
        obtain rfl := Option.some.inj hs
        exact Or.inl ⟨hloop, rfl, rfl, rfl⟩
      | some m => cases hs
    | cons p rest =>
      rw [hprobes] at hs
      cases found with
      | none =>
        simp only at hs
        split at hs
        next => cases hs
        next hnone =>
          obtain rfl := Option.some.inj hs
          refine Or.inr (Or.inl ⟨hloop, rfl, rfl, fun p' rest' hp m hm htag =>
            hnone ⟨m, hm, ?_⟩⟩)
          obtain ⟨rfl, _⟩ := List.cons.inj hp
          exact htag
      | some m =>
        simp only at hs
        split at hs
        next hm =>
          obtain rfl := Option.some.inj hs
          exact Or.inr (Or.inr ⟨p, rest, m, rfl, rfl, hm.1, hm.2, rfl⟩)
        next => cases hs
  next => cases hs

theorem post_cases (hs : s.step entryTable .post = some s') :
    ∃ p rest count, s.loop = .found count ∧ s.probes = p ::
      rest ∧ s' = s.post p rest count := by
  simp only [step] at hs
  split at hs
  next count p rest hloop hprobes =>
    obtain rfl := Option.some.inj hs
    exact ⟨p, rest, count, hloop, hprobes, rfl⟩
  next => cases hs

theorem step_inv (h : FitsInv s) {a : RankAction} (hc : s.Largest a)
    (hs : s.step entryTable a = some s') : FitsInv s' := by
  cases a with
  | request obj ep tag =>
    simp only [step] at hs
    split at hs
    next hout =>
      obtain rfl := Option.some.inj hs
      unfold request
      cases entryTable ep with
      | some size =>
        refine ⟨fun r hr hp => ?_, h.found, h.matched⟩
        rcases List.mem_append.mp hr with hr | hr
        · exact h.posted r hr hp
        · obtain rfl := List.mem_singleton.mp hr
          cases hp
      | none => exact ⟨h.posted, fun _ _ _ _ hf =>
        (nomatch hout.symm.trans hf), h.matched⟩
    next => cases hs
  | arrive source tag size =>
    obtain rfl := Option.some.inj hs
    refine ⟨fun r hr hp m' hm' htag => ?_, fun p rest count hprobes hf m' hm' htag =>
      ?_, h.matched⟩
    · rcases List.mem_append.mp hm' with hm' | hm'
      · exact h.posted r hr hp m' hm' htag
      · obtain rfl := List.mem_singleton.mp hm'
        exact hc.1 r hr hp htag.symm
    · rcases List.mem_append.mp hm' with hm' | hm'
      · exact h.found p rest count hprobes hf m' hm' htag
      · obtain rfl := List.mem_singleton.mp hm'
        exact hc.2 p rest count hprobes hf htag.symm
  | run =>
    simp only [step] at hs
    split at hs
    next =>
      obtain rfl := Option.some.inj hs
      exact ⟨h.posted, fun _ _ _ _ hf => (by cases hf), h.matched⟩
    next => cases hs
  | probe found =>
    rcases probe_cases hs with ⟨_, rfl, rfl, _⟩ | ⟨_, rfl, rfl, _⟩ |
      ⟨p, rest, m, rfl, hprobes, hm, htag, rfl⟩
    · exact ⟨h.posted, fun _ _ _ _ hf => (by cases hf), h.matched⟩
    · exact ⟨h.posted, fun _ _ _ _ hf => (by cases hf), h.matched⟩
    · refine ⟨h.posted, fun p' rest' count hprobes' hf m' hm' htag' => ?_, h.matched⟩
      obtain ⟨rfl, _⟩ := List.cons.inj (hprobes.symm.trans hprobes')
      obtain rfl := Loop.found.inj hf
      exact Nat.le_trans (hc m' hm' (htag'.trans htag.symm))
        (Nat.le_of_eq (Nat.add_sub_cancel ..).symm)
  | post =>
    obtain ⟨p, rest, count, hloop, hprobes, rfl⟩ := post_cases hs
    refine ⟨fun r hr hp m hm htag => ?_, fun _ _ _ _ hf => (by cases hf), h.matched⟩
    rcases List.mem_append.mp hr with hr | hr
    · exact h.posted r hr hp m hm htag
    · obtain rfl := List.mem_singleton.mp hr
      exact h.found p rest count hprobes hloop m hm htag
  | leave =>
    simp only [step] at hs
    split at hs
    next =>
      obtain rfl := Option.some.inj hs
      exact ⟨h.posted, fun _ _ _ _ hf => (by cases hf), h.matched⟩
    next => cases hs
  | matchUp r m =>
    simp only [step] at hs
    split at hs
    next hin =>
      obtain ⟨hr, hm, htag⟩ := hin
      obtain rfl := Option.some.inj hs
      refine ⟨fun r' hr' hp m' hm' => ?_, fun p rest count hprobes hf m' hm' => ?_, ?_⟩
      · exact h.posted r' (List.mem_of_mem_erase hr') hp m' (List.mem_of_mem_erase hm')
      · exact h.found p rest count hprobes hf m' (List.mem_of_mem_erase hm')
      · intro x hx hp
        rcases List.mem_append.mp hx with hx | hx
        · exact h.matched x hx hp
        · obtain rfl := List.mem_singleton.mp hx
          exact Nat.add_le_add_right (h.posted r hr hp m hm htag.symm) _
    next => cases hs

/-- A receive of the loop and a pending message that does not fit can be matched. -/
theorem misfit_matched (entryTable : Nat → Option Nat) (s : Rank)
    {r : Receive} {m : Arrived}
    (hr : r ∈ s.posted) (hp : r.probed = true) (hm : m ∈ s.pending) (htag : r.tag = m.tag)
    (hsize : r.size < m.size) :
    ∃ s', s.step entryTable (.matchUp r m) = some s' ∧ ¬s'.Fits := by
  refine ⟨_, if_pos ⟨hr, hm, htag⟩, fun hfits => ?_⟩
  have hle : m.totalSize ≤ r.totalSize :=
    hfits (r, m) (List.mem_append_right _ (List.mem_singleton_self _)) hp
  unfold Arrived.totalSize Receive.totalSize at hle
  omega

/-- A receive posted for less than is pending can be matched to what does not fit. -/
theorem misfit_posted {p : Probe} {rest : List Probe} {count : Nat} {m : Arrived}
    (hprobes : s.probes = p :: rest) (hloop : s.loop = .found count) (hm : m ∈ s.pending)
    (htag : p.tag = m.tag) (hsize : count - headerSize < m.size) :
    ∃ as s', (system entryTable).run s as = some s' ∧ ¬s'.Fits := by
  have hpost : s.step entryTable .post = some (s.post p rest count) := by
    simp only [step, hloop, hprobes]
  let r : Receive := ⟨p.obj, p.ep, p.tag, count - headerSize, true⟩
  obtain ⟨s', hmatch, hnot⟩ := misfit_matched entryTable (s.post p rest count) (r := r)
    (List.mem_append_right _ (List.mem_singleton_self _)) rfl hm htag hsize
  refine ⟨[.post, .matchUp r m], s', ?_, hnot⟩
  simp only [Transition.run, List.foldlM, system, hpost, Option.bind_eq_bind,
    Option.bind_some, hmatch]
  rfl

/-- **A receive the loop posts is matched to a message that fits, as long as the probes
report the largest.** And when a step breaks that, MPI may go on to match one to a
message that does not fit. -/
theorem probed_fits (h : (system entryTable).Reachable Largest s) :
    s.Fits ∧ ∀ a s', ¬s.Largest a → s.step entryTable a = some s' →
      ∃ as s'', (system entryTable).run s' as = some s'' ∧ ¬s''.Fits := by
  have hinv : FitsInv s := by
    refine h.invariant (I := FitsInv) ?_ fun s a s' hi hc hs => step_inv hi hc hs
    rintro s rfl
    exact ⟨fun _ hr => (by cases hr), fun _ _ _ _ hf => (by cases hf), fun _ hx =>
      (by cases hx)⟩
  refine ⟨hinv.matched, fun a s' hnot hs => ?_⟩
  cases a with
  | probe found =>
    rcases probe_cases hs with ⟨_, rfl, _, _⟩ | ⟨_, rfl, _, _⟩ |
      ⟨p, rest, m, rfl, hprobes, hm, htag, rfl⟩
    · exact (hnot trivial).elim
    · exact (hnot trivial).elim
    · -- what was reported is smaller than another that is pending
      simp only [Largest, not_forall, Nat.not_le] at hnot
      obtain ⟨m', hm', htag', hsize⟩ := hnot
      refine misfit_posted (s := { s with loop := .found m.totalSize }) hprobes rfl hm'
        (htag'.trans htag).symm ?_
      unfold Arrived.totalSize
      omega
  | arrive source tag size =>
    obtain rfl := Option.some.inj hs
    have hm : (⟨s.arrivals, source, tag, size⟩ : Arrived) ∈
        (s.arrive source tag size).pending :=
      List.mem_append_right _ (List.mem_singleton_self _)
    by_cases hposted : ∀ r ∈ s.posted, r.probed = true → r.tag = tag → size ≤ r.size
    · -- what arrives is larger than what a probe just reported
      simp only [Largest, not_and, not_forall, Nat.not_le] at hnot
      obtain ⟨p, rest, count, hprobes, hloop, htag, hsize⟩ := hnot hposted
      exact misfit_posted (s := s.arrive source tag size) hprobes hloop hm htag hsize
    · -- what arrives is larger than the buffer of a receive that waits
      simp only [not_forall, Nat.not_le] at hposted
      obtain ⟨r, hr, hp, htag, hsize⟩ := hposted
      obtain ⟨s', hmatch, hmisfit⟩ :=
        misfit_matched entryTable (s.arrive source tag size) hr hp hm
        htag hsize
      exact ⟨[.matchUp r ⟨s.arrivals, source, tag, size⟩], s',
        by simp [Transition.run, system, hmatch], hmisfit⟩
  | _ => exact (hnot trivial).elim

/-- A message for an entry without a fixed size, received. -/
def received : Rank :=
  ⟨[], .probing, 1, [], [], [(⟨0, 0, 7, 8, true⟩, ⟨0, 1, 7, 8⟩)], [⟨0, 0, 7, 8, true⟩]⟩

theorem received_reachable : (system fun _ => none).Reachable Largest received := by
  have hrequest : (system fun _ => none).Reachable Largest _ :=
    .step (.init rfl) (a := .request 0 0 7) trivial rfl
  have harrive : (system fun _ => none).Reachable Largest _ :=
    .step hrequest (a := .arrive 1 7 8) ⟨fun _ hr => (by cases hr), nofun⟩ rfl
  have hrun : (system fun _ => none).Reachable Largest _ :=
    .step harrive (a := .run) trivial rfl
  have hprobe : (system fun _ => none).Reachable Largest _ :=
    .step hrun (a := .probe (some ⟨0, 1, 7, 8⟩)) (by
      intro m' hm' _
      obtain rfl := List.mem_singleton.mp hm'
      exact Nat.le_refl 8) rfl
  have hpost : (system fun _ => none).Reachable Largest _ :=
    .step hprobe (a := .post) trivial rfl
  exact .step hpost (a := .matchUp ⟨0, 0, 7, 8, true⟩ ⟨0, 1, 7, 8⟩) trivial rfl

theorem received_fits : received.Fits := (probed_fits received_reachable).1

/-- Of two messages with one tag the probe reports the smaller, and the receive is
matched to the larger. -/
theorem overtaken :
    ∃ s, (system fun _ => none).run init
        [.request 0 0 7, .arrive 1 7 8, .arrive 2 7 16, .run, .probe (some ⟨0, 1, 7, 8⟩),
          .post, .matchUp ⟨0, 0, 7, 8, true⟩ ⟨1, 2, 7, 16⟩] = some s ∧ ¬s.Fits := by
  refine ⟨_, rfl, fun hfits => ?_⟩
  have hle := hfits _ (List.mem_singleton_self _) rfl
  exact absurd hle (by decide)

/-! ## What is left in line -/

/-- From a state inside the loop, whatever arrives and is matched in the meantime, to
its return. -/
inductive Loops (entryTable : Nat → Option Nat) : Rank → Rank → Prop
  | last {s s' : Rank} {a : RankAction} : s.step entryTable a = some s' →
    s'.loop = .outside →
      Loops entryTable s s'
  | more {s s' s'' : Rank} {a : RankAction} : s.step entryTable a = some s' →
      s'.loop ≠ .outside → Loops entryTable s' s'' → Loops entryTable s s''

/-- The probe a receive was posted for. -/
def Receive.probe (r : Receive) : Probe := ⟨r.obj, r.ep, r.tag⟩

/-- Of the first `n` messages none is pending that has the tag of the first in line. -/
def FrontWaits (n : Nat) (s : Rank) : Prop :=
  ∀ p rest, s.probes = p :: rest → ∀ m ∈ s.pending, m.id < n → m.tag ≠ p.tag

/-- What holds inside the loop of the first `n` messages, which have all arrived: once
the probe has failed, none of those that are pending has the tag of the first in
line. -/
structure LoopInv (n : Nat) (s : Rank) : Prop where
  arrived : n ≤ s.arrivals
  failed : s.loop = .leaving → s.FrontWaits n

/-- A step inside the loop posts the receive of the first in line, or leaves the line
as it is. -/
theorem loop_served {a : RankAction} (hin : s.loop ≠ .outside)
    (hs : s.step entryTable a = some s') :
    ∃ rs : List Receive, s.probes = rs.map Receive.probe ++ s'.probes ∧
      s'.posts = s.posts ++ rs := by
  -- only `post` takes a probe off the list
  have hkept : s'.probes = s.probes → s'.posts = s.posts → ∃ rs : List Receive,
      s.probes = rs.map Receive.probe ++ s'.probes ∧ s'.posts = s.posts ++ rs :=
    fun hprobes hposts => ⟨[], by rw [hprobes]; rfl, by rw [hposts, List.append_nil]⟩
  cases a with
  | request obj ep tag =>
    simp only [step] at hs
    rw [if_neg hin] at hs
    cases hs
  | arrive source tag size =>
    obtain rfl := Option.some.inj hs
    exact hkept rfl rfl
  | run =>
    simp only [step] at hs
    rw [if_neg hin] at hs
    cases hs
  | probe found =>
    rcases probe_cases hs with ⟨_, rfl, rfl, _⟩ | ⟨_, rfl, rfl, _⟩ | ⟨_, _, _,
      rfl, _, _, _, rfl⟩
    · exact hkept rfl rfl
    · exact hkept rfl rfl
    · exact hkept rfl rfl
  | post =>
    obtain ⟨p, rest, count, _, hprobes, rfl⟩ := post_cases hs
    exact ⟨[⟨p.obj, p.ep, p.tag, count - headerSize, true⟩], hprobes, rfl⟩
  | leave =>
    simp only [step] at hs
    split at hs
    next =>
      obtain rfl := Option.some.inj hs
      exact hkept rfl rfl
    next => cases hs
  | matchUp r m =>
    simp only [step] at hs
    split at hs
    next =>
      obtain rfl := Option.some.inj hs
      exact hkept rfl rfl
    next => cases hs

/-- A step inside the loop keeps what holds of the first messages, and returns only
when nothing pending of them has the tag of the first in line. -/
theorem loop_inv {n : Nat} {a : RankAction} (hin : s.loop ≠ .outside) (h : LoopInv n s)
    (hs : s.step entryTable a = some s') :
    LoopInv n s' ∧ (s'.loop = .outside → s'.FrontWaits n) := by
  cases a with
  | request obj ep tag =>
    simp only [step] at hs
    rw [if_neg hin] at hs
    cases hs
  | arrive source tag size =>
    obtain rfl := Option.some.inj hs
    refine ⟨⟨Nat.le_succ_of_le h.arrived, fun hleaving p rest hp m hm hlt => ?_⟩,
      fun hout => (hin hout).elim⟩
    rcases List.mem_append.mp hm with hm | hm
    · exact h.failed hleaving p rest hp m hm hlt
    · -- what arrives now is not among the first
      obtain rfl := List.mem_singleton.mp hm
      exact absurd h.arrived (Nat.not_le.mpr hlt)
  | run =>
    simp only [step] at hs
    rw [if_neg hin] at hs
    cases hs
  | probe found =>
    rcases probe_cases hs with ⟨_, rfl, rfl, hempty⟩ | ⟨_, rfl, rfl, hnone⟩ |
      ⟨p, rest, m, rfl, hprobes, hm, htag, rfl⟩
    · exact ⟨⟨h.arrived, fun hl => (nomatch hl)⟩,
        fun _ p rest hp => (nomatch hempty.symm.trans hp)⟩
    · exact ⟨⟨h.arrived, fun _ p rest hp m hm _ => hnone p rest hp m hm⟩,
        fun hl => (nomatch hl)⟩
    · exact ⟨⟨h.arrived, fun hl => (nomatch hl)⟩, fun hl => (nomatch hl)⟩
  | post =>
    obtain ⟨p, rest, count, _, _, rfl⟩ := post_cases hs
    exact ⟨⟨h.arrived, fun hl => (nomatch hl)⟩, fun hl => (nomatch hl)⟩
  | leave =>
    simp only [step] at hs
    split at hs
    next hleaving =>
      obtain rfl := Option.some.inj hs
      exact ⟨⟨h.arrived, fun hl => (nomatch hl)⟩, fun _ => h.failed hleaving⟩
    next => cases hs
  | matchUp r m =>
    simp only [step] at hs
    split at hs
    next =>
      obtain rfl := Option.some.inj hs
      exact ⟨⟨h.arrived, fun hl p rest hp m' hm' =>
        h.failed hl p rest hp m' (List.mem_of_mem_erase hm')⟩, fun hout =>
          (hin hout).elim⟩
    next => cases hs

/-- **`__run_once` serves the requests from the front.** When it returns, those left in
`probes` are the last of those it found there, the others have had their receives
posted in order, and no message that had arrived when the loop started, and is not
matched, has the tag of the first one left. -/
theorem front_waits (hin : s.loop = .probing) (h : Loops entryTable s s') :
    (∃ rs : List Receive, s.probes = rs.map Receive.probe ++ s'.probes ∧
      s'.posts = s.posts ++ rs) ∧ s'.FrontWaits s.arrivals := by
  have hinv : LoopInv s.arrivals s :=
    ⟨Nat.le_refl _, fun hleaving => (nomatch hin.symm.trans hleaving)⟩
  replace hin : s.loop ≠ .outside := fun hout => (nomatch hin.symm.trans hout)
  generalize s.arrivals = n at hinv ⊢
  induction h with
  | last hs hout => exact ⟨loop_served hin hs, (loop_inv hin hinv hs).2 hout⟩
  | more hs hin' _ ih =>
    obtain ⟨rs, hprobes, hposts⟩ := loop_served hin hs
    obtain ⟨⟨rs', hprobes', hposts'⟩, hfront⟩ := ih hin' (loop_inv hin hinv hs).1
    refine ⟨⟨rs ++ rs', ?_, ?_⟩, hfront⟩
    · rw [hprobes, hprobes', List.map_append, List.append_assoc]
    · rw [hposts', hposts, List.append_assoc]

/-- Two requests in line, and a message for the second. -/
def behind : Rank := ⟨[⟨0, 0, 1⟩, ⟨0, 0, 2⟩], .probing, 1, [⟨0, 1, 2, 8⟩], [], [], []⟩

/-- The return, after a message for the first request has arrived behind the probe. -/
def behindLate : Rank := { behind.arrive 1 1 8 with loop := .outside }

theorem behind_loops : Loops (fun _ => none) behind behindLate :=
  .more (a := .probe none) rfl nofun
    (.more (a := .arrive 1 1 8) rfl nofun (.last (a := .leave) rfl rfl))

theorem front_waits_behind :
    behindLate.probes = behind.probes ∧ (∃ m ∈ behindLate.pending, m.tag = 1) ∧
      ∀ m ∈ behindLate.pending, m.id < 1 → m.tag ≠ 1 :=
  ⟨rfl, ⟨⟨1, 1, 1, 8⟩, by decide, rfl⟩, (front_waits rfl behind_loops).2 _ _ rfl⟩

/-- The second request is left in line though its message was there. -/
theorem held_back :
    ∃ s s', (system fun _ => none).Reachable (fun _ _ => True) s ∧ s.loop = .probing ∧
      Loops (fun _ => none) s s' ∧
      ∃ p ∈ s'.probes, ∃ m, m ∈ s.pending ∧ m ∈ s'.pending ∧ m.tag = p.tag := by
  refine ⟨behind, behindLate, ?_, rfl, behind_loops, ⟨0, 0, 2⟩, ?_,
    ⟨0, 1, 2, 8⟩, ?_, ?_, rfl⟩
  · exact Transition.run_reachable
      [.request 0 0 1, .request 0 0 2, .arrive 1 2 8, .run] (fun _ _ _ => trivial)
      (.init rfl) rfl
  · exact List.mem_cons_of_mem _ (List.mem_singleton_self _)
  · exact List.mem_singleton_self _
  · exact List.mem_cons_self

end Rank

end CharmExperiments.Warp
