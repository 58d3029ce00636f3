import CharmExperiments.Lfq.QueueInv

/-!
# Opening the queue

`ipc_lfq::open`: the process that creates the shared memory sizes it, maps it
and constructs the queue in it; the others find the name and map the memory.
They do not wait for the construction. New memory is filled with zeros, which
read as an empty queue, so an enqueue that comes before the construction is
admitted and returns true, and the construction wipes it out
(`open_discards`). What was accepted stays available when the construction
comes first (`open_available`).

Mirroring notes:
- A process that touches the memory before it has its size is killed.
- `fd`, which only `close` reads, is left out; `shm_open`, `ftruncate` and
  `mmap` do not fail otherwise.
-/

namespace CharmExperiments.Lfq

open CharmExperiments.Lib

variable {w : Nat}

/-- The next step of an `open`. -/
inductive Opening
  /-- `shm_open(name, O_CREAT | O_EXCL | O_RDWR, 0666)`. -/
  | create
  /-- `ftruncate(fd, size)`. -/
  | truncate
  /-- `shm_open(name, O_RDWR, 0666)`. -/
  | reopen
  /-- `mmap`. -/
  | map (init : Bool)
  /-- `new (res) ipc_lfq<T, N>(fd)`. -/
  | construct
  | opened
  | killed
deriving DecidableEq, Repr

/-- The placement construction: it does not touch the values. -/
def Queue.construct (q : Queue w) : Queue w :=
  { q with head := 0, count := 0, tail := 0, data := fun i => .new (q.data i).value }

/-- The name, its memory and the processes. -/
structure Shared (w : Nat) where
  created : Bool
  sized : Bool
  processes : Nat → Option Opening
  reader : Nat
  queue : Queue w

namespace Shared

/-- Nothing is there; memory to come is zero. -/
def init : Shared w := ⟨false, false, fun _ => none, 0, .new fun _ _ => 0⟩

def goto (s : Shared w) (p : Nat) (next : Opening) : Shared w :=
  { s with processes := Function.update s.processes p (some next) }

/-- A process calls `open`, goes on with it, or uses the queue it got. -/
inductive Action (w : Nat)
  | start (p : Nat)
  | proceed (p : Nat)
  | call (p : Nat) (value : Bytes w)
  | produce (p : Nat)
  | receive (p : Nat) (result : Bytes w)
  | consume

variable (N P : Nat)

/-- A step of `open`. -/
def proceed (s : Shared w) (p : Nat) : Opening → Option (Shared w)
  | .create =>
    if s.created then some (s.goto p .reopen)
    else some ({ s with created := true }.goto p .truncate)
  | .truncate => some ({ s with sized := true }.goto p (.map true))
  | .reopen => some (s.goto p (.map false))
  | .map init => some (s.goto p (if init then .construct else .opened))
  | .construct => some ({ s with queue := s.queue.construct }.goto p .opened)
  | .opened => none
  | .killed => none

/-- Process `p` does `a` on the queue. -/
def use (s : Shared w) (p : Nat) (a : Queue.Action w) : Option (Shared w) :=
  if s.processes p = some .opened then
    if s.sized then (s.queue.step N P a).map fun q => { s with queue := q }
    else some (s.goto p .killed)
  else none

def step (s : Shared w) : Action w → Option (Shared w)
  | .start p => if (s.processes p).isNone then some (s.goto p .create) else none
  | .proceed p => (s.processes p).bind (s.proceed p)
  | .call p value => s.use N P p (.call p value)
  | .produce p => s.use N P p (.produce p)
  | .receive p result => (s.use N P p (.receive result)).map fun s =>
    { s with reader := p }
  | .consume => s.use N P s.reader .consume

end Shared

/-- Any number of processes, of which `P` enqueue. -/
def sharedSystem (w N P : Nat) : Transition (Shared w) (Shared.Action w) where
  init s := s = .init
  step := Shared.step N P

/-- No enqueue has taken a step, and the consumer has no node. -/
structure Untouched (q : Queue w) : Prop where
  producers : ∀ p c, q.producers p = some c → ∃ value, c = .fetchCount value
  admitted : q.admitted = []
  consumer : reading q.consumer = false

/-- The queue is constructed before it is used, and for fewer than 2^64 enqueues. -/
def ConstructFirst (s : Shared w) : Shared.Action w → Prop
  | .proceed p => s.processes p = some .construct → Untouched s.queue
  | .call _ _ => s.queue.calls + 1 < 2 ^ 64
  | _ => True

/-- Every value whose enqueue returned true is available to the consumer once:
it was returned in its place in the order, or it is in its node; and the
consumer is at the node of the next. -/
structure Available (N : Nat) (q : Queue w) : Prop where
  once : q.dequeued <+: q.admitted
  stored : ∀ r ∈ q.accepted, q.dequeued.length ≤ r →
    ∃ value, q.admitted[r]? = some value ∧
    (q.data (r % N)).value = value ∧
    ((q.data (r % N)).hasValue = true ∨ r = q.dequeued.length ∧ cleared q.consumer = true)
  next : q.tail = (q.dequeued.length + ahead q.consumer) % N

section Open

variable {N P : Nat} {q : Queue w}

/-- Constructing a queue that was not used yet makes no difference. -/
theorem construct_inv (h : Inv N P q) (hu : Untouched q) : Inv N P q.construct := by
  have hwriting : ∀ {p t stage}, q.producers p ≠ some (.writing t stage) := by
    intro p t stage ht
    obtain ⟨value, hc⟩ := hu.producers p _ ht
    cases hc
  have hadmitted : q.admitted.length = 0 := by rw [hu.admitted]; rfl
  have hdequeued : q.dequeued.length = 0 := by
    have := h.taken.length_le
    omega
  -- untouched: nothing was admitted, so the constructor overwrites nothing
  have hnext : ∀ value, ¬ q.Next value := by
    rintro value ⟨hv, _⟩
    rw [hu.admitted] at hv
    cases hv
  have hahead : ahead q.consumer = 0 := by
    have hk := h.knows
    revert hk
    rcases q.consumer with _ | c
    · exact fun _ => rfl
    · cases c with
      | fetchCount result => exact fun hk => absurd hk (hnext result)
      | _ => exact fun _ => rfl
  have hcount : q.total P inCount = 0 := by
    refine Finset.sum_eq_zero fun p _ => ?_
    rcases hc : q.producers p with _ | c
    · rfl
    · obtain ⟨value, rfl⟩ := hu.producers p c hc
      rfl
  refine ⟨h.few, h.idle, h.early, ?_, h.bound, ?_, h.taken, ?_, h.ticket,
    fun p t stage ht => absurd ht hwriting, h.unique, ?_, fun _ _ _ => rfl,
    fun p t stage ht => absurd ht hwriting, ?_, h.knows, h.runs, h.accepted⟩
  · show (0 : BitVec 64).toNat + q.dequeued.length = q.admitted.length + q.total P inCount
    rw [hadmitted, hdequeued, hcount]
    rfl
  · exact hadmitted.symm
  · show 0 = (q.dequeued.length + ahead q.consumer) % N
    rw [hdequeued, hahead, Nat.zero_mod]
  · intro r value _ (hv : q.admitted[r]? = some value)
    rw [hu.admitted] at hv
    cases hv
  · intro (hread : reading q.consumer = true)
    rw [hu.consumer] at hread
    cases hread

theorem use_inv (hN : 0 < N) {s s' : Shared w} (h : Inv N P s.queue) {p : Nat}
    {a : Queue.Action w} (ha : FewCalls s.queue a) (hs : s.use N P p a = some s') :
    Inv N P s'.queue := by
  unfold Shared.use at hs
  split at hs
  next =>
    split at hs
    next =>
      obtain ⟨q, hq, rfl⟩ := Option.map_eq_some_iff.mp hs
      exact step_inv hN h ha hq
    next =>
      obtain rfl := Option.some.inj hs
      exact h
  next => cases hs

theorem shared_inv (hN : 0 < N) {s : Shared w}
    (h : (sharedSystem w N P).Reachable ConstructFirst s) : Inv N P s.queue := by
  refine h.invariant (I := fun s => Inv N P s.queue) ?_ ?_
  · rintro _ rfl
    exact init_inv _
  · intro s a s' hi ha hs
    cases a with
    | start p =>
      unfold sharedSystem Shared.step at hs
      dsimp only at hs
      split at hs
      next =>
        obtain rfl := Option.some.inj hs
        exact hi
      next => cases hs
    | proceed p =>
      obtain ⟨o, ho, hs⟩ := Option.bind_eq_some_iff.mp hs
      cases o with
      | construct =>
        obtain rfl := Option.some.inj hs
        -- by assumption the queue is constructed before it is used
        exact construct_inv hi (ha ho)
      | create =>
        unfold Shared.proceed at hs
        dsimp only at hs
        split at hs
        next =>
          obtain rfl := Option.some.inj hs
          exact hi
        next =>
          obtain rfl := Option.some.inj hs
          exact hi
      | opened => cases hs
      | killed => cases hs
      | _ =>
        obtain rfl := Option.some.inj hs
        exact hi
    | call p value => exact use_inv hN hi (a := .call p value) ha hs
    | produce p => exact use_inv hN hi (a := .produce p) trivial hs
    | receive p result =>
      obtain ⟨t, ht, rfl⟩ := Option.map_eq_some_iff.mp hs
      show Inv N P t.queue
      exact use_inv hN hi (a := .receive result) trivial ht
    | consume => exact use_inv hN hi (a := .consume) trivial hs

/-- **What is accepted stays available**, in every run in which no enqueue has
taken a step and no dequeue has a node when the queue is constructed. -/
theorem open_available (hN : 0 < N) {s : Shared w}
    (h : (sharedSystem w N P).Reachable ConstructFirst s) : Available N s.queue := by
  have hinv := shared_inv hN h
  refine ⟨hinv.taken, fun r hr hle => ?_, hinv.tail⟩
  obtain ⟨hlt, hun⟩ := hinv.accepted r hr
  have hv := List.getElem?_eq_getElem hlt
  obtain ⟨hvalue, hiff⟩ := hinv.stored r _ hle hv hun
  refine ⟨_, hv, hvalue, ?_⟩
  by_cases hc : r = s.queue.dequeued.length ∧ cleared s.queue.consumer = true
  · exact Or.inr hc
  · exact Or.inl (hiff.mpr hc)

end Open

/-- Process 0 creates the memory; process 1 opens it and enqueues. -/
def earlyEnqueue : List (Shared.Action 1) :=
  [.start 0, .proceed 0, .proceed 0, .start 1, .proceed 1, .proceed 1, .proceed 1,
    .call 1 fun _ => 7] ++ List.replicate 8 (.produce 1)

/-- Process 0 goes on to construct the queue: the value that process 1 had
accepted is gone. -/
theorem open_discards : ∃ s : Shared 1,
    (sharedSystem 1 1 2).run .init (earlyEnqueue ++ [.proceed 0, .proceed 0]) = some s ∧
    s.queue.accepted = [0] ∧ s.queue.dequeued = [] ∧ ¬ Available 1 s.queue := by
  have hrun : ((sharedSystem 1 1 2).run .init
    (earlyEnqueue ++ [.proceed 0, .proceed 0])).map
      (fun s => (s.queue.accepted, s.queue.dequeued.length, (s.queue.data 0).hasValue,
        s.queue.consumer.isNone)) = some ([0], 0, false, true) := by
    decide +kernel
  obtain ⟨s, hs, hsum⟩ := Option.map_eq_some_iff.mp hrun
  obtain ⟨haccepted, hsum⟩ := Prod.mk.inj hsum
  obtain ⟨hdequeued, hsum⟩ := Prod.mk.inj hsum
  obtain ⟨hhas, hnone⟩ := Prod.mk.inj hsum
  refine ⟨s, hs, haccepted, List.eq_nil_of_length_eq_zero hdequeued, fun h => ?_⟩
  obtain ⟨value, _, _, hstored⟩ :=
    h.stored 0 (by rw [haccepted]; exact List.mem_singleton_self _)
    (by rw [hdequeued])
  rcases hstored with htrue | ⟨_, hcleared⟩
  · rw [show (s.queue.data (0 % 1)).hasValue = false from hhas] at htrue
    cases htrue
  · rw [Option.isNone_iff_eq_none.mp hnone] at hcleared
    cases hcleared

/-- Process 1 opens the memory before process 0 is about to construct the queue. -/
def openedEarly : List (Shared.Action 1) :=
  [.start 0, .proceed 0, .proceed 0, .start 1, .proceed 1, .proceed 1,
    .proceed 1, .proceed 0]

/-- It waits with its call, and process 0 takes the value. -/
def calledLate : List (Shared.Action 1) :=
  .call 1 (fun _ => 7) :: List.replicate 8 (.produce 1) ++
    .receive 0 (fun _ => 0) :: List.replicate 8 .consume

/-- Steps of `open` before the construction. -/
def beforeConstruct (s : Shared 1) : Shared.Action 1 → Bool
  | .proceed p => s.processes p ≠ some .construct
  | .call _ _ => false
  | _ => true

/-- Steps after it. -/
def afterConstruct (s : Shared 1) : Shared.Action 1 → Bool
  | .proceed _ => false
  | .call _ _ => decide (s.queue.calls + 1 < 2 ^ 64)
  | _ => true

theorem beforeConstruct_first (s : Shared 1) (a : Shared.Action 1)
    (h : beforeConstruct s a = true) : ConstructFirst s a := by
  cases a with
  | proceed p => exact fun hc => absurd hc (of_decide_eq_true h)
  | call => cases h
  | _ => trivial

theorem afterConstruct_first (s : Shared 1) (a : Shared.Action 1)
    (h : afterConstruct s a = true) : ConstructFirst s a := by
  cases a with
  | proceed => cases h
  | call => exact @of_decide_eq_true (s.queue.calls + 1 < 2 ^ 64) _ h
  | _ => trivial

/-- The value of a process that opened the memory early and called late gets through. -/
theorem open_available_late : ∃ s t u : Shared 1,
    (sharedSystem 1 2 2).follow beforeConstruct .init openedEarly = some s ∧
    s.processes 1 = some .opened ∧ (sharedSystem 1 2 2).step s (.proceed 0) = some t ∧
    (sharedSystem 1 2 2).follow afterConstruct t calledLate = some u ∧
    u.queue.accepted = [0] ∧ u.queue.dequeued.map (· 0) = [7] ∧ Available 2 u.queue := by
  obtain ⟨s, t, hopen, hopened, hqueue, hconstruct⟩ : ∃ s t : Shared 1,
      (sharedSystem 1 2 2).follow beforeConstruct .init openedEarly = some s ∧
      s.processes 1 = some .opened ∧ s.queue = Shared.init.queue ∧
      (sharedSystem 1 2 2).step s (.proceed 0) = some t := ⟨_, _, rfl, rfl, rfl, rfl⟩
  have hrun : ((((sharedSystem 1 2 2).follow beforeConstruct .init openedEarly).bind
      fun s => (sharedSystem 1 2 2).step s (.proceed 0)).bind
      fun t => (sharedSystem 1 2 2).follow afterConstruct t calledLate).map
      (fun u => (u.queue.accepted, u.queue.dequeued.map (· 0))) = some ([0], [7]) := by
    decide +kernel
  rw [hopen, Option.bind_some, hconstruct, Option.bind_some] at hrun
  obtain ⟨u, hcall, hlists⟩ := Option.map_eq_some_iff.mp hrun
  obtain ⟨haccepted, hdequeued⟩ := Prod.mk.inj hlists
  have huntouched : Untouched s.queue := by
    rw [hqueue]
    exact ⟨fun _ _ hc => (by cases hc), rfl, rfl⟩
  have hs : (sharedSystem 1 2 2).Reachable ConstructFirst s :=
    Transition.follow_reachable beforeConstruct_first openedEarly (.init rfl) hopen
  have hu : (sharedSystem 1 2 2).Reachable ConstructFirst u :=
    Transition.follow_reachable afterConstruct_first calledLate
      (.step (a := .proceed 0) hs (fun _ => huntouched) hconstruct) hcall
  exact ⟨s, t, u, hopen, hopened, hconstruct, hcall, haccepted, hdequeued,
    open_available (by decide) hu⟩

end CharmExperiments.Lfq
