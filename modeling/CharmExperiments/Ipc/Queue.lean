import CharmExperiments.Lib.LockedList
import CharmExperiments.Lib.Transition

/-!
# The message queue between processes

`archive/include/queue.hh`: an intrusive list of blocks whose head is also its
lock. A call exchanges the head for `nullptr`, and gives up if it was `nullptr`
already; otherwise it has the list to itself until its second exchange.

Each call is given twice: as one step (`Queue.enqueue`, `Queue.dequeue`), and cut
at its exchanges and at its accesses to `next`, for processes that call at the
same time (`Shared`). `enqueue_alone` and `dequeue_alone` say that a call nobody
interferes with does the same in both.

Mirroring notes:
- `kTail` is `Link.tail`. `ptr` and `loc` are the addresses of one block in two
  processes; here a block has one name. Only the owner dequeues: the links are
  addresses in its own segment.
- A failed `CmiAssertMsg` ends the run (`failed`).
- `store` is other code that writes `next`, which the pool and the callers use
  for lists of their own.
- `returned` records what the calls returned; no function reads it.
-/

namespace CharmExperiments.Ipc

open CharmExperiments.Lib

variable {ι β : Type}

/-- `ipc::queue`, with the `next` of the blocks. -/
structure Queue (β : Type) where
  head : Link β
  next : β → Link β

namespace Queue

/-- `queue::queue`, with whatever is in the blocks. -/
def new (next : β → Link β) : Queue β := ⟨.tail, next⟩

/-- `head.exchange`. -/
def exchange (q : Queue β) (l : Link β) : Link β × Queue β :=
  (q.head, { q with head := l })

/-- `prev->next`, with `nil` for the sentinel. -/
def after (q : Queue β) (prev : Link β) : Link β :=
  match prev with
  | .node b => q.next b
  | _ => prev

variable [DecidableEq β]

/-- `loc->next = prev`. -/
def link (q : Queue β) (ptr : β) (prev : Link β) : Queue β :=
  { q with next := Function.update q.next ptr prev }

/-- `queue::enqueue`; `none` when the assertion fails. -/
def enqueue (q : Queue β) (ptr : β) : Option (Bool × Queue β) :=
  let (prev, q) := q.exchange .null
  if prev = .null then some (false, q)
  else
    let (check, q) := (q.link ptr prev).exchange (.node ptr)
    if check = .null then some (true, q) else none

omit [DecidableEq β] in
/-- `queue::dequeue`; `none` when the assertion fails. -/
def dequeue (q : Queue β) : Option (Link β × Queue β) :=
  let (prev, q) := q.exchange .null
  if prev = .null then some (.null, q)
  else
    let (check, q) := q.exchange (q.after prev)
    if check = .null then some (if prev = .tail then .null else prev, q) else none

theorem enqueue_open {q : Queue β} (h : q.head ≠ .null) (ptr : β) :
    q.enqueue ptr = some (true, ⟨.node ptr, Function.update q.next ptr q.head⟩) := by
  unfold enqueue exchange
  dsimp only
  rw [if_neg h]
  rfl

omit [DecidableEq β] in
theorem dequeue_tail (next : β → Link β) :
    dequeue ⟨.tail, next⟩ = some (.null, ⟨.tail, next⟩) := rfl

omit [DecidableEq β] in
theorem dequeue_node (b : β) (next : β → Link β) :
    dequeue ⟨.node b, next⟩ = some (.node b, ⟨next b, next⟩) := rfl

end Queue

/-! ## Calls that interleave -/

/-- Where a process is in a call. -/
inductive Caller (β : Type)
  | idle
  /-- `enqueue(ptr)`, before its first exchange. -/
  | enqueue (ptr : β)
  /-- The first exchange gave `prev`. -/
  | linking (ptr : β) (prev : Link β)
  /-- `ptr->next` is written. -/
  | publishing (ptr : β) (prev : Link β)
  /-- `dequeue()`, before its first exchange. -/
  | dequeue
  /-- The first exchange gave `prev`. -/
  | reading (prev : Link β)
  /-- `next` is known. -/
  | restoring (prev next : Link β)

/-- What a call returned: `true` for a block or `false`, a block or `nullptr`. -/
inductive Returned (β : Type)
  | enqueued (ptr : β)
  | refused (ptr : β)
  | dequeued (ptr : β)
  | nothing
deriving DecidableEq

/-- What `dequeue` returned. -/
def Returned.ofLink : Link β → Returned β
  | .node ptr => .dequeued ptr
  | _ => .nothing

/-- The queue with the processes that call it. -/
structure Shared (ι β : Type) where
  queue : Queue β
  callers : ι → Caller β
  failed : Bool
  returned : List (Returned β)

/-- What can happen: a call, the next step of a call, or a write by other code. -/
inductive QueueAction (ι β : Type)
  | enqueue (p : ι) (ptr : β)
  | dequeue (p : ι)
  | step (p : ι)
  | store (ptr : β) (l : Link β)

namespace Shared

variable [DecidableEq ι] [DecidableEq β]

def goto (s : Shared ι β) (p : ι) (c : Caller β) : Shared ι β :=
  { s with callers := Function.update s.callers p c }

/-- The call of `p` returns. -/
def back (s : Shared ι β) (p : ι) (r : Returned β) : Shared ι β :=
  { s with callers := Function.update s.callers p .idle, returned := s.returned ++ [r] }

/-- The next step of the call of `p`. -/
def proceed (s : Shared ι β) (p : ι) : Option (Shared ι β) :=
  match s.callers p with
  | .idle => none
  | .enqueue ptr =>
    let (prev, q) := s.queue.exchange .null
    let s := { s with queue := q }
    some (if prev = .null then s.back p (.refused ptr) else s.goto p (.linking ptr prev))
  | .linking ptr prev =>
    some ({ s with queue := s.queue.link ptr prev }.goto p (.publishing ptr prev))
  | .publishing ptr _ =>
    let (check, q) := s.queue.exchange (.node ptr)
    let s := { s with queue := q }
    some (if check = .null then s.back p (.enqueued ptr) else { s with failed := true })
  | .dequeue =>
    let (prev, q) := s.queue.exchange .null
    let s := { s with queue := q }
    some (if prev = .null then s.back p .nothing else s.goto p (.reading prev))
  | .reading prev => some (s.goto p (.restoring prev (s.queue.after prev)))
  | .restoring prev next =>
    let (check, q) := s.queue.exchange next
    let s := { s with queue := q }
    some (if check = .null then
        s.back p (.ofLink (if prev = .tail then .null else prev))
      else { s with failed := true })

/-- One step; `none` when it cannot be taken. -/
def step (s : Shared ι β) (a : QueueAction ι β) : Option (Shared ι β) :=
  if s.failed then none
  else
    match a with
    | .enqueue p ptr =>
      match s.callers p with
      | .idle => some (s.goto p (.enqueue ptr))
      | _ => none
    | .dequeue p =>
      match s.callers p with
      | .idle => some (s.goto p .dequeue)
      | _ => none
    | .step p => s.proceed p
    | .store ptr l => some { s with queue := s.queue.link ptr l }

omit [DecidableEq ι] [DecidableEq β] in
/-- A new queue that nobody calls. -/
def init (next : β → Link β) : Shared ι β := ⟨.new next, fun _ => .idle, false, []⟩

/-- The queue as a transition system. -/
def system (ι β : Type) [DecidableEq ι] [DecidableEq β] :
    Transition (Shared ι β) (QueueAction ι β) where
  init s := ∃ next, s = init next
  step := step

end Shared

/-! ## A call nobody interferes with -/

section Alone

variable [DecidableEq ι] [DecidableEq β]

/-- **A call of `enqueue` that nobody interferes with is `Queue.enqueue`.** -/
theorem enqueue_alone {s : Shared ι β} {p : ι} {ptr : β} {ok : Bool} {q : Queue β}
    (hidle : s.callers p = .idle) (hrun : s.failed = false)
    (h : s.queue.enqueue ptr = some (ok, q)) :
    ∃ as, (Shared.system ι β).run s (.enqueue p ptr :: as)
      = some { s with
        queue := q
        returned := s.returned ++ [if ok then .enqueued ptr else .refused ptr] } := by
  have hcallers : Function.update s.callers p .idle = s.callers := by
    rw [← hidle, Function.update_eq_self]
  by_cases hnull : s.queue.head = .null
  · simp only [Queue.enqueue, Queue.exchange, hnull, if_true] at h
    obtain ⟨rfl, rfl⟩ := Prod.mk.inj (Option.some.inj h)
    refine ⟨[.step p], ?_⟩
    simp [Transition.run, Shared.system, Shared.step, Shared.proceed,
      Shared.goto, Shared.back, hidle, hrun, hnull, hcallers, Queue.exchange]
  · simp only [Queue.enqueue, Queue.exchange, Queue.link, hnull, if_false, if_true] at h
    obtain ⟨rfl, rfl⟩ := Prod.mk.inj (Option.some.inj h)
    refine ⟨[.step p, .step p, .step p], ?_⟩
    simp [Transition.run, Shared.system, Shared.step, Shared.proceed,
      Shared.goto, Shared.back, hidle, hrun, hnull, hcallers, Queue.exchange, Queue.link]

/-- **A call of `dequeue` that nobody interferes with is `Queue.dequeue`.** -/
theorem dequeue_alone {s : Shared ι β} {p : ι} {ret : Link β} {q : Queue β}
    (hidle : s.callers p = .idle) (hrun : s.failed = false)
    (h : s.queue.dequeue = some (ret, q)) :
    ∃ as, (Shared.system ι β).run s (.dequeue p :: as)
      = some { s with
        queue := q
        returned := s.returned ++ [.ofLink ret] } := by
  have hcallers : Function.update s.callers p .idle = s.callers := by
    rw [← hidle, Function.update_eq_self]
  by_cases hnull : s.queue.head = .null
  · simp only [Queue.dequeue, Queue.exchange, hnull, if_true] at h
    obtain ⟨rfl, rfl⟩ := Prod.mk.inj (Option.some.inj h)
    refine ⟨[.step p], ?_⟩
    simp [Transition.run, Shared.system, Shared.step, Shared.proceed,
      Shared.goto, Shared.back, hidle, hrun, hnull, hcallers, Queue.exchange,
        Returned.ofLink]
  · simp only [Queue.dequeue, Queue.exchange, hnull, if_false, if_true] at h
    obtain ⟨rfl, rfl⟩ := Prod.mk.inj (Option.some.inj h)
    refine ⟨[.step p, .step p, .step p], ?_⟩
    simp [Transition.run, Shared.system, Shared.step, Shared.proceed,
      Shared.goto, Shared.back, hidle, hrun, hnull, hcallers, Queue.exchange, Queue.after]
    rfl

end Alone

end CharmExperiments.Ipc
