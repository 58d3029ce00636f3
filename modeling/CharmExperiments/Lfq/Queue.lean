import CharmExperiments.Lib.Transition
import Mathlib.Algebra.Group.Nat.Defs
import Mathlib.Logic.Function.Basic

/-!
# The queue in shared memory

`archive/lfq/ipc_lfq.hh`: a ring of `N` nodes that any number of producers and
one consumer share. `enqueue` is admitted by `count`, takes its node from
`head` and stores its value under the lock of the node; `dequeue` looks into the
node at `tail`.

Mirroring notes:
- A step is one access to memory that others can see: a `fetch_add`, a
  `fetch_sub`, an `exchange`, the reading or writing of `has_value` (`std::swap`
  does both), or one byte of a `memcpy`. The steps of all calls interleave.
- A `T` is its bytes. `size_t` has 64 bits.
- A failed `assert` ends its process; it stays in `aborted`.
- `admitted`, `dequeued` and `returns` record the values in the order of their
  tickets from `head`, those that `dequeue` returned, and what `enqueue`
  returned on each producer. `Ticket.rank` is the place in `admitted`;
  `accepted` has those whose enqueue returned true. No step reads them.
-/

namespace CharmExperiments.Lfq

open CharmExperiments.Lib

/-- A value of type `T`, with `sizeof(T) = w`. -/
abbrev Bytes (w : Nat) := Fin w → UInt8

/-- `ipc_lfq::node`. -/
structure Node (w : Nat) where
  lock : Bool
  hasValue : Bool
  value : Bytes w

/-- `node::node`; `value` is not initialised. -/
def Node.new {w : Nat} (junk : Bytes w) : Node w := ⟨false, false, junk⟩

/-- An enqueue with its node. -/
structure Ticket (w : Nat) where
  rank : Nat
  slot : Nat
  value : Bytes w

/-- Where an enqueue is with its node; `setValue` is the local `set_value`. -/
inductive Stage
  /-- `while (!node.acquire());` -/
  | acquire
  /-- `std::swap(node.has_value, set_value)` reads, -/
  | load
  /-- and writes. -/
  | store (setValue : Bool)
  /-- `memcpy(node.value, &value, sizeof(T))` is at byte `k`. -/
  | copy (k : Nat) (setValue : Bool)
  /-- `assert(!set_value && node.release())`. -/
  | release (setValue : Bool)
deriving DecidableEq, Repr

/-- The next step of an `enqueue`. -/
inductive Enqueue (w : Nat)
  /-- `this->count.fetch_add`. -/
  | fetchCount (value : Bytes w)
  /-- `this->count.fetch_sub`, to return false. -/
  | undoCount
  /-- `this->head.fetch_add`. -/
  | fetchHead (value : Bytes w)
  | writing (ticket : Ticket w) (stage : Stage)
  | aborted

/-- The next step of a `dequeue`; `result` is the memory it was given. -/
inductive Dequeue (w : Nat)
  /-- `while (!node->acquire());` -/
  | acquire (result : Bytes w)
  /-- `auto ret = node->has_value`. -/
  | load (result : Bytes w)
  /-- `memcpy(result, node->value, sizeof(T))` is at byte `k`. -/
  | copy (k : Nat) (result : Bytes w)
  /-- `node->has_value = false`. -/
  | clear (result : Bytes w)
  /-- `assert(node->release()); if (!ret) return false`. -/
  | release (ret : Bool) (result : Bytes w)
  /-- `if (++(this->tail) >= N) this->tail = 0`. -/
  | advance (result : Bytes w)
  /-- `this->count.fetch_sub; assert(last > 0)`. -/
  | fetchCount (result : Bytes w)
  | aborted

/-- `ipc_lfq`, and the calls in progress. -/
structure Queue (w : Nat) where
  head : BitVec 64
  count : BitVec 64
  tail : Nat
  data : Nat → Node w
  producers : Nat → Option (Enqueue w)
  consumer : Option (Dequeue w)
  calls : Nat
  admitted : List (Bytes w)
  dequeued : List (Bytes w)
  accepted : List Nat
  returns : List (Nat × Bool)

namespace Queue

variable {w : Nat}

/-- `ipc_lfq::ipc_lfq`. -/
def new (junk : Nat → Bytes w) : Queue w where
  head := 0
  count := 0
  tail := 0
  data := fun i => .new (junk i)
  producers := fun _ => none
  consumer := none
  calls := 0
  admitted := []
  dequeued := []
  accepted := []
  returns := []

/-- Producer `p` goes on to `next`. -/
def goto (q : Queue w) (p : Nat) (next : Enqueue w) : Queue w :=
  { q with producers := Function.update q.producers p (some next) }

/-- The enqueue of producer `p` returns. -/
def ret (q : Queue w) (p : Nat) (result : Bool) : Queue w :=
  { q with
    producers := Function.update q.producers p none
    returns := q.returns ++ [(p, result)] }

/-- The consumer goes on to `next`, or is done. -/
def turn (q : Queue w) (next : Option (Dequeue w)) : Queue w :=
  { q with consumer := next }

def setNode (q : Queue w) (i : Nat) (node : Node w) : Queue w :=
  { q with data := Function.update q.data i node }

variable (N : Nat)

/-- `enqueue` at its node. -/
def write (q : Queue w) (p : Nat) (t : Ticket w) : Stage → Queue w
  | .acquire =>
    -- acquire returns whether the lock was free
    let q' := q.setNode t.slot { q.data t.slot with lock := true }
    if (q.data t.slot).lock then q' else q'.goto p (.writing t .load)
  | .load => q.goto p (.writing t (.store (q.data t.slot).hasValue))
  | .store setValue =>
    (q.setNode t.slot { q.data t.slot with hasValue := true }).goto p
      (.writing t (.copy 0 setValue))
  | .copy k setValue =>
    if h : k < w then
      (q.setNode t.slot { q.data t.slot with
        value := Function.update (q.data t.slot).value ⟨k, h⟩ (t.value ⟨k, h⟩) }).goto p
        (.writing t (.copy (k + 1) setValue))
    else q.goto p (.writing t (.release setValue))
  | .release setValue =>
    if setValue then q.goto p .aborted
    else
      let q' := q.setNode t.slot { q.data t.slot with lock := false }
      if (q.data t.slot).lock then
        { q' with accepted := q.accepted ++ [t.rank] }.ret p true
      else q'.goto p .aborted

/-- `ipc_lfq::enqueue`. -/
def enqueue (q : Queue w) (p : Nat) : Enqueue w → Queue w
  | .fetchCount value =>
    let size := q.count.toNat
    let q := { q with count := q.count + 1 }
    if N ≤ size then q.goto p .undoCount else q.goto p (.fetchHead value)
  | .undoCount => { q with count := q.count - 1 }.ret p false
  | .fetchHead value =>
    let head := q.head.toNat % N
    { q with head := q.head + 1, admitted := q.admitted ++ [value] }.goto p
      (.writing ⟨q.admitted.length, head, value⟩ .acquire)
  | .writing t stage => q.write p t stage
  | .aborted => q

/-- `ipc_lfq::dequeue`. -/
def dequeue (q : Queue w) : Dequeue w → Queue w
  | .acquire result =>
    let q' := q.setNode q.tail { q.data q.tail with lock := true }
    if (q.data q.tail).lock then q' else q'.turn (some (.load result))
  | .load result =>
    if (q.data q.tail).hasValue then q.turn (some (.copy 0 result))
    else q.turn (some (.release false result))
  | .copy k result =>
    if h : k < w then
      q.turn (some (.copy (k + 1)
        (Function.update result ⟨k, h⟩ ((q.data q.tail).value ⟨k, h⟩))))
    else q.turn (some (.clear result))
  | .clear result =>
    (q.setNode q.tail { q.data q.tail with hasValue := false }).turn
    (some (.release true result))
  | .release ret result =>
    let q' := q.setNode q.tail { q.data q.tail with lock := false }
    if (q.data q.tail).lock then
      if ret then q'.turn (some (.advance result)) else q'.turn none
    else q'.turn (some .aborted)
  | .advance result =>
    { q with tail := if N ≤ q.tail + 1 then 0 else q.tail + 1 }.turn
    (some (.fetchCount result))
  | .fetchCount result =>
    let last := q.count
    let q := { q with count := q.count - 1 }
    if last = 0 then q.turn (some .aborted)
    else { q with dequeued := q.dequeued ++ [result] }.turn none
  | .aborted => q

/-- A producer calls `enqueue` or goes on with it, or the consumer `dequeue`. -/
inductive Action (w : Nat)
  | call (p : Nat) (value : Bytes w)
  | produce (p : Nat)
  | receive (result : Bytes w)
  | consume

variable (P : Nat)

/-- One step of one of the `P` producers or the consumer. -/
def step (q : Queue w) : Action w → Option (Queue w)
  | .call p value =>
    if p < P ∧ (q.producers p).isNone then
      some ({ q with calls := q.calls + 1 }.goto p (.fetchCount value))
    else none
  | .produce p => if p < P then (q.producers p).map (q.enqueue N p) else none
  | .receive result =>
    if q.consumer.isNone then some (q.turn (some (.acquire result))) else none
  | .consume => q.consumer.map (q.dequeue N)

end Queue

/-- The queue of `N` nodes with `P` producers as a transition system. -/
def system (w N P : Nat) : Transition (Queue w) (Queue.Action w) where
  init q := ∃ junk, q = .new junk
  step := Queue.step N P

/-- Fewer than 2^64 enqueues. -/
def FewCalls {w : Nat} (q : Queue w) : Queue.Action w → Prop
  | .call _ _ => q.calls + 1 < 2 ^ 64
  | _ => True

end CharmExperiments.Lfq
