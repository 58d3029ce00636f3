import CharmExperiments.Ipc.SizeClasses
import CharmExperiments.Lib.LockedCalls
import CharmExperiments.Lib.Transition

/-!
# A ring of pools and queues

`archive/tests/basic/tester.cc`: every PE puts blocks into its own pool, and takes blocks
out of the pool of the next PE, fills them and puts them into the queue of that PE
(`handle_run`); then it takes what is in its own queue, checks it and frees it
(`handle_block`), until it gets the block that is marked as the last.

The processes interleave at every access of `lput`, `ralloc`, `enqueue` and `dequeue` to a
head or to the link of a block: the calls are those of `Lib.LockedCalls`, on all pools
and queues at once. `ring_sound` says that nothing but the bounds of a buffer can go wrong.

Mirroring notes:
- `translate_address` gives the same block another address; here a block has one name, the
  PE that allocated it and how many it allocated before. `orig` is that name.
- A failed assertion ends the run, and so does a write behind the end of a buffer.
- The pools and queues of the peers are known: the message that starts PE 0 comes when all
  PEs have them.
- Memory is not reused: a PE allocates before it frees.
- `room`, what was passed to `malloc`, and `handled` are kept by no data of the source.
-/

namespace CharmExperiments.Ipc

open CharmExperiments.Lib

def kNumMsgs : Nat := 16

/-- `handle_run`'s `numBlocks`, -/
def numBlocks : Nat := kNumMsgs / 2

/-- and its `maxSize`. -/
def maxSize : Nat := 128

/-- `sizeof(int)`. -/
def intSz : Nat := 4

/-- The size that is asked for, after `rand` gave `r`. -/
def drawnSize (r : Nat) : Nat :=
  let sz := r % maxSize
  let sz := sz + intSz - sz % intSz
  if sz > maxSize then maxSize else sz

/-- A block: who allocated it, and how many blocks before. -/
structure Block (n : Nat) where
  owner : Fin n
  serial : Nat
deriving DecidableEq

/-- The heads of the lists: those of a pool, and that of a queue. -/
inductive Head (n : Nat)
  | pool (pe : Fin n) (pt : Fin kNumCutOffPoints)
  | queue (pe : Fin n)
deriving DecidableEq

/-- Where a PE is in `handle_run`. -/
inductive Pc (n : Nat)
  /-- The message that starts it has not come. -/
  | waiting
  /-- In round `i` of the loop that populates its pool, at its first or second `lput`. -/
  | populating (i : Nat) (second : Bool)
  /-- In that `lput`. -/
  | putting (i : Nat) (second : Bool) (pt : Fin kNumCutOffPoints) (blk : Block n)
  /-- `i` blocks are sent, and a size is drawn next. -/
  | drawing (i : Nat)
  /-- In `ralloc(sz)`, up to its second exchange. -/
  | allocating (i sz : Nat) (pt : Fin kNumCutOffPoints)
  /-- `used` is exchanged next. -/
  | marking (i sz : Nat) (xlatd : Block n)
  /-- `ralloc` has returned `xlatd`. -/
  | filling (i sz : Nat) (xlatd : Block n)
  /-- In `enqueue`, of block number `i`. -/
  | enqueuing (i : Nat) (xlatd : Block n)
  /-- Before `dequeue`. -/
  | receiving
  /-- In `dequeue`. -/
  | dequeuing
  /-- Before `handle_block`. -/
  | handling (block : Block n)
  /-- `CsdExitScheduler`. -/
  | exited

/-- `handle_run` was entered. -/
def Pc.started {n : Nat} : Pc n → Bool
  | .waiting => false
  | _ => true

/-- How a run goes wrong. -/
inductive Trouble
  | assertion
  /-- A write or a read behind the end of a buffer. -/
  | overrun
deriving DecidableEq

/-- What is in the blocks: the members that matter here, the bytes that `ptr` points to,
and the numbers that are there. -/
structure Blocks (n : Nat) where
  size : Block n → Nat
  used : Block n → Bool
  room : Block n → Nat
  words : Block n → Nat → Int

/-- What the PEs share, and where they are. -/
structure Ring (n : Nat) where
  mem : ListCalls (Head n) (Fin n) (Block n)
  blocks : Blocks n
  made : Fin n → Nat
  pcs : Fin n → Pc n
  handled : Fin n → List (Block n)
  trouble : Option Trouble

/-- A PE does its next step; `rand` gives `r` if it is called there. -/
structure RingAction (n : Nat) where
  pe : Fin n
  r : Nat

namespace Ring

variable {n : Nat}

/-- `(mine + 1) % CmiNumPes()`. -/
def theirs (mine : Fin n) : Fin n := ⟨(mine.val + 1) % n, Nat.mod_lt _ mine.pos⟩

def goto (s : Ring n) (p : Fin n) (c : Pc n) : Ring n :=
  { s with pcs := Function.update s.pcs p c }

def fail (s : Ring n) (t : Trouble) : Ring n := { s with trouble := some t }

/-- `malloc(sz)`, and `new block(nullptr, ptr, sz)`. -/
def newBlock (s : Ring n) (p : Fin n) (sz : Nat) : Block n × Ring n :=
  let blk : Block n := ⟨p, s.made p⟩
  (blk, { s with
    mem := s.mem.write blk .null
    blocks := { s.blocks with
      size := Function.update s.blocks.size blk sz
      used := Function.update s.blocks.used blk false
      room := Function.update s.blocks.room blk sz }
    made := Function.update s.made p (s.made p + 1) })

/-- `while (!my_pool->lput(malloc(sz), sz));`, up to the first exchange of an `lput`. -/
def lput (beyond : Nat) (s : Ring n) (p : Fin n) (i : Nat) (second : Bool) : Ring n :=
  let sz := if second then maxSize / 2 else maxSize
  let (blk, s) := s.newBlock p sz
  match sizeClass beyond sz with
  | none => s.goto p (.populating i second)
  | some pt =>
    if sz ≠ cutOffPoint beyond pt then s.goto p (.populating i second)
    else { s with mem := s.mem.start p (.pool p pt) (.push blk) }.goto p
      (.putting i second pt blk)

/-- The loops of `handle_run` that populate and send, after the `lput`. -/
def populated (i : Nat) (second : Bool) : Pc n :=
  if second then if i + 1 < numBlocks then .populating (i + 1) false else .drawing 0
  else .populating i true

/-- The size is drawn, and `ralloc(sz)` is called. -/
def ralloc (beyond : Nat) (s : Ring n) (p : Fin n) (i r : Nat) : Ring n :=
  let sz := drawnSize r
  if sz % intSz ≠ 0 then s.fail .assertion
  else
    match sizeClass beyond sz with
    | none => s
    | some pt =>
      { s with mem := s.mem.start p (.pool (theirs p) pt) .pop }.goto p
      (.allocating i sz pt)

/-- `enqueue(xlatd->orig, xlatd)` is called. -/
def enqueue (s : Ring n) (p : Fin n) (i : Nat) (xlatd : Block n) : Ring n :=
  { s with mem := s.mem.start p (.queue (theirs p)) (.push xlatd) }.goto p
  (.enqueuing i xlatd)

/-- The block is filled: `last` is the first number, and after it there are `sz / intSz`. -/
def fill (s : Ring n) (p : Fin n) (i sz : Nat) (xlatd : Block n) : Ring n :=
  if s.blocks.room xlatd < intSz + sz then s.fail .overrun
  else
    let last : Int := if i + 1 = numBlocks * 2 then 1 else 0
    let words : Nat → Int := fun j =>
      if j = 0 then last else if j ≤ sz / intSz then sz else s.blocks.words xlatd j
    { s with blocks := { s.blocks with
        size := Function.update s.blocks.size xlatd sz
        words := Function.update s.blocks.words xlatd words } }.enqueue p (i + 1) xlatd

/-- `handle_block`. -/
def handleBlock (s : Ring n) (p : Fin n) (block : Block n) : Ring n :=
  let size := s.blocks.size block
  if s.blocks.room block < intSz + size then s.fail .overrun
  else if (List.range (size / intSz)).all fun j => s.blocks.words block (j + 1) = size then
    { s with handled := Function.update s.handled p (block :: s.handled p) }.goto p
      (if s.blocks.words block 0 = 0 then .receiving else .exited)
  else s.fail .assertion

/-- The call of `p` that is at `pc` has returned. -/
def returned (s : Ring n) (p : Fin n) : Pc n → ListReply (Block n) → Ring n
  | .putting i second _ _, .pushed => s.goto p (populated i second)
  | .putting i second _ _, _ => s.goto p (.populating i second)
  | .allocating i sz _, .popped xlatd => s.goto p (.marking i sz xlatd)
  | .allocating i _ _, _ => s.goto p (.drawing i)
  | .enqueuing i _, .pushed =>
    s.goto p (if i < numBlocks * 2 then .drawing i else .receiving)
  | .enqueuing i xlatd, _ => s.enqueue p i xlatd
  | .dequeuing, .popped block => s.goto p (.handling block)
  | _, _ => s.goto p .receiving

/-- What a PE does when it has no call of a list in progress. -/
def goOn (beyond : Nat) (s : Ring n) (p : Fin n) (r : Nat) : Pc n → Option (Ring n)
  | .waiting =>
    -- PE 0 is started by the reduction, and starts the others
    if p.val = 0 ∨ ∃ q : Fin n, q.val = 0 ∧ (s.pcs q).started then
      some (s.goto p (.populating 0 false))
    else none
  | .populating i second => some (s.lput beyond p i second)
  | .drawing i => some (s.ralloc beyond p i r)
  | .marking i sz xlatd =>
    some (if s.blocks.used xlatd then s.fail .assertion
      else { s with blocks := { s.blocks with
          used := Function.update s.blocks.used xlatd true } }.goto p
            (.filling i sz xlatd))
  | .filling i sz xlatd => some (s.fill p i sz xlatd)
  | .receiving => some ({ s with mem := s.mem.start p (.queue p) .pop }.goto p .dequeuing)
  | .handling block => some (s.handleBlock p block)
  | _ => none

/-- One step; `none` when it cannot be taken. -/
def step (beyond : Nat) (s : Ring n) (a : RingAction n) : Option (Ring n) :=
  if s.trouble ≠ none then none
  else
    match s.mem.calls a.pe with
    | some (k, c) =>
      let (mem, turn) := s.mem.proceed a.pe k c
      let s' := { s with mem := mem }
      match turn with
      | .goes => some s'
      | .returns reply => some (s'.returned a.pe (s.pcs a.pe) reply)
      | .fails => some (s'.fail .assertion)
    | none => s.goOn beyond a.pe a.r (s.pcs a.pe)

/-- New pools and queues, in memory with anything in it. -/
def init (next : Block n → Link (Block n)) (blocks : Blocks n) : Ring n :=
  ⟨.init next, blocks, fun _ => 0, fun _ => .waiting, fun _ => [], none⟩

/-- The ring as a transition system. -/
def system (n beyond : Nat) : Transition (Ring n) (RingAction n) where
  init s := ∃ next blocks, s = init next blocks
  step := step beyond

end Ring

end CharmExperiments.Ipc
