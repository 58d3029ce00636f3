import CharmExperiments.Lib.Stack
import CharmExperiments.Ipc.QueueInv

/-!
# The order in which the queue gives back

`archive/tests/basic/tester.cc` stops at the block it is sent last, so it takes
the queue to be first-in first-out. It is a stack: `History` is a queue with the
successful calls made on it, and `history_stacked` says that those are a stack's
moves. So the order is kept as long as there is at most one block in the queue
when one is taken out (`fifo_iff`), and lost at the first call that finds two.
`returned_stacked` says the same of calls that interleave.

Mirroring notes:
- A call is one step here, and only calls that succeed are recorded; the others
  change nothing.
- Other code may write `next` of a block that is in no queue (`store`).
-/

namespace CharmExperiments.Ipc

open CharmExperiments.Lib

variable {ι β : Type}

/-- The queue, with the successful calls. -/
structure History (β : Type) where
  queue : Queue β
  calls : List (Move β)

/-- A call that succeeds, or a write by other code. -/
inductive HistoryAction (β : Type)
  | enqueue (ptr : β)
  | dequeue
  | store (ptr : β) (l : Link β)

namespace History

/-- The blocks passed to `enqueue`, in order. -/
def enqueued (h : History β) : List β := pushed h.calls

/-- The blocks `dequeue` returned, in order. -/
def dequeued (h : History β) : List β := popped h.calls

/-- Blocks were dequeued in the order they were enqueued. -/
def Fifo (h : History β) : Prop := h.dequeued <+: h.enqueued

/-- Each `dequeue` was called when at most one block was in the queue. -/
def OneOutstanding (h : History β) : Prop := OneDeep h.calls

/-- A block is enqueued, or written by other code, only while it is not in the queue. -/
def Owned (h : History β) : HistoryAction β → Prop
  | .enqueue ptr | .store ptr _ => ∀ L, Linked h.queue.next h.queue.head L → ptr ∉ L
  | .dequeue => True

variable [DecidableEq β]

/-- One call; `none` when it does not succeed. -/
def step (h : History β) : HistoryAction β → Option (History β)
  | .enqueue ptr =>
    match h.queue.enqueue ptr with
    | some (true, q) => some ⟨q, h.calls ++ [.push ptr]⟩
    | _ => none
  | .dequeue =>
    match h.queue.dequeue with
    | some (.node ptr, q) => some ⟨q, h.calls ++ [.pop ptr]⟩
    | _ => none
  | .store ptr l => some { h with queue := h.queue.link ptr l }

/-- Successful calls, from a new queue on. -/
def system (β : Type) [DecidableEq β] : Transition (History β) (HistoryAction β) where
  init h := ∃ next, h = ⟨.new next, []⟩
  step := step

variable {h h' : History β} {L : List β}

theorem step_stacked {a : HistoryAction β} (hlinked : Linked h.queue.next h.queue.head L)
    (hstacked : Stacked h.calls L) (hown : h.Owned a) (hs : h.step a = some h') :
    ∃ L', Linked h'.queue.next h'.queue.head L' ∧ Stacked h'.calls L' := by
  obtain ⟨⟨head, next⟩, calls⟩ := h
  cases a with
  | enqueue ptr =>
    have hmem : ptr ∉ L := hown L hlinked
    simp only [step, Queue.enqueue_open hlinked.ne_null] at hs
    obtain rfl := Option.some.inj hs
    refine ⟨ptr :: L, ⟨rfl, ?_⟩, hstacked.push hmem⟩
    show Linked (Function.update next ptr head) (Function.update next ptr head ptr) L
    rw [Function.update_self]
    exact (linked_update hmem).mpr hlinked
  | dequeue =>
    cases head with
    | null => exact (hlinked.ne_null rfl).elim
    | tail => cases hs
    | node ptr =>
      simp only [step, Queue.dequeue_node] at hs
      obtain rfl := Option.some.inj hs
      obtain ⟨rest, rfl, hrest⟩ := linked_node.mp hlinked
      exact ⟨rest, hrest, hstacked.pop⟩
  | store ptr l =>
    obtain rfl := Option.some.inj hs
    exact ⟨L, (linked_update (hown L hlinked)).mpr hlinked, hstacked⟩

/-- **The calls are a stack's moves.** -/
theorem history_stacked (hreach : (system β).Reachable Owned h) :
    ∃ L, Linked h.queue.next h.queue.head L ∧ Stacked h.calls L := by
  refine hreach.invariant
    (I := fun h => ∃ L, Linked h.queue.next h.queue.head L ∧ Stacked h.calls L) ?_ ?_
  · rintro h ⟨next, rfl⟩
    exact ⟨[], rfl, .nil⟩
  · rintro h a h' ⟨L, hlinked, hstacked⟩ hown hs
    exact step_stacked hlinked hstacked hown hs

/-- **The queue is first-in first-out exactly while no `dequeue` finds a second block.** -/
theorem fifo_iff (hreach : (system β).Reachable Owned h) : h.Fifo ↔ h.OneOutstanding := by
  obtain ⟨L, _, hstacked⟩ := history_stacked hreach
  exact popped_prefix_iff hstacked

omit [DecidableEq β] in
theorem owned_new {next : β → Link β} (ptr : β) :
    (⟨.new next, []⟩ : History β).Owned (.enqueue ptr) := by
  intro L hL
  rw [linked_tail.mp hL]
  exact List.not_mem_nil

/-- A block that goes out before the next comes in. -/
theorem fifo_iff_turns :
    ∃ h, (system Nat).run ⟨.new fun _ => .null, []⟩ [.enqueue 0, .dequeue] = some h ∧
      (h.Fifo ↔ h.OneOutstanding) := by
  refine ⟨_, rfl, fifo_iff ?_⟩
  have hfirst : (system Nat).Reachable Owned _ :=
    .step (.init ⟨fun _ => .null, rfl⟩) (owned_new 0) rfl
  exact hfirst.step (a := .dequeue) trivial rfl

/-- Of two blocks, the one enqueued last comes out first. -/
theorem last_first :
    ∃ h, (system Nat).Reachable Owned h ∧ h.enqueued = [0, 1] ∧ h.dequeued = [1] ∧
      ¬h.Fifo := by
  have hfirst : (system Nat).Reachable Owned _ :=
    .step (.init ⟨fun _ => .null, rfl⟩) (owned_new 0) rfl
  refine ⟨_, .step (a := .dequeue) (.step (a := .enqueue 1) hfirst ?_ rfl) trivial rfl,
    rfl, rfl, fun hfifo => ?_⟩
  · intro L hL
    obtain ⟨rest, rfl, hrest⟩ := linked_node.mp hL
    obtain rfl := linked_tail.mp hrest
    exact fun hmem => by cases List.mem_singleton.mp hmem
  · cases (List.cons_prefix_cons.mp hfifo).1

end History

/-! ## Calls that interleave -/

/-- What a return means for the list. -/
def Returned.move? : Returned β → Option (Move β)
  | .enqueued ptr => some (.push ptr)
  | .dequeued ptr => some (.pop ptr)
  | .refused _ | .nothing => none

namespace Shared

variable [DecidableEq ι] [DecidableEq β]

/-- **Whatever the interleaving, the calls that succeed are a stack's moves**, in the
order they return. -/
theorem returned_stacked {s : Shared ι β} (h : (system ι β).Reachable Owned s) :
    ∃ L, s.Content L ∧ Stacked (s.returned.filterMap Returned.move?) L := by
  have hinv : ∃ L, QueueInv s L ∧ Stacked (s.returned.filterMap Returned.move?) L := by
    refine h.invariant (I := fun s : Shared ι β =>
      ∃ L, QueueInv s L ∧ Stacked (s.returned.filterMap Returned.move?) L) ?_ ?_
    · rintro s ⟨next, rfl⟩
      exact ⟨[], init_inv next, .nil⟩
    · rintro s a s' ⟨L, hinv, hstacked⟩ hown hs
      obtain ⟨L', hinv', hchanges⟩ := step_inv hinv hown hs
      refine ⟨L', hinv', ?_⟩
      cases hchanges with
      | enqueued ptr hret =>
        have hmem : ptr ∉ L := (List.nodup_cons.mp hinv'.nodup).1
        rw [hret, List.filterMap_append]
        exact hstacked.push hmem
      | dequeued ptr hret hL =>
        subst hL
        rw [hret, List.filterMap_append]
        exact hstacked.pop
      | refused ptr hret =>
        rw [hret, List.filterMap_append]
        exact (List.append_nil _).symm ▸ hstacked
      | nothing hret =>
        rw [hret, List.filterMap_append]
        exact (List.append_nil _).symm ▸ hstacked
      | inside hret =>
        rw [hret]
        exact hstacked
  obtain ⟨L, hinv, hstacked⟩ := hinv
  exact ⟨L, hinv.content, hstacked⟩

end Shared

end CharmExperiments.Ipc
