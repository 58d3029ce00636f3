import Mathlib.Data.List.Perm.Subperm
import Mathlib.Logic.Relation
import Mathlib.Logic.Function.Basic

/-!
# Processes that block on one channel at a time

A `Reader` is a deterministic process that at any moment waits for a message
on exactly one channel, or has ended. Its configuration pairs the process
state with one queue per channel. `Step` reads the head of the queue the
process waits for; nothing else can happen, so a configuration has at most one
successor and the blocked configuration it drains to is unique
(`blocked_unique`).

What makes such processes confluent is `push_runs`: reading takes from the
heads of the queues and arrival appends to their tails, so draining first and
receiving afterwards leads to the same configuration as receiving first. A
mailbox that drains after every arrival therefore ends where one drain over
everything that arrived ends, whatever the arrival order between channels.

`runs_account` says where every message is: read, in order, or still queued.
-/

namespace CharmExperiments.Lib

/-- A deterministic process that waits on one channel of type `κ` for a message
of type `β`; `waits s = none` means it has ended. -/
structure Reader (σ κ β : Type) where
  waits : σ → Option κ
  read : σ → β → σ

namespace Reader

variable {σ κ β : Type} [DecidableEq κ]

/-- A process with what is queued on each channel and what it has read so far. -/
@[ext] structure Config (σ κ β : Type) where
  state : σ
  queues : κ → List β
  trace : List (κ × β)

/-- A message arrives on channel `k`. -/
def Config.push (c : Config σ κ β) (k : κ) (x : β) : Config σ κ β :=
  { c with queues := Function.update c.queues k (c.queues k ++ [x]) }

/-- The process reads the head of the queue it waits for. -/
inductive Step (R : Reader σ κ β) : Config σ κ β → Config σ κ β → Prop
  | read {c : Config σ κ β} {k : κ} {x : β} {rest : List β}
      (hw : R.waits c.state = some k) (hq : c.queues k = x :: rest) :
      Step R c ⟨R.read c.state x, Function.update c.queues k rest, c.trace ++ [(k, x)]⟩

/-- Any number of reads. -/
abbrev Runs (R : Reader σ κ β) : Config σ κ β → Config σ κ β → Prop :=
  Relation.ReflTransGen (Step R)

/-- Nothing to read: the process has ended, or its channel is empty. -/
def Blocked (R : Reader σ κ β) (c : Config σ κ β) : Prop :=
  ∀ k, R.waits c.state = some k → c.queues k = []

theorem step_deterministic {R : Reader σ κ β} {c d e : Config σ κ β}
    (hd : Step R c d) (he : Step R c e) : d = e := by
  cases hd with
  | read hw hq =>
    cases he with
    | read hw' hq' =>
      obtain rfl := Option.some.inj (hw.symm.trans hw')
      obtain ⟨rfl, rfl⟩ := List.cons.inj (hq.symm.trans hq')
      rfl

theorem blocked_no_step {R : Reader σ κ β} {c d : Config σ κ β}
    (hb : Blocked R c) : ¬ Step R c d := by
  intro h
  cases h with
  | read hw hq =>
    rw [hb _ hw] at hq
    cases hq

/-- A run that stops in a blocked configuration passes every other
configuration the same start can reach. -/
theorem runs_to_blocked {R : Reader σ κ β} {c d e : Config σ κ β}
    (hd : Runs R c d) (he : Runs R c e) (hb : Blocked R e) : Runs R d e := by
  induction hd using Relation.ReflTransGen.head_induction_on with
  | refl => exact he
  | head hstep _ ih =>
    apply ih
    rcases Relation.ReflTransGen.cases_head he with rfl | ⟨m, hm, hme⟩
    · exact absurd hstep (blocked_no_step hb)
    · rw [step_deterministic hstep hm]
      exact hme

/-- The blocked configuration a start drains to is unique. -/
theorem blocked_unique {R : Reader σ κ β} {c d e : Config σ κ β}
    (hd : Runs R c d) (hbd : Blocked R d) (he : Runs R c e) (hbe : Blocked R e) :
    d = e := by
  rcases Relation.ReflTransGen.cases_head (runs_to_blocked hd he hbe) with h | ⟨m, hm, _⟩
  · exact h
  · exact absurd hm (blocked_no_step hbd)

/-! ## Arrival commutes with reading -/

/-- A step reads a head, an arrival appends at a tail. -/
theorem push_step {R : Reader σ κ β} {c d : Config σ κ β} (h : Step R c d)
    (k : κ) (x : β) :
    Step R (c.push k x) (d.push k x) := by
  cases h with
  | @read j y rest hw hq =>
    by_cases hjk : k = j
    · subst hjk
      have hq' : (c.push k x).queues k = y :: (rest ++ [x]) := by
        simp [Config.push, hq]
      have hstep := Step.read (R := R) (c := c.push k x) hw hq'
      rw [show (⟨R.read c.state y, Function.update c.queues k rest, c.trace ++ [(k, y)]⟩ :
            Config σ κ β).push k x
          = ⟨R.read (c.push k x).state y,
              Function.update (c.push k x).queues k (rest ++ [x]),
              (c.push k x).trace ++ [(k, y)]⟩ by
        ext1 <;> simp [Config.push]]
      exact hstep
    · have hq' : (c.push k x).queues j = y :: rest := by
        simp [Config.push, Function.update_of_ne (fun h => hjk h.symm), hq]
      have hstep := Step.read (R := R) (c := c.push k x) hw hq'
      rw [show (⟨R.read c.state y, Function.update c.queues j rest, c.trace ++ [(j, y)]⟩ :
            Config σ κ β).push k x
          = ⟨R.read (c.push k x).state y,
              Function.update (c.push k x).queues j rest,
              (c.push k x).trace ++ [(j, y)]⟩ by
        ext1
        · rfl
        · simp only [Config.push, Function.update_of_ne hjk]
          exact Function.update_comm (fun h => hjk h.symm) _ _ _
        · rfl]
      exact hstep

theorem push_runs {R : Reader σ κ β} {c d : Config σ κ β} (h : Runs R c d)
    (k : κ) (x : β) :
    Runs R (c.push k x) (d.push k x) := by
  induction h with
  | refl => exact .refl
  | tail _ hstep ih => exact ih.tail (push_step hstep k x)

/-! ## Where every message is -/

/-- What a trace read from channel `k`, in order. -/
def readFrom (trace : List (κ × β)) (k : κ) : List β :=
  (trace.filter (fun r => r.1 = k)).map (·.2)

@[simp] theorem readFrom_nil (k : κ) : readFrom ([] : List (κ × β)) k = [] := rfl

@[simp] theorem readFrom_append (t u : List (κ × β)) (k : κ) :
    readFrom (t ++ u) k = readFrom t k ++ readFrom u k := by
  simp [readFrom]

theorem readFrom_single (j k : κ) (x : β) :
    readFrom [(j, x)] k = if j = k then [x] else [] := by
  by_cases h : j = k <;> simp [readFrom, h]

/-- Reading moves a message from the head of its queue to the end of the trace. -/
theorem step_account {R : Reader σ κ β} {c d : Config σ κ β} (h : Step R c d) (k : κ) :
    readFrom d.trace k ++ d.queues k = readFrom c.trace k ++ c.queues k := by
  cases h with
  | @read j y rest hw hq =>
    rw [readFrom_append, readFrom_single]
    by_cases hjk : j = k
    · subst hjk
      simp [hq]
    · simp [hjk, Function.update_of_ne (fun h => hjk h.symm)]

theorem runs_account {R : Reader σ κ β} {c d : Config σ κ β} (h : Runs R c d) (k : κ) :
    readFrom d.trace k ++ d.queues k = readFrom c.trace k ++ c.queues k := by
  induction h with
  | refl => rfl
  | tail _ hstep ih => exact (step_account hstep k).trans ih

/-- A trace whose every channel is accounted for by `arrived` is no longer than
`arrived`: this bounds how long a drain can go on. -/
theorem trace_length_le {trace arrived : List (κ × β)}
    (h : ∀ k, readFrom trace k <+: readFrom arrived k) :
    trace.length ≤ arrived.length := by
  classical
  apply List.Subperm.length_le
  rw [List.subperm_ext_iff]
  rintro ⟨k, x⟩ -
  have hcount : ∀ t : List (κ × β), t.count (k, x) = (readFrom t k).count x := by
    intro t
    induction t with
    | nil => rfl
    | cons r t ih =>
      obtain ⟨j, y⟩ := r
      rw [show (j, y) :: t = [(j, y)] ++ t from rfl, readFrom_append, List.count_append,
        List.count_append, ih, readFrom_single]
      by_cases hjk : j = k
      · subst hjk
        by_cases hyx : y = x <;> simp [hyx]
      · simp [hjk]
  rw [hcount, hcount]
  exact (h k).sublist.count_le x

end Reader

end CharmExperiments.Lib
