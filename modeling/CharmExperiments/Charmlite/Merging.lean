import CharmExperiments.Charmlite.Reduction

/-!
# charmlite: which messages a merge keeps

`converse_combiner_` of `archive/charmlite/include/reduction.hh` once more, with its
messages told apart: which of them a combiner returns, which are freed, and which are
left in `remote` for Converse. A combiner may choose anew at each call. As long as it
returns one of the two messages it was passed, all is well: the result holds the fold,
and of the messages that came in all others are left in `remote`, each once. What it
allocates is lost: the sum is freed and stays the sum. So a merge is sound if and only
if no call of the fold allocates (`converseCombiner_sound_iff`).

Where the combiner is the same at each call, the merge is the one of `Reduction`
(`combineFrom_combineAll`).

Mirroring notes:
- A pointer is a number, and a new message gets one that was not used before. So a
  pointer to a freed message never becomes a pointer to a later one.
- A combiner that keeps a state is a family: what it does at its first call, its
  second, and so on. It may change both messages.
- A freed message holds what it held; that it was freed is in the log. No function
  reads the log.
-/

namespace CharmExperiments.Charmlite

/-- `message*`. -/
abbrev MessagePtr := Nat

/-- What is done with messages. -/
inductive MergeEvent
  /-- They were passed to the combiner. -/
  | called (lhs rhs : MessagePtr)
  /-- The combiner made the message. -/
  | allocated (msg : MessagePtr)
  /-- `message::free`. -/
  | freed (msg : MessagePtr)
  /-- `converse_combiner_` returned the message. -/
  | returned (msg : MessagePtr)
deriving DecidableEq, Repr

/-- The messages that are passed on. -/
def MergeEvent.uses : MergeEvent → List MessagePtr
  | .called lhs rhs => [lhs, rhs]
  | .returned msg => [msg]
  | .allocated _ | .freed _ => []

/-- A message was passed on after it was freed. -/
def UsedFreed (log : List MergeEvent) : Prop :=
  ∃ before e after, log = before ++ e :: after ∧ ∃ m ∈ e.uses, .freed m ∈ before

/-- All messages, up to the next new one. -/
structure Messages (T : Type) where
  contents : MessagePtr → DataMessage T
  next : MessagePtr
  log : List MergeEvent

namespace Messages

variable {T : Type}

def record (s : Messages T) (e : MergeEvent) : Messages T :=
  { s with log := s.log ++ [e] }

/-- `message::free`. -/
def free (s : Messages T) (msg : MessagePtr) : Messages T := s.record (.freed msg)

/-- `comb(lhs, rhs)`: the message that is returned. -/
def call (s : Messages T) (comb : Combiner T) (lhs rhs : MessagePtr) :
    MessagePtr × Messages T :=
  let (l, r, combined) := comb (s.contents lhs) (s.contents rhs)
  let s := { s with contents := Function.update (Function.update s.contents lhs l) rhs r }
  let s := s.record (.called lhs rhs)
  match combined with
  | .lhs => (lhs, s)
  | .rhs => (rhs, s)
  | .fresh msg =>
    let s' := { s with contents := Function.update s.contents s.next msg, next := s.next + 1 }
    (s.next, s'.record (.allocated s.next))

end Messages

/-- What `CmiReduce` passes: the messages are there, and no two of them are one. -/
structure Merge (T : Type) where
  contents : MessagePtr → DataMessage T
  next : MessagePtr
  own : MessagePtr
  remote : List MessagePtr
  nodup : (own :: remote).Nodup
  old : ∀ m ∈ own :: remote, m < next

/-- What comes out of a merge. -/
structure Merged (T : Type) where
  sum : MessagePtr
  remote : List MessagePtr
  size : Nat
  messages : Messages T

section Model

variable {T : Type}

/-- The loop of `converse_combiner_` from call `k` on: the sum, what is in `remote`
from here on, and the messages. -/
def combineFrom (comb : Nat → Combiner T) : Nat → MessagePtr → List MessagePtr →
    Messages T →
    MessagePtr × List MessagePtr × Messages T
  | _, sum, [], s => (sum, [], s)
  | k, lhs, rhs :: remote, s =>
    let (res, s) := s.call (comb k) lhs rhs
    if res = lhs then
      let (sum, left, s) := combineFrom comb (k + 1) lhs remote s
      (sum, rhs :: left, s)
    else if res = rhs then
      -- swapped: lhs is in remote from now on
      let (sum, left, s) := combineFrom comb (k + 1) rhs remote s
      (sum, lhs :: left, s)
    else
      -- lhs is a reference to the sum, and res goes nowhere
      let (sum, left, s) := combineFrom comb (k + 1) lhs remote (s.free lhs)
      (sum, rhs :: left, s)

/-- `converse_combiner_`; a null combiner that is called has no result. -/
def Merge.converseCombiner (table : List (Nat → Combiner T)) (M : Merge T) :
    Option (Merged T) := do
  let s : Messages T := ⟨M.contents, M.next, []⟩
  let comb := (M.contents M.own).combiner.bind (functionFor table)
  let (sum, remote, s) ← if M.remote = [] then some (M.own, [], s)
    else comb.map fun comb => combineFrom comb 0 M.own M.remote s
  return ⟨sum, remote, (s.contents sum).totalSize, s.record (.returned sum)⟩

/-! ## What is asked of it -/

/-- What the message holds that a combiner returns. -/
def returnedContents : DataMessage T × DataMessage T × Combined T → DataMessage T
  | (lhs, _, .lhs) => lhs
  | (_, rhs, .rhs) => rhs
  | (_, _, .fresh msg) => msg

/-- What the other one holds then. -/
def leftContents : DataMessage T × DataMessage T × Combined T → DataMessage T
  | (_, rhs, .lhs) => rhs
  | (lhs, _, .rhs) => lhs
  | (lhs, _, .fresh _) => lhs

/-- The left fold, from call `k` on. -/
def foldFrom (comb : Nat → Combiner T) :
    Nat → DataMessage T → List (DataMessage T) → DataMessage T
  | _, sum, [] => sum
  | k, sum, msg :: msgs => foldFrom comb (k + 1) (returnedContents (comb k sum msg)) msgs

/-- A combiner returned one of the messages that it was passed. -/
def Reused : DataMessage T × DataMessage T × Combined T → Prop
  | (_, _, .lhs) => True
  | (_, _, .rhs) => True
  | (_, _, .fresh _) => False

/-- Each call of the fold does. -/
def ReusesFrom (comb : Nat → Combiner T) : Nat → DataMessage T → List (DataMessage T) →
    Prop
  | _, _, [] => True
  | k, sum, msg :: msgs =>
    Reused (comb k sum msg) ∧
      ReusesFrom comb (k + 1) (returnedContents (comb k sum msg)) msgs

/-- The merge of `M` by `comb` is sound. -/
structure Merged.Sound (M : Merge T) (comb : Nat → Combiner T) (r : Merged T) : Prop where
  value : r.messages.contents r.sum =
    foldFrom comb 0 (M.contents M.own) (M.remote.map M.contents)
  unfreed : ¬ UsedFreed r.messages.log
  owned : ∀ m, m ∈ M.own :: M.remote ∨ .allocated m ∈ r.messages.log → m ≠ r.sum →
    r.messages.log.count (.freed m) + r.remote.count m = 1

end Model

/-! ## A use after a free -/

section Log

variable {log more : List MergeEvent}

/-- Nothing is taken back. -/
theorem UsedFreed.append (h : UsedFreed log) (more : List MergeEvent) :
    UsedFreed (log ++ more) := by
  obtain ⟨before, e, after, hlog, hm⟩ := h
  exact ⟨before, e, after ++ more, by rw [hlog, List.append_assoc, List.cons_append], hm⟩

theorem usedFreed_snoc {e : MergeEvent} {m : MessagePtr} (hfreed : .freed m ∈ log)
    (huse : m ∈ e.uses) : UsedFreed (log ++ [e]) :=
  ⟨log, e, [], rfl, m, huse, hfreed⟩

/-- Without a free there is none. -/
theorem not_usedFreed (h : ∀ m, .freed m ∉ log) : ¬ UsedFreed log := by
  rintro ⟨before, e, after, hlog, m, _, hfreed⟩
  exact h m (hlog ▸ List.mem_append_left _ hfreed)

end Log

/-! ## One call -/

section Call

variable {T : Type} {s : Messages T} {comb : Combiner T} {lhs rhs m : MessagePtr}

/-- The combiner returns its first message. -/
theorem call_of_lhs {l r : DataMessage T}
    (h : comb (s.contents lhs) (s.contents rhs) = (l, r, .lhs)) :
    s.call comb lhs rhs = (lhs,
      { s with
        contents := Function.update (Function.update s.contents lhs l) rhs r
        log := s.log ++ [.called lhs rhs] }) := by
  unfold Messages.call
  rw [h]
  rfl

/-- It returns the second. -/
theorem call_of_rhs {l r : DataMessage T}
    (h : comb (s.contents lhs) (s.contents rhs) = (l, r, .rhs)) :
    s.call comb lhs rhs = (rhs,
      { s with
        contents := Function.update (Function.update s.contents lhs l) rhs r
        log := s.log ++ [.called lhs rhs] }) := by
  unfold Messages.call
  rw [h]
  rfl

/-- It returns a new one. -/
theorem call_of_fresh {l r msg : DataMessage T}
    (h : comb (s.contents lhs) (s.contents rhs) = (l, r, .fresh msg)) :
    (s.call comb lhs rhs).1 = s.next ∧
      (s.call comb lhs rhs).2.log = s.log ++ [.called lhs rhs] ++ [.allocated s.next] := by
  unfold Messages.call
  rw [h]
  exact ⟨rfl, rfl⟩

/-- In each case the call is in the log. -/
theorem call_log (s : Messages T) (comb : Combiner T) (lhs rhs : MessagePtr) : ∃ more,
    (s.call comb lhs rhs).2.log = s.log ++ [.called lhs rhs] ++ more := by
  rcases h : comb (s.contents lhs) (s.contents rhs) with ⟨l, r, _ | _ | msg⟩
  · exact ⟨[], by rw [call_of_lhs h, List.append_nil]⟩
  · exact ⟨[], by rw [call_of_rhs h, List.append_nil]⟩
  · exact ⟨_, (call_of_fresh h).2⟩

end Call

/-! ## The loop -/

section Loop

variable {T : Type} {comb : Nat → Combiner T} {k : Nat} {lhs rhs : MessagePtr}
  {remote : List MessagePtr} {s : Messages T}

/-- The first message was returned. -/
theorem combineFrom_of_lhs (h : (s.call (comb k) lhs rhs).1 = lhs) :
    combineFrom comb k lhs (rhs :: remote) s =
      let r := combineFrom comb (k + 1) lhs remote (s.call (comb k) lhs rhs).2
      (r.1, rhs :: r.2.1, r.2.2) := by
  rw [combineFrom]
  exact if_pos h

/-- The second was. -/
theorem combineFrom_of_rhs (hne : rhs ≠ lhs) (h : (s.call (comb k) lhs rhs).1 = rhs) :
    combineFrom comb k lhs (rhs :: remote) s =
      let r := combineFrom comb (k + 1) rhs remote (s.call (comb k) lhs rhs).2
      (r.1, lhs :: r.2.1, r.2.2) := by
  rw [combineFrom]
  exact (if_neg fun heq => hne (h.symm.trans heq)).trans (if_pos h)

/-- Neither was. -/
theorem combineFrom_of_fresh (hl : (s.call (comb k) lhs rhs).1 ≠ lhs)
    (hr : (s.call (comb k) lhs rhs).1 ≠ rhs) :
    combineFrom comb k lhs (rhs :: remote) s =
      let r := combineFrom comb (k + 1) lhs remote ((s.call (comb k) lhs rhs).2.free lhs)
      (r.1, rhs :: r.2.1, r.2.2) := by
  rw [combineFrom]
  exact (if_neg hl).trans (if_neg hr)

/-- One round: what the rest of the loop goes on with. -/
theorem combineFrom_cons (comb : Nat → Combiner T) (k : Nat) (lhs rhs : MessagePtr)
    (remote : List MessagePtr) (s : Messages T) : ∃ sum s',
    (combineFrom comb k lhs (rhs :: remote) s).2.2 =
    (combineFrom comb (k + 1) sum remote s').2.2 ∧
    (combineFrom comb k lhs (rhs :: remote) s).1 =
    (combineFrom comb (k + 1) sum remote s').1 ∧
    ∃ more, s'.log = s.log ++ [.called lhs rhs] ++ more := by
  obtain ⟨more, hlog⟩ := call_log s (comb k) lhs rhs
  by_cases hl : (s.call (comb k) lhs rhs).1 = lhs
  · rw [combineFrom_of_lhs hl]
    exact ⟨_, _, rfl, rfl, more, hlog⟩
  by_cases hr : (s.call (comb k) lhs rhs).1 = rhs
  · rw [combineFrom_of_rhs (hr ▸ hl) hr]
    exact ⟨_, _, rfl, rfl, more, hlog⟩
  · rw [combineFrom_of_fresh hl hr]
    refine ⟨_, _, rfl, rfl, more ++ [.freed lhs], ?_⟩
    show (s.call (comb k) lhs rhs).2.log ++ [.freed lhs] = _
    rw [hlog, List.append_assoc _ more]

/-- The log of the loop begins with what was in it. -/
theorem combineFrom_log (comb : Nat → Combiner T) (remote : List MessagePtr) :
    ∀ (k : Nat) (sum : MessagePtr) (s : Messages T), ∃ more,
      (combineFrom comb k sum remote s).2.2.log = s.log ++ more := by
  induction remote with
  | nil => exact fun _ _ s => ⟨[], (List.append_nil s.log).symm⟩
  | cons rhs remote ih =>
    intro k lhs s
    obtain ⟨sum, s', heq, _, more, hlog⟩ := combineFrom_cons comb k lhs rhs remote s
    obtain ⟨more', hlog'⟩ := ih (k + 1) sum s'
    refine ⟨.called lhs rhs :: more ++ more', ?_⟩
    rw [heq, hlog', hlog]
    simp only [List.append_assoc, List.cons_append, List.nil_append]

/-- A sum that was freed is passed on, to the combiner or as the result. -/
theorem combineFrom_freed (comb : Nat → Combiner T) (k : Nat) {sum : MessagePtr}
    (remote : List MessagePtr) {s : Messages T} (h : .freed sum ∈ s.log) :
    UsedFreed ((combineFrom comb k sum remote s).2.2.log ++
      [.returned (combineFrom comb k sum remote s).1]) := by
  cases remote with
  | nil => exact usedFreed_snoc h (List.mem_singleton_self _)
  | cons rhs remote =>
    obtain ⟨sum', s', heq, _, more, hlog⟩ := combineFrom_cons comb k sum rhs remote s
    obtain ⟨more', hlog'⟩ := combineFrom_log comb remote (k + 1) sum' s'
    have huse : UsedFreed (s.log ++ [.called sum rhs]) :=
      usedFreed_snoc h (List.mem_cons_self ..)
    rw [heq, hlog', hlog]
    exact ((huse.append more).append more').append _

/-- A round in which one of the two messages was returned: it is the sum, and the other
one stays in `remote`. -/
structure MergeRound (s : Messages T) (r : DataMessage T × DataMessage T × Combined T)
    (lhs rhs sum other : MessagePtr) (s' : Messages T) : Prop where
  perm : [sum, other].Perm [lhs, rhs]
  value : s'.contents sum = returnedContents r
  left : s'.contents other = leftContents r
  frame : ∀ m, m ∉ [lhs, rhs] → s'.contents m = s.contents m
  next : s'.next = s.next
  log : s'.log = s.log ++ [.called lhs rhs]

/-- The messages are changed where they are. -/
theorem update_frame {f : MessagePtr → DataMessage T} {l r : DataMessage T}
    {m : MessagePtr}
    (h : m ∉ [lhs, rhs]) : Function.update (Function.update f lhs l) rhs r m = f m := by
  have hl : m ≠ lhs := fun heq => h (heq ▸ List.mem_cons_self ..)
  have hr : m ≠ rhs := fun heq =>
    h (heq ▸ List.mem_cons_of_mem _ (List.mem_singleton_self _))
  rw [Function.update_of_ne hr, Function.update_of_ne hl]

/-- **One round of the loop.** Either one of the messages was returned, or the sum is
freed and stays the sum. -/
theorem combineFrom_round (comb : Nat → Combiner T) (k : Nat)
    {r : DataMessage T × DataMessage T × Combined T}
    (h : comb k (s.contents lhs) (s.contents rhs) = r)
    (hnodup : (lhs :: rhs :: remote).Nodup)
    (hold : ∀ m ∈ lhs :: rhs :: remote, m < s.next) :
    (Reused r ∧ ∃ sum other s', MergeRound s r lhs rhs sum other s' ∧
      combineFrom comb k lhs (rhs :: remote) s =
        let q := combineFrom comb (k + 1) sum remote s'
        (q.1, other :: q.2.1, q.2.2)) ∨
    (¬ Reused r ∧ ∃ s', .freed lhs ∈ s'.log ∧
      combineFrom comb k lhs (rhs :: remote) s =
        let q := combineFrom comb (k + 1) lhs remote s'
        (q.1, rhs :: q.2.1, q.2.2)) := by
  have hne : lhs ≠ rhs := fun heq =>
    (List.nodup_cons.mp hnodup).1 (heq ▸ List.mem_cons_self ..)
  have hl : lhs < s.next := hold lhs (List.mem_cons_self ..)
  have hr : rhs < s.next := hold rhs (List.mem_cons_of_mem _ (List.mem_cons_self ..))
  -- which of the three the combiner returned
  obtain ⟨l, r', _ | _ | msg⟩ := r
  · refine Or.inl ⟨trivial, lhs, rhs, (s.call (comb k) lhs rhs).2, ?_, ?_⟩
    · rw [call_of_lhs h]
      refine ⟨List.Perm.refl _, ?_, Function.update_self .., fun m hm =>
        update_frame hm, rfl, rfl⟩
      exact (Function.update_of_ne hne ..).trans (Function.update_self ..)
    · exact combineFrom_of_lhs (congrArg Prod.fst (call_of_lhs h))
  · refine Or.inl ⟨trivial, rhs, lhs, (s.call (comb k) lhs rhs).2, ?_, ?_⟩
    · rw [call_of_rhs h]
      refine ⟨List.Perm.swap .., Function.update_self .., ?_, fun m hm =>
        update_frame hm, rfl, rfl⟩
      exact (Function.update_of_ne hne ..).trans (Function.update_self ..)
    · exact combineFrom_of_rhs hne.symm (congrArg Prod.fst (call_of_rhs h))
  · have hres := (call_of_fresh h).1
    refine Or.inr ⟨id, (s.call (comb k) lhs rhs).2.free lhs, ?_, ?_⟩
    · exact List.mem_append_right _ (List.mem_singleton_self _)
    · exact combineFrom_of_fresh (hres ▸ Nat.ne_of_gt hl) (hres ▸ Nat.ne_of_gt hr)

/-- What the loop keeps while one of the messages is returned each time. -/
structure Kept (comb : Nat → Combiner T) (k : Nat) (lhs : MessagePtr)
    (remote : List MessagePtr) (s : Messages T)
    (r : MessagePtr × List MessagePtr × Messages T) : Prop where
  value : r.2.2.contents r.1 = foldFrom comb k (s.contents lhs) (remote.map s.contents)
  perm : (r.1 :: r.2.1).Perm (lhs :: remote)
  frame : ∀ m, m ∉ lhs :: remote → r.2.2.contents m = s.contents m
  log : ∃ calls, r.2.2.log = s.log ++ calls ∧ ∀ e ∈ calls, ∃ l r, e = .called l r

namespace MergeRound

variable {r : DataMessage T × DataMessage T × Combined T} {sum other : MessagePtr}
  {s' : Messages T}

/-- The messages of the next rounds are as they were, -/
theorem map_eq (h : MergeRound s r lhs rhs sum other s')
    (hnodup : (lhs :: rhs :: remote).Nodup) :
    remote.map s'.contents = remote.map s.contents := by
  refine List.map_congr_left fun m hm => h.frame m fun hmem => ?_
  have hdisjoint : [lhs, rhs].Disjoint remote := List.disjoint_of_nodup_append hnodup
  exact hdisjoint hmem hm

/-- they are still all different, -/
theorem perm_cons (h : MergeRound s r lhs rhs sum other s') (remote : List MessagePtr) :
    (sum :: other :: remote).Perm (lhs :: rhs :: remote) :=
  h.perm.append_right remote

theorem nodup (h : MergeRound s r lhs rhs sum other s')
    (hnodup : (lhs :: rhs :: remote).Nodup) : (sum :: remote).Nodup := by
  have hall := ((h.perm_cons remote).nodup_iff).mpr hnodup
  exact hall.sublist ((List.sublist_cons_self other remote).cons_cons sum)

/-- and old. -/
theorem old (h : MergeRound s r lhs rhs sum other s')
    (hold : ∀ m ∈ lhs :: rhs :: remote, m < s.next) :
    ∀ m ∈ sum :: remote, m < s'.next := by
  intro m hm
  rw [h.next]
  refine hold m ((h.perm_cons remote).mem_iff.mp ?_)
  rcases List.mem_cons.mp hm with rfl | hm
  · exact List.mem_cons_self ..
  · exact List.mem_cons_of_mem _ (List.mem_cons_of_mem _ hm)

/-- The one that stays in `remote` is not touched any more. -/
theorem other_not_mem (h : MergeRound s r lhs rhs sum other s')
    (hnodup : (lhs :: rhs :: remote).Nodup) : other ∉ sum :: remote := by
  have hall := ((h.perm_cons remote).nodup_iff).mpr hnodup
  have hswap := (List.Perm.swap sum other remote).nodup_iff.mpr hall
  exact (List.nodup_cons.mp hswap).1

end MergeRound

/-- The loop after such a round. -/
theorem Kept.cons {sum other : MessagePtr} {s' : Messages T}
    {q : MessagePtr × List MessagePtr × Messages T}
    (hround : MergeRound s (comb k (s.contents lhs) (s.contents rhs)) lhs
      rhs sum other s')
    (hnodup : (lhs :: rhs :: remote).Nodup) (h : Kept comb (k + 1) sum remote s' q) :
    Kept comb k lhs (rhs :: remote) s (q.1, other :: q.2.1, q.2.2) := by
  refine ⟨?_, ?_, fun m hm => ?_, ?_⟩
  · rw [h.value, hround.value, hround.map_eq hnodup]
    rfl
  · calc q.1 :: other :: q.2.1
      _ |>.Perm (other :: q.1 :: q.2.1) := List.Perm.swap ..
      _ |>.Perm (other :: sum :: remote) := h.perm.cons other
      _ |>.Perm (sum :: other :: remote) := List.Perm.swap ..
      _ |>.Perm (lhs :: rhs :: remote) := hround.perm_cons remote
  · have hm' : m ∉ sum :: other :: remote := fun hmem =>
      hm ((hround.perm_cons remote).mem_iff.mp hmem)
    rw [h.frame m fun hmem => hm' ?_, hround.frame m fun hmem => hm ?_]
    · exact List.mem_append_left remote hmem
    · rcases List.mem_cons.mp hmem with rfl | hmem
      · exact List.mem_cons_self ..
      · exact List.mem_cons_of_mem _ (List.mem_cons_of_mem _ hmem)
  · obtain ⟨calls, hlog, hcalls⟩ := h.log
    refine ⟨.called lhs rhs :: calls, ?_, fun e he => ?_⟩
    -- nothing is freed: the log has calls only
    · rw [hlog, hround.log, List.append_assoc]
      rfl
    · rcases List.mem_cons.mp he with rfl | he
      · exact ⟨lhs, rhs, rfl⟩
      · exact hcalls e he

/-- **The loop keeps everything** when each call of the fold returns a message that it
was passed. -/
theorem combineFrom_kept (comb : Nat → Combiner T) (remote : List MessagePtr) :
    ∀ (k : Nat) (lhs : MessagePtr) (s : Messages T), (lhs :: remote).Nodup →
      (∀ m ∈ lhs :: remote, m < s.next) →
      ReusesFrom comb k (s.contents lhs) (remote.map s.contents) →
      Kept comb k lhs remote s (combineFrom comb k lhs remote s) := by
  induction remote with
  | nil =>
    intro k sum s _ _ _
    have hlog : s.log = s.log ++ [] := (List.append_nil s.log).symm
    exact ⟨rfl, List.Perm.refl _, fun _ _ => rfl, [], hlog, fun _ he => by cases he⟩
  | cons rhs remote ih =>
    intro k lhs s hnodup hold ⟨hreused, hrest⟩
    rcases combineFrom_round comb k rfl hnodup hold with ⟨_, sum, other, s', hround,
      heq⟩ | ⟨hnot, _⟩
    · rw [heq]
      refine (ih (k + 1) sum s' (hround.nodup hnodup)
        (hround.old hold) ?_).cons hround hnodup
      rw [hround.value, hround.map_eq hnodup]
      exact hrest
    · exact absurd hreused hnot

/-- **A call that allocates leaves the loop with a sum that was freed.** -/
theorem combineFrom_usedFreed (comb : Nat → Combiner T) (remote : List MessagePtr) :
    ∀ (k : Nat) (lhs : MessagePtr) (s : Messages T), (lhs :: remote).Nodup →
      (∀ m ∈ lhs :: remote, m < s.next) →
      ¬ ReusesFrom comb k (s.contents lhs) (remote.map s.contents) →
      UsedFreed ((combineFrom comb k lhs remote s).2.2.log ++
        [.returned (combineFrom comb k lhs remote s).1]) := by
  induction remote with
  | nil => exact fun _ _ _ _ _ hnot => absurd trivial hnot
  | cons rhs remote ih =>
    intro k lhs s hnodup hold hnot
    -- the first call that allocates is this one, or a later one
    rcases combineFrom_round comb k rfl hnodup hold with ⟨hreused, sum, other, s', hround,
      heq⟩ | ⟨_, s', hfreed, heq⟩
    · rw [heq]
      refine ih (k + 1) sum s' (hround.nodup hnodup) (hround.old hold) fun hrest => ?_
      rw [hround.value, hround.map_eq hnodup] at hrest
      exact hnot ⟨hreused, hrest⟩
    · rw [heq]
      exact combineFrom_freed comb (k + 1) remote hfreed

/-- The same round in `Reduction`. -/
theorem combineAll_cons {comb : Combiner T} {lhs rhs : DataMessage T}
    {msgs : List (DataMessage T)}
    (h : Reused (comb lhs rhs)) :
    combineAll comb lhs (rhs :: msgs) =
      (combineAll comb (returnedContents (comb lhs rhs)) msgs).map fun q =>
        (q.1, leftContents (comb lhs rhs) :: q.2) := by
  rw [combineAll]
  rcases heq : comb lhs rhs with ⟨l, r, _ | _ | msg⟩
  · rfl
  · rfl
  · rw [heq] at h
    exact h.elim

/-- **A combiner that is the same at each call** does to the contents what `Reduction`
says: the sum, and what is left in `remote`. -/
theorem combineFrom_combineAll (comb : Combiner T) (remote : List MessagePtr) :
    ∀ (k : Nat) (lhs : MessagePtr) (s : Messages T), (lhs :: remote).Nodup →
      (∀ m ∈ lhs :: remote, m < s.next) →
      ReusesFrom (fun _ => comb) k (s.contents lhs) (remote.map s.contents) →
      let r := combineFrom (fun _ => comb) k lhs remote s
      combineAll comb (s.contents lhs) (remote.map s.contents) =
        some (r.2.2.contents r.1, r.2.1.map r.2.2.contents) := by
  induction remote with
  | nil => exact fun _ _ _ _ _ _ => rfl
  | cons rhs remote ih =>
    intro k lhs s hnodup hold ⟨hreused, hrest⟩
    rcases combineFrom_round (fun _ => comb) k rfl hnodup hold with ⟨_, sum, other, s',
      hround, heq⟩ | ⟨hnot, _⟩
    · rw [← hround.value, ← hround.map_eq hnodup] at hrest
      have hnodup' := hround.nodup hnodup
      have hold' := hround.old hold
      have hkept :=
        combineFrom_kept (fun _ => comb) remote (k + 1) sum s' hnodup' hold' hrest
      rw [heq, List.map_cons, combineAll_cons hreused, ← hround.value,
        ← hround.map_eq hnodup, ih (k + 1) sum s' hnodup' hold' hrest, ← hround.left,
        ← hkept.frame other (hround.other_not_mem hnodup)]
      rfl
    · exact absurd hreused hnot

/-- The combiners of the repository return their first message. -/
theorem reusesFrom_of_reused (h : ∀ k lhs rhs, Reused (comb k lhs rhs)) :
    ∀ (msgs : List (DataMessage T)) (k : Nat) (sum : DataMessage T),
      ReusesFrom comb k sum msgs := by
  intro msgs
  induction msgs with
  | nil => exact fun _ _ => trivial
  | cons msg msgs ih => exact fun k sum => ⟨h k sum msg, ih (k + 1) _⟩

theorem reused_nop (lhs rhs : DataMessage T) : Reused (nop lhs rhs) := trivial

theorem reused_add [Add T] (lhs rhs : DataMessage T) : Reused (add lhs rhs) := trivial

end Loop

/-! ## The merge -/

section Merge

variable {T : Type} {table : List (Nat → Combiner T)} {M : Merge T}
  {comb : Nat → Combiner T}

/-- The merge is its loop, from the first call on. -/
theorem converseCombiner_eq
    (h : (M.contents M.own).combiner.bind (functionFor table) = some comb) :
    let r := combineFrom comb 0 M.own M.remote ⟨M.contents, M.next, []⟩
    M.converseCombiner table =
      some ⟨r.1, r.2.1, (r.2.2.contents r.1).totalSize,
        r.2.2.record (.returned r.1)⟩ := by
  intro r
  unfold Merge.converseCombiner
  rw [h]
  by_cases hnil : M.remote = []
  · rw [if_pos hnil]
    simp only [r, hnil, combineFrom]
    rfl
  · rw [if_neg hnil]
    rfl

/-- What the loop kept is what is asked. -/
theorem Kept.sound {r : MessagePtr × List MessagePtr × Messages T} {size : Nat}
    (h : Kept comb 0 M.own M.remote ⟨M.contents, M.next, []⟩ r) :
    (⟨r.1, r.2.1, size, r.2.2.record (.returned r.1)⟩ : Merged T).Sound M comb := by
  obtain ⟨calls, hlog, hcalls⟩ := h.log
  have hmem : ∀ e ∈ (r.2.2.record (.returned r.1)).log,
      (∃ lhs rhs, e = .called lhs rhs) ∨ e = .returned r.1 := by
    intro e he
    rw [Messages.record, hlog] at he
    rcases List.mem_append.mp he with he | he
    · exact Or.inl (hcalls e he)
    · exact Or.inr (List.mem_singleton.mp he)
  have hfreed : ∀ m, .freed m ∉ (r.2.2.record (.returned r.1)).log := by
    intro m he
    rcases hmem _ he with ⟨_, _, heq⟩ | heq <;> cases heq
  refine ⟨h.value, not_usedFreed hfreed, fun m hm hne => ?_⟩
  have hin : m ∈ M.own :: M.remote := by
    rcases hm with hm | he
    · exact hm
    · rcases hmem _ he with ⟨_, _, heq⟩ | heq <;> cases heq
  have hone : (M.own :: M.remote).count m = 1 := List.count_eq_one_of_mem M.nodup hin
  rw [← h.perm.count_eq, List.count_cons_of_ne hne.symm] at hone
  show List.count _ (r.2.2.record (.returned r.1)).log + r.2.1.count m = 1
  rw [List.count_eq_zero.mpr (hfreed m), Nat.zero_add, hone]

/-- A merge is sound if and only if no call of the fold returns a new message. -/
theorem converseCombiner_sound_iff
    (h : (M.contents M.own).combiner.bind (functionFor table) = some comb) :
    (∃ r, M.converseCombiner table = some r ∧ r.Sound M comb) ↔
      ReusesFrom comb 0 (M.contents M.own) (M.remote.map M.contents) := by
  rw [converseCombiner_eq h]
  constructor
  · rintro ⟨r, hr, hsound⟩
    obtain rfl := Option.some.inj hr
    by_contra hnot
    exact hsound.unfreed (combineFrom_usedFreed comb M.remote 0 M.own _
      M.nodup M.old hnot)
  · intro hreuses
    exact ⟨_, rfl, (combineFrom_kept comb M.remote 0 M.own _ M.nodup M.old hreuses).sound⟩

/-- A message with the first combiner of the table. -/
def numberMessage (v : Nat) : DataMessage Nat where
  hasCombiner := true
  dst := ⟨Destination.entry.write (fun _ => 0) 1, .kCallback⟩
  totalSize := 0
  value := v

/-- Messages that hold their own numbers: 0, and `n` remote ones. -/
def numberMerge (n : Nat) : Merge Nat where
  contents := numberMessage
  next := n + 1
  own := 0
  remote := List.range' 1 n
  nodup := show (List.range' 0 (n + 1)).Nodup from List.nodup_range'
  old := fun m hm => by
    rcases List.mem_cons.mp hm with rfl | hm
    · exact Nat.succ_pos n
    · rw [Nat.add_comm]
      exact (List.mem_range'_1.mp hm).2

/-- The right message gets the sum. -/
def addRight : Combiner Nat := fun lhs rhs =>
  (lhs, { rhs with value := lhs.value + rhs.value }, .rhs)

/-- The sum is a new message. -/
def addFresh : Combiner Nat := fun lhs rhs =>
  (lhs, rhs, .fresh { lhs with value := lhs.value + rhs.value })

/-- Left and right in turn. -/
def addInTurn (k : Nat) : Combiner Nat := if k % 2 = 0 then add else addRight

theorem converseCombiner_sound_inTurn : ∃ r,
    (numberMerge 3).converseCombiner [addInTurn] = some r ∧
    r.Sound (numberMerge 3) addInTurn :=
  (converseCombiner_sound_iff (M := numberMerge 3) rfl).mpr
    ⟨trivial, trivial, trivial, trivial⟩

/-- The sum of 0 and 1 is lost, and message 0, which was freed, is returned. -/
theorem converseCombiner_fresh : ∃ r,
    (numberMerge 1).converseCombiner [fun _ => addFresh] = some r ∧ r.sum = 0 ∧
      (r.messages.contents r.sum).value = 0 ∧
      r.messages.log = [.called 0 1, .allocated 2, .freed 0, .returned 0] ∧
      ¬ r.Sound (numberMerge 1) fun _ => addFresh := by
  refine ⟨_, converseCombiner_eq rfl, rfl, rfl, rfl, fun hsound => hsound.unfreed ?_⟩
  have hfreed : MergeEvent.freed 0 ∈ [.called 0 1, .allocated 2, .freed 0] := by decide
  exact usedFreed_snoc (e := .returned 0) hfreed (List.mem_singleton_self _)

end Merge

end CharmExperiments.Charmlite
