import Mathlib.Algebra.BigOperators.Fin
import CharmExperiments.Charmlite.Reduction
import CharmExperiments.Lib.Transition

/-!
# charmlite: one round of `all_reduce`

What follows a reduction: its result is handled on PE 0, where `all_reduce_impl_`
gives it the destination `cmk::all`, broadcasts it and delivers it again. `Round`
has the messages on their way, the calls of `deliver` that run, and which callbacks
were run with which message. The PEs go on in any order.

`RoundInv` has two phases: the result is on its way or being handled and nothing else
has happened, or it was broadcast, and then each PE has the message on its way, in a
call, or behind it. The payoff is `all_reduce_once`.

Mirroring notes:
- A handler runs to its end on its PE. `deliver`, called at the end of
  `all_reduce_impl_`, goes on as the call it is made in.
- `CmiSyncBroadcast` sends a copy to every other PE.
- What a callback of the program does is its own business. That it was run is recorded in
  `ran`, which no function reads.
-/

namespace CharmExperiments.Charmlite

open CharmExperiments.Lib

/-- One round, after the reduction. -/
structure Round (T U : Type) where
  flight : List (Nat × DataMessage T)
  calls : List (Nat × DataMessage T)
  ran : List (Nat × U × DataMessage T)

/-- The handler of a PE is called with a message on its way, or a call goes on. -/
inductive RoundAction
  | handle (i : Nat)
  | deliver (i : Nat)

/-- What `deliver` comes to. -/
inductive Delivered (T U : Type)
  /-- The callback was run. -/
  | ran (u : U)
  /-- The message was broadcast, and is delivered again. -/
  | broadcast (msg : DataMessage T)

section Model

variable {T U : Type} [Add T] (P : Program T U) (n : Nat)

/-- `callback_for(message*)`. -/
def callbackFor (msg : DataMessage T) : Option (Callback U) :=
  msg.dst.callbackFn.bind fun cb => functionFor P.callbackTable cb.1

/-- `all_reduce_impl_`, up to the broadcast. -/
def allReduceImpl (u : U) (msg : DataMessage T) : DataMessage T :=
  { msg with dst := msg.dst.toCallback (P.callbackId (.user u)) (BitVec.ofInt 32 all) }

/-- `deliver_to_callback_` on PE `me`. -/
def deliverToCallback (me : Nat) (msg : DataMessage T) : Option (Delivered T U) := do
  let (_, pe) ← msg.dst.callbackFn
  guard (pe = BitVec.ofInt 32 all ∨ pe = BitVec.ofNat 32 me)
  match ← callbackFor P msg with
  | .user u => return .ran u
  | .allReduceImpl u => return .broadcast (allReduceImpl P u msg)

/-- `deliver` on PE `me`, of a message to a callback. -/
def deliver (me : Nat) (msg : DataMessage T) : Option (Delivered T U) :=
  match msg.dst.kind with
  | .kCallback => deliverToCallback P me msg
  | .kEndpoint | .kInvalid => none

/-- The PEs that `CmiSyncBroadcast` sends to. -/
def others (me : Nat) : List Nat := (List.range n).filter (· ≠ me)

namespace Round

/-- One step; `none` when it cannot be taken. -/
def step (s : Round T U) : RoundAction → Option (Round T U)
  | .handle i => do
    let (pe, msg) ← s.flight[i]?
    guard (pe ∉ s.calls.map Prod.fst)
    return { s with flight := s.flight.eraseIdx i, calls := (pe, msg) :: s.calls }
  | .deliver i => do
    let (pe, msg) ← s.calls[i]?
    match ← deliver P pe msg with
    | .ran u => return { s with calls := s.calls.eraseIdx i, ran := s.ran ++ [(pe, u, msg)] }
    | .broadcast msg =>
      return { s with
        flight := s.flight ++ (others n pe).map (·, msg)
        calls := (pe, msg) :: s.calls.eraseIdx i }

/-- The round after `CmiReduce`, whose result goes to PE 0. -/
def system (result : DataMessage T) : Transition (Round T U) RoundAction where
  init s := s = ⟨[(0, result)], [], []⟩
  step := step P n

/-- How many steps are left. -/
def todo (s : Round T U) : Nat :=
  (s.flight.map fun x => if x.2.dst.callbackFn.map (·.2) = some 0 then 2 * n + 1
    else 2).sum +
    (s.calls.map fun x => if x.2.dst.callbackFn.map (·.2) = some 0 then 2 * n else 1).sum

end Round

end Model

/-! ## The steps -/

section Steps

variable {T U : Type} [Add T] {P : Program T U} {n : Nat} {u : U} {msg : DataMessage T}

/-- A message to a callback of PE `pe` or of all has it run. -/
theorem deliver_eq {id : BitVec 64} {pe : BitVec 32} {fn : Callback U} {me : Nat}
    (hcb : msg.dst.callbackFn = some (id, pe))
    (hfn : functionFor P.callbackTable id = some fn)
    (hpe : pe = BitVec.ofInt 32 all ∨ pe = BitVec.ofNat 32 me) :
    deliver P me msg = some (match fn with
      | .user u => .ran u
      | .allReduceImpl u => .broadcast (allReduceImpl P u msg)) := by
  have hkind : msg.dst.kind = .kCallback := by
    unfold Destination.callbackFn at hcb
    split at hcb
    next hkind => exact hkind
    next => cases hcb
  have hfor : callbackFor P msg = some fn := by
    rw [callbackFor, hcb]
    exact hfn
  unfold deliver deliverToCallback
  simp only [hkind, hcb, hfor, Option.bind_eq_bind, Option.bind_some, guard, if_pos hpe]
  cases fn <;> rfl

/-- What the result of the reduction becomes when it is broadcast. -/
theorem callbackFn_allReduceImpl :
    (allReduceImpl P u msg).dst.callbackFn =
    some (P.callbackId (.user u), BitVec.ofInt 32 all) :=
  callbackFn_toCallback ..

namespace Round

variable {s s' : Round T U} {i : Nat}

theorem step_handle (h : s.step P n (.handle i) = some s') : ∃ pe m,
    s.flight[i]? = some (pe, m) ∧ pe ∉ s.calls.map Prod.fst ∧
    s' = ⟨s.flight.eraseIdx i, (pe, m) :: s.calls, s.ran⟩ := by
  obtain ⟨⟨pe, m⟩, hi, h⟩ := Option.bind_eq_some_iff.mp h
  obtain ⟨_, hfree, h⟩ := Option.bind_eq_some_iff.mp h
  refine ⟨pe, m, hi, fun hmem => ?_, (Option.some.inj h).symm⟩
  rw [guard, if_neg (not_not_intro hmem)] at hfree
  cases hfree

theorem step_deliver (h : s.step P n (.deliver i) = some s') : ∃ pe m d,
    s.calls[i]? = some (pe, m) ∧ Charmlite.deliver P pe m = some d ∧
    s' = match d with
      | .ran u => ⟨s.flight, s.calls.eraseIdx i, s.ran ++ [(pe, u, m)]⟩
      | .broadcast m =>
        ⟨s.flight ++ (others n pe).map (·, m), (pe, m) :: s.calls.eraseIdx i, s.ran⟩ := by
  obtain ⟨⟨pe, m⟩, hi, h⟩ := Option.bind_eq_some_iff.mp h
  obtain ⟨d, hd, h⟩ := Option.bind_eq_some_iff.mp h
  refine ⟨pe, m, d, hi, hd, ?_⟩
  cases d with
  | ran u => exact (Option.some.inj h).symm
  | broadcast m => exact (Option.some.inj h).symm

/-- A call whose `deliver` has a result goes on. -/
theorem exists_deliver {pe : Nat} {m : DataMessage T} {d : Delivered T U} (n : Nat)
    (hmem : (pe, m) ∈ s.calls) (hd : Charmlite.deliver P pe m = some d) :
    ∃ i s', s.step P n (.deliver i) = some s' := by
  obtain ⟨i, hi, heq⟩ := List.getElem_of_mem hmem
  have hi : s.calls[i]? = some (pe, m) := List.getElem?_eq_some_iff.mpr ⟨hi, heq⟩
  cases d with
  | ran u =>
    refine ⟨i, ⟨s.flight, s.calls.eraseIdx i, s.ran ++ [(pe, u, m)]⟩, ?_⟩
    simp only [step, hi, hd, Option.bind_eq_bind, Option.bind_some, Option.pure_def]
  | broadcast m' =>
    refine ⟨i, ⟨s.flight ++ (others n pe).map (·, m'), (pe, m') :: s.calls.eraseIdx i, s.ran⟩, ?_⟩
    simp only [step, hi, hd, Option.bind_eq_bind, Option.bind_some, Option.pure_def]

end Round

end Steps

/-! ## What every round keeps -/

section Runs

variable {T U : Type} [AddCommSemigroup T] {P : Program T U} {n : Nat} {u : U}
  {result : DataMessage T} {s s' : Round T U}

/-- The two phases of a round. -/
inductive RoundInv (P : Program T U) (n : Nat) (u : U) (result : DataMessage T) :
    Round T U → Prop
  /-- The result of the reduction is on its way to PE 0, -/
  | waiting : RoundInv P n u result ⟨[(0, result)], [], []⟩
  /-- or handled there. -/
  | handling : RoundInv P n u result ⟨[], [(0, result)], []⟩
  /-- It was broadcast, and each PE has it in one place. -/
  | spread {s : Round T U} :
      (s.flight.map Prod.fst ++ s.calls.map Prod.fst ++ s.ran.map Prod.fst).Perm
      (List.range n) → (∀ x ∈ s.flight ++ s.calls, x.2 = allReduceImpl P u result) →
      (∀ x ∈ s.ran, x.2 = (u, allReduceImpl P u result)) → RoundInv P n u result s

/-- The broadcast reaches the PEs there are. -/
theorem others_perm (hn : 0 < n) : (others n 0 ++ [0]).Perm (List.range n) := by
  have hother : others n 0 = (List.range n).erase 0 := by
    rw [List.nodup_range.erase_eq_filter]
    exact List.filter_congr fun pe _ => decide_not
  rw [hother]
  have hmem : 0 ∈ List.range n := List.mem_range.mpr hn
  exact (List.perm_append_singleton _ _).trans (List.perm_cons_erase hmem).symm

/-- Taking an element out, on one of the projections. -/
theorem map_eraseIdx_perm {α : Type} {l : List (Nat × α)} {i : Nat} {x : Nat × α}
    (h : l[i]? = some x) : (x.1 :: (l.eraseIdx i).map Prod.fst).Perm
    (l.map Prod.fst) := by
  obtain ⟨hi, rfl⟩ := List.getElem?_eq_some_iff.mp h
  exact (List.getElem_cons_eraseIdx_perm hi).map Prod.fst

/-- A message that is handled stays among those of the round, -/
theorem handle_subset {α : Type} {flight calls : List α} {i : Nat} {x : α}
    (h : flight[i]? = some x) : flight.eraseIdx i ++ x :: calls ⊆ flight ++ calls := by
  intro y hy
  rcases List.mem_append.mp hy with hy | hy
  · exact List.mem_append_left _ (List.mem_of_mem_eraseIdx hy)
  · rcases List.mem_cons.mp hy with rfl | hy
    · exact List.mem_append_left _ (List.mem_of_getElem? h)
    · exact List.mem_append_right _ hy

/-- and a call that ends adds none. -/
theorem deliver_subset {α : Type} {flight calls : List α} {i : Nat} :
    flight ++ calls.eraseIdx i ⊆ flight ++ calls := by
  intro y hy
  rcases List.mem_append.mp hy with hy | hy
  · exact List.mem_append_left _ hy
  · exact List.mem_append_right _ (List.mem_of_mem_eraseIdx hy)

theorem deliver_result (hr : Contribution P u result) :
    deliver P 0 result = some (.broadcast (allReduceImpl P u result)) :=
  deliver_eq hr.callback (P.callback_registered _) (Or.inr rfl)

theorem deliver_spread {me : Nat} :
    deliver P me (allReduceImpl P u result) = some (.ran u) :=
  deliver_eq callbackFn_allReduceImpl (P.callback_registered _) (Or.inl rfl)

omit [AddCommSemigroup T] in
/-- All that the broadcast brings about is the one message. -/
theorem broadcast_msgs {m : DataMessage T} {pes : List Nat} {pe : Nat} :
    ∀ x ∈ [] ++ pes.map (·, m) ++ [(pe, m)], x.2 = m := by
  intro x hx
  rcases List.mem_append.mp hx with hx | hx
  · obtain ⟨_, _, rfl⟩ := List.mem_map.mp hx
    rfl
  · rw [List.mem_singleton.mp hx]

/-- **Every step keeps the invariant.** -/
theorem round_step (hn : 0 < n) (hr : Contribution P u result) (hi : RoundInv P n u result s)
    {a : RoundAction} (h : s.step P n a = some s') : RoundInv P n u result s' := by
  cases a with
  | handle i =>
    obtain ⟨pe, m, hm, _, rfl⟩ := Round.step_handle h
    cases hi with
    | waiting =>
      -- the only message there is
      obtain ⟨hlt, heq⟩ := List.getElem?_eq_some_iff.mp hm
      obtain rfl : i = 0 := Nat.lt_one_iff.mp hlt
      obtain ⟨rfl, rfl⟩ := Prod.mk.inj heq
      exact .handling
    | handling => cases hm
    | spread hperm hmsgs hran =>
      refine .spread ?_ (fun x hx => hmsgs x (handle_subset hm hx)) hran
      refine List.Perm.trans ?_ hperm
      refine List.Perm.append_right _ ?_
      show (_ ++ pe :: s.calls.map Prod.fst).Perm _
      exact List.perm_middle.trans ((map_eraseIdx_perm hm).append_right _)
  | deliver i =>
    obtain ⟨pe, m, d, hm, hd, rfl⟩ := Round.step_deliver h
    cases hi with
    | waiting => cases hm
    | handling =>
      obtain ⟨hlt, heq⟩ := List.getElem?_eq_some_iff.mp hm
      obtain rfl : i = 0 := Nat.lt_one_iff.mp hlt
      obtain ⟨rfl, rfl⟩ := Prod.mk.inj heq
      rw [deliver_result hr] at hd
      obtain rfl := Option.some.inj hd
      refine .spread ?_ broadcast_msgs fun x hx => absurd hx List.not_mem_nil
      show (((others n 0).map _).map Prod.fst ++ [0] ++ []).Perm _
      rw [List.append_nil, List.map_map]
      refine List.Perm.trans (List.Perm.of_eq ?_) (others_perm hn)
      exact congrArg (· ++ [0]) (List.map_id _)
    | spread hperm hmsgs hran =>
      obtain rfl : m = allReduceImpl P u result :=
        hmsgs _ (List.mem_append_right _ (List.mem_of_getElem? hm))
      rw [deliver_spread] at hd
      obtain rfl := Option.some.inj hd
      refine .spread ?_ (fun x hx => hmsgs x (deliver_subset hx)) fun x hx => ?_
      · refine List.Perm.trans ?_ hperm
        show (_ ++ (s.calls.eraseIdx i).map Prod.fst ++
          (s.ran ++ [_]).map Prod.fst).Perm _
        rw [List.map_append, List.append_assoc, List.append_assoc]
        refine List.Perm.append_left _ ?_
        rw [← List.append_assoc]
        refine (List.perm_append_singleton _ _).trans ?_
        exact (map_eraseIdx_perm hm).append_right _
      · rcases List.mem_append.mp hx with hx | hx
        · exact hran x hx
        · rw [List.mem_singleton.mp hx]

/-- A sum of equal terms. -/
theorem sum_map_const {α : Type} {l : List α} {f : α → Nat} {k : Nat}
    (h : ∀ x ∈ l, f x = k) : (l.map f).sum = l.length * k := by
  rw [List.map_congr_left h, List.map_const', List.sum_replicate, smul_eq_mul]

/-- After the broadcast each message takes two steps, each call one. -/
theorem todo_spread (h : ∀ x ∈ s.flight ++ s.calls, x.2 = allReduceImpl P u result) :
    s.todo n = s.flight.length * 2 + s.calls.length := by
  have hall : BitVec.ofInt 32 all ≠ 0 := by decide
  have hpe : ¬ (allReduceImpl P u result).dst.callbackFn.map (·.2) = some 0 := by
    rw [callbackFn_allReduceImpl]
    exact fun heq => hall (Option.some.inj heq)
  unfold Round.todo
  rw [sum_map_const fun x hx => by rw [h x (List.mem_append_left _ hx), if_neg hpe],
    sum_map_const fun x hx => by rw [h x (List.mem_append_right _ hx),
      if_neg hpe], Nat.mul_one]

/-- **Every step is one of those that are left.** -/
theorem todo_step (hn : 0 < n) (hr : Contribution P u result)
    (hi : RoundInv P n u result s)
    {a : RoundAction} (h : s.step P n a = some s') : s'.todo n + 1 = s.todo n := by
  have hpe : result.dst.callbackFn.map (·.2) = some 0 := by
    rw [hr.callback]
    rfl
  have hi' := round_step hn hr hi h
  cases a with
  | handle i =>
    obtain ⟨pe, m, hm, _, rfl⟩ := Round.step_handle h
    obtain ⟨hlt, heq⟩ := List.getElem?_eq_some_iff.mp hm
    cases hi with
    | waiting =>
      obtain rfl : i = 0 := Nat.lt_one_iff.mp hlt
      obtain ⟨rfl, rfl⟩ := Prod.mk.inj heq
      show 0 + ((if _ then 2 * n else 1) + 0) + 1 = (if _ then 2 * n + 1 else 2) + 0 + 0
      rw [if_pos hpe, if_pos hpe]
      omega
    | handling => cases hm
    | spread hperm hmsgs hran =>
      rw [todo_spread fun x hx => hmsgs x (handle_subset hm hx), todo_spread hmsgs]
      show (s.flight.eraseIdx i).length * 2 + (s.calls.length + 1) + 1 = _
      rw [List.length_eraseIdx_of_lt hlt]
      omega
  | deliver i =>
    obtain ⟨pe, m, d, hm, hd, rfl⟩ := Round.step_deliver h
    obtain ⟨hlt, heq⟩ := List.getElem?_eq_some_iff.mp hm
    cases hi with
    | waiting => cases hm
    | handling =>
      obtain rfl : i = 0 := Nat.lt_one_iff.mp hlt
      obtain ⟨rfl, rfl⟩ := Prod.mk.inj heq
      -- the root got the result: it sends a copy to every other PE and calls back itself
      rw [deliver_result hr] at hd
      obtain rfl := Option.some.inj hd
      have hlen : (others n 0).length + 1 = n := by
        have hlen := (others_perm hn).length_eq
        rwa [List.length_append, List.length_range] at hlen
      show Round.todo n ⟨[] ++ (others n 0).map (·, allReduceImpl P u result),
        [(0, allReduceImpl P u result)], []⟩ + 1 = _
      rw [todo_spread (P := P) (u := u) broadcast_msgs]
      show ([] ++ (others n 0).map _).length * 2 + 1 + 1 =
        0 + ((if _ then 2 * n else 1) + 0)
      rw [if_pos hpe, List.nil_append, List.length_map]
      omega
    | spread hperm hmsgs hran =>
      obtain rfl : m = allReduceImpl P u result :=
        hmsgs _ (List.mem_append_right _ (List.mem_of_getElem? hm))
      rw [deliver_spread] at hd
      obtain rfl := Option.some.inj hd
      show Round.todo n ⟨s.flight, s.calls.eraseIdx i, _⟩ + 1 = _
      rw [todo_spread fun x hx => hmsgs x (deliver_subset hx), todo_spread hmsgs]
      show s.flight.length * 2 + (s.calls.eraseIdx i).length + 1 = _
      rw [List.length_eraseIdx_of_lt hlt]
      omega

/-- As long as something is left to do, something can be done. -/
theorem round_progress (hr : Contribution P u result) (hi : RoundInv P n u result s)
    (hleft : s.flight ≠ [] ∨ s.calls ≠ []) : ∃ a s', s.step P n a = some s' := by
  cases hi with
  | waiting => exact ⟨.handle 0, _, rfl⟩
  | handling =>
    obtain ⟨i, hi⟩ :=
      Round.exists_deliver (s := ⟨[], [(0, result)], []⟩) n List.mem_cons_self
      (deliver_result hr)
    exact ⟨.deliver i, hi⟩
  | spread hperm hmsgs hran =>
    obtain ⟨flight, calls, ran⟩ := s
    cases calls with
    | cons x calls =>
      obtain ⟨pe, m⟩ := x
      obtain rfl : m = allReduceImpl P u result :=
        hmsgs _ (List.mem_append_right _ List.mem_cons_self)
      obtain ⟨i, hi⟩ := Round.exists_deliver (s := ⟨flight, (pe, _) :: calls, ran⟩) n
        List.mem_cons_self deliver_spread
      exact ⟨.deliver i, hi⟩
    | nil =>
      cases flight with
      | cons x flight => exact ⟨.handle 0, ⟨flight, [x], ran⟩, rfl⟩
      | nil =>
        rcases hleft with hflight | hcalls
        · exact absurd rfl hflight
        · exact absurd rfl hcalls

theorem reachable_inv (hn : 0 < n) (hr : Contribution P u result)
    (h : (Round.system P n result).Reachable (fun _ _ => True) s) :
    RoundInv P n u result s := by
  refine h.invariant (I := RoundInv P n u result) ?_ ?_
  · intro s hs
    obtain rfl := hs
    exact .waiting
  · intro s a s' hi _ hs
    exact round_step hn hr hi hs

/-- What is asked of the messages that the callback is run with: the value is the sum of
what all PEs contributed, and the destination the callback, for all PEs. -/
structure Reduced (P : Program T U) (n : Nat) (u : U) (values : Nat → T)
    (msg : DataMessage T) :
    Prop where
  value : (msg.value : WithZero T) = ∑ pe ∈ Finset.range n, (values pe : WithZero T)
  callback : msg.dst.callbackFn = some (P.callbackId (.user u), BitVec.ofInt 32 all)

/-- What is asked of every state of a round. -/
structure OnceEach (P : Program T U) (n : Nat) (u : U) (values : Nat → T)
    (s : Round T U) :
    Prop where
  /-- Only the callback is run, with such a message, -/
  ran : ∀ x ∈ s.ran, x.2.1 = u ∧ Reduced P n u values x.2.2
  /-- at most once on a PE. -/
  atMost : (s.ran.map Prod.fst).Nodup ∧ ∀ pe ∈ s.ran.map Prod.fst, pe < n
  /-- When nothing is left to do, it was run once on every PE. -/
  once : s.flight = [] → s.calls = [] → (s.ran.map Prod.fst).Perm (List.range n)
  /-- Until then something can be done, -/
  progress : s.flight ≠ [] ∨ s.calls ≠ [] → ∃ a s', s.step P n a = some s'
  /-- and every step leaves less to do. -/
  less : ∀ a s', s.step P n a = some s' → s'.todo n < s.todo n

/-- **One round of `all_reduce<add<T>, Callback>` runs the callback exactly once on every
PE.** The tree has every PE once; `msgs` are the messages passed to `all_reduce`. -/
theorem all_reduce_once (P : Program T U) (u : U) {tree : Tree} {n : Nat}
    (hpes : tree.pes.Perm (List.range n)) (msgs : Nat → DataMessage T) :
    ∃ result, tree.cmiReduce P (fun pe => allReduce P u (msgs pe)) = some result ∧
      ∀ s, (Round.system P n result).Reachable (fun _ _ => True) s →
        OnceEach P n u (fun pe => (msgs pe).value) s := by
  choose contributed hc hm hvalue using fun pe => allReduce_eq P u (msgs pe)
  obtain ⟨result, hresult, hr, hsum⟩ := cmiReduce_sum hc hm tree
  -- the tree has a root
  have hn : 0 < n := by
    obtain ⟨pe, children⟩ := tree
    have hmem : pe ∈ List.range n :=
      hpes.subset (by rw [Tree.pes]; exact List.mem_cons_self)
    exact Nat.lt_of_le_of_lt (Nat.zero_le pe) (List.mem_range.mp hmem)
  refine ⟨result, hresult, fun s hs => ?_⟩
  have hi := reachable_inv hn hr hs
  have hreduced :
      Reduced P n u (fun pe => (msgs pe).value) (allReduceImpl P u result) := by
    refine ⟨?_, callbackFn_allReduceImpl⟩
    show (result.value : WithZero T) = _
    rw [hsum, (hpes.map _).sum_eq]
    exact congrArg List.sum (List.map_congr_left fun pe _ => by rw [hvalue])
  refine ⟨fun x hx => ?_, ?_, fun hflight hcalls => ?_, round_progress hr hi,
    fun a s' h => ?_⟩
  · cases hi with
    | waiting | handling => cases hx
    | spread hperm hmsgs hran =>
      obtain ⟨hu, hmsg⟩ := Prod.mk.inj (hran x hx)
      exact ⟨hu, hmsg ▸ hreduced⟩
  · cases hi with
    | waiting | handling =>
      exact ⟨List.nodup_nil, fun _ hpe => absurd hpe List.not_mem_nil⟩
    | spread hperm hmsgs hran =>
      refine ⟨(List.nodup_append.mp (hperm.nodup_iff.mpr List.nodup_range)).2.1,
        fun pe hpe => ?_⟩
      exact List.mem_range.mp (hperm.subset (List.mem_append_right _ hpe))
  · cases hi with
    | waiting => cases hflight
    | handling => cases hcalls
    | spread hperm hmsgs hran =>
      rw [hflight, hcalls] at hperm
      exact hperm
  · have hless := todo_step hn hr hi h
    omega

end Runs

/-! ## A small round -/

/-- A program with one callback. -/
def oneCallback : Program Nat Unit where
  combinerTable := [add]
  callbackTable := [.user (), .allReduceImpl ()]
  addId := 1
  callbackId
    | .user () => 1
    | .allReduceImpl () => 2
  add_registered := rfl
  callback_registered
    | .user () => rfl
    | .allReduceImpl () => rfl

/-- PE 1 hangs off PE 2, which hangs off PE 0. -/
def chainOfThree : Tree := .node 0 [.node 2 [.node 1 []]]

/-- PE `pe` contributes `pe + 1`, in a message that was used before. -/
def used (pe : Nat) : DataMessage Nat := ⟨true, ⟨fun _ => 255, .kEndpoint⟩, 80, pe + 1⟩

theorem all_reduce_once_three : chainOfThree.pes.Perm (List.range 3) ∧
    ∃ result, chainOfThree.cmiReduce oneCallback
      (fun pe => allReduce oneCallback () (used pe)) =
        some result ∧
      result.value = 6 ∧
      ∀ s, (Round.system oneCallback 3 result).Reachable (fun _ _ => True) s →
        OnceEach oneCallback 3 () (fun pe => (used pe).value) s := by
  have hpes : chainOfThree.pes.Perm (List.range 3) := by decide
  have hvalue : (chainOfThree.cmiReduce oneCallback
      (fun pe => allReduce oneCallback () (used pe))).map (·.value) = some 6 := by
    decide +kernel
  obtain ⟨result, hresult, hround⟩ := all_reduce_once oneCallback () hpes used
  rw [hresult] at hvalue
  exact ⟨hpes, result, hresult, Option.some.inj hvalue, hround⟩

end CharmExperiments.Charmlite
