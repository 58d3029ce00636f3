import CharmExperiments.Hypercomm.Rounds

/-!
# The all-reduce is a barrier

The four parts of the invariant (`Local`, `Loop`, `Mail`, `Got`) and the log are
kept by a move of a worker, by an arrival and by a reduction. What carries the
moves is `barrier`: while a worker waits for ghosts of round `r`, its neighbours
are in round `r` at most, so a ghost that reaches it is of round `r` or was
received before. What carries the reductions is `agree`: where the tests agree,
the contributions of one rank are all errors or all for the grid.
-/

namespace CharmExperiments.Hypercomm

open CharmExperiments.Lib

variable {n : Nat} {E : Type}

namespace Relaxing

variable {X : Relaxing n E} {P : Nat → Prop}
variable {u u' : Solo n (Relaxation E) (Bytes E)} {φ : Fin n → Phase}
variable {i : Fin n} {ψ : Phase} {p : Option (Payload (Bytes E))}

/-! ## Who can be how far -/

theorem Continues.le {rs : List (ReductionMsg (Bytes E))} {k : Nat}
    (h : X.Continues rs k) :
    k ≤ rs.length := by
  cases k with
  | zero => exact Nat.zero_le _
  | succ k =>
    obtain ⟨msg, e, hmsg, _⟩ := h
    exact (List.getElem?_eq_some_iff.mp hmsg).1

theorem Loop.rounds_le (h : X.Loop P u φ) (j : Fin n) :
    (φ j).rounds ≤ u.reductions.length + 1 := by
  cases hr : (φ j).rounds with
  | zero => exact Nat.zero_le _
  | succ r => exact Nat.succ_le_succ (h.loop j r (hr ▸ Nat.lt_succ_self r)).1.le

theorem contributions_length (i : Fin n) (φ : Phase) :
    (X.contributions i φ).length = φ.complete + if φ.hasLeft then 1 else 0 := by
  unfold Relaxing.contributions
  rw [List.length_append, List.length_replicate]
  split <;> rfl

/-- Before it waits for an error, a worker has contributed its result. -/
theorem ready_complete (hl : X.Local u φ) (hloop : X.Loop P u φ)
    (hleft : (φ i).hasLeft = false) :
    u.reductions.length ≤ (φ i).complete := by
  have hready := hloop.ready i
  rw [hl.contributed, contributions_length, hleft] at hready
  exact hready

theorem Local.waits (hl : X.Local u φ) {r got : Nat} (hφ : φ i = .ghosts r got) :
    0 < r ∧ got < neighbours n i := by
  cases htask : u.tasks i with
  | none =>
    have hunborn := hl.unborn i htask
    rw [hφ] at hunborn
    cases hunborn
  | some task =>
    have hw := hl.worker i task htask
    rw [hφ] at hw
    exact ⟨hw.waits.2.2.1, hw.waits.2.2.2.2.2⟩

/-- **No worker is ahead of one that waits for ghosts.** -/
theorem barrier (hl : X.Local u φ) (hloop : X.Loop P u φ) {r got : Nat}
    (hφ : φ i = .ghosts r got) (j : Nat) : roundsAt φ j ≤ r := by
  unfold roundsAt
  split
  next hj =>
    have hrounds := hloop.rounds_le ⟨j, hj⟩
    have hready := ready_complete (i := i) hl hloop (by rw [hφ]; rfl)
    have hpos := (hl.waits hφ).1
    rw [hφ, show (Phase.ghosts r got).complete = r - 1 from rfl] at hready
    omega
  next => exact Nat.zero_le r

theorem roundsAt_update (φ : Fin n → Phase) (i : Fin n) (ψ : Phase) (j : Nat) :
    roundsAt (Function.update φ i ψ) j = if j = i.val then ψ.rounds
      else roundsAt φ j := by
  unfold roundsAt
  by_cases hj : j < n
  · rw [dif_pos hj, dif_pos hj]
    by_cases hji : (⟨j, hj⟩ : Fin n) = i
    · subst hji
      rw [Function.update_self, if_pos rfl]
    · rw [Function.update_of_ne hji, if_neg fun h => hji (Fin.ext h)]
  · rw [dif_neg hj, dif_neg hj, if_neg fun (h : j = i.val) => hj (h ▸ i.isLt)]

/-! ## What a move reads and sends -/

theorem sentTo_self (i : Fin n) (φ ψ : Phase) (id : ContinuationId) :
    (sentTo i i φ ψ id : List (Payload (Bytes E))) = [] := by
  unfold sentTo Nbr
  rw [if_neg fun h => by omega]

theorem sentTo_other (i q : Fin n) (φ ψ : Phase) {id : ContinuationId}
    (hid : id ≠ ghostId) : (sentTo i q φ ψ id : List (Payload (Bytes E))) = [] := by
  unfold sentTo
  rw [if_neg fun h => hid h.2.1]

theorem readBy_other {q : Fin n} (hq : q ≠ i) (id : ContinuationId) :
    readBy i q p id = [] := by
  unfold readBy
  rw [if_neg hq]

theorem readBy_hit {payload : Payload (Bytes E)} {id : ContinuationId}
    (hid : payload.id = id) :
    readBy i i (some payload) id = [payload] := by
  unfold readBy
  rw [if_pos rfl, Option.filter_some, if_pos (decide_eq_true hid)]
  rfl

theorem readBy_miss {payload : Payload (Bytes E)} {id : ContinuationId}
    (hid : payload.id ≠ id) :
    readBy i i (some payload) id = [] := by
  unfold readBy
  rw [if_pos rfl, Option.filter_some, if_neg (mt of_decide_eq_true hid)]
  rfl

theorem readBy_none (q : Fin n) (id : ContinuationId) :
    readBy i q (none : Option (Payload (Bytes E))) id = [] := by
  unfold readBy
  exact ite_self _

/-- What is on its way after a move was so before, or was sent. -/
theorem Move.mem_pending (h : X.Move u u' i (φ i) ψ p) {q : Fin n} {id : ContinuationId}
    {x : Payload (Bytes E)} (hx : x ∈ u'.pending q id) :
    x ∈ u.pending q id ∨ x ∈ sentTo i q (φ i) ψ id :=
  List.mem_append.mp ((h.pending q id).mem_iff.mpr (List.mem_append_right _ hx))

/-- What is read was on its way. -/
theorem Move.read_pending {payload : Payload (Bytes E)}
    (h : X.Move u u' i (φ i) ψ (some payload)) : payload ∈ u.pending i payload.id := by
  have hmem := (h.pending i payload.id).mem_iff.mpr
    (List.mem_append_left _ (by rw [readBy_hit rfl]; exact List.mem_singleton_self _))
  rw [sentTo_self, List.append_nil] at hmem
  exact hmem

/-! ## Moves keep phases and state together -/

theorem local_move (hl : X.Local u φ) (h : X.Move u u' i (φ i) ψ p) :
    X.Local u' (Function.update φ i ψ) where
  unborn := by
    intro q hq
    obtain ⟨task, htasks, _⟩ := h.task
    rw [htasks] at hq
    by_cases hqi : q = i
    · subst hqi
      rw [Function.update_self] at hq
      cases hq
    · rw [Function.update_of_ne hqi] at hq
      rw [Function.update_of_ne hqi]
      exact hl.unborn q hq
  worker := by
    intro q t ht
    obtain ⟨task, htasks, hworker⟩ := h.task
    rw [htasks] at ht
    by_cases hqi : q = i
    · subst hqi
      rw [Function.update_self] at ht ⊢
      exact Option.some.inj ht ▸ hworker
    · rw [Function.update_of_ne hqi] at ht ⊢
      exact hl.worker q t ht
  contributed := by
    intro q
    rw [h.contributed, Contributions.extend]
    by_cases hqi : q = i
    · subst hqi
      rw [Function.update_self, Function.update_self, hl.contributed,
        h.change.contributions]
    · rw [Function.update_of_ne hqi, Function.update_of_ne hqi]
      exact hl.contributed q
  keyed := fun q id x hx => hl.keyed q id x (h.queued q id x hx)
  creates := fun q msg hx => hl.creates q msg (h.creates q msg hx)
  inside := fun x hx => (h.inside x hx).elim (hl.inside x) id

/-! ## What a worker awaits -/

theorem awaited_none {rs : List (ReductionMsg (Bytes E))} {r : Nat}
    (h : rs.length ≤ r - 1) :
    awaited rs (.error r) = [] := by
  show (rs[r - 1]?.map fun msg => _).toList = []
  rw [List.getElem?_eq_none h]
  rfl

theorem awaited_going {rs : List (ReductionMsg (Bytes E))} {r : Nat} (h : rs.length ≤ r)
    (i : Fin n) : awaited rs (going i (r + 1)) = [] := by
  unfold going
  split
  · exact awaited_none h
  · rfl

theorem awaited_length (rs : List (ReductionMsg (Bytes E))) (φ : Phase) :
    (awaited rs φ).length ≤ 1 := by
  unfold awaited
  split
  · exact Option.length_toList_le
  · exact Nat.zero_le 1

/-- Lists of at most one element have no other order. -/
theorem eq_of_perm_short {α : Type} {xs ys : List α} (h : xs.Perm ys)
    (hlen : ys.length ≤ 1) :
    xs = ys := by
  match ys, hlen with
  | [], _ => exact List.perm_nil.mp h
  | [y], _ => exact List.perm_singleton.mp h

/-! ## The ghosts of a worker -/

section Ghosts

variable {g : Nat → Nat → Nat} {φ₁ : Phase}

/-- The ghosts of a new round are all to come. -/
theorem GotAt.begins (h : GotAt i g φ₁) (hc : φ₁.complete = φ₁.rounds) :
    GotAt i g (going i (φ₁.rounds + 1)) where
  old := by
    intro j r hnbr hj hpos hr
    rw [going_complete, if_neg (neighbours_ne_zero hnbr hj)] at hr
    exact h.old j r hnbr hj hpos (hc ▸ hr)
  new := by
    intro j r hr
    rw [going_rounds] at hr
    exact h.new j r (Nat.lt_of_succ_lt hr)
  recvd := by
    intro r got heq
    unfold going at heq
    split at heq
    next => cases heq
    next =>
      cases heq
      rw [h.new _ _ (Nat.lt_succ_self _), h.new _ _ (Nat.lt_succ_self _)]
      split <;> rfl

/-- Out of the rounds nothing is counted. -/
theorem GotAt.leaves (h : GotAt i g φ₁) (hr : ψ.rounds = φ₁.rounds)
    (hc : ψ.complete = φ₁.complete) (hout : ψ.hasLeft = true) : GotAt i g ψ where
  old := fun j r hnbr hj hpos hle => h.old j r hnbr hj hpos (hc ▸ hle)
  new := fun j r hlt => h.new j r (hr ▸ hlt)
  recvd := by
    rintro r got rfl
    cases hout

/-- One more ghost of the round. -/
theorem GotAt.reads {r got j : Nat} (h : GotAt i g (.ghosts r got)) (hnbr : Nbr i j)
    (hpos : 0 < r) :
    GotAt i (fun j' r' => g j' r' + if j' = j ∧ r' = r then 1 else 0)
      (.ghosts r (got + 1)) where
  old := by
    intro j' r' hnbr' hj' hpos' hle
    have hlt : r' ≤ r - 1 := hle
    rw [if_neg (fun hjr => by omega)]
    exact h.old j' r' hnbr' hj' hpos' hle
  new := by
    intro j' r' hlt
    have hlt' : r < r' := hlt
    rw [if_neg (fun hjr => by omega)]
    exact h.new j' r' hlt
  recvd := by
    intro r' got' heq
    cases heq
    have hsum := h.recvd r got rfl
    simp only [and_true]
    unfold Nbr at hnbr
    by_cases hi : 0 < i.val
    · rw [if_pos hi] at hsum ⊢
      split <;> split <;> omega
    · rw [if_neg hi] at hsum ⊢
      split <;> omega

/-- With as many ghosts as neighbours there is one from each. -/
theorem GotAt.completes {r got : Nat} (h : GotAt i g (.ghosts r got))
    (hall : got = neighbours n i) (honce : ∀ j, g j r ≤ if j < n then 1 else 0) :
    GotAt i g (.error r) where
  old := by
    intro j r' hnbr hj hpos hle
    have hle' : r' ≤ r := hle
    rcases Nat.lt_or_eq_of_le hle' with hlt | rfl
    · exact h.old j r' hnbr hj hpos (show r' ≤ r - 1 by omega)
    · have hsum := h.recvd r' got rfl
      have hleft := honce (i.val - 1)
      have hright := honce (i.val + 1)
      have hi := i.isLt
      rw [hall] at hsum
      unfold neighbours at hsum
      rw [if_pos (show i.val - 1 < n by omega)] at hleft
      by_cases hlt : i.val + 1 < n
      · rw [if_pos hlt] at hsum hright
        rcases hnbr with hj' | rfl
        · obtain rfl : j = i.val - 1 := by omega
          rw [if_pos (show 0 < i.val by omega), if_pos (show 0 < i.val by omega)] at hsum
          omega
        · split at hsum <;> omega
      · rw [if_neg hlt] at hsum hright
        obtain rfl : j = i.val - 1 := by
          unfold Nbr at hnbr
          omega
        split at hsum <;> unfold Nbr at hnbr <;> omega
  new := h.new
  recvd := fun _ _ heq => by cases heq

end Ghosts

section Agreement

variable [DecidableEq E]

/-! ## Moves keep the agreement -/

/-- The error a worker reads is the result of its round. -/
theorem Move.error_read (hmail : Mail u φ) {r : Nat} {e : E} (hφ : φ i = .error r)
    (h : X.Move u u' i (φ i) ψ (some ⟨maxErrorId, .error e⟩)) :
    ∃ msg, u.reductions[r - 1]? = some msg ∧ msg.results.2 = .error e := by
  obtain ⟨msg, hmsg, hp⟩ := awaited_read hmail hφ h.read_pending
  exact ⟨msg, hmsg, (congrArg Payload.data hp).symm⟩

/-- A round is begun when the test and the last error say so. -/
theorem Move.goes (hmail : Mail u φ) (h : X.Move u u' i (φ i) ψ p)
    (hr : (φ i).rounds < ψ.rounds) : X.Goes u.reductions i (φ i).rounds := by
  have hchange := h.change
  generalize hφ : φ i = φi at hchange hr
  cases hchange with
  | start htest => exact ⟨trivial, htest⟩
  | @again r e hpos hgo htest =>
    obtain ⟨msg, hmsg, he⟩ := h.error_read hmail hφ
    refine ⟨?_, htest⟩
    obtain ⟨r, rfl⟩ := Nat.exists_eq_succ_of_ne_zero (Nat.ne_of_gt hpos)
    exact ⟨msg, e, hmsg, he, hgo⟩
  | _ => exact absurd hr (Nat.lt_irrefl _)

/-- The loop is left when the test or the last error say so. -/
theorem Move.stops (hmail : Mail u φ) (h : X.Move u u' i (φ i) ψ p)
    (hin : (φ i).hasLeft = false) (hout : ψ.hasLeft = true) :
    ψ.rounds ≤ u.reductions.length ∧ ¬ X.Goes u.reductions i ψ.rounds := by
  have hchange := h.change
  generalize hφ : φ i = φi at hchange hin
  cases hchange with
  | start => rw [going_hasLeft] at hout; cases hout
  | skip htest => exact ⟨Nat.zero_le _, fun hg => htest hg.2⟩
  | receive => cases hout
  | compute => cases hout
  | again => rw [going_hasLeft] at hout; cases hout
  | @leave r e hpos hstop =>
    obtain ⟨msg, hmsg, he⟩ := h.error_read hmail hφ
    obtain ⟨r, rfl⟩ := Nat.exists_eq_succ_of_ne_zero (Nat.ne_of_gt hpos)
    refine ⟨(List.getElem?_eq_some_iff.mp hmsg).1, fun hg => ?_⟩
    rcases hstop with hle | htest
    · obtain ⟨msg', e', hmsg', he', hgo⟩ := hg.1
      obtain rfl := Option.some.inj (hmsg.symm.trans hmsg')
      obtain rfl := Bytes.error.inj (he.symm.trans he')
      rw [hle] at hgo
      cases hgo
    · exact htest hg.2
  | finish => cases hin

theorem loop_move (hloop : X.Loop P u φ) (hmail : Mail u φ)
    (h : X.Move u u' i (φ i) ψ p) :
    X.Loop P u' (Function.update φ i ψ) where
  tests := by
    rw [h.reductions]
    exact hloop.tests
  loop := by
    intro q k hk
    rw [h.reductions]
    by_cases hqi : q = i
    · subst hqi
      rw [Function.update_self] at hk
      rcases Nat.lt_or_ge k (φ q).rounds with hlt | hge
      · exact hloop.loop q k hlt
      · rcases h.change.rounds with heq | ⟨heq, _⟩
        · omega
        · -- the round the worker has just begun
          obtain rfl : k = (φ q).rounds := by omega
          exact h.goes hmail hk
    · rw [Function.update_of_ne hqi] at hk
      exact hloop.loop q k hk
  stop := by
    intro q hq
    rw [h.reductions]
    by_cases hqi : q = i
    · subst hqi
      rw [Function.update_self] at hq ⊢
      cases hin : (φ q).hasLeft with
      | false => exact h.stops hmail hin hq
      | true =>
        rw [(h.change.hasLeft hin).2.1]
        exact hloop.stop q hin
    · rw [Function.update_of_ne hqi] at hq ⊢
      exact hloop.stop q hq
  ready := by
    intro q
    rw [h.reductions, h.contributed]
    exact Nat.le_trans (hloop.ready q) (Contributions.grows_extend _ _ _ q).length_le
  results := by
    intro k msg hmsg
    rw [h.reductions] at hmsg
    rcases hloop.results k msg hmsg with ⟨e, he, hall⟩ | ⟨values, hv, hperm, hall⟩
    · refine Or.inl ⟨e, he, fun q => ?_⟩
      by_cases hqi : q = i
      · subst hqi
        rw [Function.update_self]
        exact Nat.lt_of_lt_of_le (hall q) h.change.complete_le
      · rw [Function.update_of_ne hqi]
        exact hall q
    · refine Or.inr ⟨values, hv, hperm, fun q => ?_⟩
      by_cases hqi : q = i
      · subst hqi
        rw [Function.update_self]
        obtain ⟨hl, hr, _⟩ := h.change.hasLeft (hall q).1
        exact ⟨hl, hr.trans (hall q).2⟩
      · rw [Function.update_of_ne hqi]
        exact hall q

/-! ## Moves keep the mail -/

/-- The error a worker waits for is on its way as soon as there is a result. -/
theorem errors_move (hl : X.Local u φ) (hloop : X.Loop P u φ) (hmail : Mail u φ)
    (h : X.Move u u' i (φ i) ψ p) : u'.pending i maxErrorId = awaited u.reductions ψ := by
  have hperm := h.pending i maxErrorId
  rw [sentTo_self, List.append_nil, hmail.errors] at hperm
  have hready := ready_complete (i := i) hl hloop
  have hchange := h.change
  generalize φ i = φi at hchange hperm hready
  cases hchange with
  | start =>
    rw [readBy_none] at hperm
    exact (List.nil_perm.mp hperm).trans (awaited_going (hready rfl) i).symm
  | skip =>
    rw [readBy_none] at hperm
    exact List.nil_perm.mp hperm
  | receive hp =>
    rw [readBy_miss (by rw [hp]; decide)] at hperm
    exact List.nil_perm.mp hperm
  | compute hp =>
    rw [readBy_miss (by rw [hp]; decide)] at hperm
    rw [awaited_none (hready rfl)]
    exact List.nil_perm.mp hperm
  | @again r e =>
    rw [show readBy i i (some ⟨maxErrorId, .error e⟩) maxErrorId =
      [⟨maxErrorId, .error e⟩] from
      readBy_hit rfl] at hperm
    -- the one result that was awaited is the one that is read
    have hlen := hperm.length_eq ▸ awaited_length u.reductions (.error r)
    exact (List.eq_nil_of_length_eq_zero (by simpa using hlen)).trans
      (awaited_going (hready rfl) i).symm
  | @leave r e =>
    rw [show readBy i i (some ⟨maxErrorId, .error e⟩) maxErrorId =
      [⟨maxErrorId, .error e⟩] from
      readBy_hit rfl] at hperm
    have hlen := hperm.length_eq ▸ awaited_length u.reductions (.error r)
    exact List.eq_nil_of_length_eq_zero (by simpa using hlen)
  | finish hp =>
    rw [readBy_miss (by rw [hp]; decide)] at hperm
    exact List.nil_perm.mp hperm

/-- A move counts the ghost it read. -/
theorem gotten_move (h : X.Move u u' i (φ i) ψ p) (q : Fin n) (j r : Nat) :
    gotten u' q j r = gotten u q j r + if q = i ∧ p = some ⟨ghostId, .ghost j r⟩ then 1
      else 0 := by
  obtain ⟨cs, hcalls, hcall⟩ := h.calls
  unfold gotten
  rw [hcalls]
  by_cases hqi : q = i
  · subst hqi
    rw [Function.update_self, List.countP_append]
    cases p with
    | none =>
      rw [show cs = [] from hcall, if_neg (fun h => by cases h.2)]
      rfl
    | some payload =>
      obtain ⟨c, rfl, hcont, hpayload, _⟩ := hcall
      rw [List.countP_singleton]
      refine congrArg _ (if_congr ?_ rfl rfl)
      unfold isGhost
      rw [decide_eq_true_eq, hcont, hpayload]
      constructor
      · rintro ⟨hid, hdata⟩
        cases payload
        exact ⟨rfl, congrArg some (Payload.mk.injEq .. ▸ ⟨hid, hdata⟩)⟩
      · rintro ⟨_, hsome⟩
        obtain rfl := Option.some.inj hsome
        exact ⟨rfl, rfl⟩
  · rw [Function.update_of_ne hqi, if_neg fun h => hqi h.1, Nat.add_zero]

theorem sentTo_count (i q : Fin n) (φ ψ : Phase) (j r : Nat) :
    (sentTo i q φ ψ ghostId).count (⟨ghostId, .ghost j r⟩ : Payload (Bytes E))
      = if φ.rounds < ψ.rounds ∧ Nbr q i ∧ j = i.val ∧ r = ψ.rounds then 1 else 0 := by
  unfold sentTo
  by_cases hsent : φ.rounds < ψ.rounds ∧ Nbr q i
  · rw [if_pos ⟨hsent.1, rfl, hsent.2⟩, List.count_singleton]
    refine if_congr ?_ rfl rfl
    rw [beq_iff_eq, Payload.mk.injEq, Bytes.ghost.injEq]
    exact ⟨fun h => ⟨hsent.1, hsent.2, h.2.1.symm, h.2.2.symm⟩,
      fun h => ⟨rfl, h.2.2.1.symm, h.2.2.2.symm⟩⟩
  · rw [if_neg fun h => hsent ⟨h.1, h.2.2⟩, if_neg fun h => hsent ⟨h.1, h.2.1⟩]
    rfl

theorem readBy_count (i q : Fin n) (p : Option (Payload (Bytes E))) (j r : Nat) :
    (readBy i q p ghostId).count (⟨ghostId, .ghost j r⟩ : Payload (Bytes E))
      = if q = i ∧ p = some ⟨ghostId, .ghost j r⟩ then 1 else 0 := by
  by_cases hqi : q = i
  · subst hqi
    cases p with
    | none =>
      rw [readBy_none, if_neg (fun h => by cases h.2)]
      rfl
    | some payload =>
      by_cases hid : payload.id = ghostId
      · rw [readBy_hit hid, List.count_singleton]
        refine if_congr ?_ rfl rfl
        rw [beq_iff_eq]
        exact ⟨fun h => ⟨rfl, congrArg some h⟩, fun h => Option.some.inj h.2⟩
      · rw [readBy_miss hid, if_neg fun h =>
          hid (congrArg Payload.id (Option.some.inj h.2))]
        rfl
  · rw [readBy_other hqi, if_neg fun h => hqi h.1]
    rfl

theorem mail_move (hl : X.Local u φ) (hloop : X.Loop P u φ) (hmail : Mail u φ)
    (h : X.Move u u' i (φ i) ψ p) : Mail u' (Function.update φ i ψ) where
  errors := by
    intro q
    rw [h.reductions]
    by_cases hqi : q = i
    · subst hqi
      rw [Function.update_self]
      exact errors_move hl hloop hmail h
    · have hperm := h.pending q maxErrorId
      rw [sentTo_other _ _ _ _ (by decide), readBy_other hqi, List.append_nil,
        List.nil_append, hmail.errors] at hperm
      rw [Function.update_of_ne hqi]
      exact eq_of_perm_short hperm.symm (awaited_length u.reductions (φ q))
  grids := by
    intro q x hx
    rcases h.mem_pending hx with hx | hx
    · exact hmail.grids q x hx
    · rw [sentTo_other _ _ _ _ (by decide)] at hx
      cases hx
  onlyGhosts := by
    intro q x hx
    rcases h.mem_pending hx with hx | hx
    · exact hmail.onlyGhosts q x hx
    · unfold sentTo at hx
      split at hx
      next => exact ⟨_, _, List.mem_singleton.mp hx⟩
      next => cases hx
  ghosts := by
    intro q j r
    have hcount :=
      (h.pending q ghostId).count_eq (⟨ghostId, .ghost j r⟩ : Payload (Bytes E))
    rw [List.count_append, List.count_append, sentTo_count, readBy_count] at hcount
    have hold := hmail.ghosts q j r
    rw [gotten_move h, roundsAt_update]
    generalize (if q = i ∧ p = some _ then 1 else 0) = read at hcount ⊢
    -- a worker that goes on sends the ghosts of its new round
    have hrounds : ψ.rounds = (φ i).rounds ∨ ψ.rounds = (φ i).rounds + 1 :=
      h.change.rounds.imp_right And.left
    by_cases hji : j = i.val
    · subst hji
      have hφ : roundsAt φ i.val = (φ i).rounds := dif_pos i.isLt
      rw [hφ] at hold
      rw [if_pos rfl]
      by_cases hn : Nbr q i
      · simp only [hn, true_and] at hcount hold ⊢
        split at hcount <;> split at hold <;> split <;> omega
      · simp only [hn, false_and, and_false, if_false] at hcount hold ⊢
        omega
    · rw [if_neg hji]
      simp only [hji, false_and, and_false, if_false] at hcount
      omega

/-! ## Moves keep the rounds apart -/

/-- A ghost that is neither on its way nor received was not sent. -/
theorem Mail.once (hmail : Mail u φ) (i : Fin n) (j r : Nat) :
    gotten u i j r ≤ if j < n then 1 else 0 := by
  have hcount := hmail.ghosts i j r
  by_cases hj : j < n
  · rw [if_pos hj]
    split at hcount <;> omega
  · have hrounds : roundsAt φ j = 0 := dif_neg hj
    rw [if_neg fun h => by omega] at hcount
    omega

/-- **A ghost that is read is of the round, and the first from its sender.** -/
theorem ghost_read (hl : X.Local u φ) (hloop : X.Loop P u φ) (hmail : Mail u φ)
    (hgot : Got u φ) {r got : Nat} (hφ : φ i = .ghosts r got)
    {payload : Payload (Bytes E)}
    (h : X.Move u u' i (φ i) ψ (some payload)) (hid : payload.id = ghostId) :
    ∃ j, payload = ⟨ghostId, .ghost j r⟩ ∧ Nbr i j ∧ j < n ∧ gotten u i j r = 0 := by
  have hmem := h.read_pending
  rw [hid] at hmem
  obtain ⟨j, r', rfl⟩ := hmail.onlyGhosts i payload hmem
  have hcount := hmail.ghosts i j r'
  have hpos : 0 < (u.pending i ghostId).count ⟨ghostId, .ghost j r'⟩ :=
    List.count_pos_iff.mpr hmem
  split at hcount
  next hsent =>
    obtain ⟨hnbr, hr', hle⟩ := hsent
    have hj : j < n := by
      by_contra hj
      have hrounds : roundsAt φ j = 0 := dif_neg hj
      omega
    have hzero : gotten u i j r' = 0 := by omega
    -- an earlier round is complete, and has all its ghosts
    have hr : r' = r := by
      rcases Nat.lt_or_eq_of_le (Nat.le_trans hle (barrier hl hloop hφ j)) with hlt | heq
      · have hone :=
          (hgot i).old j r' hnbr hj hr' (by rw [hφ]; exact Nat.le_sub_one_of_lt hlt)
        omega
      · exact heq
    exact ⟨j, by rw [hr], hnbr, hj, hr ▸ hzero⟩
  next => omega

/-- A move that reads no ghost counts none. -/
theorem gotten_same (h : X.Move u u' i (φ i) ψ p)
    (hp : ∀ payload, p = some payload → payload.id ≠ ghostId) : gotten u' = gotten u := by
  funext q j r
  rw [gotten_move h, if_neg, Nat.add_zero]
  rintro ⟨_, rfl⟩
  exact hp _ rfl rfl

theorem gotten_read {j r : Nat} (h : X.Move u u' i (φ i) ψ (some ⟨ghostId, .ghost j r⟩)) :
    gotten u' i = fun j' r' => gotten u i j' r' + if j' = j ∧ r' = r then 1 else 0 := by
  funext j' r'
  rw [gotten_move h]
  refine congrArg _ (if_congr ⟨fun hp => ?_, fun hjr => ?_⟩ rfl rfl)
  · have hdata := Option.some.inj hp.2
    rw [Payload.mk.injEq, Bytes.ghost.injEq] at hdata
    exact ⟨hdata.2.1.symm, hdata.2.2.symm⟩
  · exact ⟨rfl, by rw [hjr.1, hjr.2]⟩

/-- The ghosts of the worker that moves. -/
theorem gotAt_move (hl : X.Local u φ) (hloop : X.Loop P u φ) (hmail : Mail u φ)
    (hgot : Got u φ) (h : X.Move u u' i (φ i) ψ p) : GotAt i (gotten u' i) ψ := by
  have honce := (mail_move hl hloop hmail h).once i
  have hgi := hgot i
  have hchange := h.change
  have hread := @ghost_read n E X P u u' φ i ψ _ hl hloop hmail hgot
  generalize hφ : φ i = φi at hchange hgi
  cases hchange with
  | start =>
    rw [gotten_same h (fun _ hp => by cases hp)]
    exact hgi.begins rfl
  | skip =>
    rw [gotten_same h (fun _ hp => by cases hp)]
    exact hgi.leaves rfl rfl rfl
  | @receive r got payload hid hpos =>
    obtain ⟨j, rfl, hnbr, _, _⟩ := hread hφ h hid
    rw [gotten_read h]
    exact hgi.reads hnbr hpos
  | @compute r got payload hid hpos hall =>
    obtain ⟨j, rfl, hnbr, _, _⟩ := hread hφ h hid
    have hnext := hgi.reads hnbr hpos
    rw [← gotten_read h] at hnext
    exact hnext.completes hall (fun j => honce j r)
  | again =>
    rw [gotten_same h (fun _ hp =>
      Option.some.inj hp ▸ (by decide : maxErrorId ≠ ghostId))]
    exact hgi.begins rfl
  | leave =>
    rw [gotten_same h (fun _ hp =>
      Option.some.inj hp ▸ (by decide : maxErrorId ≠ ghostId))]
    exact hgi.leaves rfl rfl rfl
  | finish hid =>
    rw [gotten_same h (fun _ hp => by cases hp; rw [hid]; decide)]
    exact hgi.leaves rfl rfl rfl

theorem got_move (hl : X.Local u φ) (hloop : X.Loop P u φ) (hmail : Mail u φ)
    (hgot : Got u φ) (h : X.Move u u' i (φ i) ψ p) : Got u' (Function.update φ i ψ) := by
  intro q
  by_cases hqi : q = i
  · subst hqi
    rw [Function.update_self]
    exact gotAt_move hl hloop hmail hgot h
  · have hsame : gotten u' q = gotten u q := by
      funext j r
      rw [gotten_move h, if_neg fun h => hqi h.1, Nat.add_zero]
    rw [Function.update_of_ne hqi, hsame]
    exact hgot q

/-- A call that contributed to the error left its worker waiting for it, with
all ghosts of the round. -/
theorem check_move (hl : X.Local u φ) (hloop : X.Loop P u φ) (hmail : Mail u φ)
    (hgot : Got u φ) {payload : Payload (Bytes E)}
    (h : X.Move u u' i (φ i) ψ (some payload)) (hc : (φ i).complete < ψ.complete)
    {j : Nat} (hnbr : Nbr i j) (hj : j < n) :
    gotten u' i j ψ.rounds = 1 := by
  have hψ := h.change.computed hc
  refine (gotAt_move hl hloop hmail hgot h).old j _ hnbr hj ?_ ?_
  · rw [hψ]
    exact Nat.succ_pos _
  · rw [hψ]
    exact Nat.le_refl _

theorem log_move (hl : X.Local u φ) (hloop : X.Loop P u φ) (hmail : Mail u φ)
    (hgot : Got u φ) (hlog : Log u) (h : X.Move u u' i (φ i) ψ p) : Log u' := by
  obtain ⟨cs, hcalls, hcall⟩ := h.calls
  cases p with
  | none =>
    obtain rfl : cs = [] := hcall
    rw [List.append_nil, Function.update_eq_self] at hcalls
    exact ⟨hcalls ▸ hlog.ghost, hcalls ▸ hlog.check, hcalls ▸ hlog.grid⟩
  | some payload =>
    obtain ⟨c, rfl, hcont, hpayload, hbefore, hafter, hcomputes⟩ := hcall
    have hother : ∀ q, q ≠ i → u'.calls q = u.calls q := by
      intro q hqi
      rw [hcalls, Function.update_of_ne hqi]
    have hself : u'.calls i = u.calls i ++ [c] := by rw [hcalls, Function.update_self]
    refine ⟨fun q x hx hid => ?_, fun q pre x post hx hcx j hnbr hj => ?_,
      fun q x hx hid => ?_⟩
    · by_cases hqi : q = i
      · subst hqi
        rw [hself] at hx
        rcases List.mem_append.mp hx with hx | hx
        · exact hlog.ghost q x hx hid
        · obtain rfl := List.mem_singleton.mp hx
          have hread := @ghost_read n E X P u u' φ q ψ _ hl hloop hmail hgot
          have hpid : payload.id = ghostId := hcont.symm.trans hid
          have hchange := h.change
          generalize hφ : φ q = φq at hchange
          cases hchange with
          | @receive r got | @compute r got =>
            obtain ⟨j, rfl, hnbr, hj, _⟩ := hread hφ h hpid
            refine ⟨j, hnbr, hj, ?_⟩
            rw [hpayload, hbefore, hφ]
            rfl
          | again | leave => cases hpid
          | finish hgrid =>
            rw [hgrid] at hpid
            cases hpid
      · rw [hother q hqi] at hx
        exact hlog.ghost q x hx hid
    · by_cases hqi : q = i
      · subst hqi
        rw [hself] at hx
        -- the new call is the last: either it is `x`, or `x` is an old one
        rcases List.eq_nil_or_concat post with rfl | ⟨post', y, rfl⟩
        · obtain ⟨rfl, hxc⟩ := List.append_inj' hx rfl
          obtain rfl := List.singleton_inj.mp hxc
          have hone := check_move hl hloop hmail hgot h (hcomputes hcx) hnbr hj
          rw [hafter]
          rw [gotten, hself] at hone
          exact hone
        · rw [List.concat_eq_append, ← List.cons_append, ← List.append_assoc] at hx
          exact hlog.check q pre x post' (List.append_inj' hx rfl).1 hcx j hnbr hj
      · rw [hother q hqi] at hx
        exact hlog.check q pre x post hx hcx j hnbr hj
    · by_cases hqi : q = i
      · subst hqi
        rw [hself] at hx
        rcases List.mem_append.mp hx with hx | hx
        · exact hlog.grid q x hx hid
        · obtain rfl := List.mem_singleton.mp hx
          have hpid : payload.id = gridId := hcont.symm.trans hid
          have hmem := h.read_pending
          rw [hpid] at hmem
          obtain ⟨values, rfl, hperm⟩ := hmail.grids q payload hmem
          have hchange := h.change
          generalize φ q = φq at hchange
          cases hchange with
          | receive hghost | compute hghost =>
            rw [hghost] at hpid
            cases hpid
          | finish _ hzero => exact ⟨hzero, values, by rw [hpayload], hperm⟩
      · rw [hother q hqi] at hx
        exact hlog.grid q x hx hid

end Agreement

end Relaxing

end CharmExperiments.Hypercomm
