import CharmExperiments.Comex.Turns
import Mathlib.Data.Finset.Lattice.Fold
import Mathlib.Order.Lattice.Nat

/-!
# The sets of a component, by rank

The `k`-th values accepted on the inputs of a component belong into one set,
`rank acc k`. `Ranked` is the invariant of a component whose calls do not come
back: each such set has been handed to the action or is in the deque, higher ranks
before lower ones, and only complete ones have been handed over.

The search of `find_gap_` from the back therefore ends at the set that the next
value of the port belongs into (`gap_rank`).
-/

namespace CharmExperiments.Comex

open CharmExperiments.Lib

variable {σ V : Type}

/-- The set of the `k`-th values of all ports. -/
def rank (acc : List (Nat × V)) (k : Nat) : InSet V := fun i => (on i acc)[k]?

/-- How many values the port with the most has. -/
def most (K : Class σ V) (acc : List (Nat × V)) : Nat :=
  (Finset.range K.nInputs).sup fun i => (on i acc).length

theorem ports_nonempty (K : Class σ V) : (Finset.range K.nInputs).Nonempty :=
  ⟨0, Finset.mem_range.mpr K.inputs⟩

/-- How many values the port with the fewest has. -/
def fewest (K : Class σ V) (acc : List (Nat × V)) : Nat :=
  (Finset.range K.nInputs).inf' (ports_nonempty K) fun i => (on i acc).length

section Counts

variable {K : Class σ V} {acc : List (Nat × V)} {port k : Nat} {val : V}

theorem lt_most_iff : k < most K acc ↔ ∃ i < K.nInputs, k < (on i acc).length := by
  rw [most, Finset.lt_sup_iff]
  simp only [Finset.mem_range]

theorem le_most (h : port < K.nInputs) : (on port acc).length ≤ most K acc :=
  Finset.le_sup (f := fun i => (on i acc).length) (Finset.mem_range.mpr h)

theorem lt_fewest_iff : k < fewest K acc ↔ ∀ i < K.nInputs, k < (on i acc).length := by
  rw [fewest, Finset.lt_inf'_iff]
  simp only [Finset.mem_range]

theorem fewest_le (h : port < K.nInputs) : fewest K acc ≤ (on port acc).length :=
  Finset.inf'_le (f := fun i => (on i acc).length) (Finset.mem_range.mpr h)

theorem fewest_le_most : fewest K acc ≤ most K acc :=
  (fewest_le K.inputs).trans (le_most K.inputs)

theorem rank_isSome {i : Nat} : (rank acc k i).isSome = true ↔ k < (on i acc).length := by
  rw [rank, Option.isSome_iff_ne_none, ne_eq, List.getElem?_eq_none_iff, not_le]

/-- A set is complete when no port has fewer values. -/
theorem rank_ready_iff : isReady K (rank acc k) = true ↔ k < fewest K acc := by
  rw [isReady_iff, lt_fewest_iff]
  refine forall₂_congr fun i _ => ?_
  exact rank_isSome

/-- The next value of a port belongs into the set that has as many before it. -/
theorem rank_note (hne : k ≠ (on port acc).length) :
    rank (acc ++ [(port, val)]) k = rank acc k := by
  funext i
  show (on i (acc ++ [(port, val)]))[k]? = (on i acc)[k]?
  by_cases hi : port = i
  · subst hi
    rw [on_append_self]
    by_cases hk : k < (on port acc).length
    · rw [List.getElem?_append_left hk]
    · have hlen : (on port acc ++ [val]).length ≤ k := by
        rw [List.length_append, List.length_singleton]
        omega
      rw [List.getElem?_eq_none_iff.mpr hlen, List.getElem?_eq_none_iff.mpr (by omega)]
  · rw [on_append_other hi]

theorem rank_note_self : rank (acc ++ [(port, val)]) (on port acc).length =
    Function.update (rank acc (on port acc).length) port (some val) := by
  funext i
  show (on i (acc ++ [(port, val)]))[(on port acc).length]? = _
  by_cases hi : i = port
  · subst hi
    rw [on_append_self, Function.update_self, List.getElem?_concat_length]
  · rw [on_append_other (Ne.symm hi), Function.update_of_ne hi]
    rfl

/-- Values are accepted on the ports there are. -/
theorem on_eq_nil {i : Nat} (hports : ∀ x ∈ acc, x.1 < K.nInputs) (hi : K.nInputs ≤ i) :
    on i acc = [] := by
  rw [on, List.map_eq_nil_iff, List.filter_eq_nil_iff]
  intro x hx
  have hlt := hports x hx
  simp only [decide_eq_true_eq]
  omega

/-- No value has been accepted for the set after the last. -/
theorem rank_most (hports : ∀ x ∈ acc, x.1 < K.nInputs) (hk : most K acc ≤ k) :
    rank acc k = fun _ => none := by
  funext i
  refine List.getElem?_eq_none_iff.mpr ?_
  by_cases hi : i < K.nInputs
  · exact (le_most hi).trans hk
  · rw [on_eq_nil hports (Nat.le_of_not_lt hi)]
    exact Nat.zero_le k

theorem length_note (i : Nat) : (on i (acc ++ [(port, val)])).length =
    if i = port then (on i acc).length + 1 else (on i acc).length := by
  split
  next h => rw [h, on_append_self, List.length_append, List.length_singleton]
  next h => rw [on_append_other (Ne.symm h)]

theorem most_note (hport : port < K.nInputs) :
    most K (acc ++ [(port, val)]) = max (most K acc) ((on port acc).length + 1) := by
  refine eq_of_forall_lt_iff fun k => ?_
  rw [lt_most_iff, lt_max_iff, lt_most_iff]
  constructor
  · rintro ⟨i, hi, hk⟩
    rw [length_note] at hk
    split at hk
    next h => exact Or.inr (h ▸ hk)
    next h => exact Or.inl ⟨i, hi, hk⟩
  · rintro (⟨i, hi, hk⟩ | hk)
    · refine ⟨i, hi, ?_⟩
      rw [length_note]
      split <;> omega
    · refine ⟨port, hport, ?_⟩
      rw [length_note, if_pos rfl]
      exact hk

theorem fewest_take (p : Nat) : fewest K (acc.take p) ≤ fewest K acc := by
  refine le_of_forall_lt fun k hk => lt_fewest_iff.mpr fun i hi => ?_
  have hlt := lt_fewest_iff.mp hk i hi
  have hle : (on i (acc.take p)).length ≤ (on i acc).length :=
    (((List.take_sublist p acc).filter _).map Prod.snd).length_le
  omega

/-- A value that completes a set completes the next one. -/
theorem fewest_note_complete (hport : port < K.nInputs)
    (hfull : (on port acc).length < fewest K (acc ++ [(port, val)])) :
    fewest K acc = (on port acc).length ∧
      fewest K (acc ++ [(port, val)]) = (on port acc).length + 1 := by
  have hall := lt_fewest_iff.mp hfull
  constructor
  · refine Nat.le_antisymm (fewest_le hport) (le_of_forall_lt fun k hk => ?_)
    refine lt_fewest_iff.mpr fun i hi => ?_
    have hlt := hall i hi
    rw [length_note] at hlt
    split at hlt
    next h => exact h ▸ hk
    next => omega
  · have hle : fewest K (acc ++ [(port, val)]) ≤
        (on port (acc ++ [(port, val)])).length :=
      fewest_le hport
    rw [length_note, if_pos rfl] at hle
    omega

/-- A value that does not complete a set leaves the complete sets as they were. -/
theorem fewest_note_other
    (hnot : ¬ (on port acc).length < fewest K (acc ++ [(port, val)])) :
    fewest K (acc ++ [(port, val)]) = fewest K acc := by
  refine eq_of_forall_lt_iff fun k => ⟨fun hk => ?_, fun hk => ?_⟩
  · refine lt_fewest_iff.mpr fun i hi => ?_
    have hlt := lt_fewest_iff.mp hk i hi
    rw [length_note] at hlt
    split at hlt
    next h =>
      rw [h]
      omega
    next => exact hlt
  · refine lt_fewest_iff.mpr fun i hi => ?_
    have hlt := lt_fewest_iff.mp hk i hi
    rw [length_note]
    split <;> omega

end Counts

/-! ## The sets of a component -/

/-- The sets in the deque that are not handed to the action. -/
def rest (l : Local σ V) : List (InSet V) :=
  (l.com.incoming.items.filter fun x => x.1 ∉ (held l.frames).map (·.id)).map Prod.snd

/-- The sets of ranks `as` have been handed to the action, in this order; those of
ranks `ks` are in the deque. -/
structure Ranked (K : Class σ V) (l : Local σ V) (as ks : List Nat) : Prop where
  ports : ∀ x ∈ l.com.accepted, x.1 < K.nInputs
  acted : l.com.acted = as.map (rank l.com.accepted)
  waits : rest l = ks.map (rank l.com.accepted)
  sorted : ks.Pairwise (· > ·)
  ranks : (as ++ ks).Perm (List.range (most K l.com.accepted))
  complete : ∀ k ∈ as, k < fewest K l.com.accepted

section Ranked

variable {K : Class σ V} {l l' : Local σ V} {as ks : List Nat} {c c' : Component σ V}
  {fs : List (Frame V)} {port : Nat} {val : V}

/-- With nothing staged all sets in the deque are left. -/
theorem rest_idle (hs : ¬ Staging fs) : rest ⟨c, fs⟩ = c.incoming.values := by
  show (c.incoming.items.filter fun x => x.1 ∉ (held fs).map (·.id)).map Prod.snd = _
  rw [held_eq_nil hs]
  exact congrArg _ (List.filter_eq_self.mpr fun _ _ => decide_eq_true List.not_mem_nil)

/-- A staged set is not left. -/
theorem rest_staged {it : Deque.Iterator} {outs : List (Nat × Option V)} {set : InSet V}
    {left right : List (Nat × InSet V)} (hs : ¬ Staging fs)
    (hitems : c.incoming.items = left ++ (it.id, set) :: right) :
    rest ⟨c, .staging (some it) outs :: fs⟩ = (left ++ right).map Prod.snd := by
  show (c.incoming.items.filter fun x => x.1 ∉ (held (.staging (some it) outs :: fs)).map
    (·.id)).map Prod.snd = _
  rw [held_some, held_eq_nil hs, ← Deque.without_split hitems]
  refine congrArg _ (List.filter_congr fun x _ => ?_)
  simp

/-- Nothing that concerns the sets has changed. -/
theorem ranked_same (hi : Ranked K l as ks) (hacc : l'.com.accepted = l.com.accepted)
    (hacted : l'.com.acted = l.com.acted) (hrest : rest l' = rest l) :
    Ranked K l' as ks where
  ports := hacc ▸ hi.ports
  acted := by rw [hacted, hacc, hi.acted]
  waits := by rw [hrest, hacc, hi.waits]
  sorted := hi.sorted
  ranks := hacc ▸ hi.ranks
  complete := hacc ▸ hi.complete

theorem Ranked.ks_lt (hi : Ranked K l as ks) : ∀ k ∈ ks, k < most K l.com.accepted := by
  intro k hk
  exact List.mem_range.mp (hi.ranks.mem_iff.mp (List.mem_append_right as hk))

theorem Ranked.mem_ks (hi : Ranked K l as ks) {k : Nat} (hlt : k < most K l.com.accepted)
    (hle : fewest K l.com.accepted ≤ k) : k ∈ ks := by
  rcases List.mem_append.mp (hi.ranks.mem_iff.mpr (List.mem_range.mpr hlt)) with h | h
  · have hk := hi.complete k h
    omega
  · exact h

/-- The sets that have been handed over are complete, so a new value belongs into
none of them. -/
theorem acted_note (hi : Ranked K ⟨c, fs⟩ as ks) (hport : port < K.nInputs) :
    c.acted = as.map (rank (c.accepted ++ [(port, val)])) := by
  rw [show c.acted = as.map (rank c.accepted) from hi.acted]
  refine List.map_congr_left fun k hk => (rank_note ?_).symm
  have hlt : k < fewest K c.accepted := hi.complete k hk
  have hle : fewest K c.accepted ≤ (on port c.accepted).length := fewest_le hport
  omega

theorem complete_note (hi : Ranked K ⟨c, fs⟩ as ks) :
    ∀ k ∈ as, k < fewest K (c.accepted ++ [(port, val)]) := by
  intro k hk
  refine lt_fewest_iff.mpr fun i hin => ?_
  have hlt : k < (on i c.accepted).length := lt_fewest_iff.mp (hi.complete k hk) i hin
  rw [length_note]
  split <;> omega

theorem ports_note (hi : Ranked K ⟨c, fs⟩ as ks) (hport : port < K.nInputs) :
    ∀ x ∈ c.accepted ++ [(port, val)], x.1 < K.nInputs := by
  intro x hx
  rcases List.mem_append.mp hx with hx | hx
  · exact hi.ports x hx
  · rw [List.mem_singleton.mp hx]
    exact hport

/-- The ranks other than the next of the port keep their sets. -/
theorem map_note {ls : List Nat} (hne : ∀ k ∈ ls, k ≠ (on port c.accepted).length) :
    ls.map (rank (c.accepted ++ [(port, val)])) = ls.map (rank c.accepted) :=
  List.map_congr_left fun k hk => rank_note (hne k hk)

/-- The next value of a port with the most values starts a set. -/
theorem single_rank (hi : Ranked K ⟨c, fs⟩ as ks)
    (hmost : (on port c.accepted).length = most K c.accepted) :
    single port val = rank (c.accepted ++ [(port, val)]) (on port c.accepted).length := by
  rw [rank_note_self, rank_most hi.ports hmost.ge]
  rfl

/-- A new set waits in front. -/
theorem ranked_wait (hi : Ranked K ⟨c, fs⟩ as ks) (hs : ¬ Staging fs)
    (hport : port < K.nInputs) (hmost : (on port c.accepted).length = most K c.accepted) :
    Ranked K ⟨(c.note port val).bufferReadySet (single port val), fs⟩ as
      ((on port c.accepted).length :: ks) where
  ports := ports_note hi hport
  acted := acted_note hi hport
  waits := by
    have hw := hi.waits
    rw [rest_idle hs] at hw ⊢
    have hlt : ∀ k ∈ ks, k ≠ (on port c.accepted).length := fun k hk => by
      have hlt : k < most K c.accepted := hi.ks_lt k hk
      omega
    show single port val :: c.incoming.values =
      ((on port c.accepted).length :: ks).map (rank (c.accepted ++ [(port, val)]))
    rw [List.map_cons, single_rank hi hmost, map_note hlt, hw]
  sorted := by
    refine List.pairwise_cons.mpr ⟨fun k hk => ?_, hi.sorted⟩
    have hlt : k < most K c.accepted := hi.ks_lt k hk
    omega
  ranks := by
    show (as ++ (on port c.accepted).length :: ks).Perm
      (List.range (most K (c.accepted ++ [(port, val)])))
    rw [most_note hport, hmost, max_eq_right (Nat.le_succ _), List.range_succ]
    refine List.perm_middle.trans ?_
    refine ((hi.ranks).cons _).trans ?_
    exact (List.perm_append_singleton _ _).symm
  complete := complete_note hi

/-- Without a gap no port has more values. -/
theorem gapless_most (hi : Ranked K ⟨c, fs⟩ as ks) (hs : ¬ Staging fs)
    (hport : port < K.nInputs) (hgap : c.findGap port = none) :
    (on port c.accepted).length = most K c.accepted := by
  refine Nat.le_antisymm (le_most hport) ?_
  by_contra hlt
  have hmem : (on port c.accepted).length ∈ ks :=
    hi.mem_ks (by show _ < most K c.accepted; omega)
    (fewest_le hport)
  have hw := hi.waits
  rw [rest_idle hs] at hw
  have hset : rank c.accepted (on port c.accepted).length ∈ c.incoming.values := by
    rw [hw]
    exact List.mem_map_of_mem hmem
  obtain ⟨x, hx, heq⟩ := List.mem_map.mp hset
  have hsome := Deque.findBack_none hgap x hx
  rw [heq, Option.isNone_eq_false_iff] at hsome
  exact absurd (rank_isSome.mp hsome) (Nat.lt_irrefl _)

/-- The last gap of a port is in the set that its next value belongs into. -/
theorem gap_rank {id : Nat} {set : InSet V} (hi : Ranked K ⟨c, fs⟩ as ks)
    (hs : ¬ Staging fs) (hport : port < K.nInputs)
    (hgap : c.findGap port = some (id, set)) :
    ∃ left right ks₁ ks₂, c.incoming.items = left ++ (id, set) :: right ∧
      ks = ks₁ ++ (on port c.accepted).length :: ks₂ ∧
      left.map Prod.snd = ks₁.map (rank c.accepted) ∧
      set = rank c.accepted (on port c.accepted).length ∧
      right.map Prod.snd = ks₂.map (rank c.accepted) ∧
      ∀ k ∈ ks₁ ++ ks₂, k ≠ (on port c.accepted).length := by
  obtain ⟨hnone, left, right, hitems, hbehind⟩ := Deque.findBack_some hgap
  have hw : c.incoming.values = ks.map (rank c.accepted) := rest_idle hs ▸ hi.waits
  rw [Deque.values, hitems, List.map_append, List.map_cons] at hw
  obtain ⟨ks₁, ks', rfl, hleft, hks'⟩ := List.map_eq_append_iff.mp hw.symm
  obtain ⟨k, ks₂, rfl, hset, hright⟩ := List.map_eq_cons_iff.mp hks'
  have hle : (on port c.accepted).length ≤ k := by
    by_contra hlt
    have hsome : (rank c.accepted k port).isSome = true := rank_isSome.mpr (by omega)
    rw [hset, Option.isSome_iff_exists] at hsome
    obtain ⟨v, hv⟩ := hsome
    rw [show (id, set).2 port = some v from hv] at hnone
    cases hnone
  have hklt : k < most K c.accepted := hi.ks_lt k (by simp)
  -- the next value's own set is among those left, and not behind this one
  have hmem : (on port c.accepted).length ∈ ks₁ ++ k :: ks₂ :=
    hi.mem_ks (show _ < most K c.accepted by omega) (fewest_le hport)
  have hk : k = (on port c.accepted).length := by
    obtain ⟨_, hsorted, hfront⟩ := List.pairwise_append.mp hi.sorted
    rcases List.mem_append.mp hmem with hmem | hmem
    · have hgt := hfront _ hmem k List.mem_cons_self
      omega
    · rcases List.mem_cons.mp hmem with heq | hmem
      · exact heq.symm
      · have hset : rank c.accepted (on port c.accepted).length ∈ right.map Prod.snd := by
          rw [← hright]
          exact List.mem_map_of_mem hmem
        obtain ⟨x, hx, heq⟩ := List.mem_map.mp hset
        have hsome := hbehind x hx
        rw [heq, Option.isNone_eq_false_iff] at hsome
        exact absurd (rank_isSome.mp hsome) (Nat.lt_irrefl _)
  subst hk
  refine ⟨left, right, ks₁, ks₂, hitems, rfl, hleft.symm, hset.symm, hright.symm,
    fun j hj => ?_⟩
  obtain ⟨_, hsorted, hfront⟩ := List.pairwise_append.mp hi.sorted
  rcases List.mem_append.mp hj with hj | hj
  · have hgt := hfront j hj _ List.mem_cons_self
    omega
  · have hgt := (List.pairwise_cons.mp hsorted).1 j hj
    omega

theorem gap_set {id : Nat} {set : InSet V} (hi : Ranked K ⟨c, fs⟩ as ks)
    (hs : ¬ Staging fs) (hport : port < K.nInputs)
    (hgap : c.findGap port = some (id, set)) :
    Function.update set port (some val) =
      rank (c.accepted ++ [(port, val)]) (on port c.accepted).length := by
  obtain ⟨_, _, _, _, _, _, _, hset, _⟩ := gap_rank hi hs hport hgap
  rw [rank_note_self, hset]

/-- The next value of the port completes its set, or not. -/
theorem ranked_fill {id : Nat} {set : InSet V} (hi : Ranked K ⟨c, fs⟩ as ks)
    (hs : ¬ Staging fs) (hport : port < K.nInputs)
    (hgap : c.findGap port = some (id, set)) :
    Ranked K ⟨(c.note port val).write id (Function.update set port (some val)),
      fs⟩ as ks := by
  obtain ⟨left, right, ks₁, ks₂, hitems, rfl, hleft, hset, hright, hne⟩ :=
    gap_rank hi hs hport hgap
  have hlen : (on port c.accepted).length < most K c.accepted := hi.ks_lt _ (by simp)
  refine ⟨ports_note hi hport, acted_note hi hport, ?_, hi.sorted, ?_, complete_note hi⟩
  · rw [rest_idle hs]
    show (c.incoming.write id (Function.update set port (some val))).items.map Prod.snd =
      (ks₁ ++ (on port c.accepted).length :: ks₂).map (rank (c.accepted ++ [(port, val)]))
    rw [Deque.write_split hitems, List.map_append, List.map_cons, List.map_append,
      List.map_cons, map_note fun k hk => hne k (List.mem_append_left ks₂ hk),
      map_note fun k hk => hne k (List.mem_append_right ks₁ hk),
      rank_note_self, hleft, hset, hright]
  · show (as ++ (ks₁ ++ (on port c.accepted).length :: ks₂)).Perm
      (List.range (most K (c.accepted ++ [(port, val)])))
    rw [most_note hport, max_eq_left hlen]
    exact hi.ranks

/-- A set in the deque is handed to the action. -/
theorem ranked_hand {it : Deque.Iterator} {outs : List (Nat × Option V)} {set : InSet V}
    {left right : List (Nat × InSet V)} {k : Nat} {ks₁ ks₂ : List Nat}
    (hi : Ranked K ⟨c, fs⟩ as (ks₁ ++ k :: ks₂)) (hs : ¬ Staging fs)
    (hitems : c'.incoming.items = left ++ (it.id, set) :: right)
    (hleft : left.map Prod.snd = ks₁.map (rank c.accepted))
    (hright : right.map Prod.snd = ks₂.map (rank c.accepted))
    (hacc : c'.accepted = c.accepted) (hacted : c'.acted = c.acted ++ [rank c.accepted k])
    (hk : k < fewest K c.accepted) :
    Ranked K ⟨c', .staging (some it) outs :: fs⟩ (as ++ [k]) (ks₁ ++ ks₂) where
  ports := hacc ▸ hi.ports
  acted := by
    show c'.acted = _
    rw [hacted, show c.acted = as.map (rank c.accepted) from hi.acted, List.map_append]
    exact congrArg (fun acc => as.map (rank acc) ++ [rank acc k]) hacc.symm
  waits := by
    rw [rest_staged hs hitems, List.map_append, List.map_append, hleft, hright]
    exact congrArg (fun acc => ks₁.map (rank acc) ++ ks₂.map (rank acc)) hacc.symm
  sorted := hi.sorted.sublist
    (List.Sublist.append_left (List.sublist_cons_self k ks₂) ks₁)
  ranks := by
    have hperm : (as ++ [k] ++ (ks₁ ++ ks₂)).Perm (as ++ (ks₁ ++ k :: ks₂)) := by
      rw [List.append_assoc, List.singleton_append]
      exact (List.perm_middle.symm).append_left as
    show (as ++ [k] ++ (ks₁ ++ ks₂)).Perm (List.range (most K c'.accepted))
    rw [hacc]
    exact hperm.trans hi.ranks
  complete j hj := by
    show j < fewest K c'.accepted
    rw [hacc]
    rcases List.mem_append.mp hj with hj | hj
    · exact hi.complete j hj
    · rw [List.mem_singleton.mp hj]
      exact hk

/-- A set that is completed is handed over at once. -/
theorem ranked_complete {id : Nat} {set : InSet V} {outs : List (Nat × Option V)}
    (hi : Ranked K ⟨c, fs⟩ as ks) (hs : ¬ Staging fs) (hport : port < K.nInputs)
    (hgap : c.findGap port = some (id, set))
    (hready : isReady K (Function.update set port (some val)) = true) :
    ∃ ks₁ ks₂, ks = ks₁ ++ (on port c.accepted).length :: ks₂ ∧
      (on port c.accepted).length < fewest K (c.accepted ++ [(port, val)]) ∧
      (∀ k ∈ ks₁ ++ ks₂, k ≠ (on port c.accepted).length) ∧
      Ranked K ⟨((c.note port val).write id (Function.update set port (some val))).act K
          (some (c.incoming.iter id)) (Function.update set port (some val)),
        .staging (some (c.incoming.iter id)) outs :: fs⟩
        (as ++ [(on port c.accepted).length]) (ks₁ ++ ks₂) := by
  have hfill : Ranked K
    ⟨(c.note port val).write id (Function.update set port (some val)), fs⟩ as
      ks := ranked_fill hi hs hport hgap
  obtain ⟨left, right, ks₁, ks₂, hitems, rfl, hleft, hset, hright, hne⟩ :=
    gap_rank hi hs hport hgap
  have hnew : Function.update set port (some val) =
      rank (c.accepted ++ [(port, val)]) (on port c.accepted).length :=
        gap_set hi hs hport hgap
  have hfull : (on port c.accepted).length < fewest K (c.accepted ++ [(port, val)]) := by
    rw [hnew] at hready
    exact rank_ready_iff.mp hready
  refine ⟨ks₁, ks₂, rfl, hfull, hne, ?_⟩
  refine ranked_hand hfill hs
    (Deque.write_split (Deque.write_split hitems _) _) ?_ ?_ rfl ?_ hfull
  · exact hleft.trans (map_note fun k hk => hne k (List.mem_append_left ks₂ hk)).symm
  · exact hright.trans (map_note fun k hk => hne k (List.mem_append_right ks₁ hk)).symm
  · exact congrArg (fun x => c.acted ++ [x]) hnew

/-- The loop of `activate` takes the first complete set. -/
theorem ranked_loop {id : Nat} {set : InSet V} {outs : List (Nat × Option V)}
    (hi : Ranked K ⟨c, fs⟩ as ks) (hs : ¬ Staging fs)
    (hready : c.findReady K = some (id, set)) :
    ∃ ks₁ k ks₂, ks = ks₁ ++ k :: ks₂ ∧ (∀ j ∈ ks₁, fewest K c.accepted ≤ j) ∧
      k < fewest K c.accepted ∧
      Ranked K ⟨c.act K (some (c.incoming.iter id)) set,
        .staging (some (c.incoming.iter id)) outs :: fs⟩ (as ++ [k]) (ks₁ ++ ks₂) := by
  obtain ⟨hset, left, right, hitems, hbefore⟩ := Deque.findFront_some hready
  have hw : c.incoming.values = ks.map (rank c.accepted) := rest_idle hs ▸ hi.waits
  rw [Deque.values, hitems, List.map_append, List.map_cons] at hw
  obtain ⟨ks₁, ks', rfl, hleft, hks'⟩ := List.map_eq_append_iff.mp hw.symm
  obtain ⟨k, ks₂, rfl, hk, hright⟩ := List.map_eq_cons_iff.mp hks'
  rw [show (id, set).2 = rank c.accepted k from hk.symm, rank_ready_iff] at hset
  refine ⟨ks₁, k, ks₂, rfl, fun j hj => ?_, hset, ?_⟩
  · have hmem : rank c.accepted j ∈ left.map Prod.snd := by
      rw [← hleft]
      exact List.mem_map_of_mem hj
    obtain ⟨x, hx, heq⟩ := List.mem_map.mp hmem
    have hnot := hbefore x hx
    rw [heq] at hnot
    refine Nat.le_of_not_lt fun hlt => ?_
    rw [rank_ready_iff.mpr hlt] at hnot
    cases hnot
  · refine ranked_hand hi hs (Deque.write_split hitems _) hleft.symm
      hright.symm rfl ?_ hset
    exact congrArg (fun x => c.acted ++ [x]) hk.symm

/-- With one input the port of a value is the one with the most. -/
theorem one_most (hone : K.nInputs = 1) (hport : port < K.nInputs) :
    port = 0 ∧ (on port c.accepted).length = most K c.accepted := by
  obtain rfl : port = 0 := by omega
  refine ⟨rfl, Nat.le_antisymm (le_most hport) ?_⟩
  refine Nat.le_of_not_lt fun hlt => ?_
  obtain ⟨i, hi, hlt⟩ := lt_most_iff.mp hlt
  obtain rfl : i = 0 := by omega
  exact Nat.lt_irrefl _ hlt

/-- With more inputs a value that starts a set does not complete it. -/
theorem fresh_not_full (hone : K.nInputs ≠ 1) (hport : port < K.nInputs)
    (hmost : (on port c.accepted).length = most K c.accepted) :
    ¬ (on port c.accepted).length < fewest K (c.accepted ++ [(port, val)]) := by
  intro hlt
  obtain ⟨i, hi, hne⟩ : ∃ i < K.nInputs, i ≠ port := by
    by_cases hz : port = 0
    · exact ⟨1, by omega, by omega⟩
    · exact ⟨0, by omega, by omega⟩
  have hle : (on i c.accepted).length ≤ most K c.accepted := le_most hi
  have hlt' := lt_fewest_iff.mp hlt i hi
  rw [length_note, if_neg hne] at hlt'
  omega

/-- A component with one input hands a value over without the deque. -/
theorem ranked_direct {outs : List (Nat × Option V)} (hi : Ranked K ⟨c, fs⟩ as ks)
    (hone : K.nInputs = 1) (hport : port < K.nInputs) :
    (on port c.accepted).length < fewest K (c.accepted ++ [(port, val)]) ∧
    Ranked K ⟨(c.note port val).act K none (single 0 val), .staging none outs :: fs⟩
      (as ++ [(on port c.accepted).length]) ks := by
  obtain ⟨rfl, hmost⟩ := one_most (c := c) hone hport
  have hfull : (on 0 c.accepted).length < fewest K (c.accepted ++ [(0, val)]) := by
    refine lt_fewest_iff.mpr fun i hi => ?_
    obtain rfl : i = 0 := by omega
    rw [length_note, if_pos rfl]
    omega
  refine ⟨hfull, ports_note hi hport, ?_, ?_, hi.sorted, ?_, ?_⟩
  · show c.acted ++ [single 0 val] = _
    rw [single_rank hi hmost, acted_note hi hport, List.map_append]
    rfl
  · show rest ⟨c, fs⟩ = _
    rw [hi.waits]
    refine (map_note fun k hk => ?_).symm
    have hlt : k < most K c.accepted := hi.ks_lt k hk
    show k ≠ (on 0 c.accepted).length
    omega
  · show (as ++ [_] ++ ks).Perm (List.range (most K (c.accepted ++ [(0, val)])))
    rw [most_note hport, hmost, max_eq_right (Nat.le_succ _), List.range_succ,
      List.append_assoc, List.singleton_append]
    exact (List.perm_middle.trans (hi.ranks.cons _)).trans
      (List.perm_append_singleton _ _).symm
  · intro k hk
    rcases List.mem_append.mp hk with hk | hk
    · exact complete_note hi k hk
    · rw [List.mem_singleton.mp hk]
      exact hfull

end Ranked

end CharmExperiments.Comex
