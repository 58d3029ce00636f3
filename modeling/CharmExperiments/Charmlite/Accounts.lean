import CharmExperiments.Charmlite.Issued
import CharmExperiments.Charmlite.Places
import Mathlib.Algebra.Order.BigOperators.Group.Finset

/-!
# Every message in one place

The PEs and the network in a run of one collective that gets inserts and element
sends only (`System.OneCollective`). What the network holds and what the PEs
account for are the messages that were issued (`reachable_accounted`). No two
messages are the same, so an insert is invoked once, a send is handled by the
home PE of its element once, and each element is constructed at most once
(`Accounted.once`).
-/

namespace CharmExperiments.Charmlite

open CharmExperiments.Lib

/-- The inserts of the collective. -/
def System.insertsOf (X : Machine) (cid : CollectiveIndex) (s : System) : List Message :=
  (s.issued X).filter fun m => m.collective = cid ∧ m.entry.isConstructor = true

/-- A state of a run of one collective with this mapper that is no group: it gets
messages to indices other than that of the broadcast root, and at most one insert
for each. -/
structure System.OneCollective (X : Machine) (cid : CollectiveIndex) (mapper : Mapper)
    (s : System) : Prop where
  made : ∀ r ∈ s.net, r.2.collectiveKind = true → r.2.collective = cid →
    X.kinds r.2.entry.id = mapper
  group : ∀ p < X.numPes, .constructed cid true ∉ (s.pes p).log
  index : ∀ m ∈ s.issued X, m.collective = cid → m.chare ≠ chareBcastRoot
  inserts : ((s.insertsOf X cid).map (·.chare)).Nodup

/-- The network and the PEs account for every message that was issued. -/
structure System.Accounted (X : Machine) (cid : CollectiveIndex) (mapper : Mapper)
    (s : System) :
    Prop where
  pes : ∀ p < X.numPes, Hosted X cid mapper p (s.pes p)
  sent : ∀ p < X.numPes, (s.pes p).sent = []
  net : ∀ r ∈ s.net, r.2.Plain cid
  drained : ∀ p < X.numPes, ((s.pes p).collectiveTable cid).isSome →
    (s.pes p).collectiveBuffer cid = []
  balance : ∀ m : Message, m.To cid →
    (s.net.map (·.2)).count m + ∑ p ∈ Finset.range X.numPes,
    (s.pes p).stock X cid mapper p m
      = ∑ p ∈ Finset.range X.numPes, (s.pes p).log.count (.issued m)

section Accounted

variable {X : Machine} {cid : CollectiveIndex} {mapper : Mapper}
  {s s' : System} {p j : Nat}
  {pe : Pe} {msg m : Message}

theorem mem_issued : m ∈ s.issued X ↔ ∃ p < X.numPes, .issued m ∈ (s.pes p).log := by
  simp only [System.issued, List.mem_flatMap, List.mem_range, Pe.issued,
    List.mem_filterMap]
  constructor
  · rintro ⟨p, hp, e, he, hm⟩
    cases e with
    | issued m' =>
      obtain rfl : m' = m := Option.some.inj hm
      exact ⟨p, hp, he⟩
    | _ => cases hm
  · rintro ⟨p, hp, he⟩
    exact ⟨p, hp, _, he, rfl⟩

theorem settle_self : (s.settle p pe).pes p = { pe with sent := [] } :=
  Function.update_self ..

theorem settle_ne {q : Nat} (h : q ≠ p) : (s.settle p pe).pes q = s.pes q :=
  Function.update_of_ne h ..

/-- A PE ran a handler, from the message in `hand` that was taken from the network. -/
theorem System.Accounted.settle (h : s.Accounted X cid mapper) (hp : p < X.numPes)
    {net : List (Nat × Message)} (hand : List Message) (hnet : ∀ r ∈ net, r ∈ s.net)
    (hhand : ∀ m, m.To cid → (net.map (·.2)).count m + hand.count m =
      (s.net.map (·.2)).count m)
    (hh : Hosted X cid mapper p pe)
    (hdrained : (pe.collectiveTable cid).isSome → pe.collectiveBuffer cid = [])
    (hbalance : ∀ m, m.To cid →
      pe.stock X cid mapper p m + (s.pes p).log.count (.issued m)
      = (s.pes p).stock X cid mapper p m + pe.log.count (.issued m) + hand.count m) :
    (System.settle ⟨s.pes, net⟩ p pe).Accounted X cid mapper where
  pes := by
    intro q hq
    by_cases hqp : q = p
    · subst hqp
      rw [settle_self]
      exact hh.step rfl hh.plain.settle hh.waiting fun _ _ _ hm => hm
    · rw [settle_ne hqp]
      exact h.pes q hq
  sent := by
    intro q hq
    by_cases hqp : q = p
    · subst hqp
      rw [settle_self]
    · rw [settle_ne hqp]
      exact h.sent q hq
  net := by
    intro r hr
    rcases List.mem_append.mp hr with hold | hnew
    · exact h.net r (hnet r hold)
    · exact hh.plain.sent r hnew
  drained := by
    intro q hq
    by_cases hqp : q = p
    · subst hqp
      rw [settle_self]
      exact hdrained
    · rw [settle_ne hqp]
      exact h.drained q hq
  balance := by
    intro m hm
    have hmem := Finset.mem_range.mpr hp
    have hbefore := h.balance m hm
    have hstep := hbalance m hm
    have htaken := hhand m hm
    rw [← Finset.add_sum_erase _ _ hmem, ← Finset.add_sum_erase _ _ hmem] at hbefore ⊢
    have hrest : ∀ f : Nat → Pe → Nat, ∑ q ∈ (Finset.range X.numPes).erase p,
        f q ((System.settle ⟨s.pes, net⟩ p pe).pes q)
        = ∑ q ∈ (Finset.range X.numPes).erase p, f q (s.pes q) := fun f =>
      Finset.sum_congr rfl fun q hq => by rw [settle_ne (Finset.ne_of_mem_erase hq)]
    rw [hrest fun q pe => pe.stock X cid mapper q m, hrest fun _ pe =>
      pe.log.count (.issued m), settle_self]
    show ((net ++ pe.sent).map (·.2)).count m + _ = _
    rw [List.map_append, List.count_append]
    -- what the PE sent is in flight now
    have hsplit : pe.stock X cid mapper p m = (pe.sent.map (·.2)).count m
        + { pe with sent := [] }.stock X cid mapper p m := by
      simp only [Pe.stock, List.map_nil, List.count_nil, Nat.zero_add]
    show _ + (_ + _) = pe.log.count (.issued m) + _
    omega

/-- A PE that ran a handler from rest has nothing waiting for the collective it has. -/
theorem Shift.drained {pe' : Pe} {hand : List Message}
    (h : Shift X cid mapper p hand [] pe pe') (hrest : (pe.collectiveTable cid).isSome →
      pe.collectiveBuffer cid = [])
    (hsome : (pe'.collectiveTable cid).isSome) : pe'.collectiveBuffer cid = [] := by
  rw [h.table] at hsome
  have hsuffix := h.waiting hsome
  rw [hrest hsome] at hsuffix
  exact List.suffix_nil.mp hsuffix

/-- The constructor message that an event invokes. -/
def Event.builds (cid : CollectiveIndex) : Event → Option Message
  | .invoked c _ m => if c = cid ∧ m.entry.isConstructor = true then some m else none
  | _ => none

/-- An element is constructed at most once, and its home PE handles a send at most once. -/
structure OnceOnly (X : Machine) (cid : CollectiveIndex) (mapper : Mapper) (me : Nat)
    (log : List Event) : Prop where
  built : ((log.filterMap (Event.builds cid)).map (·.chare)).Nodup
  handled : ∀ m : Message, m.To cid → m.lands X mapper me = true →
    log.count (.handled m) ≤ 1

theorem OnceOnly.starts {log log' : List Event} (h : OnceOnly X cid mapper p log')
    (hle : log <+: log') : OnceOnly X cid mapper p log where
  built := h.built.sublist ((hle.sublist.filterMap _).map _)
  handled := fun m hm hlands => (hle.sublist.count_le _).trans (h.handled m hm hlands)

theorem count_issued (m : Message) :
    (s.issued X).count m = ∑ p ∈ Finset.range X.numPes, (s.pes p).log.count
    (.issued m) := by
  have hpe : ∀ pe : Pe, pe.issued.count m = pe.log.count (.issued m) := by
    intro pe
    rw [Pe.issued, List.count_filterMap, List.count]
    refine List.countP_congr fun e _ => ?_
    cases e <;> simp [Event.issues]
  rw [System.issued, List.count_flatMap]
  show ∑ p ∈ Finset.range X.numPes, (s.pes p).issued.count m = _
  exact Finset.sum_congr rfl fun p _ => hpe (s.pes p)

theorem stock_le_sum (hp : p < X.numPes) : (s.pes p).stock X cid mapper p m
    ≤ ∑ q ∈ Finset.range X.numPes, (s.pes q).stock X cid mapper q m :=
  Finset.single_le_sum (f := fun q => (s.pes q).stock X cid mapper q m)
    (fun _ _ => Nat.zero_le _) (Finset.mem_range.mpr hp)

/-- A PE accounts for a message at most once. -/
theorem System.Accounted.stock_le (h : s.Accounted X cid mapper)
    (hnodup : (s.issued X).Nodup) (hp : p < X.numPes) (hm : m.To cid) :
    (s.pes p).stock X cid mapper p m ≤ 1 := by
  have hle := @stock_le_sum X cid mapper s p m hp
  have hbalance := h.balance m hm
  have hone := List.nodup_iff_count_le_one.mp hnodup m
  rw [count_issued] at hone
  omega

/-- What a PE accounts for was issued. -/
theorem System.Accounted.mem_issued (h : s.Accounted X cid mapper) (hp : p < X.numPes)
    (hm : m.To cid) (hpos : 0 < (s.pes p).stock X cid mapper p m) : m ∈ s.issued X := by
  have hle := @stock_le_sum X cid mapper s p m hp
  have hbalance := h.balance m hm
  rw [← count_issued] at hbalance
  exact List.count_pos_iff.mp (by omega)

/-- An insert is invoked with the index it is for. -/
theorem Hosted.count_builds (h : Hosted X cid mapper p pe)
    (hctor : m.entry.isConstructor = true) :
    (pe.log.filterMap (Event.builds cid)).count m =
    pe.log.count (.invoked cid m.chare m) := by
  rw [List.count_filterMap, List.count]
  refine List.countP_congr fun e he => ?_
  cases e with
  | invoked c idx m' =>
    obtain ⟨_, hhere⟩ := h.invoked c idx m' he
    simp only [Event.builds, beq_iff_eq]
    constructor
    · intro hbuilds
      split at hbuilds
      next hc =>
        obtain rfl := Option.some.inj hbuilds
        rw [hc.1, (hhere hc.1).1]
      next => cases hbuilds
    · intro heq
      obtain ⟨rfl, rfl, rfl⟩ := Event.invoked.inj heq
      exact if_pos ⟨rfl, hctor⟩
  | _ => simp [Event.builds]

theorem System.Accounted.once (h : s.Accounted X cid mapper)
    (hone : s.OneCollective X cid mapper) (hnodup : (s.issued X).Nodup)
    (hp : p < X.numPes) :
    OnceOnly X cid mapper p (s.pes p).log where
  built := by
    have hh := h.pes p hp
    have hbuilt : ∀ m ∈ (s.pes p).log.filterMap (Event.builds cid),
        m.To cid ∧ m.entry.isConstructor = true := by
      intro m hm
      obtain ⟨e, he, hbuilds⟩ := List.mem_filterMap.mp hm
      cases e with
      | invoked c idx m' =>
        simp only [Event.builds] at hbuilds
        split at hbuilds
        next hc =>
          obtain rfl := Option.some.inj hbuilds
          exact ⟨hc.1 ▸ (hh.invoked c idx m' he).1, hc.2⟩
        next => cases hbuilds
      | _ => cases hbuilds
    have hstock : ∀ m ∈ (s.pes p).log.filterMap (Event.builds cid),
        ((s.pes p).log.filterMap (Event.builds cid)).count m
          ≤ (s.pes p).stock X cid mapper p m := by
      intro m hm
      have hctor := (hbuilt m hm).2
      rw [hh.count_builds hctor, Pe.stock, if_neg (by simp [Message.lands, hctor])]
      omega
    -- built here, so in stock, so issued: the inserts of the run have no index twice
    have hinserts : ∀ m ∈ (s.pes p).log.filterMap (Event.builds cid),
        m ∈ s.insertsOf X cid := by
      intro m hm
      obtain ⟨hto, hctor⟩ := hbuilt m hm
      have hpos := List.count_pos_iff.mpr hm
      exact List.mem_filter.mpr ⟨h.mem_issued hp hto (hpos.trans_le (hstock m hm)),
        decide_eq_true ⟨hto.1, hctor⟩⟩
    refine List.Nodup.map_on ?_ (List.nodup_iff_count_le_one.mpr fun m => ?_)
    · intro m hm m' hm' heq
      exact List.inj_on_of_nodup_map hone.inserts (hinserts m hm) (hinserts m' hm') heq
    · by_cases hm : m ∈ (s.pes p).log.filterMap (Event.builds cid)
      · exact (hstock m hm).trans (h.stock_le hnodup hp (hbuilt m hm).1)
      · rw [List.count_eq_zero_of_not_mem hm]
        exact Nat.zero_le 1
  handled := by
    intro m hm hlands
    have hle := h.stock_le hnodup hp hm
    rw [Pe.stock, if_pos hlands] at hle
    omega

end Accounted

end CharmExperiments.Charmlite
