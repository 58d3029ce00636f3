import CharmExperiments.Charmlite.BcastNumber

/-!
# The messages that were issued

Every call of a proxy allocates a message of its own, so the messages issued in
a run differ in their ids (`issued_nodup`).
-/

namespace CharmExperiments.Charmlite

open CharmExperiments.Lib

/-- The message that a call made. -/
def Event.issues : Event → Option Message
  | .issued m => some m
  | _ => none

/-- The messages issued on a PE, in order. -/
def Pe.issued (pe : Pe) : List Message := pe.log.filterMap Event.issues

/-- The messages issued on all PEs. -/
def System.issued (X : Machine) (s : System) : List Message :=
  (List.range X.numPes).flatMap fun p => (s.pes p).issued

/-- The ids are those of the messages allocated so far. -/
structure IssuedInv (me : Nat) (pe : Pe) : Prop where
  own : ∀ m ∈ pe.issued, m.id.pe = me ∧ m.id.seq < pe.allocated
  nodup : (pe.issued.map (·.id)).Nodup

section IssuedInv

variable {X : Machine} {me : Nat} {A : Call → Prop} {pe pe' : Pe} {e : Event}

theorem issued_record : (pe.record e).issued = pe.issued ++ e.issues.toList := by
  rw [Pe.issued, record_log, List.filterMap_append, Pe.issued]
  cases h : e.issues <;> simp [h]

theorem issued_same (h : e.issues = none) : (pe.record e).issued = pe.issued := by
  rw [issued_record, h]
  exact List.append_nil _

theorem IssuedInv.same (h : IssuedInv me pe) (hissued : pe'.issued = pe.issued)
    (hle : pe.allocated ≤ pe'.allocated) : IssuedInv me pe' where
  own := by
    intro m hm
    rw [hissued] at hm
    obtain ⟨hpe, hseq⟩ := h.own m hm
    exact ⟨hpe, by omega⟩
  nodup := hissued ▸ h.nodup

theorem IssuedInv.record (h : IssuedInv me pe) (he : e.issues = none) :
    IssuedInv me (pe.record e) := h.same (issued_same he) (Nat.le_refl _)

/-- A new message has an id of its own. -/
theorem IssuedInv.issue (h : IssuedInv me pe) (cid : CollectiveIndex) (idx : ChareIndex)
    (entry : Entry) :
    IssuedInv me (Machine.issue pe (Machine.newMessage me pe cid idx entry)) := by
  have hissued : (Machine.issue pe (Machine.newMessage me pe cid idx entry)).issued
      = pe.issued ++ [Machine.newMessage me pe cid idx entry] := issued_record
  refine ⟨?_, ?_⟩
  · intro m hm
    rw [hissued] at hm
    rcases List.mem_append.mp hm with hold | hnew
    · obtain ⟨hpe, hseq⟩ := h.own m hold
      exact ⟨hpe, Nat.lt_succ_of_lt hseq⟩
    · rw [List.mem_singleton.mp hnew]
      exact ⟨rfl, Nat.lt_succ_self _⟩
  · rw [hissued, List.map_append, List.nodup_append]
    refine ⟨h.nodup, List.nodup_singleton _, ?_⟩
    intro id hid id' hid'
    obtain ⟨m, hm, rfl⟩ := List.mem_map.mp hid
    rw [List.map_singleton, List.mem_singleton] at hid'
    intro heq
    have hseq := (h.own m hm).2
    rw [heq, hid'] at hseq
    exact Nat.lt_irrefl _ hseq

theorem issuedInv_kept (hX : X.Within A) :
    Machine.Kept X me A (fun _ => True) (IssuedInv me) where
  bodies := hX me
  stored := fun _ _ _ _ _ _ _ _ => trivial
  waiting := fun _ _ _ _ _ => trivial
  record := fun _ e he h => h.record (by cases he <;> rfl)
  push := fun _ _ _ _ h => h.same rfl (Nat.le_refl _)
  buffer := fun _ _ _ _ h => h.same rfl (Nat.le_refl _)
  popFront := fun _ _ _ h => h.same rfl (Nat.le_refl _)
  bufferCollective := fun _ _ _ h => h.same rfl (Nat.le_refl _)
  take := fun _ _ _ _ _ h => h.same rfl (Nat.le_refl _)
  construct := by
    intro pe cid msg col _ _ _ _ h
    refine IssuedInv.record ?_ rfl
    exact h.same rfl (Nat.le_refl _)
  plain := fun _ _ _ _ _ _ _ _ _ _ h => h.record rfl
  accept := by
    intro pe cid msg col ch children _ _ _ _ _ _ _ h
    refine IssuedInv.record ?_ rfl
    exact h.same rfl (Nat.le_refl _)
  rootNext := by
    intro pe cid msg col root obj children _ _ _ _ _ _ _ h
    refine IssuedInv.record ?_ rfl
    exact IssuedInv.same (h.record rfl) rfl (Nat.le_refl _)
  rootWrapped := fun _ _ _ _ _ _ _ _ _ _ _ _ h => (h.record rfl).record rfl
  insert := fun _ cid idx _ _ h => ⟨trivial, h.issue cid idx _⟩
  send := fun _ cid idx _ _ h => ⟨trivial, h.issue cid idx _⟩
  collective := fun _ _ _ h => (h.record rfl).same rfl (Nat.le_succ _)
  group := fun _ _ _ _ h => (h.record rfl).same rfl (Nat.le_add_right _ 2)

theorem issuedInv_systemKept (hX : X.Within A) :
    SystemKept X A (fun _ => True) fun p => IssuedInv p where
  kept := fun _ _ => issuedInv_kept hX
  init := fun _ _ => ⟨(fun _ h => by cases h), List.nodup_nil⟩
  sent := fun _ _ _ _ _ => trivial
  settle := fun _ _ h => h.same rfl (Nat.le_refl _)
  create := fun _ _ _ _ _ _ h => h.same rfl (Nat.le_refl _)

/-- All messages issued differ in their ids. -/
theorem issued_nodup (hX : X.Within A) {s : System}
    (h : X.system.Reachable (fun _ a => a.Within A) s) :
    ((s.issued X).map (·.id)).Nodup := by
  have hinv := (reachable_kept (issuedInv_systemKept hX) h).pes
  rw [System.issued, List.map_flatMap, List.nodup_flatMap]
  refine ⟨fun p hp => (hinv p (List.mem_range.mp hp)).nodup, ?_⟩
  refine List.nodup_range.pairwise_of_forall_ne ?_
  intro p hp q hq hpq id hidp hidq
  obtain ⟨m, hm, rfl⟩ := List.mem_map.mp hidp
  obtain ⟨m', hm', hid⟩ := List.mem_map.mp hidq
  have hpe := ((hinv p (List.mem_range.mp hp)).own m hm).1
  have hqe := ((hinv q (List.mem_range.mp hq)).own m' hm').1
  exact hpq (hpe.symm.trans ((congrArg MessageId.pe hid).symm.trans hqe))

end IssuedInv

end CharmExperiments.Charmlite
