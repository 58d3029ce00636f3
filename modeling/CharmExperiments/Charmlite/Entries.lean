import CharmExperiments.Charmlite.Visits

/-!
# Entry functions that are running

What a function of the collectives adds to the log is whole: every entry
function it enters has returned (`Runs.whole`). So between handler runs no entry
function is running (`Idle`), and an entry function is running at everything an
entry function does (`Inside`).
-/

namespace CharmExperiments.Charmlite

open CharmExperiments.Lib

/-- The entry function that an event enters. -/
def Event.enters : Event → Option (CollectiveIndex × ChareIndex × Message)
  | .invoked cid idx msg => some (cid, idx, msg)
  | _ => none

/-- The entry function that an event returns from. -/
def Event.leaves : Event → Option (CollectiveIndex × ChareIndex × Message)
  | .returned cid idx msg => some (cid, idx, msg)
  | _ => none

/-- Every entry function that was entered has returned: none is running. -/
def Idle (log : List Event) : Prop :=
  (log.filterMap Event.enters).Perm (log.filterMap Event.leaves)

instance (log : List Event) : Decidable (Idle log) :=
  inferInstanceAs (Decidable (List.Perm _ _))

/-- An entry function is running. -/
def Inside (log : List Event) : Prop :=
  (log.filterMap Event.leaves).length < (log.filterMap Event.enters).length

/-- No more have returned than were entered. -/
def Sane (log : List Event) : Prop :=
  (log.filterMap Event.leaves).length ≤ (log.filterMap Event.enters).length

/-- What was added to the log is whole. -/
def Whole (log log' : List Event) : Prop := ∃ l, log' = log ++ l ∧ Idle l

section Log

variable {log log₁ log₂ l : List Event} {e : Event} {cid : CollectiveIndex}
  {idx : ChareIndex}
  {msg : Message}

theorem Idle.sane (h : Idle log) : Sane log := h.length_eq.ge

theorem Inside.sane (h : Inside log) : Sane log := Nat.le_of_lt h

theorem Inside.not_idle (h : Inside log) : ¬ Idle log := fun hidle =>
  absurd hidle.length_eq (Nat.ne_of_gt h)

/-- An entry function that was entered has returned. -/
theorem Idle.returned (h : Idle log) (hmem : .invoked cid idx msg ∈ log) :
    .returned cid idx msg ∈ log := by
  have hentered : (cid, idx, msg) ∈ log.filterMap Event.enters :=
    List.mem_filterMap.mpr ⟨_, hmem, rfl⟩
  obtain ⟨e, he, hleaves⟩ := List.mem_filterMap.mp (h.mem_iff.mp hentered)
  cases e with
  | returned c i m =>
    obtain ⟨rfl, rfl, rfl⟩ : c = cid ∧ i = idx ∧
        m = msg := by simpa [Event.leaves] using hleaves
    exact he
  | _ => cases hleaves

theorem Idle.append (h : Idle log) (hl : Idle l) : Idle (log ++ l) := by
  unfold Idle
  rw [List.filterMap_append, List.filterMap_append]
  exact List.Perm.append h hl

theorem Whole.refl : Whole log log := ⟨[], (List.append_nil log).symm, .refl _⟩

theorem Whole.trans (h₁ : Whole log log₁) (h₂ : Whole log₁ log₂) : Whole log log₂ := by
  obtain ⟨l₁, rfl, hl₁⟩ := h₁
  obtain ⟨l₂, rfl, hl₂⟩ := h₂
  exact ⟨l₁ ++ l₂, List.append_assoc _ _ _, hl₁.append hl₂⟩

/-- An event that neither enters nor leaves. -/
theorem Whole.one (henters : e.enters = none) (hleaves : e.leaves = none) :
    Whole log (log ++ [e]) := by
  refine ⟨[e], rfl, ?_⟩
  simp [Idle, henters, hleaves]

/-- An entry function is entered, makes its calls and returns. -/
theorem Whole.entry (h : Whole (log ++ [.invoked cid idx msg]) log₁) :
    Whole log (log₁ ++ [.returned cid idx msg]) := by
  obtain ⟨l, rfl, hl⟩ := h
  refine ⟨.invoked cid idx msg :: (l ++ [.returned cid idx msg]), by simp, ?_⟩
  simp only [Idle, List.filterMap_cons, List.filterMap_append, Event.enters, Event.leaves,
    List.filterMap_nil, List.append_nil]
  exact (List.Perm.cons _ hl).trans (List.perm_append_singleton _ _).symm

theorem Whole.starts (h : Whole log log₁) : log <+: log₁ := by
  obtain ⟨l, rfl, _⟩ := h
  exact List.prefix_append log l

theorem Whole.idle (h : Whole log log₁) (hidle : Idle log) : Idle log₁ := by
  obtain ⟨l, rfl, hl⟩ := h
  exact hidle.append hl

theorem Whole.lengths (h : Whole log log₁) : ∃ k,
    (log₁.filterMap Event.enters).length = (log.filterMap Event.enters).length + k ∧
      (log₁.filterMap Event.leaves).length = (log.filterMap Event.leaves).length + k := by
  obtain ⟨l, rfl, hl⟩ := h
  refine ⟨(l.filterMap Event.enters).length, ?_, ?_⟩
  · rw [List.filterMap_append, List.length_append]
  · rw [List.filterMap_append, List.length_append, hl.length_eq]

theorem Whole.inside (h : Whole log log₁) (hin : Inside log) : Inside log₁ := by
  obtain ⟨k, henters, hleaves⟩ := h.lengths
  unfold Inside at hin ⊢
  omega

theorem Whole.sane (h : Whole log log₁) (hsane : Sane log) : Sane log₁ := by
  obtain ⟨k, henters, hleaves⟩ := h.lengths
  unfold Sane at hsane ⊢
  omega

/-- An entry function is running once it was entered. -/
theorem Sane.inside (h : Sane log) : Inside (log ++ [.invoked cid idx msg]) := by
  unfold Sane at h
  simp only [Inside, List.filterMap_append, List.filterMap_cons,
    List.filterMap_nil, Event.enters, Event.leaves, List.append_nil, List.length_append,
      List.length_singleton]
  omega

end Log

namespace Machine

variable {X : Machine} {me : Nat} {task : Task} {pe pe' : Pe} {done : Bool}

/-- **Every entry function that was entered has returned.** -/
theorem Runs.whole (h : X.Runs me task pe done pe') : Whole pe.log pe'.log := by
  induction h with
  | flushEmpty => exact .refl
  | flushFront _ _ _ _ ih₁ ih₂ => exact ih₁.trans ih₂
  | flushStop _ _ _ ih => exact ih
  | construct _ _ _ _ _ ih₁ ih₂ =>
    exact .trans (.one rfl rfl) (.trans (.entry ih₁) (ih₂.trans (.one rfl rfl)))
  | absent => exact .one rfl rfl
  | forward => exact .one rfl rfl
  | present _ _ _ _ ih => exact .trans (.one rfl rfl) ih
  | inOrder _ _ _ _ _ _ _ ih₁ ih₂ => exact .trans (.entry ih₁) ih₂
  | outOfOrder => exact .refl
  | plain _ _ _ _ ih => exact .entry ih
  | callsNil => exact .refl
  | callsCons _ _ ih₁ ih₂ => exact ih₁.trans ih₂
  | callInsert _ ih | callSend _ ih | callCmkSend _ ih => exact .trans (.one rfl rfl) ih
  | callCollective => exact .one rfl rfl
  | callGroup => exact .one rfl rfl
  | endpointAbsent => exact .one rfl rfl
  | endpointNow _ _ ih => exact .trans (.one rfl rfl) ih
  | endpointLater => exact .refl
  | nowRootAbsent => exact .refl
  | nowRootNext _ _ _ _ _ _ _ _ ih₁ ih₂ =>
    exact .trans (.one rfl rfl) (.trans (.entry ih₁) ih₂)
  | nowRootWrapped _ _ _ _ _ _ ih => exact .trans (.one rfl rfl) (.entry ih)
  | nowDone _ _ _ ih => exact ih
  | nowBuffer _ _ _ ih => exact ih
  | drainNil => exact .refl
  | drainCons _ _ _ ih₁ ih₂ => exact .trans ih₁ ih₂

theorem Delivers.whole {msg : Message} (h : X.Delivers me msg pe pe') :
    Whole pe.log pe'.log := by
  unfold Delivers at h
  split at h
  · exact h.2.whole
  · exact h.whole

end Machine

end CharmExperiments.Charmlite
