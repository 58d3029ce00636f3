import CharmExperiments.Charmlite.BcastNumber

/-!
# Entry functions that queue what they send

An entry function that calls `send`, `broadcast` and `construct` only does not
get back into a collective: what it sends is put into a queue. It always
returns (`entry_returns`), with the collectives as they were (`Quiet`).
-/

namespace CharmExperiments.Charmlite

open CharmExperiments.Lib

/-- What is sent is queued: `send`, `broadcast` and the `construct`s. -/
def Call.Queued : Call → Prop
  | .insert .. => False
  | .send .. => False
  | _ => True

/-- The message an entry function was invoked with. -/
def Event.invokes : Event → Option MessageId
  | .invoked _ _ m => some m.id
  | _ => none

/-- The message that was handed to `try_deliver`. -/
def Event.tries : Event → Option MessageId
  | .tried m => some m.id
  | _ => none

/-- What such an entry function does: nothing to the collectives, and nothing is
tried or invoked. -/
structure Quiet (pe pe' : Pe) : Prop where
  table : pe'.collectiveTable = pe.collectiveTable
  log : ∃ l, pe'.log = pe.log ++ l ∧ ∀ e ∈ l, e.invokes = none ∧ e.tries = none

section Queued

variable {X : Machine} {me : Nat} {pe pe₁ pe₂ : Pe}

theorem Quiet.refl : Quiet pe pe :=
  ⟨rfl, [], (List.append_nil _).symm, fun _ he => by cases he⟩

theorem Quiet.trans (h₁ : Quiet pe pe₁) (h₂ : Quiet pe₁ pe₂) : Quiet pe pe₂ where
  table := h₂.table.trans h₁.table
  log := by
    obtain ⟨l₁, hl₁, hq₁⟩ := h₁.log
    obtain ⟨l₂, hl₂, hq₂⟩ := h₂.log
    refine ⟨l₁ ++ l₂, by rw [hl₂, hl₁, List.append_assoc], ?_⟩
    intro e he
    rcases List.mem_append.mp he with he | he
    · exact hq₁ e he
    · exact hq₂ e he

theorem queued_call {c : Call} (hc : c.Queued) (pe : Pe) :
    ∃ pe', X.Runs me (.call c) pe true pe' ∧ Quiet pe pe' := by
  have hone : ∀ {e : Event}, e.invokes = none ∧ e.tries = none →
      ∀ e' ∈ [e], e'.invokes = none ∧ e'.tries = none := by
    intro e he e' he'
    rw [List.mem_singleton.mp he']
    exact he
  cases c with
  | insert => exact hc.elim
  | send => exact hc.elim
  | cmkSend cid idx entry =>
    cases hcol : pe.collectiveTable cid with
    | none =>
      refine ⟨_, .callCmkSend (.endpointAbsent hcol), rfl, [.issued _, .handled _],
        List.append_assoc _ _ _, ?_⟩
      intro e he
      rcases List.mem_cons.mp he with rfl | he
      · exact ⟨rfl, rfl⟩
      · rw [List.mem_singleton.mp he]
        exact ⟨rfl, rfl⟩
    | some col => exact ⟨_, .callCmkSend (.endpointLater hcol), rfl, _, rfl,
      hone ⟨rfl, rfl⟩⟩
  | constructCollective kind => exact ⟨_, .callCollective, rfl, _, rfl, hone ⟨rfl, rfl⟩⟩
  | constructGroup kind constructor => exact ⟨_, .callGroup, rfl, _, rfl, hone ⟨rfl, rfl⟩⟩

theorem queued_calls {cs : List Call} (hcs : ∀ c ∈ cs, c.Queued) (pe : Pe) :
    ∃ pe', X.Runs me (.calls cs) pe true pe' ∧ Quiet pe pe' := by
  induction cs generalizing pe with
  | nil => exact ⟨pe, .callsNil, .refl⟩
  | cons c cs ih =>
    obtain ⟨pe₁, hfirst, hquiet₁⟩ := queued_call (hcs c List.mem_cons_self) pe
    obtain ⟨pe₂, hrest, hquiet₂⟩ :=
      ih (fun c' hc' => hcs c' (List.mem_cons_of_mem c hc')) pe₁
    exact ⟨pe₂, .callsCons hfirst hrest, hquiet₁.trans hquiet₂⟩

/-- The entry function returns. -/
theorem entry_returns (hX : X.Within Call.Queued) (cid : CollectiveIndex)
    (idx : ChareIndex) (msg : Message) (pe : Pe) :
    ∃ pe₁, X.Runs me (.calls (X.bodyOf me cid idx msg pe))
      (pe.record (.invoked cid idx msg))
      true pe₁ ∧ Quiet (pe.record (.invoked cid idx msg)) pe₁ :=
  queued_calls (hX me _ msg) _

/-- However it returned, it did no more. -/
theorem entry_quiet (hX : X.Within Call.Queued) {cid : CollectiveIndex} {idx : ChareIndex}
    {msg : Message} (h : X.Runs me (.calls (X.bodyOf me cid idx msg pe))
      (pe.record (.invoked cid idx msg)) true pe₁) : Quiet
        (pe.record (.invoked cid idx msg)) pe₁ := by
  obtain ⟨pe₂, hrun, hquiet⟩ := @entry_returns X me hX cid idx msg pe
  obtain ⟨_, rfl⟩ := h.unique hrun
  exact hquiet

/-- The collectives are as they were when the entry function returns. -/
theorem table_returned (hX : X.Within Call.Queued) {cid : CollectiveIndex}
    {idx : ChareIndex}
    {msg : Message} (h : X.Runs me (.calls (X.bodyOf me cid idx msg pe))
      (pe.record (.invoked cid idx msg)) true pe₁) :
    (pe₁.record (.returned cid idx msg)).collectiveTable = pe.collectiveTable := by
  rw [record_collectiveTable, (entry_quiet hX h).table, record_collectiveTable]

end Queued

end CharmExperiments.Charmlite
