import CharmExperiments.Charmlite.Visits

/-!
# The messages a PE holds

A property of messages that new messages have and that numbering and copying a
broadcast keep holds of every message a PE has to do with.
-/

namespace CharmExperiments.Charmlite

open CharmExperiments.Lib

/-- Every message held by the PE has `Q`. -/
structure Pe.All (Q : Message → Prop) (pe : Pe) : Prop where
  stored : ∀ cid col, pe.collectiveTable cid = some col →
    ∀ idx, ∀ m ∈ col.buffers idx, Q m
  waiting : ∀ cid, ∀ m ∈ pe.collectiveBuffer cid, Q m
  sent : ∀ r ∈ pe.sent, Q r.2

/-- A property that the messages of a program with the calls `A` have from the start. -/
structure Machine.Closed (X : Machine) (A : Call → Prop) (Q : Message → Prop) : Prop where
  bodies : ∀ me log msg, ∀ c ∈ X.body me log msg, A c
  insert : ∀ id cid idx constructor, A (.insert cid idx constructor) →
    Q ⟨id, false, cid, idx, ⟨constructor, true⟩, 0⟩
  send : ∀ id cid idx entry, A (.send cid idx entry) ∨ A (.cmkSend cid idx entry) →
    Q ⟨id, false, cid, idx, ⟨entry, false⟩, 0⟩
  kind : ∀ id cid idx kind, Q ⟨id, true, cid, idx, ⟨kind, false⟩, 0⟩
  constructor : ∀ id cid i constructor, i < X.numPes →
    Q ⟨id, false, cid, encode i, ⟨constructor, true⟩, 0⟩
  copy : ∀ p c msg, c ∈ X.tree.children p → msg.isBroadcast = true → Q msg →
    Q { msg with chare := encode c }
  number : ∀ p c msg lastBcast, c ∈ X.tree.children p → msg.chare = chareBcastRoot →
    Q msg →
    Q { msg.numbered (encode 0) lastBcast with chare := encode c }

section All

variable {X : Machine} {me : Nat} {A : Call → Prop} {Q : Message → Prop} {pe : Pe}

theorem Pe.init_all : Pe.init.All Q where
  stored := fun _ _ h => by cases h
  waiting := fun _ _ h => by cases h
  sent := fun _ h => by cases h

theorem Pe.All.record (h : pe.All Q) (e : Event) : (pe.record e).All Q :=
  ⟨h.stored, h.waiting, h.sent⟩

theorem Pe.All.push (h : pe.All Q) (dst : Nat) {m : Message} (hm : Q m) :
    (pe.push dst m).All Q where
  stored := h.stored
  waiting := h.waiting
  sent := by
    intro r hr
    rcases List.mem_append.mp hr with hold | hnew
    · exact h.sent r hold
    · rw [List.mem_singleton.mp hnew]
      exact hm

theorem Pe.All.modify (h : pe.All Q) (cid : CollectiveIndex) {f : Collective → Collective}
    (hf : ∀ col idx m, m ∈ (f col).buffers idx → m ∈ col.buffers idx ∨ Q m) :
    (pe.modify cid f).All Q where
  stored := by
    intro i col hcol idx m hm
    by_cases hi : i = cid
    · subst hi
      rw [modify_self, Option.map_eq_some_iff] at hcol
      obtain ⟨col', hcol', rfl⟩ := hcol
      rcases hf col' idx m hm with hold | hnew
      · exact h.stored i col' hcol' idx m hold
      · exact hnew
    · rw [modify_ne hi] at hcol
      exact h.stored i col hcol idx m hm
  waiting := h.waiting
  sent := h.sent

theorem Pe.All.bufferCollective (h : pe.All Q) {m : Message} (hm : Q m) :
    (pe.bufferCollective m).All Q where
  stored := h.stored
  waiting := by
    intro cid m' hm'
    rcases mem_bufferCollective hm' with hold | rfl
    · exact h.waiting cid m' hold
    · exact hm
  sent := h.sent

theorem Pe.All.take (h : pe.All Q) {cid : CollectiveIndex} {m : Message} {rest : List Message}
    (hfront : pe.collectiveBuffer cid = m :: rest) :
    Pe.All Q { pe with collectiveBuffer := Function.update pe.collectiveBuffer cid rest } where
  stored := h.stored
  waiting := by
    intro i m' hm'
    by_cases hi : i = cid
    · subst hi
      simp only [Function.update_self] at hm'
      exact h.waiting i m' (by rw [hfront]; exact List.mem_cons_of_mem _ hm')
    · simp only [Function.update_of_ne hi] at hm'
      exact h.waiting i m' hm'
  sent := h.sent

theorem Pe.All.sendCopies (h : pe.All Q) (col : Collective) {msg : Message}
    {children : List ChareIndex} (hcopy : ∀ c ∈ children, Q { msg with chare := c }) :
    (X.sendCopies col msg children pe).All Q where
  stored := h.stored
  waiting := h.waiting
  sent := by
    intro r hr
    rcases List.mem_append.mp hr with hold | hnew
    · exact h.sent r hold
    · obtain ⟨c, hc, rfl⟩ := List.mem_map.mp hnew
      exact hcopy c hc

theorem Pe.All.count (h : pe.All Q) (n : BitVec 32) :
    Pe.All Q { pe with localCollectiveCount := n } :=
  ⟨h.stored, h.waiting, h.sent⟩

theorem Pe.All.settle (h : pe.All Q) : Pe.All Q { pe with sent := [] } :=
  ⟨h.stored, h.waiting, fun _ hr => by cases hr⟩

theorem Pe.All.create (h : pe.All Q) (msg : Message) : (X.create msg pe).All Q where
  stored := by
    intro i col hcol idx m hm
    by_cases hi : i = msg.collective
    · subst hi
      simp only [Machine.create, Function.update_self] at hcol
      obtain rfl := Option.some.inj hcol
      cases hm
    · simp only [Machine.create, Function.update_of_ne hi] at hcol
      exact h.stored i col hcol idx m hm
  waiting := h.waiting
  sent := h.sent

/-- The children a broadcast goes to are PEs below this one. -/
theorem mem_upstream {mapper : Mapper} {idx : ChareIndex} {children : List ChareIndex}
    (hup : X.upstream me mapper idx = .ok children) {child : ChareIndex}
    (hc : child ∈ children) : ∃ c, c ∈ X.tree.children me ∧ child = encode c := by
  cases mapper with
  | group =>
    simp only [Machine.upstream] at hup
    split at hup
    next =>
      rw [← Except.ok.inj hup] at hc
      obtain ⟨c, hchild, rfl⟩ := List.mem_map.mp hc
      exact ⟨c, hchild, rfl⟩
    next =>
      rw [← Except.ok.inj hup] at hc
      cases hc
  | default => cases hup
  | user _ => cases hup

theorem Pe.All.sendKind (hC : X.Closed A Q) (h : pe.All Q) (cid : CollectiveIndex)
    (idx : ChareIndex) (kind : Nat) : (X.sendKind me pe cid idx kind).All Q where
  stored := h.stored
  waiting := h.waiting
  sent := by
    intro r hr
    rcases List.mem_append.mp hr with hold | hnew
    · exact h.sent r hold
    · obtain ⟨i, _, rfl⟩ := List.mem_map.mp hnew
      exact hC.kind _ _ _ _

theorem Pe.All.broadcastHelper (hC : X.Closed A Q) (hpes : 0 < X.numPes) (h : pe.All Q)
    (cid : CollectiveIndex) (constructor : Nat) :
    (X.broadcastHelper me pe cid constructor).All Q where
  stored := h.stored
  waiting := h.waiting
  sent := by
    intro r hr
    rcases List.mem_append.mp hr with hold | hnew
    · exact h.sent r hold
    · obtain ⟨i, hi, rfl⟩ := List.mem_map.mp hnew
      refine hC.constructor _ _ _ _ ?_
      rcases List.mem_append.mp hi with hi | hi
      · have := List.mem_range'_1.mp hi
        omega
      · rw [List.mem_singleton.mp hi]
        exact hpes

/-- What messages have from the start every function keeps. -/
theorem all_kept (hC : X.Closed A Q) (hpes : 0 < X.numPes) : Machine.Kept X me A Q (Pe.All Q) where
  bodies := hC.bodies me
  stored := fun _ h => h.stored
  waiting := fun _ h => h.waiting
  record := fun _ e _ h => h.record e
  push := fun _ dst _ hm h => h.push dst hm
  buffer := fun _ cid m hm h => h.modify cid fun _ _ m' hm' => by
    rcases mem_buffer hm' with hold | rfl
    · exact Or.inl hold
    · exact Or.inr hm
  popFront := fun _ cid _ h => h.modify cid fun _ _ _ hm => Or.inl (mem_popFront hm)
  bufferCollective := fun _ _ hm h => h.bufferCollective hm
  take := fun _ _ _ _ hfront h => h.take hfront
  construct := fun _ cid _ _ _ _ _ _ h =>
    (h.modify cid fun _ _ _ hm => Or.inl (by rwa [emplace_buffers] at hm)).record _
  plain := fun _ _ _ _ _ _ _ _ _ _ h => h.record _
  accept := by
    intro pe cid msg col ch children _ _ _ hb _ hup hm h
    refine Pe.All.record (Pe.All.sendCopies ?_ col ?_) _
    · exact h.modify cid fun _ _ _ hx => Or.inl hx
    · intro child hc
      obtain ⟨c, hchild, rfl⟩ := mem_upstream hup hc
      exact hC.copy me c msg hchild hb hm
  rootNext := by
    intro pe cid msg col root obj children _ hbcast hroot _ _ hup hm h
    obtain ⟨_, rfl⟩ := Machine.root_eq hroot
    refine Pe.All.record (Pe.All.sendCopies ?_ col ?_) _
    · exact (h.record _).modify cid fun _ _ _ hx => Or.inl hx
    · intro child hc
      obtain ⟨c, hchild, rfl⟩ := mem_upstream hup hc
      exact hC.number me c msg _ hchild hbcast hm
  rootWrapped := fun _ _ _ _ _ _ _ _ _ _ _ _ h => (h.record _).record _
  insert := fun _ _ _ _ hA h => ⟨hC.insert _ _ _ _ hA, ⟨h.stored, h.waiting, h.sent⟩⟩
  send := fun _ _ _ _ hA h => ⟨hC.send _ _ _ _ hA, ⟨h.stored, h.waiting, h.sent⟩⟩
  collective := by
    intro pe kind _ h
    exact (Pe.All.sendKind hC (h.count _) _ _ kind).record _
  group := by
    intro pe kind constructor _ h
    exact (Pe.All.broadcastHelper hC hpes (Pe.All.sendKind hC (h.count _) _ _ kind) _
      constructor).record _

end All

end CharmExperiments.Charmlite
