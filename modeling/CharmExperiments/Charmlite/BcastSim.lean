import CharmExperiments.Charmlite.Flush
import CharmExperiments.Charmlite.Issued
import Mathlib.Algebra.Order.Group.Multiset
import Mathlib.Tactic.Abel

/-!
# A PE in a broadcast down the tree

What one PE does to the broadcasts of a group `g`, seen from the system: the
copies it holds and those elsewhere are the copies of the ordered broadcast of
`Lib.TreeBroadcast`, what its element executed is what its node has taken. Every
function then makes steps of that broadcast (`Runs.sim`): the root element
processing a request is one `issue`, an element taking a copy one `accept`, and
all else moves messages between the places where they are held.

A message that a function was given and that is held nowhere is in its hands.
-/

namespace CharmExperiments.Charmlite

open CharmExperiments.Lib

/-- The copy of a broadcast that a message is for PE `c`, with its number. -/
def Message.copyFor (g : CollectiveIndex) (c : Nat) (m : Message) :
    Option (Nat × MessageId) :=
  if m.collectiveKind = false ∧ m.collective = g ∧ m.chare = encode c ∧ m.bcast ≠ 0 then
    some (m.bcast.toNat, m.id)
  else none

def copiesIn (g : CollectiveIndex) (c : Nat) (l : List Message) :
    Multiset (Nat × MessageId) :=
  ↑(l.filterMap (Message.copyFor g c))

/-- The broadcast that a message asks the root for. -/
def Message.request (g : CollectiveIndex) (m : Message) : Option MessageId :=
  if m.collectiveKind = false ∧ m.collective = g ∧ m.chare = chareBcastRoot then some m.id
  else none

def requestsIn (g : CollectiveIndex) (l : List Message) : Multiset MessageId :=
  ↑(l.filterMap (Message.request g))

/-- The copies for PE `c` that a PE holds. -/
def Pe.copies (pe : Pe) (g : CollectiveIndex) (c : Nat) : Multiset (Nat × MessageId) :=
  copiesIn g c (pe.sent.map (·.2)) + copiesIn g c (pe.collectiveBuffer g)
    + copiesIn g c (pe.queue g (encode c))

/-- The requests that a PE holds. -/
def Pe.requests (pe : Pe) (g : CollectiveIndex) : Multiset MessageId :=
  requestsIn g (pe.sent.map (·.2)) + requestsIn g (pe.collectiveBuffer g)

/-- The broadcasts that were called on a PE. -/
def Pe.requested (pe : Pe) (g : CollectiveIndex) : Multiset MessageId :=
  requestsIn g pe.issued

/-- Messages wait under their collective and their index; neither constructors nor
requests wait for an element. -/
structure Placed (pe : Pe) : Prop where
  queue : ∀ cid col, pe.collectiveTable cid = some col → ∀ idx, ∀ m ∈ col.buffers idx,
    m.chare = idx ∧ m.collective = cid ∧ m.collectiveKind = false ∧
      m.entry.isConstructor = false ∧ m.chare ≠ chareBcastRoot
  waiting : ∀ cid, ∀ m ∈ pe.collectiveBuffer cid, m.collective = cid ∧
    m.collectiveKind = false

/-- What does not change while a PE runs: where the broadcast was when it
started, and what the other PEs and the network hold. -/
structure World where
  start : TreeBroadcast.State MessageId
  executed : Nat → List MessageId
  copies : Nat → Multiset (Nat × MessageId)
  requests : Multiset MessageId
  requested : Multiset MessageId

/-- The broadcast as it stands, with the messages in hand. -/
def World.now (w : World) (X : Machine) (g : CollectiveIndex) (me : Nat)
    (hand : List Message) (pe : Pe) : TreeBroadcast.State MessageId where
  executed := Function.update w.executed me (pe.executed g (encode me))
  copies := fun c => if c < X.numPes then w.copies c + pe.copies g c + copiesIn g c hand
    else 0

/-- The PE has made steps of the broadcast, and accounts for the requests. -/
structure Sim (X : Machine) (g : CollectiveIndex) (me : Nat) (w : World)
    (hand : List Message) (pe : Pe) : Prop where
  inv : NumberInv X g me pe
  placed : Placed pe
  count : w.requests + pe.requests g + requestsIn g hand + ↑(pe.rooted g)
    = w.requested + pe.requested g
  steps : (w.requested + pe.requested g).card < 2 ^ 16 →
    Relation.ReflTransGen (TreeBroadcast.Step X.tree) w.start (w.now X g me hand pe)

/-! ## Copies and requests -/

section Counts

variable {g : CollectiveIndex} {c : Nat} {l l' : List Message} {m : Message}

@[simp] theorem copiesIn_nil : copiesIn g c [] = 0 := rfl

@[simp] theorem copiesIn_append : copiesIn g c (l ++ l') = copiesIn g c l +
    copiesIn g c l' := by
  rw [copiesIn, List.filterMap_append, ← Multiset.coe_add, copiesIn, copiesIn]

theorem copiesIn_cons : copiesIn g c (m :: l) = copiesIn g c [m] + copiesIn g c l :=
  @copiesIn_append g c [m] l

@[simp] theorem requestsIn_nil : requestsIn g [] = 0 := rfl

@[simp] theorem requestsIn_append :
    requestsIn g (l ++ l') = requestsIn g l + requestsIn g l' := by
  rw [requestsIn, List.filterMap_append, ← Multiset.coe_add, requestsIn, requestsIn]

theorem requestsIn_cons : requestsIn g (m :: l) = requestsIn g [m] + requestsIn g l :=
  @requestsIn_append g [m] l

theorem copiesIn_eq_zero (h : ∀ m ∈ l, ¬ (m.collectiveKind = false ∧ m.collective = g ∧
    m.chare = encode c ∧ m.bcast ≠ 0)) :
    copiesIn g c l = 0 := by
  rw [copiesIn, Multiset.coe_eq_zero, List.filterMap_eq_nil_iff]
  intro m hm
  exact if_neg (h m hm)

theorem copiesIn_singleton (h : m.collectiveKind = false ∧ m.collective = g ∧
    m.chare = encode c ∧ m.bcast ≠ 0) :
    copiesIn g c [m] = {(m.bcast.toNat, m.id)} := by
  have hcopy : m.copyFor g c = some (m.bcast.toNat, m.id) := if_pos h
  rw [copiesIn, List.filterMap_cons, hcopy]
  rfl

theorem requestsIn_singleton
    (h : m.collectiveKind = false ∧ m.collective = g ∧ m.chare = chareBcastRoot) :
    requestsIn g [m] = {m.id} := by
  have hrequest : m.request g = some m.id := if_pos h
  rw [requestsIn, List.filterMap_cons, hrequest]
  rfl

theorem copiesIn_singleton_zero (h : ¬ (m.collectiveKind = false ∧ m.collective = g ∧
    m.chare = encode c ∧ m.bcast ≠ 0)) :
    copiesIn g c [m] = 0 := copiesIn_eq_zero fun m' hm' => by
  rw [List.mem_singleton.mp hm']
  exact h

theorem requestsIn_eq_zero
    (h : ∀ m ∈ l, ¬ (m.collectiveKind = false ∧ m.collective = g ∧
      m.chare = chareBcastRoot)) :
    requestsIn g l = 0 := by
  rw [requestsIn, Multiset.coe_eq_zero, List.filterMap_eq_nil_iff]
  intro m hm
  exact if_neg (h m hm)

theorem requestsIn_singleton_zero
    (h : ¬ (m.collectiveKind = false ∧ m.collective = g ∧ m.chare = chareBcastRoot)) :
    requestsIn g [m] = 0 := requestsIn_eq_zero fun m' hm' => by
  rw [List.mem_singleton.mp hm']
  exact h

/-- The copies for the children: one for each. -/
theorem copiesIn_children {n : Nat} (hn : n < 2 ^ 31) {children : List Nat}
    (hnodup : children.Nodup) (hlt : ∀ d ∈ children, d < n) (hc : c < n)
    (hkind : m.collectiveKind = false) (hg : m.collective = g) (hb : m.bcast ≠ 0) :
    copiesIn g c (children.map fun d : Nat => { m with chare := encode d })
      = if c ∈ children then {(m.bcast.toNat, m.id)} else 0 := by
  induction children with
  | nil => rfl
  | cons d children ih =>
    have hd := hlt d List.mem_cons_self
    have hrest := ih (List.nodup_cons.mp hnodup).2 fun e he =>
      hlt e (List.mem_cons_of_mem d he)
    rw [List.map_cons, copiesIn_cons, hrest]
    by_cases hcd : c = d
    · subst hcd
      rw [if_neg (List.nodup_cons.mp hnodup).1, if_pos List.mem_cons_self, add_zero]
      exact copiesIn_singleton ⟨hkind, hg, rfl, hb⟩
    · rw [copiesIn_singleton_zero
        (fun h => hcd (encode_inj (by omega) (by omega) h.2.2.1).symm),
        zero_add]
      simp [hcd]

end Counts

/-! ## Where messages wait -/

section Placed

variable {pe : Pe} {cid : CollectiveIndex} {msg : Message} {f : Collective → Collective}

theorem Placed.modify (h : Placed pe) (hf : ∀ col idx m, m ∈ (f col).buffers idx →
    m ∈ col.buffers idx ∨ (m.chare = idx ∧ m.collective = cid ∧ m.collectiveKind = false ∧
      m.entry.isConstructor = false ∧ m.chare ≠ chareBcastRoot)) :
    Placed (pe.modify cid f) where
  queue := by
    intro i col hcol idx m hm
    by_cases hi : i = cid
    · subst hi
      rw [modify_self, Option.map_eq_some_iff] at hcol
      obtain ⟨col', hcol', rfl⟩ := hcol
      rcases hf col' idx m hm with hold | hnew
      · exact h.queue i col' hcol' idx m hold
      · exact hnew
    · rw [modify_ne hi] at hcol
      exact h.queue i col hcol idx m hm
  waiting := h.waiting

theorem Placed.buffer (h : Placed pe) (hcid : msg.collective = cid)
    (hkind : msg.collectiveKind = false) (hctor : msg.entry.isConstructor = false)
    (hne : msg.chare ≠ chareBcastRoot) : Placed (pe.modify cid (·.buffer msg)) := by
  refine h.modify fun col idx m hm => ?_
  by_cases hidx : idx = msg.chare
  · rcases mem_buffer hm with hold | rfl
    · exact Or.inl hold
    · exact Or.inr ⟨hidx.symm, hcid, hkind, hctor, hne⟩
  · rw [buffer_buffers_ne hidx] at hm
    exact Or.inl hm

theorem Placed.bufferCollective (h : Placed pe) (hkind : msg.collectiveKind = false) :
    Placed (pe.bufferCollective msg) where
  queue := h.queue
  waiting := by
    intro i m hm
    by_cases hi : i = msg.collective
    · rcases mem_bufferCollective hm with hold | rfl
      · exact h.waiting i m hold
      · exact ⟨hi.symm, hkind⟩
    · rw [bufferCollective_ne hi] at hm
      exact h.waiting i m hm

theorem Placed.take (h : Placed pe) {rest : List Message}
    (hfront : pe.collectiveBuffer cid = msg :: rest) :
    Placed { pe with collectiveBuffer := Function.update pe.collectiveBuffer cid rest } where
  queue := h.queue
  waiting := by
    intro i m hm
    by_cases hi : i = cid
    · subst hi
      simp only [Function.update_self] at hm
      exact h.waiting i m (by rw [hfront]; exact List.mem_cons_of_mem _ hm)
    · simp only [Function.update_of_ne hi] at hm
      exact h.waiting i m hm

theorem Placed.create {X : Machine} (h : Placed pe) (msg : Message) :
    Placed (X.create msg pe) where
  queue := by
    intro i col hcol idx m hm
    by_cases hi : i = msg.collective
    · subst hi
      simp only [Machine.create, Function.update_self] at hcol
      obtain rfl := Option.some.inj hcol
      cases hm
    · simp only [Machine.create, Function.update_of_ne hi] at hcol
      exact h.queue i col hcol idx m hm
  waiting := h.waiting

end Placed

/-! ## The steps of a PE -/

section Sim

variable {X : Machine} {g cid : CollectiveIndex} {me : Nat} {w : World} {pe pe' : Pe}
  {hand hand' : List Message} {msg : Message}

/-- Messages move from place to place. -/
theorem Sim.move (h : Sim X g me w hand pe) (hinv : NumberInv X g me pe')
    (hplaced : Placed pe') (hcopies : ∀ c, pe'.copies g c + copiesIn g c hand' =
      pe.copies g c + copiesIn g c hand)
    (hrequests : pe'.requests g + requestsIn g hand' = pe.requests g + requestsIn g hand)
    (hexecuted : pe'.executed g (encode me) = pe.executed g (encode me))
    (hrooted : pe'.rooted g = pe.rooted g)
    (hrequested : pe'.requested g = pe.requested g) :
    Sim X g me w hand' pe' where
  inv := hinv
  placed := hplaced
  count := by
    rw [hrooted, hrequested, ← h.count, add_assoc w.requests, hrequests,
      ← add_assoc w.requests]
  steps := by
    rw [hrequested]
    intro hlt
    have hnow : w.now X g me hand' pe' = w.now X g me hand pe := by
      refine TreeBroadcast.State.ext (congrArg (Function.update w.executed me) hexecuted)
        (funext fun c => ?_)
      show (if _ then _ else _) = if _ then _ else _
      rw [add_assoc, hcopies, ← add_assoc]
    rw [hnow]
    exact h.steps hlt

/-- A message in hand that is neither a copy nor a request does not count. -/
theorem Sim.swap (h : Sim X g me w hand pe)
    (hcopies : ∀ c, copiesIn g c hand' = copiesIn g c hand)
    (hrequests : requestsIn g hand' = requestsIn g hand) : Sim X g me w hand' pe :=
  h.move h.inv h.placed (fun c => by rw [hcopies c]) (by rw [hrequests]) rfl rfl rfl

/-- Neither a copy nor a request. -/
def Message.Idle (g : CollectiveIndex) (m : Message) : Prop :=
  (∀ c, copiesIn g c [m] = 0) ∧ requestsIn g [m] = 0

theorem Sim.drop (h : Sim X g me w [msg] pe) (hidle : msg.Idle g) : Sim X g me w [] pe :=
  h.swap (fun c => (hidle.1 c).symm) hidle.2.symm

theorem Sim.pick (h : Sim X g me w [] pe) (hidle : msg.Idle g) : Sim X g me w [msg] pe :=
  h.swap hidle.1 hidle.2

theorem idle_of_plain (h : msg.isBroadcast = false) : msg.Idle g := by
  have hb := h
  simp only [Message.isBroadcast, Bool.or_eq_false_iff, beq_eq_false_iff_ne] at hb
  exact ⟨fun c => copiesIn_singleton_zero fun hc => hc.2.2.2 (bcast_of_plain h),
    requestsIn_singleton_zero fun hc => hb.2 hc.2.2⟩

theorem idle_of_ne (h : msg.collective ≠ g) : msg.Idle g :=
  ⟨fun _ => copiesIn_singleton_zero fun hc => h hc.2.1,
    requestsIn_singleton_zero fun hc => h hc.2.1⟩

/-- An entry function is called with a message that is no broadcast. -/
theorem Sim.plain (h : Sim X g me w [msg] pe) (hplain : msg.isBroadcast = false)
    (idx : ChareIndex) : Sim X g me w [] (pe.record (.invoked cid idx msg)) := by
  have hsame : (pe.record (.invoked cid idx msg)).executed g (encode me)
      = pe.executed g (encode me) :=
        executed_same (executes_plain (bcast_of_plain hplain))
  exact (h.drop (idle_of_plain hplain)).move
    (h.inv.record (fun _ => executes_plain (bcast_of_plain hplain)) rfl)
    ⟨h.placed.queue, h.placed.waiting⟩ (fun _ => rfl) rfl hsame (rooted_same rfl)
    (congrArg (requestsIn g) (issued_same rfl))

theorem idle_of_unnumbered (hb : msg.bcast = 0)
    (h : msg.collectiveKind = true ∨ msg.chare ≠ chareBcastRoot) : msg.Idle g := by
  refine ⟨fun c => copiesIn_singleton_zero fun hc => hc.2.2.2 hb,
    requestsIn_singleton_zero fun hc => ?_⟩
  rcases h with hkind | hchare
  · rw [hc.1] at hkind
    cases hkind
  · exact hchare hc.2.2

theorem idle_list {l : List Message} (h : ∀ m ∈ l, m.Idle g) :
    (∀ c, copiesIn g c l = 0) ∧ requestsIn g l = 0 := by
  induction l with
  | nil => exact ⟨fun _ => rfl, rfl⟩
  | cons m l ih =>
    obtain ⟨hc, hr⟩ := ih fun m' hm' => h m' (List.mem_cons_of_mem m hm')
    have hm := h m List.mem_cons_self
    refine ⟨fun c => ?_, ?_⟩
    · rw [copiesIn_cons, hc, hm.1 c, add_zero]
    · rw [requestsIn_cons, hr, hm.2, add_zero]

/-- What else is sent is neither a copy nor a request. -/
theorem Sim.sends (h : Sim X g me w [] pe) {l : List (Nat × Message)}
    (hsent : pe'.sent = pe.sent ++ l)
    (hqueue : ∀ c : Nat, pe'.queue g (encode c) = pe.queue g (encode c))
    (hwait : pe'.collectiveBuffer = pe.collectiveBuffer) (hplaced : Placed pe')
    (hexecuted : pe'.executed g (encode me) = pe.executed g (encode me))
    (hrooted : pe'.rooted g = pe.rooted g) (hissued : pe'.issued = pe.issued)
    (hidle : ∀ r ∈ l, r.2.Idle g) (hinv : NumberInv X g me pe') :
    Sim X g me w [] pe' := by
  obtain ⟨hcopies, hrequests⟩ := @idle_list g (l.map (·.2)) fun m hm => by
    obtain ⟨r, hr, rfl⟩ := List.mem_map.mp hm
    exact hidle r hr
  refine h.move hinv hplaced (fun c => ?_) ?_ hexecuted hrooted
    (congrArg (requestsIn g) hissued)
  · rw [Pe.copies, Pe.copies, hsent, hwait, hqueue, List.map_append,
      copiesIn_append, hcopies, add_zero]
  · rw [Pe.requests, Pe.requests, hsent, hwait, List.map_append,
      requestsIn_append, hrequests, add_zero]

/-- A call makes a message; a request counts from now on. -/
theorem Sim.issue (h : Sim X g me w [] pe) {idx : ChareIndex} {entry : Entry}
    (hinv : NumberInv X g me
      (Machine.issue pe (Machine.newMessage me pe cid idx entry))) :
    Sim X g me w [Machine.newMessage me pe cid idx entry]
      (Machine.issue pe (Machine.newMessage me pe cid idx entry)) := by
  have hrequested :
    (Machine.issue pe (Machine.newMessage me pe cid idx entry)).requested g
      = pe.requested g + requestsIn g [Machine.newMessage me pe cid idx entry] := by
    rw [Pe.requested, Pe.requested, ← requestsIn_append]
    exact congrArg (requestsIn g) (@issued_record pe (.issued _))
  refine ⟨hinv, ⟨h.placed.queue, h.placed.waiting⟩, ?_, ?_⟩
  · have hcount := h.count
    rw [requestsIn_nil, add_zero] at hcount
    have hrooted :=
      @rooted_same pe (.issued (Machine.newMessage me pe cid idx entry)) g rfl
    rw [hrequested, ← add_assoc, ← hcount]
    show w.requests + pe.requests g + _ + ↑((pe.record _).rooted g) = _
    rw [hrooted]
    abel
  · intro hlt
    rw [hrequested, ← add_assoc, Multiset.card_add] at hlt
    have hnow : w.now X g me [Machine.newMessage me pe cid idx entry]
        (Machine.issue pe (Machine.newMessage me pe cid idx entry)) =
        w.now X g me [] pe := by
      refine TreeBroadcast.State.ext (congrArg (Function.update w.executed me) ?_)
        (funext fun c => ?_)
      · exact @executed_same pe (.issued _) g (encode me) rfl
      · show (if _ then w.copies c + pe.copies g c + _ else _) = if _ then _ else _
        rw [copiesIn_singleton_zero fun hc => hc.2.2.2 rfl]
        rfl
    rw [hnow]
    exact h.steps (by omega)

section Kept

variable (hN : Machine.Kept X me Call.Proper (BcastOk X) (NumberInv X g me))
include hN

theorem Sim.record (h : Sim X g me w hand pe) {e : Event} (he : e.Passing) :
    Sim X g me w hand (pe.record e) :=
  h.move (hN.record pe e he h.inv) ⟨h.placed.queue, h.placed.waiting⟩ (fun _ => rfl) rfl
    (executed_same (executes_passing he)) (rooted_same (roots_passing he))
    (congrArg (requestsIn g) (issued_same (by cases he <;> rfl)))

/-- The message in hand is sent. -/
theorem Sim.push (h : Sim X g me w [msg] pe) (hok : BcastOk X msg) (dst : Nat) :
    Sim X g me w [] (pe.push dst msg) := by
  refine h.move (hN.push pe dst msg hok h.inv) ⟨h.placed.queue, h.placed.waiting⟩
    (fun c => ?_) ?_
    rfl rfl rfl
  · show copiesIn g c ((pe.sent ++ [(dst, msg)]).map (·.2)) + _ + _ + 0 = _ + _ + _ + _
    rw [List.map_append, copiesIn_append, List.map_singleton]
    abel
  · show requestsIn g ((pe.sent ++ [(dst, msg)]).map (·.2)) + _ + 0 = _ + _ + _
    rw [List.map_append, requestsIn_append, List.map_singleton]
    abel

/-- The message in hand is put into the queue of its element. -/
theorem Sim.buffer (h : Sim X g me w [msg] pe) (hok : BcastOk X msg) {col : Collective}
    (hcol : pe.collectiveTable cid = some col) (hcid : msg.collective = cid)
    (hkind : msg.collectiveKind = false) (hctor : msg.entry.isConstructor = false)
    (hne : msg.chare ≠ chareBcastRoot) :
    Sim X g me w [] (pe.modify cid (·.buffer msg)) := by
  refine h.move (hN.buffer pe cid msg hok h.inv) (h.placed.buffer hcid hkind hctor hne)
    (fun c => ?_) ?_ rfl rfl rfl
  · have hqueue : copiesIn g c ((pe.modify cid (·.buffer msg)).queue g (encode c))
        = copiesIn g c (pe.queue g (encode c)) + copiesIn g c [msg] := by
      by_cases hhere : cid = g ∧ msg.chare = encode c
      · obtain ⟨rfl, hchare⟩ := hhere
        rw [queue_buffer hcol hchare, copiesIn_append]
      · rw [queue_buffer_ne hhere,
          copiesIn_singleton_zero fun hc =>
            hhere ⟨hcid.symm.trans hc.2.1, hc.2.2.1⟩, add_zero]
    show copiesIn g c (pe.sent.map (·.2)) +
      copiesIn g c (pe.collectiveBuffer g) + _ + 0 = _
    rw [hqueue, Pe.copies]
    abel
  · rw [requestsIn_singleton_zero fun hc => hne hc.2.2]
    rfl

/-- The front of a queue is popped: it was no copy. -/
theorem Sim.popFront (h : Sim X g me w [] pe) {idx : ChareIndex}
    (hfront : cid = g → ∀ c, copiesIn g c (pe.queue g idx).tail =
      copiesIn g c (pe.queue g idx)) :
    Sim X g me w [] (pe.modify cid (·.popFront idx)) := by
  refine h.move (hN.popFront pe cid idx h.inv)
    (h.placed.modify fun _ _ _ hm => Or.inl (mem_popFront hm))
    (fun c => ?_) rfl rfl rfl rfl
  have hqueue : copiesIn g c ((pe.modify cid (·.popFront idx)).queue g (encode c))
      = copiesIn g c (pe.queue g (encode c)) := by
    by_cases hhere : cid = g ∧ idx = encode c
    · obtain ⟨rfl, rfl⟩ := hhere
      cases hcol : pe.collectiveTable cid with
      | none => simp [Pe.queue, hcol]
      | some col => rw [queue_popFront hcol, ← hfront rfl c, queue_of_table hcol]
    · rw [queue_popFront_ne hhere]
  show copiesIn g c (pe.sent.map (·.2)) + copiesIn g c (pe.collectiveBuffer g) + _ + 0 = _
  rw [hqueue]
  rfl

/-- The front of a queue is sent on. -/
theorem Sim.forwardFront (h : Sim X g me w [] pe) {col : Collective} {idx : ChareIndex}
    {rest : List Message} (hcol : pe.collectiveTable cid = some col)
    (hfront : col.buffers idx = msg :: rest) (dst : Nat) :
    Sim X g me w [] ((pe.push dst msg).modify cid (·.popFront idx)) := by
  have hmem : msg ∈ col.buffers idx := by rw [hfront]; exact List.mem_cons_self
  obtain ⟨hidx, hcid, _, _, hne⟩ := h.placed.queue cid col hcol idx msg hmem
  have hok := h.inv.all.stored cid col hcol idx msg hmem
  have hplaced : Placed (pe.push dst msg) := ⟨h.placed.queue, h.placed.waiting⟩
  refine h.move (hN.popFront _ cid idx (hN.push pe dst msg hok h.inv))
    (hplaced.modify fun _ _ _ hm => Or.inl (mem_popFront hm)) (fun c => ?_) ?_ rfl rfl rfl
  · have hqueue : copiesIn g c (pe.queue g (encode c)) = copiesIn g c [msg]
        + copiesIn g c (((pe.push dst msg).modify cid (·.popFront idx)).queue g
          (encode c)) := by
      by_cases hhere : cid = g ∧ idx = encode c
      · obtain ⟨rfl, rfl⟩ := hhere
        rw [@queue_popFront (pe.push dst msg) cid (encode c) col hcol,
          queue_of_table hcol, hfront, List.tail_cons, copiesIn_cons]
      · rw [queue_popFront_ne hhere, copiesIn_singleton_zero fun hc =>
          hhere ⟨hcid.symm.trans hc.2.1, hidx.symm.trans hc.2.2.1⟩, zero_add]
        rfl
    show copiesIn g c ((pe.sent ++ [(dst, msg)]).map (·.2)) +
      copiesIn g c (pe.collectiveBuffer g)
      + copiesIn g c (((pe.push dst msg).modify cid (·.popFront idx)).queue g
        (encode c)) + 0 = _
    rw [Pe.copies, hqueue, List.map_append, copiesIn_append,
      List.map_singleton, copiesIn_nil]
    abel
  · show requestsIn g ((pe.sent ++ [(dst, msg)]).map (·.2)) + _ + 0 = _ + _ + 0
    rw [List.map_append, requestsIn_append, List.map_singleton,
      requestsIn_singleton_zero fun hc => hne hc.2.2, add_zero, add_zero, add_zero]
    rfl

/-- The message in hand waits for its collective. -/
theorem Sim.bufferCollective (h : Sim X g me w [msg] pe) (hok : BcastOk X msg)
    (hkind : msg.collectiveKind = false) : Sim X g me w [] (pe.bufferCollective msg) := by
  have hwait : (pe.bufferCollective msg).collectiveBuffer g
      = pe.collectiveBuffer g ++ if msg.collective = g then [msg] else [] := by
    split
    next hg => rw [← hg, bufferCollective_self]
    next hg => rw [bufferCollective_ne (Ne.symm hg), List.append_nil]
  refine h.move (hN.bufferCollective pe msg hok h.inv) (h.placed.bufferCollective hkind)
    (fun c => ?_) ?_ rfl rfl rfl
  · show copiesIn g c (pe.sent.map (·.2)) +
      copiesIn g c ((pe.bufferCollective msg).collectiveBuffer g)
      + copiesIn g c (pe.queue g (encode c)) + 0 = _
    rw [hwait, copiesIn_append, Pe.copies]
    split
    next hg => abel
    next hg =>
      rw [(idle_of_ne hg).1 c, copiesIn_nil]
      abel
  · show requestsIn g (pe.sent.map (·.2)) +
      requestsIn g ((pe.bufferCollective msg).collectiveBuffer g)
      + 0 = _
    rw [hwait, requestsIn_append, Pe.requests]
    split
    next hg => abel
    next hg =>
      rw [(idle_of_ne hg).2, requestsIn_nil]
      abel

/-- A message that waited for its collective is taken in hand. -/
theorem Sim.take (h : Sim X g me w [] pe) {rest : List Message}
    (hfront : pe.collectiveBuffer cid = msg :: rest) :
    Sim X g me w [msg]
      { pe with collectiveBuffer := Function.update pe.collectiveBuffer cid rest } := by
  have hcid := (h.placed.waiting cid msg (by rw [hfront]; exact List.mem_cons_self)).1
  refine h.move (hN.take pe cid msg rest hfront h.inv) (h.placed.take hfront)
    (fun c => ?_) ?_
    rfl rfl rfl
  · show copiesIn g c (pe.sent.map (·.2))
      + copiesIn g c (Function.update pe.collectiveBuffer cid rest g)
      + copiesIn g c (pe.queue g (encode c)) + copiesIn g c [msg] = _
    rw [Pe.copies, copiesIn_nil]
    by_cases hg : g = cid
    · subst hg
      rw [Function.update_self, hfront, copiesIn_cons (m := msg) (l := rest)]
      abel
    · rw [Function.update_of_ne hg, (idle_of_ne fun hc => hg (hc.symm.trans hcid)).1 c]
  · show requestsIn g (pe.sent.map (·.2))
      + requestsIn g (Function.update pe.collectiveBuffer cid rest g) +
        requestsIn g [msg] = _
    rw [Pe.requests, requestsIn_nil]
    by_cases hg : g = cid
    · subst hg
      rw [Function.update_self, hfront, requestsIn_cons (m := msg) (l := rest)]
      abel
    · rw [Function.update_of_ne hg, (idle_of_ne fun hc => hg (hc.symm.trans hcid)).2]

/-- The constructor is called; it is no broadcast. -/
theorem Sim.construct (h : Sim X g me w [msg] pe) (hok : BcastOk X msg) {col : Collective}
    (hcol : pe.collectiveTable cid = some col) (hctor : msg.entry.isConstructor = true)
    (hhome : X.peFor col.mapper msg.chare = me) :
    Sim X g me w []
      ((pe.modify cid (·.emplace msg.chare)).record (.invoked cid msg.chare msg)) := by
  have hplain : msg.isBroadcast = false := by
    refine Bool.eq_false_iff.mpr fun hb => ?_
    rw [hok.entry hb] at hctor
    cases hctor
  refine (h.drop (idle_of_plain hplain)).move
    (hN.construct pe cid msg col hcol hctor hhome hok h.inv)
    ?_ (fun c => ?_) rfl (executed_same (executes_plain (bcast_of_plain hplain)))
      (rooted_same rfl)
    (congrArg (requestsIn g) (issued_same rfl))
  · have hmade := @Placed.modify pe cid (·.emplace msg.chare) h.placed fun _ _ _ hm =>
      Or.inl (by rwa [emplace_buffers] at hm)
    exact ⟨hmade.queue, hmade.waiting⟩
  · have hqueue : (pe.modify cid (·.emplace msg.chare)).queue g (encode c)
        = pe.queue g (encode c) := queue_modify fun _ => by rw [emplace_buffers]
    show copiesIn g c (pe.sent.map (·.2)) + copiesIn g c (pe.collectiveBuffer g)
      + copiesIn g c ((pe.modify cid (·.emplace msg.chare)).queue g (encode c)) + 0 = _
    rw [hqueue]
    rfl

theorem Sim.collective (h : Sim X g me w [] pe) (kind : Nat) :
    Sim X g me w [] (X.constructCollective me kind pe) := by
  refine h.sends rfl (fun _ => rfl) rfl ⟨h.placed.queue, h.placed.waiting⟩
    (@executed_same pe (.constructed _ _) _ _ rfl)
    (@rooted_same pe (.constructed _ _) _ rfl) (@issued_same pe (.constructed _ _) rfl) ?_
    (hN.collective pe kind trivial h.inv)
  intro r hr
  obtain ⟨i, _, rfl⟩ := List.mem_map.mp hr
  exact idle_of_unnumbered rfl (Or.inl rfl)

theorem Sim.group (hpes : 0 < X.numPes) (h : Sim X g me w [] pe)
    (kind constructor : Nat) :
    Sim X g me w [] (X.constructGroup me kind constructor pe) := by
  refine h.sends (List.append_assoc _ _ _) (fun _ => rfl) rfl
    ⟨h.placed.queue, h.placed.waiting⟩ (@executed_same pe (.constructed _ _) _ _ rfl)
    (@rooted_same pe (.constructed _ _) _ rfl) (@issued_same pe (.constructed _ _) rfl) ?_
    (hN.group pe kind constructor trivial h.inv)
  intro r hr
  rcases List.mem_append.mp hr with hr | hr
  · obtain ⟨i, _, rfl⟩ := List.mem_map.mp hr
    exact idle_of_unnumbered rfl (Or.inl rfl)
  · obtain ⟨i, hi, rfl⟩ := List.mem_map.mp hr
    have hlt := X.numPes_lt
    refine idle_of_unnumbered rfl (Or.inr (encode_ne_root ?_))
    rcases List.mem_append.mp hi with hi | hi
    · have := List.mem_range'_1.mp hi
      omega
    · rw [List.mem_singleton.mp hi]
      omega

end Kept

/-! ## An element takes a broadcast -/

theorem World.now_executed : (w.now X g me hand pe).executed me =
    pe.executed g (encode me) :=
  Function.update_self ..

theorem World.now_copies {c : Nat} (hc : c < X.numPes) : (w.now X g me hand pe).copies c
    = w.copies c + pe.copies g c + copiesIn g c hand := if_pos hc

theorem World.now_copies_ge {c : Nat} (hc : ¬ c < X.numPes) :
    (w.now X g me hand pe).copies c = 0 := if_neg hc

/-- The element of PE `me` takes `msg`, next for it, and the copies are sent: its
node takes an item. -/
theorem World.now_execute (hkind : msg.collectiveKind = false) (hcid : msg.collective = g)
    (hne : msg.bcast ≠ 0) (hnext : msg.bcast.toNat =
      (pe.executed g (encode me)).length + 1)
    (hexecuted : pe'.executed g (encode me) = pe.executed g (encode me) ++ [msg.id])
    (hcopies : ∀ c, pe'.copies g c = pe.copies g c
      + copiesIn g c ((X.tree.children me).map fun d : Nat =>
        { msg with chare := encode d })) :
    w.now X g me [] pe' = (w.now X g me [] pe).execute X.tree me msg.id := by
  have hlt := X.numPes_lt
  refine TreeBroadcast.State.ext ?_ (funext fun c => ?_)
  · show Function.update w.executed me _
      = Function.update (Function.update w.executed me _) me
        ((w.now X g me [] pe).executed me ++ _)
    rw [Function.update_idem, hexecuted, World.now_executed]
  · show _ = if c ∈ X.tree.children me
      then (((w.now X g me [] pe).executed me).length + 1, msg.id) ::ₘ
        (w.now X g me [] pe).copies c
      else (w.now X g me [] pe).copies c
    by_cases hc : c < X.numPes
    · rw [World.now_copies hc, World.now_copies hc, World.now_executed, hcopies, ← hnext,
        copiesIn_children hlt (X.tree.nodup me) (X.tree.lt me) hc hkind hcid hne]
      split
      next =>
        rw [← Multiset.singleton_add]
        abel
      next => rw [add_zero]
    · rw [if_neg fun hchild => hc (X.tree.lt me c hchild), World.now_copies_ge hc,
        World.now_copies_ge hc]

/-- The copies that a PE sends. -/
theorem sendCopies_copies {col : Collective} {children : List Nat} {c : Nat} :
    (X.sendCopies col msg (children.map fun d : Nat => encode d) pe).copies g c
      = pe.copies g c
        + copiesIn g c (children.map fun d : Nat => { msg with chare := encode d }) := by
  show copiesIn g c ((pe.sent ++ _).map (·.2)) + _ + _ = _
  rw [List.map_append, copiesIn_append, List.map_map, List.map_map, Pe.copies]
  show _ + copiesIn g c (children.map fun d : Nat =>
      { msg with chare := encode d }) + _ + _ = _
  abel

/-- The copy for PE `me` is picked up. -/
theorem World.now_pick (hme : me < X.numPes)
    (hcopy : msg.collectiveKind = false ∧ msg.collective = g ∧ msg.chare = encode me ∧
      msg.bcast ≠ 0) :
    (w.now X g me [msg] pe).pick me (w.copies me + pe.copies g me) =
    w.now X g me [] pe := by
  have hlt := X.numPes_lt
  refine TreeBroadcast.State.ext rfl (funext fun c => ?_)
  show Function.update (w.now X g me [msg] pe).copies me _ c = _
  by_cases hcm : c = me
  · subst hcm
    rw [Function.update_self, World.now_copies hme, copiesIn_nil, add_zero]
  · rw [Function.update_of_ne hcm]
    by_cases hc : c < X.numPes
    · rw [World.now_copies hc, World.now_copies hc, copiesIn_singleton_zero fun h =>
        hcm (encode_inj (by omega) (by omega) (h.2.2.1.symm.trans hcopy.2.2.1))]
      rfl
    · rw [World.now_copies_ge hc, World.now_copies_ge hc]

theorem sendCopies_requests {col : Collective} {children : List Nat}
    (hlt : ∀ d ∈ children, d < 2 ^ 31) :
    (X.sendCopies col msg (children.map fun d : Nat => encode d) pe).requests g
      = pe.requests g := by
  have hnone :
      requestsIn g (children.map fun d : Nat => { msg with chare := encode d }) = 0 := by
    refine requestsIn_eq_zero fun m hm hc => ?_
    obtain ⟨d, hd, rfl⟩ := List.mem_map.mp hm
    exact encode_ne_root (hlt d hd) hc.2.2
  show requestsIn g ((pe.sent ++ _).map (·.2)) + _ = _
  rw [List.map_append, requestsIn_append, List.map_map, List.map_map, Pe.requests]
  show _ + requestsIn g (children.map fun d : Nat => { msg with chare := encode d }) + _
    = _
  rw [hnone, add_zero]
  rfl

theorem upstream_group_of_ok {mapper : Mapper} {idx : ChareIndex}
    {children : List ChareIndex}
    (hup : X.upstream me mapper idx = .ok children) : mapper = .group := by
  cases mapper with
  | group => rfl
  | default => cases hup
  | user _ => cases hup

section Kept

variable (hN : Machine.Kept X me Call.Proper (BcastOk X) (NumberInv X g me))
include hN

/-- An element takes the copy in hand. -/
theorem Sim.accept (hme : me < X.numPes) (h : Sim X g me w [msg] pe) (hok : BcastOk X msg)
    (hkind : msg.collectiveKind = false) (hcid : msg.collective = cid) {col : Collective}
    {ch : Chare} {children : List ChareIndex}
    (hcol : pe.collectiveTable cid = some col)
    (hctor : ¬ (msg.entry.isConstructor = true ∧ X.peFor col.mapper msg.chare = me))
    (hch : col.chares msg.chare = some ch) (hb : msg.isBroadcast = true)
    (horder : msg.bcast.toNat = ch.lastBcast.toNat + 1)
    (hup : X.upstream me col.mapper msg.chare = .ok children) :
    Sim X g me w []
      ((X.sendCopies col msg children (pe.modify cid (·.advance msg.chare))).record
      (.invoked cid msg.chare msg)) := by
  have hlt := X.numPes_lt
  have hinv := hN.accept pe cid msg col ch children hcol hctor hch hb horder hup hok h.inv
  have hplaced : Placed (pe.modify cid (·.advance msg.chare)) :=
    h.placed.modify fun _ _ _ hm => Or.inl hm
  have hqueue : ∀ c : Nat, (pe.modify cid (·.advance msg.chare)).queue g (encode c)
      = pe.queue g (encode c) := fun c => queue_modify fun _ => rfl
  have hne : msg.bcast ≠ 0 := by
    intro hzero
    rw [hzero] at horder
    cases horder
  by_cases hg : cid = g
  · subst hg
    have hgroup := upstream_group_of_ok hup
    -- the copy is for this PE
    obtain ⟨q, c, hc, hchare⟩ := hok.below hne
    have hhome := h.inv.home col hcol msg.chare (by rw [hch]; rfl)
    rw [hgroup, hchare, peFor_encode (X.tree.lt q c hc)] at hhome
    subst hhome
    rw [hgroup, hchare, upstream_group hme] at hup
    obtain rfl := Except.ok.inj hup
    have hnext : msg.bcast.toNat = (pe.executed cid (encode c)).length + 1 := by
      rw [h.inv.last, lastBcast_of_chare hcol (hchare ▸ hch), horder]
    have hexecuted :
      ((X.sendCopies col msg ((X.tree.children c).map fun d : Nat => encode d)
        (pe.modify cid (·.advance msg.chare))).record
          (.invoked cid msg.chare msg)).executed cid
        (encode c) = pe.executed cid (encode c) ++ [msg.id] :=
      (executed_invoked hne).trans (congrArg (pe.executed cid (encode c) ++ ·)
        (if_pos ⟨rfl, hchare.symm⟩))
    have hcopies :
      ∀ d, ((X.sendCopies col msg ((X.tree.children c).map fun d : Nat => encode d)
        (pe.modify cid (·.advance msg.chare))).record
          (.invoked cid msg.chare msg)).copies cid d
        = pe.copies cid d
          + copiesIn cid d ((X.tree.children c).map fun d : Nat =>
            { msg with chare := encode d }) := by
      intro d
      refine (@sendCopies_copies X cid (pe.modify cid (·.advance msg.chare)) msg
        col _ d).trans ?_
      rw [Pe.copies, hqueue]
      rfl
    have hrooted :
      ((X.sendCopies col msg ((X.tree.children c).map fun d : Nat => encode d)
        (pe.modify cid (·.advance msg.chare))).record
          (.invoked cid msg.chare msg)).rooted cid
        = pe.rooted cid := rooted_same rfl
    have hrequested :
      ((X.sendCopies col msg ((X.tree.children c).map fun d : Nat => encode d)
        (pe.modify cid (·.advance msg.chare))).record
          (.invoked cid msg.chare msg)).requested cid
        = pe.requested cid := congrArg (requestsIn cid) (issued_same rfl)
    have hrequests :=
      @sendCopies_requests X cid (pe.modify cid (·.advance msg.chare)) msg col
      (X.tree.children c) fun d hd => (X.tree.lt c d hd).trans hlt
    refine ⟨hinv, ⟨hplaced.queue, hplaced.waiting⟩, ?_, ?_⟩
    · rw [hrooted, hrequested, ← h.count]
      rw [requestsIn_singleton_zero fun hc => encode_ne_root (hme.trans hlt)
        (hchare.symm.trans hc.2.2)]
      exact congrArg (w.requests + · + 0 + _) hrequests
    · rw [hrequested]
      intro hcard
      refine (h.steps hcard).tail ?_
      rw [World.now_execute hkind hcid hne hnext hexecuted hcopies,
        ← World.now_pick hme ⟨hkind, hcid, hchare, hne⟩]
      refine .accept _ _ _ _ ?_
      rw [World.now_copies hme, World.now_executed,
        copiesIn_singleton ⟨hkind, hcid, hchare, hne⟩, hnext,
        ← Multiset.singleton_add]
      abel
  · have hidle : msg.Idle g := idle_of_ne (by rw [hcid]; exact hg)
    refine (h.drop hidle).sends rfl hqueue rfl ⟨hplaced.queue, hplaced.waiting⟩ ?_
      (rooted_same rfl) (issued_same rfl) ?_ hinv
    · exact (executed_invoked hne).trans
        ((congrArg (_ ++ ·) (if_neg fun hc => hg hc.1.symm)).trans
        (List.append_nil _))
    · intro r hr
      obtain ⟨child, _, rfl⟩ := List.mem_map.mp hr
      exact idle_of_ne (by rw [← hcid] at hg; exact hg)

/-- The root element takes the request in hand. -/
theorem Sim.root (hme : me < X.numPes) (h : Sim X g me w [msg] pe) (hok : BcastOk X msg)
    (hkind : msg.collectiveKind = false) (hcid : msg.collective = cid) {col : Collective}
    {root : ChareIndex} {obj : Chare} {children : List ChareIndex}
    (hcol : pe.collectiveTable cid = some col) (hbcast : msg.chare = chareBcastRoot)
    (hroot : Machine.root col.mapper = .ok root) (hsome : col.chares root = some obj)
    (hlast : obj.lastBcast.toNat + 1 < 2 ^ 16)
    (hup : X.upstream me col.mapper root = .ok children) :
    Sim X g me w [] ((X.rootSends col root obj msg children cid pe).record
      (.invoked cid root (msg.numbered root obj.lastBcast))) := by
  have hlt := X.numPes_lt
  have hinv := hN.rootNext pe cid msg col root obj children hcol hbcast hroot
    hsome hlast hup hok
    h.inv
  obtain ⟨hgroup, rfl⟩ := Machine.root_eq hroot
  have hnumber := (@Machine.numbered_next msg _ hlast).2
  have hne : (msg.numbered (encode 0) obj.lastBcast).bcast ≠ 0 := by
    intro hzero
    rw [hzero] at hnumber
    cases hnumber
  let pe₀ := (pe.record (.rooted cid (msg.numbered (encode 0) obj.lastBcast))).modify cid
    (·.advance (encode 0))
  have hplaced : Placed pe₀ := by
    have hmade := @Placed.modify pe cid (·.advance (encode 0)) h.placed
      fun _ _ _ hm => Or.inl hm
    exact ⟨hmade.queue, hmade.waiting⟩
  have hqueue : ∀ c : Nat, pe₀.queue g (encode c) = pe.queue g (encode c) := fun c =>
    @queue_modify (pe.record _) g cid (encode c) (·.advance (encode 0)) fun _ => rfl
  have hexecuted₀ : pe₀.executed g (encode me) = pe.executed g (encode me) :=
    @executed_same pe _ g (encode me) rfl
  by_cases hg : cid = g
  · subst hg
    obtain rfl := root_home hme h.inv.home hcol hgroup hsome
    rw [hgroup, show encode 0 = encode ((0 : Nat) : Int) from rfl,
      upstream_group hme] at hup
    obtain rfl := Except.ok.inj hup
    have hnext : (msg.numbered (encode 0) obj.lastBcast).bcast.toNat
        = (pe.executed cid (encode 0)).length + 1 := by
      rw [h.inv.last, lastBcast_of_chare hcol hsome, hnumber]
    have hexecuted : ((X.rootSends col (encode 0) obj msg ((X.tree.children 0).map
        fun d : Nat => encode d) cid pe).record (.invoked cid (encode 0)
          (msg.numbered (encode 0) obj.lastBcast))).executed cid (encode 0)
        = pe.executed cid (encode 0) ++ [msg.id] :=
      (executed_invoked hne).trans ((congrArg (_ ++ ·) (if_pos ⟨rfl, rfl⟩)).trans
        (congrArg (· ++ [msg.id]) hexecuted₀))
    have hcopies : ∀ d, ((X.rootSends col (encode 0) obj msg ((X.tree.children 0).map
        fun d : Nat => encode d) cid pe).record (.invoked cid (encode 0)
          (msg.numbered (encode 0) obj.lastBcast))).copies cid d
        = pe.copies cid d + copiesIn cid d ((X.tree.children 0).map fun d : Nat =>
          { msg.numbered (encode 0) obj.lastBcast with chare := encode d }) := by
      intro d
      refine (@sendCopies_copies X cid pe₀ (msg.numbered (encode 0) obj.lastBcast)
        col _ d).trans ?_
      rw [Pe.copies, hqueue]
      rfl
    have hrooted : ((X.rootSends col (encode 0) obj msg ((X.tree.children 0).map
        fun d : Nat => encode d) cid pe).record (.invoked cid (encode 0)
          (msg.numbered (encode 0) obj.lastBcast))).rooted cid =
            pe.rooted cid ++ [msg.id] := by
      refine (rooted_same rfl).trans ((@rooted_record pe (.rooted cid _) cid).trans ?_)
      rw [Event.roots, if_pos rfl]
      rfl
    have hrequested : ((X.rootSends col (encode 0) obj msg ((X.tree.children 0).map
        fun d : Nat => encode d) cid pe).record (.invoked cid (encode 0)
          (msg.numbered (encode 0) obj.lastBcast))).requested cid = pe.requested cid :=
      congrArg (requestsIn cid) ((issued_same rfl).trans (@issued_same pe _ rfl))
    have hrequests :=
      @sendCopies_requests X cid pe₀ (msg.numbered (encode 0) obj.lastBcast) col
      (X.tree.children 0) fun d hd => (X.tree.lt 0 d hd).trans hlt
    refine ⟨hinv, ⟨hplaced.queue, hplaced.waiting⟩, ?_, ?_⟩
    · rw [hrooted, hrequested, ← h.count, requestsIn_singleton ⟨hkind, hcid, hbcast⟩,
        ← Multiset.coe_add]
      show w.requests + _ + 0 + (_ + {msg.id}) = _
      refine (congrArg (w.requests + · + 0 + _) hrequests).trans ?_
      show w.requests + pe.requests cid + 0 + _ = _
      abel
    · rw [hrequested]
      intro hcard
      refine (h.steps hcard).tail ?_
      have hhand : w.now X cid 0 [msg] pe = w.now X cid 0 [] pe := by
        refine TreeBroadcast.State.ext rfl (funext fun c => ?_)
        by_cases hc : c < X.numPes
        · rw [World.now_copies hc, World.now_copies hc,
            copiesIn_singleton_zero fun hcopy =>
            encode_ne_root (hc.trans hlt) (hcopy.2.2.1.symm.trans hbcast)]
          rfl
        · rw [World.now_copies_ge hc, World.now_copies_ge hc]
      rw [hhand, @World.now_execute X cid 0 w pe _ (msg.numbered (encode 0) obj.lastBcast)
        hkind hcid hne
        hnext hexecuted hcopies]
      exact .issue _ _
  · have hidle : msg.Idle g := idle_of_ne (by rw [hcid]; exact hg)
    refine (h.drop hidle).sends rfl hqueue rfl
      ⟨hplaced.queue, hplaced.waiting⟩ ?_ ?_ ?_ ?_ hinv
    · refine (executed_invoked hne).trans (Eq.trans ?_ hexecuted₀)
      exact (congrArg (_ ++ ·) (if_neg fun hc => hg hc.1.symm)).trans (List.append_nil _)
    · exact (rooted_same rfl).trans (@rooted_same pe _ g (if_neg hg))
    · exact (issued_same rfl).trans (@issued_same pe _ rfl)
    · intro r hr
      obtain ⟨child, _, rfl⟩ := List.mem_map.mp hr
      exact idle_of_ne (by rw [← hcid] at hg; exact hg)

/-- The numbers are used up: more broadcasts were called than there are numbers. -/
theorem Sim.wrapped (hme : me < X.numPes) (h : Sim X g me w [msg] pe)
    (hok : BcastOk X msg) (hkind : msg.collectiveKind = false)
    (hcid : msg.collective = cid) {col : Collective}
    {root : ChareIndex} {obj : Chare} (hcol : pe.collectiveTable cid = some col)
    (hbcast : msg.chare = chareBcastRoot) (hroot : Machine.root col.mapper = .ok root)
    (hsome : col.chares root = some obj) (hlast : obj.lastBcast.toNat + 1 = 2 ^ 16) :
    Sim X g me w [] ((pe.record (.rooted cid (msg.numbered root obj.lastBcast))).record
      (.invoked cid root (msg.numbered root obj.lastBcast))) := by
  have hinv := hN.rootWrapped pe cid msg col root obj hcol hbcast hroot hsome
    hlast hok h.inv
  obtain ⟨hgroup, rfl⟩ := Machine.root_eq hroot
  have hzero := bcast_of_plain (@Machine.numbered_wrapped msg _ hlast)
  have hexecuted :
    ((pe.record (.rooted cid (msg.numbered (encode 0) obj.lastBcast))).record
      (.invoked cid (encode 0) (msg.numbered (encode 0) obj.lastBcast))).executed g
        (encode me)
      = pe.executed g (encode me) :=
    (executed_same (executes_plain hzero)).trans (@executed_same pe _ _ _ rfl)
  have hissued : ((pe.record (.rooted cid (msg.numbered (encode 0) obj.lastBcast))).record
      (.invoked cid (encode 0) (msg.numbered (encode 0) obj.lastBcast))).issued =
        pe.issued :=
    (issued_same rfl).trans (@issued_same pe _ rfl)
  by_cases hg : cid = g
  · subst hg
    obtain rfl := root_home hme h.inv.home hcol hgroup hsome
    have hrooted :
      ((pe.record (.rooted cid (msg.numbered (encode 0) obj.lastBcast))).record
        (.invoked cid (encode 0) (msg.numbered (encode 0) obj.lastBcast))).rooted cid
        = pe.rooted cid ++ [msg.id] := by
      refine (rooted_same rfl).trans ((@rooted_record pe (.rooted cid _) cid).trans ?_)
      rw [Event.roots, if_pos rfl]
      rfl
    have hcount : w.requests + pe.requests cid + 0 + ↑(pe.rooted cid ++ [msg.id])
        = w.requested + pe.requested cid := by
      rw [← h.count, requestsIn_singleton ⟨hkind, hcid, hbcast⟩, ← Multiset.coe_add]
      show _ + (_ + {msg.id}) = _
      abel
    refine ⟨hinv, ⟨h.placed.queue, h.placed.waiting⟩, ?_, ?_⟩
    · rw [hrooted, Pe.requested, hissued]
      exact hcount
    · rw [Pe.requested, hissued]
      intro hcard
      exfalso
      have hlen := (h.inv.last (encode 0)).trans (lastBcast_of_chare hcol hsome)
      rw [h.inv.root, List.length_take] at hlen
      have hcard' := congrArg Multiset.card hcount
      rw [Multiset.card_add, Multiset.coe_card, List.length_append,
        List.length_singleton] at hcard'
      have hcard : (w.requested + pe.requested cid).card < 2 ^ 16 := hcard
      omega
  · have hidle : msg.Idle g := idle_of_ne (by rw [hcid]; exact hg)
    exact (h.drop hidle).sends (List.append_nil _).symm (fun _ => rfl) rfl
      ⟨h.placed.queue, h.placed.waiting⟩ hexecuted
      ((rooted_same rfl).trans (@rooted_same pe _ g (if_neg hg))) hissued
      (fun _ hr => by cases hr) hinv

end Kept

end Sim

/-! ## Every function -/

/-- The message a function was given. -/
def Task.hand : Task → List Message
  | .attempt _ msg => [msg]
  | .handle _ _ msg => [msg]
  | .endpoint _ msg => [msg]
  | .now _ msg => [msg]
  | _ => []

/-- The message it gives back: `try_deliver` failed. -/
def Task.left : Task → Bool → List Message
  | .attempt _ msg, false => [msg]
  | _, _ => []

/-- What a function may be given. -/
def Task.Fit (X : Machine) (me : Nat) (pe : Pe) : Task → Prop
  | .flush _ _ => True
  | .attempt cid msg => BcastOk X msg ∧ msg.collective = cid ∧
    msg.collectiveKind = false ∧
      msg.chare ≠ chareBcastRoot
  | .handle cid idx msg => BcastOk X msg ∧ msg.collective = cid ∧
    msg.collectiveKind = false ∧
      msg.chare ≠ chareBcastRoot ∧ idx = msg.chare ∧
        ∀ col, pe.collectiveTable cid = some col →
        ¬ (msg.entry.isConstructor = true ∧ X.peFor col.mapper msg.chare = me)
  | .calls cs => ∀ c ∈ cs, c.Proper
  | .call c => c.Proper
  | .endpoint _ msg => BcastOk X msg ∧ msg.collectiveKind = false
  | .now cid msg => BcastOk X msg ∧ msg.collective = cid ∧ msg.collectiveKind = false
  | .drain _ => True

section Runs

variable {X : Machine} {g : CollectiveIndex} {me : Nat} {w : World}

theorem Placed.here {pe : Pe} (h : Placed pe) : pe.Here :=
  fun cid col hcol idx m hm => (h.queue cid col hcol idx m hm).1

theorem idle_of_not_copy {msg : Message} (hctor : msg.entry.isConstructor = false)
    (hcopy : msg.isCopy = false) : msg.Idle g := by
  refine idle_of_plain ?_
  rw [Message.isCopy, hctor, Bool.not_false, Bool.and_true] at hcopy
  exact hcopy

theorem copiesIn_noCopies {pe : Pe} {idx : ChareIndex} (hplaced : Placed pe)
    (h : pe.NoCopies g idx) (c : Nat) : copiesIn g c (pe.queue g idx) = 0 ∧
      copiesIn g c (pe.queue g idx).tail = 0 := by
  cases hcol : pe.collectiveTable g with
  | none => simp [Pe.queue, hcol]
  | some col =>
    have hidle : ∀ m ∈ pe.queue g idx, m.Idle g := by
      intro m hm
      have hmem := hm
      rw [queue_of_table hcol] at hmem
      exact idle_of_not_copy (hplaced.queue g col hcol idx m hmem).2.2.2.1 (h m hm)
    exact ⟨(idle_list hidle).1 c,
      (idle_list fun m hm => hidle m (List.mem_of_mem_tail hm)).1 c⟩

/-- The front of a queue was taken by `try_deliver`, and is popped. -/
theorem Sim.flushed (hN : Machine.Kept X me Call.Proper (BcastOk X) (NumberInv X g me))
    {cid : CollectiveIndex} {idx : ChareIndex} {pe pe₁ pe₂ : Pe} {col : Collective}
    {msg : Message}
    {rest : List Message} (h : Sim X g me w [] pe)
    (hcol : pe.collectiveTable cid = some col) (hfront : col.buffers idx = msg :: rest)
    (hrun₁ : X.Runs me (.attempt cid msg) pe true pe₁)
    (hrun₂ : X.Runs me (.flush cid idx) (pe₁.modify cid (·.popFront idx)) true pe₂)
    (ih : (Task.attempt cid msg).Fit X me pe → Sim X g me w [msg] pe →
      Sim X g me w [] pe₁) :
    Sim X g me w [] (pe₁.modify cid (·.popFront idx)) := by
  have hmem : msg ∈ col.buffers idx := by rw [hfront]; exact List.mem_cons_self
  obtain ⟨hidx, hcid, hkind, hctor, hne⟩ := h.placed.queue cid col hcol idx msg hmem
  have hfit : (Task.attempt cid msg).Fit X me pe :=
    ⟨h.inv.all.stored cid col hcol idx msg hmem, hcid, hkind, hne⟩
  cases hch : col.chares idx with
  | none =>
    -- of an element that is not there: a copy may be sent on with the rest
    obtain rfl := hrun₁.forwarded hcol (by rw [hidx]; exact hch) hctor
    exact (h.record hN (.tried msg)).forwardFront hN hcol hfront _
  | some ch =>
    by_cases hg : cid = g
    · subst hg
      have hnone : pe.NoCopies cid idx :=
        (Machine.Runs.flushFront hcol hfront hrun₁ hrun₂).flush_noCopies
        h.placed.here hcol
          (by rw [hch]; rfl)
      have hplain : msg.isCopy = false :=
        hnone msg (by rw [queue_of_table hcol]; exact hmem)
      have htried := ih hfit (h.pick (idle_of_not_copy hctor hplain))
      have hnone₁ : pe₁.NoCopies cid idx := hrun₁.noCopies hplain h.placed.here hnone
      refine htried.popFront hN fun _ c => ?_
      obtain ⟨hqueue, htail⟩ := copiesIn_noCopies htried.placed hnone₁ c
      rw [hqueue, htail]
    · have hidle : msg.Idle g := idle_of_ne (by rw [hcid]; exact hg)
      exact (ih hfit (h.pick hidle)).popFront hN fun hc => absurd hc hg

/-- Every function makes steps of the broadcast, with what it was given and
what it gives back in hand. -/
theorem Runs.sim (hX : X.Within Call.Proper) (hme : me < X.numPes)
    {task : Task} {pe pe' : Pe}
    {done : Bool} (hrun : X.Runs me task pe done pe') (hfit : task.Fit X me pe)
    (h : Sim X g me w task.hand pe) : Sim X g me w (task.left done) pe' := by
  have hN : Machine.Kept X me Call.Proper (BcastOk X) (NumberInv X g me) :=
    numberInv_kept hX (by omega)
  have hreturned :
    ∀ {cid : CollectiveIndex} {idx : ChareIndex} {msg : Message} {pe₁ : Pe},
      Sim X g me w [] pe₁ → Sim X g me w [] (pe₁.record (.returned cid idx msg)) :=
    fun h => h.record hN (.returned _ _ _)
  induction hrun with
  | flushEmpty => exact h
  | flushFront hcol hfront hrun₁ hrun₂ ih₁ ih₂ =>
    exact ih₂ trivial (h.flushed hN hcol hfront hrun₁ hrun₂ ih₁)
  | flushStop _ _ hattempt _ =>
    cases hattempt with
    | absent => exact h.record hN (.tried _)
  | @construct pe pe₁ pe₂ cid msg col hcol hctor hhome _ _ ih₁ ih₂ =>
    have hmade := (h.record hN (.tried msg)).construct hN hfit.1 hcol hctor hhome
    exact (ih₂ trivial (hreturned (ih₁ (hX me _ _) hmade))).record hN (.flushed _ _)
  | absent => exact h.record hN (.tried _)
  | forward => exact (h.record hN (.tried _)).push hN hfit.1 _
  | present hcol hctor _ _ ih =>
    obtain ⟨hok, hcid, hkind, hne⟩ := hfit
    refine ih ⟨hok, hcid, hkind, hne, rfl, fun col' hcol' => ?_⟩ (h.record hN (.tried _))
    obtain rfl := Option.some.inj (hcol.symm.trans hcol')
    exact hctor
  | inOrder hcol hch hb horder hup _ _ ih₁ ih₂ =>
    obtain ⟨hok, hcid, hkind, _, rfl, hctor⟩ := hfit
    have hbody := ih₁ (hX me _ _)
      (h.accept hN hme hok hkind hcid hcol (hctor _ hcol) hch hb horder hup)
    exact ih₂ trivial (hreturned hbody)
  | outOfOrder hcol _ hb _ =>
    obtain ⟨hok, hcid, hkind, hne, _⟩ := hfit
    exact h.buffer hN hok hcol hcid hkind (hok.entry hb) hne
  | plain _ _ hb _ ih => exact hreturned (ih (hX me _ _) (h.plain hb _))
  | callsNil => exact h
  | callsCons _ _ ih₁ ih₂ =>
    exact ih₂ (fun c hc => hfit c (List.mem_cons_of_mem _ hc))
      (ih₁ (hfit _ List.mem_cons_self) h)
  | callInsert _ ih =>
    obtain ⟨hok, hinv⟩ := hN.insert _ _ _ _ hfit h.inv
    exact ih ⟨hok, rfl⟩ (h.issue hinv)
  | callSend _ ih | callCmkSend _ ih =>
    obtain ⟨hok, hinv⟩ := hN.send _ _ _ _ (Or.inl trivial) h.inv
    exact ih ⟨hok, rfl⟩ (h.issue hinv)
  | callCollective => exact h.collective hN _
  | callGroup => exact h.group hN (by omega) _ _
  | endpointAbsent => exact (h.record hN (.handled _)).bufferCollective hN hfit.1 hfit.2
  | endpointNow _ _ ih => exact ih ⟨hfit.1, rfl, hfit.2⟩ (h.record hN (.handled _))
  | endpointLater => exact h.push hN hfit.1 _
  | nowRootAbsent => exact h.push hN hfit.1 _
  | nowRootNext hcol hbcast hroot hsome hlast hup _ _ ih₁ ih₂ =>
    obtain ⟨hok, hcid, hkind⟩ := hfit
    have hbody := ih₁ (hX me _ _)
      (h.root hN hme hok hkind hcid hcol hbcast hroot hsome hlast hup)
    exact ih₂ trivial (hreturned hbody)
  | nowRootWrapped hcol hbcast hroot hsome hlast _ ih =>
    obtain ⟨hok, hcid, hkind⟩ := hfit
    exact hreturned
      (ih (hX me _ _) (h.wrapped hN hme hok hkind hcid hcol hbcast hroot hsome hlast))
  | nowDone _ hne _ ih => exact ih ⟨hfit.1, hfit.2.1, hfit.2.2, hne⟩ h
  | nowBuffer _ hne hattempt ih =>
    obtain ⟨hok, hcid, hkind⟩ := hfit
    have hleft := ih ⟨hok, hcid, hkind, hne⟩ h
    cases hattempt with
    | absent hcol hctor _ _ => exact hleft.buffer hN hok hcol hcid hkind hctor hne
  | drainNil => exact h
  | drainCons hfront _ _ ih₁ ih₂ =>
    obtain ⟨hcid, hkind⟩ :=
      h.placed.waiting _ _ (by rw [hfront]; exact List.mem_cons_self)
    have hok := h.inv.all.waiting _ _ (by rw [hfront]; exact List.mem_cons_self)
    exact ih₂ trivial (ih₁ ⟨hok, hcid, hkind⟩ (h.take hN hfront))

end Runs

end CharmExperiments.Charmlite
