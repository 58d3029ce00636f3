import CharmExperiments.Charmlite.System

/-!
# The moments inside a handler

`Into` is one function calling another, with the state at the call; a PE visits
the tasks it gets to so from the start of a handler. A claim about what a
function does wherever it is called, in the middle of other handlers included,
is a claim about what is visited. What all that is done on the way keeps
(`Kept`) holds at every such moment (`visits_kept`).
-/

namespace CharmExperiments.Charmlite

open CharmExperiments.Lib

namespace Machine

/-- The function of the first task calls that of the second: the premises of `Runs`. -/
inductive Into (X : Machine) (me : Nat) : Task × Pe → Task × Pe → Prop
  | flushFront {pe : Pe} {cid : CollectiveIndex} {idx : ChareIndex} {col : Collective}
      {msg : Message} {rest : List Message} :
      pe.collectiveTable cid = some col → col.buffers idx = msg :: rest →
      Into X me (.flush cid idx, pe) (.attempt cid msg, pe)
  | flushRest {pe pe₁ : Pe} {cid : CollectiveIndex} {idx : ChareIndex} {col : Collective}
      {msg : Message} {rest : List Message} :
      pe.collectiveTable cid = some col → col.buffers idx = msg :: rest →
      X.Runs me (.attempt cid msg) pe true pe₁ →
      Into X me (.flush cid idx, pe) (.flush cid idx, pe₁.modify cid (·.popFront idx))
  | constructBody {pe : Pe} {cid : CollectiveIndex} {msg : Message} {col : Collective} :
      pe.collectiveTable cid = some col → msg.entry.isConstructor = true →
      X.peFor col.mapper msg.chare = me →
      Into X me (.attempt cid msg, pe)
        (.calls (X.bodyOf me cid msg.chare msg
            ((pe.record (.tried msg)).modify cid (·.emplace msg.chare))),
          ((pe.record (.tried msg)).modify cid (·.emplace msg.chare)).record
            (.invoked cid msg.chare msg))
  | constructFlush {pe pe₁ : Pe} {cid : CollectiveIndex} {msg : Message}
    {col : Collective} :
      pe.collectiveTable cid = some col → msg.entry.isConstructor = true →
      X.peFor col.mapper msg.chare = me →
      X.Runs me (.calls (X.bodyOf me cid msg.chare msg
          ((pe.record (.tried msg)).modify cid (·.emplace msg.chare))))
        (((pe.record (.tried msg)).modify cid (·.emplace msg.chare)).record
          (.invoked cid msg.chare msg)) true pe₁ →
      Into X me (.attempt cid msg, pe)
        (.flush cid (X.indexAfterOf me cid msg.chare msg
            ((pe.record (.tried msg)).modify cid (·.emplace msg.chare))),
          pe₁.record (.returned cid msg.chare msg))
  | present {pe : Pe} {cid : CollectiveIndex} {msg : Message} {col : Collective}
    {ch : Chare} :
      pe.collectiveTable cid = some col →
      ¬ (msg.entry.isConstructor = true ∧ X.peFor col.mapper msg.chare = me) →
      col.chares msg.chare = some ch →
      Into X me (.attempt cid msg, pe) (.handle cid msg.chare msg, pe.record (.tried msg))
  | inOrderBody {pe : Pe} {cid : CollectiveIndex} {idx : ChareIndex} {msg : Message}
      {col : Collective} {ch : Chare} {children : List ChareIndex} :
      pe.collectiveTable cid = some col → col.chares idx = some ch →
      msg.isBroadcast = true → msg.bcast.toNat = ch.lastBcast.toNat + 1 →
      X.upstream me col.mapper idx = .ok children →
      Into X me (.handle cid idx msg, pe)
        (.calls (X.bodyOf me cid idx msg
            (X.sendCopies col msg children (pe.modify cid (·.advance idx)))),
          (X.sendCopies col msg children (pe.modify cid (·.advance idx))).record
            (.invoked cid idx msg))
  | inOrderFlush {pe pe₁ : Pe} {cid : CollectiveIndex} {idx : ChareIndex} {msg : Message}
      {col : Collective} {ch : Chare} {children : List ChareIndex} :
      pe.collectiveTable cid = some col → col.chares idx = some ch →
      msg.isBroadcast = true → msg.bcast.toNat = ch.lastBcast.toNat + 1 →
      X.upstream me col.mapper idx = .ok children →
      X.Runs me (.calls (X.bodyOf me cid idx msg
          (X.sendCopies col msg children (pe.modify cid (·.advance idx)))))
        ((X.sendCopies col msg children (pe.modify cid (·.advance idx))).record
          (.invoked cid idx msg)) true pe₁ →
      Into X me (.handle cid idx msg, pe)
        (.flush cid idx, pe₁.record (.returned cid idx msg))
  | plainBody {pe : Pe} {cid : CollectiveIndex} {idx : ChareIndex} {msg : Message}
      {col : Collective} {ch : Chare} :
      pe.collectiveTable cid = some col → col.chares idx = some ch →
        msg.isBroadcast = false →
      Into X me (.handle cid idx msg, pe)
        (.calls (X.bodyOf me cid idx msg pe), pe.record (.invoked cid idx msg))
  | callsHead {pe : Pe} {c : Call} {cs : List Call} :
      Into X me (.calls (c :: cs), pe) (.call c, pe)
  | callsTail {pe pe₁ : Pe} {c : Call} {cs : List Call} :
      X.Runs me (.call c) pe true pe₁ → Into X me (.calls (c :: cs), pe) (.calls cs, pe₁)
  | callInsert {pe : Pe} {cid : CollectiveIndex} {idx : ChareIndex} {constructor : Nat} :
      Into X me (.call (.insert cid idx constructor), pe)
        (.endpoint true (newMessage me pe cid idx ⟨constructor, true⟩),
          issue pe (newMessage me pe cid idx ⟨constructor, true⟩))
  | callSend {pe : Pe} {cid : CollectiveIndex} {idx : ChareIndex} {entry : Nat} :
      Into X me (.call (.send cid idx entry), pe)
        (.endpoint true (newMessage me pe cid idx ⟨entry, false⟩),
          issue pe (newMessage me pe cid idx ⟨entry, false⟩))
  | callCmkSend {pe : Pe} {cid : CollectiveIndex} {idx : ChareIndex} {entry : Nat} :
      Into X me (.call (.cmkSend cid idx entry), pe)
        (.endpoint false (newMessage me pe cid idx ⟨entry, false⟩),
          issue pe (newMessage me pe cid idx ⟨entry, false⟩))
  | endpointNow {pe : Pe} {msg : Message} {col : Collective} :
      pe.collectiveTable msg.collective = some col →
      Into X me (.endpoint true msg, pe)
        (.now msg.collective msg, pe.record (.handled msg))
  | rootNextBody {pe : Pe} {cid : CollectiveIndex} {msg : Message} {col : Collective}
      {root : ChareIndex} {obj : Chare} {children : List ChareIndex} :
      pe.collectiveTable cid = some col → msg.chare = chareBcastRoot →
      Machine.root col.mapper = .ok root → col.chares root = some obj →
      obj.lastBcast.toNat + 1 < 2 ^ 16 → X.upstream me col.mapper root = .ok children →
      Into X me (.now cid msg, pe)
        (.calls (X.bodyOf me cid root (msg.numbered root obj.lastBcast)
            (X.rootSends col root obj msg children cid pe)),
          (X.rootSends col root obj msg children cid pe).record
            (.invoked cid root (msg.numbered root obj.lastBcast)))
  | rootNextFlush {pe pe₁ : Pe} {cid : CollectiveIndex} {msg : Message} {col : Collective}
      {root : ChareIndex} {obj : Chare} {children : List ChareIndex} :
      pe.collectiveTable cid = some col → msg.chare = chareBcastRoot →
      Machine.root col.mapper = .ok root → col.chares root = some obj →
      obj.lastBcast.toNat + 1 < 2 ^ 16 → X.upstream me col.mapper root = .ok children →
      X.Runs me (.calls (X.bodyOf me cid root (msg.numbered root obj.lastBcast)
          (X.rootSends col root obj msg children cid pe)))
        ((X.rootSends col root obj msg children cid pe).record
          (.invoked cid root (msg.numbered root obj.lastBcast))) true pe₁ →
      Into X me (.now cid msg, pe)
        (.flush cid root, pe₁.record
          (.returned cid root (msg.numbered root obj.lastBcast)))
  | rootWrappedBody {pe : Pe} {cid : CollectiveIndex} {msg : Message} {col : Collective}
      {root : ChareIndex} {obj : Chare} :
      pe.collectiveTable cid = some col → msg.chare = chareBcastRoot →
      Machine.root col.mapper = .ok root → col.chares root = some obj →
      obj.lastBcast.toNat + 1 = 2 ^ 16 →
      Into X me (.now cid msg, pe)
        (.calls (X.bodyOf me cid root (msg.numbered root obj.lastBcast)
            (pe.record (.rooted cid (msg.numbered root obj.lastBcast)))),
          (pe.record (.rooted cid (msg.numbered root obj.lastBcast))).record
            (.invoked cid root (msg.numbered root obj.lastBcast)))
  | nowAttempt {pe : Pe} {cid : CollectiveIndex} {msg : Message} {col : Collective} :
      pe.collectiveTable cid = some col → msg.chare ≠ chareBcastRoot →
      Into X me (.now cid msg, pe) (.attempt cid msg, pe)
  | drainFront {pe : Pe} {cid : CollectiveIndex} {msg : Message} {rest : List Message} :
      pe.collectiveBuffer cid = msg :: rest →
      Into X me (.drain cid, pe)
        (.now cid msg,
          { pe with collectiveBuffer := Function.update pe.collectiveBuffer cid rest })
  | drainRest {pe pe₁ : Pe} {cid : CollectiveIndex} {msg : Message} {rest : List Message} :
      pe.collectiveBuffer cid = msg :: rest →
      X.Runs me (.now cid msg)
        { pe with collectiveBuffer := Function.update pe.collectiveBuffer cid rest } true pe₁ →
      Into X me (.drain cid, pe) (.drain cid, pe₁)

variable {X : Machine} {me : Nat} {A : Call → Prop} {Q : Message → Prop} {I : Pe → Prop}

/-- What is kept holds where a function is called, and it is given what it may be given. -/
theorem Into.kept (hK : Kept X me A Q I) {t t' : Task × Pe} (h : X.Into me t t')
    (hg : X.Given me A Q t.2 t.1) (hI : I t.2) : X.Given me A Q t'.2 t'.1 ∧ I t'.2 := by
  have hrecord := fun pe e (he : Event.Passing e) (h : I pe) => hK.record pe e he h
  cases h with
  | @flushFront pe cid idx col msg rest hcol hfront =>
    exact ⟨hK.stored _ hI cid col hcol idx msg (by rw [hfront]; exact List.mem_cons_self),
      hI⟩
  | @flushRest pe pe₁ cid idx col msg rest hcol hfront hrun =>
    have hQ := hK.stored _ hI cid col hcol idx msg
      (by rw [hfront]; exact List.mem_cons_self)
    exact ⟨trivial, hK.popFront _ _ _ (hrun.kept hK hQ hI)⟩
  | @constructBody pe cid msg col hcol hctor hhome =>
    exact ⟨hK.bodies _ _,
      hK.construct _ cid msg col hcol hctor hhome hg (hrecord _ _ (.tried msg) hI)⟩
  | @constructFlush pe pe₁ cid msg col hcol hctor hhome hrun =>
    have hbody := hrun.kept hK (hK.bodies _ _)
      (hK.construct _ cid msg col hcol hctor hhome hg (hrecord _ _ (.tried msg) hI))
    exact ⟨trivial, hrecord _ _ (.returned _ _ _) hbody⟩
  | present hcol hctor _ =>
    refine ⟨⟨hg, rfl, fun col' hcol' => ?_⟩, hrecord _ _ (.tried _) hI⟩
    obtain rfl := Option.some.inj (hcol.symm.trans hcol')
    exact hctor
  | inOrderBody hcol hch hb horder hup =>
    obtain ⟨hQ, rfl, hctor⟩ := hg
    exact ⟨hK.bodies _ _,
      hK.accept _ _ _ _ _ _ hcol (hctor _ hcol) hch hb horder hup hQ hI⟩
  | inOrderFlush hcol hch hb horder hup hrun =>
    obtain ⟨hQ, rfl, hctor⟩ := hg
    have hbody := hrun.kept hK (hK.bodies _ _)
      (hK.accept _ _ _ _ _ _ hcol (hctor _ hcol) hch hb horder hup hQ hI)
    exact ⟨trivial, hrecord _ _ (.returned _ _ _) hbody⟩
  | plainBody hcol hch hb =>
    obtain ⟨hQ, rfl, hctor⟩ := hg
    exact ⟨hK.bodies _ _, hK.plain _ _ _ _ _ hcol (hctor _ hcol) hch hb hQ hI⟩
  | callsHead => exact ⟨hg _ List.mem_cons_self, hI⟩
  | callsTail hrun =>
    exact ⟨fun c hc => hg c (List.mem_cons_of_mem _ hc),
      hrun.kept hK (hg _ List.mem_cons_self) hI⟩
  | callInsert => exact hK.insert _ _ _ _ hg hI
  | callSend => exact hK.send _ _ _ _ (Or.inl hg) hI
  | callCmkSend => exact hK.send _ _ _ _ (Or.inr hg) hI
  | endpointNow => exact ⟨hg, hrecord _ _ (.handled _) hI⟩
  | rootNextBody hcol hbcast hroot hsome hlt hup =>
    exact ⟨hK.bodies _ _, hK.rootNext _ _ _ _ _ _ _ hcol hbcast hroot hsome hlt hup hg hI⟩
  | rootNextFlush hcol hbcast hroot hsome hlt hup hrun =>
    have hbody := hrun.kept hK (hK.bodies _ _)
      (hK.rootNext _ _ _ _ _ _ _ hcol hbcast hroot hsome hlt hup hg hI)
    exact ⟨trivial, hrecord _ _ (.returned _ _ _) hbody⟩
  | rootWrappedBody hcol hbcast hroot hsome hlt =>
    exact ⟨hK.bodies _ _, hK.rootWrapped _ _ _ _ _ _ hcol hbcast hroot hsome hlt hg hI⟩
  | nowAttempt => exact ⟨hg, hI⟩
  | @drainFront pe cid msg rest hfront =>
    exact ⟨hK.waiting _ hI cid msg (by rw [hfront]; exact List.mem_cons_self),
      hK.take _ _ _ _ hfront hI⟩
  | @drainRest pe pe₁ cid msg rest hfront hrun =>
    have hQ := hK.waiting _ hI cid msg (by rw [hfront]; exact List.mem_cons_self)
    exact ⟨trivial, hrun.kept hK hQ (hK.take _ _ _ _ hfront hI)⟩

end Machine

/-! ## From the start of a handler -/

/-- The calls of a program are all in `A`. -/
def System.Action.Within (A : Call → Prop) : System.Action → Prop
  | .call _ _ c => A c
  | .deliver _ _ => True

/-- Where PE `p` starts, in a state of the system. -/
inductive System.Starts (X : Machine) (A : Call → Prop) (s : System) (p : Nat) :
    Task × Pe → Prop
  | call {c : Call} : A c → Starts X A s p (.call c, s.pes p)
  | create {msg : Message} : (p, msg) ∈ s.net → msg.collectiveKind = true →
      (s.pes p).collectiveTable msg.collective = none →
      Starts X A s p (.drain msg.collective, X.create msg (s.pes p))
  | deliver {msg : Message} : (p, msg) ∈ s.net → msg.collectiveKind = false →
      Starts X A s p (.endpoint true msg, s.pes p)

/-- In a step from `s` PE `p` gets to call the function of `task`, in state `pe`. -/
def System.Visits (X : Machine) (A : Call → Prop) (s : System) (p : Nat) (task : Task)
    (pe : Pe) : Prop :=
  ∃ t, s.Starts X A p t ∧ Relation.ReflTransGen (X.Into p) t (task, pe)

/-- Some run gets PE `p` to call the function of `task`, in state `pe`. -/
def Machine.Gets (X : Machine) (A : Call → Prop) (p : Nat) (task : Task) (pe : Pe) : Prop :=
  ∃ s, X.system.Reachable (fun _ a => a.Within A) s ∧ s.Visits X A p task pe

/-- An invariant of every PE, with a property of all messages. -/
structure SystemKept (X : Machine) (A : Call → Prop) (Q : Message → Prop)
    (I : Nat → Pe → Prop) : Prop where
  kept : ∀ p, p < X.numPes → Machine.Kept X p A Q (I p)
  init : ∀ p, p < X.numPes → I p .init
  sent : ∀ p pe, I p pe → ∀ r ∈ pe.sent, Q r.2
  settle : ∀ p pe, I p pe → I p { pe with sent := [] }
  create : ∀ p pe msg, msg.collectiveKind = true →
    pe.collectiveTable msg.collective = none →
    Q msg → I p pe → I p (X.create msg pe)

section SystemKept

variable {X : Machine} {A : Call → Prop} {Q : Message → Prop} {I : Nat → Pe → Prop}
  {s s' : System} {p : Nat}

/-- Every PE and every message between handler runs. -/
structure System.Holds (X : Machine) (Q : Message → Prop) (I : Nat → Pe → Prop)
    (s : System) : Prop where
  pes : ∀ p, p < X.numPes → I p (s.pes p)
  net : ∀ r ∈ s.net, Q r.2

theorem System.Holds.settle (hK : SystemKept X A Q I) (h : s.Holds X Q I) {pe : Pe}
    (hpe : I p pe) : (s.settle p pe).Holds X Q I where
  pes := by
    intro q hq
    by_cases hqp : q = p
    · subst hqp
      show I q (Function.update s.pes q _ q)
      rw [Function.update_self]
      exact hK.settle q pe hpe
    · show I q (Function.update s.pes p _ q)
      rw [Function.update_of_ne hqp]
      exact h.pes q hq
  net := by
    intro r hr
    rcases List.mem_append.mp hr with hold | hnew
    · exact h.net r hold
    · exact hK.sent p pe hpe r hnew

theorem starts_kept (hK : SystemKept X A Q I) (h : s.Holds X Q I) (hp : p < X.numPes)
    {t : Task × Pe} (ht : s.Starts X A p t) : X.Given p A Q t.2 t.1 ∧ I p t.2 := by
  cases ht with
  | call hc => exact ⟨hc, h.pes p hp⟩
  | create hmem hkind hnone =>
    exact ⟨trivial, hK.create p _ _ hkind hnone (h.net _ hmem) (h.pes p hp)⟩
  | deliver hmem _ => exact ⟨h.net _ hmem, h.pes p hp⟩

theorem step_kept (hK : SystemKept X A Q I) (h : s.Holds X Q I) {a : System.Action}
    (ha : a.Within A) (hs : s.step X a = some s') : s'.Holds X Q I := by
  rcases System.step_cases hs with ⟨p, fuel, c, pe, rfl, hp, hrun, rfl⟩ |
    ⟨j, fuel, p, msg, pe, rfl, hj, hp, hrun, rfl⟩
  · exact h.settle hK (hrun.kept (hK.kept p hp) ha (h.pes p hp))
  · have hmem := List.mem_of_getElem? hj
    have htake : (s.take j).Holds X Q I :=
      ⟨h.pes, fun r hr => h.net r (List.mem_of_mem_eraseIdx hr)⟩
    unfold Machine.Delivers at hrun
    split at hrun
    next hkind =>
      obtain ⟨hg, hI⟩ := starts_kept hK h hp (.create hmem hkind hrun.1)
      exact htake.settle hK (hrun.2.kept (hK.kept p hp) hg hI)
    next hkind =>
      obtain ⟨hg, hI⟩ := starts_kept hK h hp (.deliver hmem (Bool.eq_false_iff.mpr hkind))
      exact htake.settle hK (hrun.kept (hK.kept p hp) hg hI)

theorem reachable_kept (hK : SystemKept X A Q I)
    (h : X.system.Reachable (fun _ a => a.Within A) s) : s.Holds X Q I := by
  refine h.invariant ?_ ?_
  · rintro _ rfl
    exact ⟨hK.init, fun r hr => by cases hr⟩
  · intro s a s' hi ha hs
    exact step_kept hK hi ha hs

/-- What is kept holds at every moment of every run. -/
theorem gets_kept (hK : SystemKept X A Q I) (hp : p < X.numPes) {task : Task} {pe : Pe}
    (h : X.Gets A p task pe) : X.Given p A Q pe task ∧ I p pe := by
  obtain ⟨s, hreach, t, hstart, hinto⟩ := h
  have hholds := reachable_kept hK hreach
  have hrun : ∀ t', Relation.ReflTransGen (X.Into p) t t' →
      X.Given p A Q t'.2 t'.1 ∧ I p t'.2 := by
    intro t' ht'
    induction ht' with
    | refl => exact starts_kept hK hholds hp hstart
    | tail _ hstep ih => exact hstep.kept (hK.kept p hp) ih.1 ih.2
  exact hrun (task, pe) hinto

end SystemKept

end CharmExperiments.Charmlite
