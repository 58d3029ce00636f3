import CharmExperiments.Comex.Outbox

/-!
# The order of the values at an output

In an acyclic wiring no call comes back to a component that is in one: the calls
in progress follow the wires (`linked_step`). So the values of an output are
relayed in the order they were produced, and all of them once it is connected
(`relayed_in_order`), provided that no output is connected while the component is
inactive and values wait for it: `output_to` then leaves them in the buffer, and
later ones overtake them (`stranded_overtaken`).
-/

namespace CharmExperiments.Comex

open CharmExperiments.Lib

variable {σ V : Type}

/-- An output of `c` is connected to `d`. -/
def Network.Wired (n : Network σ V) (c d : Nat) : Prop :=
  ∃ port peerPort, (n.components c).connectors port = .kWire d peerPort

/-- No component is wired to itself, directly or through others. -/
def Network.Acyclic (n : Network σ V) : Prop := ∀ c, ¬ Relation.TransGen n.Wired c c

/-- The component of a call in progress is reached by wires from that of a call
below it; over at least one wire if it is yet to be entered. -/
def Pending.Over (wired : Nat → Nat → Prop) : Pending V → Pending V → Prop
  | .call d _ _, g => Relation.TransGen wired g.com d
  | .frame d _, g => Relation.ReflTransGen wired g.com d

/-- The calls in progress follow the wires. -/
def Network.Linked (n : Network σ V) : Prop := n.stack.Pairwise (Pending.Over n.Wired)

section Linked

variable {K : Nat → Class σ V} {typeOf : V → Option String}
  {n n' : Network σ V} {a : Act V}

/-- Only `output_to` changes a connection. -/
theorem move_connectors {K : Class σ V} {l l' : Local σ V} {t : Turn V}
    (h : Move K l t l') (ht : ∀ port peer peerPort, t ≠ .outputTo port peer peerPort) :
    l'.com.connectors = l.com.connectors := by
  cases h with
  | connect _ => exact absurd rfl (ht _ _ _)
  | connectFlush _ _ => exact absurd rfl (ht _ _ _)
  | _ => rfl

/-- A relay goes along a wire. -/
theorem resume_relay {K : Class σ V} {c c' : Component σ V} {f : Frame V}
    {fs : List (Frame V)}
    {r : Relay V} (h : c.resume K f = .ok (c', fs, some r)) :
    ∃ port, c.connectors port = .kWire r.com r.port := by
  -- only an output that finds its wire, staged or flushed, is relayed
  cases f with
  | staging search outs =>
    cases outs with
    | nil =>
      cases search with
      | none => cases h
      | some it =>
        unfold Component.resume at h
        dsimp only at h
        split at h <;> cases h
    | cons out outs =>
      unfold Component.resume at h
      dsimp only at h
      split at h
      next hcon =>
        cases h
        exact ⟨_, hcon⟩
      next => cases h
  | activating =>
    unfold Component.resume at h
    dsimp only at h
    split at h
    next => split at h <;> cases h
    next => cases h
  | flushing port relayed =>
    cases relayed with
    | true => cases h
    | false =>
      unfold Component.resume at h
      dsimp only at h
      split at h
      next => cases h
      next =>
        split at h
        next => cases h
        next hcon =>
          cases h
          exact ⟨_, hcon⟩

/-- A component that changed, but not its connections, leaves the wiring as it was. -/
theorem wired_put {d : Nat} {c : Component σ V} {fs : List (Frame V)}
    {r : Option (Relay V)}
    {rest : List (Pending V)} (hcon : c.connectors = (n.components d).connectors) :
    (n.put d c fs r rest).Wired = n.Wired := by
  funext x y
  have hsame : ((n.put d c fs r rest).components x).connectors =
      (n.components x).connectors := by
    show (Function.update n.components d c x).connectors = _
    by_cases hx : x = d
    · rw [hx, Function.update_self, hcon]
    · rw [Function.update_of_ne hx]
  rw [Network.Wired, Network.Wired, hsame]

/-- The frames of one component are over each other. -/
theorem frames_over (wired : Nat → Nat → Prop) (d : Nat) (fs : List (Frame V)) :
    (fs.map (Pending.frame d)).Pairwise (Pending.Over wired) := by
  refine List.pairwise_map.mpr (List.pairwise_of_forall fun _ _ => ?_)
  exact Relation.ReflTransGen.refl

/-- What is put on the stack goes on from what is taken off it. -/
theorem linked_put {d : Nat} {c : Component σ V} {fs : List (Frame V)}
    {r : Option (Relay V)}
    {rest : List (Pending V)} (hcon : c.connectors = (n.components d).connectors)
    (hrest : rest.Pairwise (Pending.Over n.Wired))
    (hbelow : ∀ g ∈ rest, Relation.ReflTransGen n.Wired g.com d)
    (hr : ∀ r', r = some r' → n.Wired d r'.com) : (n.put d c fs r rest).Linked := by
  have hframes : (fs.map (.frame d) ++ rest : List (Pending V)).Pairwise
      (Pending.Over n.Wired) := by
    refine List.pairwise_append.mpr ⟨frames_over _ d fs, hrest, ?_⟩
    · intro f hf g hg
      obtain ⟨_, _, rfl⟩ := List.mem_map.mp hf
      exact hbelow g hg
  show List.Pairwise (Pending.Over (n.put d c fs r rest).Wired) _
  rw [wired_put hcon]
  cases r with
  | none => exact hframes
  | some r =>
    refine List.pairwise_cons.mpr ⟨fun g hg => ?_, hframes⟩
    show Relation.TransGen n.Wired g.com r.com
    rcases List.mem_append.mp hg with hg | hg
    · obtain ⟨_, _, rfl⟩ := List.mem_map.mp hg
      exact .single (hr r rfl)
    · exact Relation.TransGen.tail' (hbelow g hg) (hr r rfl)

theorem linked_step (hn : n.Linked) (h : n.step K typeOf a = some n') : n'.Linked := by
  unfold Network.step at h
  split at h
  next hstack =>
    -- from outside, on an empty stack: the frames are all of one component
    have hcases : ∀ com (c : Component σ V) (fs : List (Frame V)),
        (n.put com c fs none []).Linked := by
      intro com c fs
      show List.Pairwise _ (fs.map (Pending.frame com) ++ [])
      rw [List.append_nil]
      exact frames_over _ com fs
    cases a with
    | accept com port val =>
      obtain rfl := Option.some.inj h
      exact List.pairwise_singleton _ _
    | activate com =>
      obtain ⟨⟨c, fs⟩, _, h⟩ := Network.bind_toOption h
      obtain rfl := Option.some.inj h
      exact hcases com c fs
    | outputTo com port peer peerPort =>
      obtain ⟨⟨c, fs⟩, _, h⟩ := Network.bind_toOption h
      obtain rfl := Option.some.inj h
      exact hcases com c fs
    | proceed =>
      obtain rfl := Option.some.inj h
      exact hn
  next top rest hstack =>
    have hpairs : (top :: rest).Pairwise (Pending.Over n.Wired) := hstack ▸ hn
    obtain ⟨htop, hrest⟩ := List.pairwise_cons.mp hpairs
    split at h
    next =>
      cases top with
      | call d port val =>
        obtain ⟨⟨c, fs⟩, hc, h⟩ := Network.bind_toOption h
        obtain rfl := Option.some.inj h
        have hstep : Local.step (K d) typeOf d ⟨n.components d, []⟩ (.accept port val) =
            some ⟨c, fs ++ []⟩ := by
          rw [Local.step, hc]
          rfl
        exact linked_put
          (move_connectors (step_move hstep) fun _ _ _ ht => by cases ht) hrest
          (fun g hg => (htop g hg).to_reflTransGen) fun _ hr => by cases hr
      | frame d f =>
        obtain ⟨⟨c, fs, r⟩, hc, h⟩ := Network.bind_toOption h
        obtain rfl := Option.some.inj h
        refine linked_put ?_ hrest htop fun r' hr => ?_
        · have hmove := @resume_move _ _ _ _ _ _ [] _ _ hc
          exact move_connectors hmove (fun _ _ _ ht => by cases ht)
        · subst hr
          -- the call goes along a wire of the component below it
          obtain ⟨port, hwire⟩ := resume_relay hc
          exact ⟨port, _, hwire⟩
    next => cases h

end Linked


/-- No output is connected while its component is inactive and values wait for it. -/
def Flushes (n : Network σ V) : Act V → Prop
  | .outputTo com port _ _ =>
    (n.components com).active = false → (n.components com).buffer port = []
  | _ => True

/-- The wiring is acyclic, and no output is connected too late. -/
def InTime (n : Network σ V) (a : Act V) : Prop := n.Acyclic ∧ Flushes n a

/-- A call of `accept` comes when no member function of the component is in
progress, and outputs are connected in time. -/
def InTurn (l : Local σ V) : Turn V → Prop
  | .accept _ _ => l.frames = []
  | .outputTo port _ _ => l.com.active = false → l.com.buffer port = []
  | _ => True

section Order

variable {K : Class σ V} {l l' : Local σ V} {t : Turn V}

/-- The values of an output are relayed in order, and wait only while it is not
connected. -/
structure Ordered (l : Local σ V) : Prop where
  flush : FlushReady l
  shallow : ∀ f ∈ l.frames.tail, f = .activating
  balance : ∀ port, on port l.com.produced =
    on port l.com.relayed ++ (waiting l port ++ pending port l.frames)
  clear : ∀ port, (l.com.connectors port).ready = true →
    (∀ f ∈ l.frames, f.flushes port = false) → l.com.buffer port = []

/-- Calls are not nested within a component. -/
theorem shallow_move (hn : Nested l.frames) (hi : ∀ f ∈ l.frames.tail, f = .activating)
    (hc : InTurn l t) (h : Move K l t l') : ∀ f ∈ l'.frames.tail, f = .activating := by
  cases h with
  | @direct c fs | @complete c fs =>
    intro f (hf : f ∈ fs)
    rw [show fs = [] from hc] at hf
    cases hf
  | buffered _ _ _ | fresh _ _ _ | fill _ _ _ _ | relay _ | hold _ => exact hi
  | activate _ | connect _ | connectFlush _ _ => exact fun _ hf => by cases hf
  | staged | erased _ | exit _ | flushed _ => exact fun f hf => hi f (List.mem_of_mem_tail hf)
  | loop _ _ =>
    obtain rfl := hn.activating_last
    exact fun f hf => List.mem_singleton.mp hf
  | flush _ _ | pop => exact hi

theorem no_flush_cons {f : Frame V} {fs : List (Frame V)} {port : Nat}
    (hf : f.flushes port = false) (h : ∀ g ∈ fs, g.flushes port = false) :
    ∀ g ∈ f :: fs, g.flushes port = false := by
  intro g hg
  rcases List.mem_cons.mp hg with rfl | hg
  · exact hf
  · exact h g hg

theorem no_flush_tail {f : Frame V} {fs : List (Frame V)} {port : Nat}
    (h : ∀ g ∈ f :: fs, g.flushes port = false) : ∀ g ∈ fs, g.flushes port = false :=
  fun g hg => h g (List.mem_cons_of_mem f hg)

/-- An output that is connected has nothing waiting for it, once it is flushed. -/
theorem clear_move (hn : Nested l.frames) (hi : Ordered l) (hc : InTurn l t)
    (h : Move K l t l') :
    ∀ port, (l'.com.connectors port).ready = true →
      (∀ f ∈ l'.frames, f.flushes port = false) → l'.com.buffer port = [] := by
  cases h with
  | buffered _ _ _ | fresh _ _ _ | fill _ _ _ _ => exact hi.clear
  | activate _ => exact fun port hready _ => hi.clear port hready fun _ hf => by cases hf
  | direct _ _ _ | complete _ _ _ _ _ | loop _ _ =>
    exact fun port hready hf => hi.clear port hready fun f hmem =>
      hf f (List.mem_cons_of_mem _ hmem)
  | @connect c q peer peerPort hactive =>
    intro port hready _
    by_cases hq : port = q
    · rw [hq]
      -- in turn: while offline a port is connected only when nothing is held for it
      exact hc hactive
    · refine hi.clear port ?_ fun _ hf => by cases hf
      rw [← hready]
      exact (congrArg Connector.ready (Function.update_of_ne hq _ _)).symm
  | @connectFlush c q peer peerPort _ _ =>
    intro port hready hf
    have hq : port ≠ q := by
      rintro rfl
      -- the port connected is the one that is flushed
      have hflush := hf _ List.mem_cons_self
      rw [Frame.flushes, decide_eq_false_iff_not] at hflush
      exact hflush rfl
    refine hi.clear port ?_ fun _ hf => by cases hf
    rw [← hready]
    exact (congrArg Connector.ready (Function.update_of_ne hq _ _)).symm
  | relay _ =>
    exact fun port hready hf =>
      hi.clear port hready (no_flush_cons rfl (no_flush_tail hf))
  | @hold c fs search q val outs hcon =>
    intro port hready hf
    have hq : port ≠ q := by
      rintro rfl
      -- held is only what finds no wire
      rw [show _ = Connector.kInvalid from hcon] at hready
      cases hready
    show Function.update c.buffer q _ port = []
    rw [Function.update_of_ne hq]
    exact hi.clear port hready (no_flush_cons rfl (no_flush_tail hf))
  | staged | erased _ | exit _ =>
    exact fun port hready hf => hi.clear port hready (no_flush_cons rfl hf)
  | @flushed c fs q hbuf =>
    intro port hready hf
    by_cases hq : q = port
    · exact hq ▸ hbuf
    · exact hi.clear port hready (no_flush_cons (decide_eq_false hq) hf)
  | @flush c fs q val rest com peerPort _ _ | @pop c fs q =>
    intro port hready hf
    have hq : q ≠ port := of_decide_eq_false (hf _ List.mem_cons_self)
    show Function.update c.buffer q _ port = []
    rw [Function.update_of_ne hq.symm]
    exact hi.clear port hready (no_flush_cons (decide_eq_false hq) (no_flush_tail hf))

/-- An output that is connected relays a value with none waiting before it. -/
theorem waiting_nil (hi : Ordered l) {port : Nat}
    (hready : (l.com.connectors port).ready = true)
    (hs : ∃ search outs fs, l.frames = .staging search outs :: fs) :
    waiting l port = [] := by
  obtain ⟨search, outs, fs, hfs⟩ := hs
  have hbuf : l.com.buffer port = [] := by
    refine hi.clear port hready ?_
    rw [hfs]
    refine no_flush_cons rfl fun g hg => ?_
    rw [hi.shallow g (by rw [hfs]; exact hg)]
    rfl
  rw [waiting, hbuf]
  exact ite_self _

theorem balance_move (hn : Nested l.frames) (hi : Ordered l) (hc : InTurn l t)
    (h : Move K l t l') (port : Nat) : on port l'.com.produced =
      on port l'.com.relayed ++ (waiting l' port ++ pending port l'.frames) := by
  show (account l' port).produced =
    (account l' port).relayed ++ ((account l' port).waiting ++ (account l' port).pending)
  have hb := hi.balance port
  cases traffic hn hi.flush h port with
  | same h =>
    rw [h]
    exact hb
  | act outs hidle h =>
    -- in turn: no earlier action still has outputs to send
    have hnil : pending port l.frames = [] := by
      rcases hidle with ⟨q, val, rfl⟩ | hnil
      · rw [show l.frames = [] from hc]
        rfl
      · exact hnil
    rw [h]
    show on port l.com.produced ++ outs =
      on port l.com.relayed ++ (waiting l port ++ (outs ++ pending port l.frames))
    rw [hb, hnil]
    simp only [List.append_nil, List.append_assoc]
  | send val rest hready hs hpending h =>
    rw [h]
    show on port l.com.produced =
      on port l.com.relayed ++ [val] ++ (waiting l port ++ rest)
    rw [hb, hpending, waiting_nil hi hready hs, List.append_assoc]
    rfl
  | hold val rest hpending h =>
    rw [h]
    show on port l.com.produced =
      on port l.com.relayed ++ (waiting l port ++ [val] ++ rest)
    rw [hb, hpending, List.append_assoc (waiting l port)]
    rfl
  | flush val rest hwaiting h =>
    rw [h]
    show on port l.com.produced =
      on port l.com.relayed ++ [val] ++ (rest ++ pending port l.frames)
    rw [hb, hwaiting, List.append_assoc]
    rfl

theorem ordered_move (hn : Nested l.frames) (hi : Ordered l) (hc : InTurn l t)
    (h : Move K l t l') :
    Ordered l' where
  flush := flushReady_move hn hi.flush h
  shallow := shallow_move hn hi.shallow hc h
  balance := balance_move hn hi hc h
  clear := clear_move hn hi hc h

theorem ordered_new : Ordered ⟨.new K, []⟩ where
  flush _ := fun ⟨_, hmem, _⟩ => (by cases hmem)
  shallow _ hf := by cases hf
  balance _ := rfl
  clear _ _ _ := rfl

end Order

/-- What is asked of an output between calls. -/
structure Delivered (c : Component σ V) (port : Nat) : Prop where
  /-- The values relayed are the first of those produced, in their order. -/
  order : on port c.relayed <+: on port c.produced
  /-- They are all of them if the output is connected. -/
  connected : (c.connectors port).ready = true →
    c.buffer port = [] ∧ on port c.relayed = on port c.produced

section InTime

variable {K : Nat → Class σ V} {typeOf : V → Option String} {n : Network σ V}

theorem reachable_linked (h : (system K typeOf).Reachable InTime n) : n.Linked := by
  refine Transition.Reachable.invariant (fun n hn => ?_) (fun n a n' hi _ hs => ?_) h
  · obtain rfl := hn
    exact List.Pairwise.nil
  · exact linked_step hi hs

/-- In an acyclic wiring a component that is called is in no other call. -/
theorem framesOf_call {com port : Nat} {val : Option V} {rest : List (Pending V)}
    (hlinked : n.Linked) (hacyclic : n.Acyclic)
    (hstack : n.stack = .call com port val :: rest) :
    (n.view com).frames = [] := by
  have hpairs : (Pending.call com port val :: rest).Pairwise (Pending.Over n.Wired) :=
    hstack ▸ hlinked
  show Network.framesOf com n.stack = []
  rw [hstack, Network.framesOf, List.filterMap_eq_nil_iff]
  intro g hmem
  rcases List.mem_cons.mp hmem with rfl | hg
  · rfl
  · cases g with
    | call _ _ _ => rfl
    | frame d f =>
      refine if_neg ?_
      rintro rfl
      have hover : Relation.TransGen n.Wired d d := List.rel_of_pairwise_cons hpairs hg
      exact hacyclic d hover

theorem inTime_inTurn {a : Act V} {com : Nat} {t : Turn V}
    (hr : (system K typeOf).Reachable InTime n) (hc : InTime n a)
    (ht : n.turn a = some (com, t)) :
    InTurn (n.view com) t := by
  cases a with
  | accept _ _ _ => cases ht
  | activate _ =>
    cases ht
    trivial
  | outputTo _ _ _ _ =>
    cases ht
    exact hc.2
  | proceed =>
    unfold Network.turn at ht
    dsimp only at ht
    split at ht
    next => cases ht
    next hstack =>
      cases ht
      exact framesOf_call (reachable_linked hr) hc.1 hstack
    next =>
      cases ht
      trivial

end InTime

/-- **The values of an output are relayed in the order they were produced**, and all
of them once it is connected, between the calls of every run with an acyclic wiring
in which outputs are connected in time. -/
theorem relayed_in_order {K : Nat → Class σ V} {typeOf : V → Option String}
    {n : Network σ V}
    (h : (system K typeOf).Reachable InTime n) (hstack : n.stack = []) (com port : Nat) :
    Delivered (n.components com) port := by
  have hlocal : (localSystem (K com) typeOf com).Reachable InTurn (n.view com) :=
    Network.Reachable.view (fun _ _ _ => inTime_inTurn) h
  have hordered := (local_invariant ordered_new
    (fun _ _ _ hn hi hc hm => ordered_move hn hi hc hm) hlocal).2
  have hview : n.view com = ⟨n.components com, []⟩ := by
    rw [Network.view, hstack]
    rfl
  rw [hview] at hordered
  have hbalance : on port (n.components com).produced =
      on port (n.components com).relayed ++ ((n.components com).buffer port ++ []) :=
    hordered.balance port
  refine ⟨⟨_, hbalance.symm⟩, fun hready => ?_⟩
  have hnil : (n.components com).buffer port = [] :=
    hordered.clear port hready fun _ hf => by cases hf
  refine ⟨hnil, ?_⟩
  rw [hbalance, hnil]
  exact (List.append_nil _).symm


/-! ## Components wired to later ones -/

/-- Outputs are connected to components with a higher number, -/
def uphill : Act V → Bool
  | .outputTo com _ peer _ => com < peer
  | _ => true

/-- and in time. -/
def prompt (n : Network σ V) : Act V → Bool
  | .outputTo com port _ _ =>
    (n.components com).active || ((n.components com).buffer port).isEmpty
  | _ => true

section Uphill

variable {K : Nat → Class σ V} {typeOf : V → Option String}
  {n n' : Network σ V} {a : Act V}

/-- A step connects at most the output that it names. -/
theorem wired_step (h : n.step K typeOf a = some n') {c d : Nat} (hw : n'.Wired c d) :
    n.Wired c d ∨ ∃ port peerPort, a = .outputTo c port d peerPort := by
  obtain ⟨q, p, hq⟩ := hw
  rcases Network.step_view h c with ⟨t, hturn, hlocal⟩ | hsame
  · by_cases ht : ∀ port peer peerPort, t ≠ .outputTo port peer peerPort
    · refine Or.inl ⟨q, p, ?_⟩
      rw [← hq]
      exact congrFun (move_connectors (step_move hlocal) ht).symm q
    · push Not at ht
      obtain ⟨port, peer, peerPort, rfl⟩ := ht
      have ha : a = .outputTo c port peer peerPort := by
        cases a with
        | accept _ _ _ => cases hturn
        | activate _ => cases hturn
        | outputTo _ _ _ _ =>
          cases hturn
          rfl
        | proceed =>
          unfold Network.turn at hturn
          dsimp only at hturn
          split at hturn <;> cases hturn
      have hcon : (n'.components c).connectors =
          Function.update (n.components c).connectors port (.kWire peer peerPort) := by
        generalize hl : n.view c = l at hlocal
        generalize hl' : n'.view c = l' at hlocal
        have hcom : (n.components c) = l.com := congrArg Local.com hl
        have hcom' : (n'.components c) = l'.com := congrArg Local.com hl'
        rw [hcom, hcom']
        cases step_move hlocal with
        | connect _ => rfl
        | connectFlush _ _ => rfl
      by_cases hport : q = port
      · rw [hcon, hport, Function.update_self] at hq
        cases hq
        exact Or.inr ⟨_, _, ha⟩
      · rw [hcon, Function.update_of_ne hport] at hq
        exact Or.inl ⟨q, p, hq⟩
  · refine Or.inl ⟨q, p, ?_⟩
    rw [← hq]
    exact congrArg (fun l => l.com.connectors q) hsame.symm

theorem acyclic_of_lt (h : ∀ c d, n.Wired c d → c < d) : n.Acyclic := by
  intro c hc
  have hlt : ∀ {d e}, Relation.TransGen n.Wired d e → d < e := by
    intro d e hde
    induction hde with
    | single hw => exact h _ _ hw
    | tail _ hw ih => exact Nat.lt_trans ih (h _ _ hw)
  exact Nat.lt_irrefl c (hlt hc)

/-- A wiring to higher numbers is acyclic. -/
theorem uphill_wired {C : Network σ V → Act V → Prop}
    (hC : ∀ n a, C n a → uphill a = true) (h : (system K typeOf).Reachable C n) :
    ∀ c d, n.Wired c d → c < d := by
  induction h with
  | init h =>
    obtain rfl := h
    exact fun c d ⟨_, _, hw⟩ => by cases hw
  | step _ hc hs ih =>
    intro c d hw
    rcases wired_step hs hw with hw | ⟨port, peerPort, rfl⟩
    · exact ih c d hw
    · exact of_decide_eq_true (hC _ _ hc)

/-- So is the condition of `relayed_in_order` met. -/
theorem uphill_inTime (h : (system K typeOf).Reachable
    (fun n a => (uphill a && prompt n a) = true) n) : (system K typeOf).Reachable
      InTime n := by
  induction h with
  | init h => exact .init h
  | @step s s' a hr hc hs ih =>
    have hup := uphill_wired (fun n a hc => (Bool.and_eq_true _ _ ▸ hc).1) hr
    refine .step ih ⟨acyclic_of_lt hup, ?_⟩ hs
    rw [Bool.and_eq_true] at hc
    cases a with
    | outputTo com port peer peerPort =>
      intro hactive
      rcases (Bool.or_eq_true _ _ ▸ hc.2) with h | h
      · rw [hactive] at h
        cases h
      · exact List.isEmpty_iff.mp h
    | _ => trivial

end Uphill

/-- A component is connected while it is active: what it has produced is flushed. -/
theorem relayed_in_order_flush : ∃ n : Network Unit Nat,
    (system (chain true) intType).follow (fun n a => uphill a && prompt n a)
    (.init (chain true))
      ([.activate 0, .proceed, .accept 0 0 (some 7)] ++ List.replicate 3 .proceed ++
        [.outputTo 0 0 1 0] ++ List.replicate 5 .proceed) = some n ∧
    on 0 (n.components 0).relayed = [some 7] ∧ Delivered (n.components 0) 0 := by
  have hrun : ((system (chain true) intType).follow (fun n a => uphill a && prompt n a)
    (.init (chain true))
      ([.activate 0, .proceed, .accept 0 0 (some 7)] ++ List.replicate 3 .proceed ++
        [.outputTo 0 0 1 0] ++ List.replicate 5 .proceed)).map
      (fun n => (n.stack.length, on 0 (n.components 0).relayed)) =
      some (0, [some 7]) := by
    decide +kernel
  obtain ⟨n, hrun, hsum⟩ := Option.map_eq_some_iff.mp hrun
  obtain ⟨hstack, hrelayed⟩ := Prod.mk.inj hsum
  refine ⟨n, hrun, hrelayed, ?_⟩
  have hup : (system (chain true) intType).Reachable
      (fun n a => (uphill a && prompt n a) = true) n :=
    Transition.follow_reachable (fun _ _ hc => hc) _ (.init rfl) hrun
  exact relayed_in_order (uphill_inTime hup) (List.eq_nil_of_length_eq_zero hstack) 0 0

/-- A component that is not persistent produces a value before its output is
connected; it is connected when it is inactive again, and activated for a second
value. -/
def lateConnect : List (Act Nat) :=
  [.activate 0, .proceed, .accept 0 0 (some 7)] ++ List.replicate 3 .proceed ++
    [.outputTo 0 0 1 0, .activate 0, .proceed, .accept 0 0 (some 8)] ++
    List.replicate 4 .proceed

/-- The first value stays in the buffer and the second overtakes it. -/
theorem stranded_overtaken : ∃ n : Network Unit Nat,
    (system (chain false) intType).follow (fun _ => uphill) (.init (chain false))
    lateConnect = some n ∧
    n.stack = [] ∧ n.Acyclic ∧
    on 0 (n.components 0).produced = [some 7, some 8] ∧
      on 0 (n.components 0).relayed = [some 8] ∧
    ¬ Delivered (n.components 0) 0 := by
  have hrun : ((system (chain false) intType).follow (fun _ => uphill)
    (.init (chain false)) lateConnect).map
      (fun n => (n.stack.length, on 0 (n.components 0).produced,
        on 0 (n.components 0).relayed)) =
      some (0, [some 7, some 8], [some 8]) := by
    decide +kernel
  obtain ⟨n, hrun, hsum⟩ := Option.map_eq_some_iff.mp hrun
  obtain ⟨hstack, hsum⟩ := Prod.mk.inj hsum
  obtain ⟨hproduced, hrelayed⟩ := Prod.mk.inj hsum
  refine ⟨n, hrun, List.eq_nil_of_length_eq_zero hstack, acyclic_of_lt ?_,
    hproduced, hrelayed, fun h => ?_⟩
  · exact uphill_wired (fun _ _ hc => hc)
      (Transition.follow_reachable (fun _ _ hc => hc) _ (.init rfl) hrun)
  obtain ⟨rest, hrest⟩ := h.order
  rw [hproduced, hrelayed] at hrest
  cases hrest

end CharmExperiments.Comex
