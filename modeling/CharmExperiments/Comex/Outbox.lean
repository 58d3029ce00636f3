import CharmExperiments.Comex.Reentry

/-!
# The outbox of a component

What becomes of the values an action produces for one output: `pending` are yet to
be delivered by `unspool`, `waiting` are in the buffer, the others are relayed.
`traffic` says how a turn moves them, whatever the wiring.

Between calls every value produced is relayed or in the buffer. So `collectible`
says what it should, except of a component without outputs, whose outbox is never
`empty` (`collectible_iff`).
-/

namespace CharmExperiments.Comex

open CharmExperiments.Lib

variable {σ V : Type}

/-- The values for a port that `unspool` has yet to deliver. -/
def pending (port : Nat) (fs : List (Frame V)) : List (Option V) :=
  fs.flatMap fun
    | .staging _ outs => on port outs
    | _ => []

/-- The front of the buffer of a port has been relayed. -/
def Frame.moved (port : Nat) : Frame V → Bool
  | .flushing p true => p = port
  | _ => false

/-- The values in the buffer of a port. -/
def waiting (l : Local σ V) (port : Nat) : List (Option V) :=
  if l.frames.any (·.moved port) then (l.com.buffer port).tail else l.com.buffer port

/-- The output is being flushed. -/
def Frame.flushes (port : Nat) : Frame V → Bool
  | .flushing p _ => p = port
  | _ => false

/-- Where the values produced for a port are. -/
structure Account (V : Type) where
  produced : List (Option V)
  relayed : List (Option V)
  waiting : List (Option V)
  pending : List (Option V)

def account (l : Local σ V) (port : Nat) : Account V where
  produced := on port l.com.produced
  relayed := on port l.com.relayed
  waiting := waiting l port
  pending := pending port l.frames

/-- How a turn moves the values for a port. -/
inductive Traffic (l : Local σ V) (t : Turn V) (l' : Local σ V) (port : Nat) : Prop
  | same : account l' port = account l port → Traffic l t l' port
  /-- The action produces some, in an `accept` or when none are pending. -/
  | act (outs : List (Option V)) :
      ((∃ q val, t = .accept q val) ∨ pending port l.frames = []) →
      account l' port = { account l port with
        produced := on port l.com.produced ++ outs
        pending := outs ++ pending port l.frames } → Traffic l t l' port
  /-- The next one pending is relayed, -/
  | send (val : Option V) (rest : List (Option V)) :
      (l.com.connectors port).ready = true →
      (∃ search outs fs, l.frames = .staging search outs :: fs) →
      pending port l.frames = val :: rest →
      account l' port = { account l port with
        relayed := on port l.com.relayed ++ [val]
        pending := rest } → Traffic l t l' port
  /-- or buffered. -/
  | hold (val : Option V) (rest : List (Option V)) : pending port l.frames = val :: rest →
      account l' port = { account l port with
        waiting := waiting l port ++ [val]
        pending := rest } → Traffic l t l' port
  /-- The first one waiting is relayed. -/
  | flush (val : Option V) (rest : List (Option V)) : waiting l port = val :: rest →
      account l' port = { account l port with
        relayed := on port l.com.relayed ++ [val]
        waiting := rest } → Traffic l t l' port

/-- An output that is being flushed is connected. -/
def FlushReady (l : Local σ V) : Prop :=
  ∀ port, (∃ f ∈ l.frames, f.flushes port = true) → (l.com.connectors port).ready = true

section Moves

variable {K : Class σ V} {l l' : Local σ V} {t : Turn V}
  {fs : List (Frame V)} {port : Nat}

theorem pending_staging (search : Option Deque.Iterator) (outs : List (Nat × Option V)) :
    pending port (.staging search outs :: fs) = on port outs ++ pending port fs := rfl

/-- Two states with the same outbox and the same frames for it. -/
theorem account_same (hproduced : l'.com.produced = l.com.produced)
    (hrelayed : on port l'.com.relayed = on port l.com.relayed)
    (hbuffer : l'.com.buffer port = l.com.buffer port)
    (hmoved : l'.frames.any (·.moved port) = l.frames.any (·.moved port))
    (hpending : pending port l'.frames = pending port l.frames) :
    account l' port = account l port := by
  rw [account, account, waiting, waiting, hproduced, hrelayed, hbuffer, hmoved, hpending]

theorem account_act {c : Component σ V} {search : Option Deque.Iterator} {set : InSet V}
    {c' : Component σ V} (hproduced : c'.produced = c.produced ++ c.outs K set)
    (hrelayed : c'.relayed = c.relayed) (hbuffer : c'.buffer = c.buffer) :
    account ⟨c', .staging search (c.outs K set) :: fs⟩ port =
      { account ⟨c, fs⟩ port with
        produced := on port c.produced ++ on port (c.outs K set)
        pending := on port (c.outs K set) ++ pending port fs } := by
  show Account.mk _ _ _ _ = Account.mk _ _ _ _
  rw [show on port c'.produced = on port c.produced ++ on port (c.outs K set) by
    rw [hproduced, on_append]]
  congr 1
  · exact congrArg (on port) hrelayed
  · show (if (Frame.staging search _ :: fs).any (·.moved port) then (c'.buffer port).tail
      else c'.buffer port) = _
    rw [hbuffer]
    rfl

/-- What a turn does to the values for a port. -/
theorem traffic (hn : Nested l.frames) (hf : FlushReady l) (h : Move K l t l') (port : Nat) :
    Traffic l t l' port := by
  cases h with
  | direct _ _ _ => exact .act _ (Or.inl ⟨_, _, rfl⟩) (account_act rfl rfl rfl)
  | complete _ _ _ _ _ => exact .act _ (Or.inl ⟨_, _, rfl⟩) (account_act rfl rfl rfl)
  | loop _ _ =>
    obtain rfl := hn.activating_last
    exact .act _ (Or.inr rfl) (account_act rfl rfl rfl)
  | buffered _ _ _ | fresh _ _ _ | fill _ _ _ _ | activate _ | connect _ | connectFlush _ _ |
    staged | erased _ | exit _ => exact .same (account_same rfl rfl rfl rfl rfl)
  | flushed _ =>
    obtain rfl := hn.flushing_last
    exact .same (account_same rfl rfl rfl rfl rfl)
  | @relay c fs search q val outs com peerPort hcon =>
    by_cases hq : q = port
    · subst hq
      refine .send val (on q outs ++ pending q fs) (by rw [hcon]; rfl)
        ⟨_, _, _, rfl⟩ ?_ ?_
      · rw [pending_staging, on_cons_self]
        rfl
      · show Account.mk _ _ _ _ = Account.mk _ _ _ _
        rw [on_append_self]
        rfl
    · refine .same (account_same rfl (on_append_other hq _ _) rfl rfl ?_)
      rw [pending_staging, pending_staging, on_cons_other hq]
  | @hold c fs search q val outs hcon =>
    by_cases hq : q = port
    · subst hq
      -- a port that is not connected is not being flushed
      have hmoved : (Frame.staging search outs :: fs).any (·.moved q) = false := by
        rw [List.any_eq_false]
        intro f hmem hm
        have hready : (c.connectors q).ready = true := by
          refine hf q ⟨f, ?_, ?_⟩
          · rcases List.mem_cons.mp hmem with rfl | hmem
            · cases hm
            · exact List.mem_cons_of_mem _ hmem
          · cases f with
            | flushing p r => cases r <;> [cases hm; exact hm]
            | staging s o => cases hm
            | activating => cases hm
        rw [hcon] at hready
        cases hready
      refine .hold val (on q outs ++ pending q fs) ?_ ?_
      · rw [pending_staging, on_cons_self]
        rfl
      · show Account.mk _ _ _ _ = Account.mk _ _ _ _
        congr 1
        show (if (Frame.staging search outs :: fs).any (·.moved q) then
            (Function.update c.buffer q (c.buffer q ++ [val]) q).tail
          else Function.update c.buffer q (c.buffer q ++ [val]) q) =
          (if (Frame.staging search outs :: fs).any (·.moved q) then (c.buffer q).tail
            else c.buffer q) ++ [val]
        rw [hmoved, Function.update_self]
        rfl
    · refine .same (account_same rfl rfl (Function.update_of_ne (Ne.symm hq) _ _) rfl ?_)
      rw [pending_staging, pending_staging, on_cons_other hq]
  | @flush c fs q val rest com peerPort hbuf hcon =>
    obtain rfl := hn.flushing_last
    by_cases hq : q = port
    · subst hq
      refine .flush val rest hbuf ?_
      show Account.mk _ _ _ _ = Account.mk _ _ _ _
      rw [on_append_self]
      congr 1
      show (if ([.flushing q true] : List (Frame V)).any (·.moved q) then
        (Function.update c.buffer q (none :: rest) q).tail else _) = rest
      rw [Function.update_self, if_pos (by simp [Frame.moved])]
      rfl
    · refine .same (account_same rfl ?_ ?_ ?_ rfl)
      · exact on_append_other hq _ _
      · exact Function.update_of_ne (Ne.symm hq) _ _
      · simp [Frame.moved, hq]
  | @pop c fs q =>
    obtain rfl := hn.flushing_last
    by_cases hq : q = port
    · subst hq
      refine .same ?_
      show Account.mk _ _ _ _ = Account.mk _ _ _ _
      congr 1
      show (if ([.flushing q false] : List (Frame V)).any (·.moved q) then _ else
        Function.update c.buffer q (c.buffer q).tail q) =
        if ([.flushing q true] : List (Frame V)).any (·.moved q) then (c.buffer q).tail
        else c.buffer q
      rw [Function.update_self, if_neg (by simp [Frame.moved]),
        if_pos (by simp [Frame.moved])]
    · refine .same (account_same rfl rfl ?_ ?_ rfl)
      · exact Function.update_of_ne (Ne.symm hq) _ _
      · simp [Frame.moved, hq]

/-- Connections change only when no member function is in progress. -/
theorem flushReady_move (hn : Nested l.frames) (hf : FlushReady l) (h : Move K l t l') :
    FlushReady l' := by
  have hcons : ∀ {c c' : Component σ V} {f : Frame V} {fs : List (Frame V)},
      FlushReady ⟨c, fs⟩ → c'.connectors = c.connectors →
        (∀ port, f.flushes port = false) →
      FlushReady ⟨c', f :: fs⟩ := by
    intro c c' f fs hf hsame hnot port ⟨g, hmem, hg⟩
    show (c'.connectors port).ready = true
    rw [hsame]
    rcases List.mem_cons.mp hmem with rfl | hmem
    · rw [hnot port] at hg
      cases hg
    · exact hf port ⟨g, hmem, hg⟩
  have htail : ∀ {c c' : Component σ V} {f : Frame V} {fs : List (Frame V)},
      FlushReady ⟨c, f :: fs⟩ → c'.connectors = c.connectors → FlushReady ⟨c', fs⟩ := by
    intro c c' f fs hf hsame port ⟨g, hmem, hg⟩
    show (c'.connectors port).ready = true
    rw [hsame]
    exact hf port ⟨g, List.mem_cons_of_mem f hmem, hg⟩
  cases h with
  | direct _ _ _ | complete _ _ _ _ _ | loop _ _ => exact hcons hf rfl fun _ => rfl
  | buffered _ _ _ | fresh _ _ _ | fill _ _ _ _ => exact hf
  | activate _ => exact hcons (fun _ ⟨_, hmem, _⟩ => by cases hmem) rfl fun _ => rfl
  | connect _ => exact fun _ ⟨_, hmem, _⟩ => by cases hmem
  | @connectFlush c q peer peerPort _ _ =>
    intro port ⟨g, hmem, hg⟩
    rw [List.mem_singleton.mp hmem, Frame.flushes, decide_eq_true_eq] at hg
    show (Function.update c.connectors q (.kWire peer peerPort) port).ready = true
    rw [← hg, Function.update_self]
    rfl
  | relay _ | hold _ => exact hcons (htail hf rfl) rfl fun _ => rfl
  | staged | erased _ => exact htail hf rfl
  | exit _ | flushed _ => exact htail hf rfl
  | flush _ hcon =>
    intro port ⟨g, hmem, hg⟩
    obtain rfl := hn.flushing_last
    rw [List.mem_singleton.mp hmem, Frame.flushes] at hg
    exact hf port ⟨_, List.mem_cons_self, hg⟩
  | pop =>
    intro port ⟨g, hmem, hg⟩
    obtain rfl := hn.flushing_last
    rw [List.mem_singleton.mp hmem, Frame.flushes] at hg
    exact hf port ⟨_, List.mem_cons_self, hg⟩

end Moves

/-! ## Nothing is lost -/

/-- Every value produced is relayed, waiting or pending; the flags agree with what
has run. -/
structure Kept (K : Class σ V) (l : Local σ V) : Prop where
  flush : FlushReady l
  count : ∀ port, (on port l.com.produced).Perm
    (on port l.com.relayed ++ (waiting l port ++ pending port l.frames))
  activated : l.com.active = true ∨ 0 < l.com.ran ∨ Staging l.frames →
    l.com.activated = true
  completed : K.persistent = false → 0 < l.com.ran → l.com.active = true →
    Staging l.frames

section Kept

variable {K : Class σ V} {l l' : Local σ V} {t : Turn V} {port : Nat}

theorem count_traffic (h : Traffic l t l' port)
    (hi : (on port l.com.produced).Perm
      (on port l.com.relayed ++ (waiting l port ++ pending port l.frames))) :
    (on port l'.com.produced).Perm
      (on port l'.com.relayed ++ (waiting l' port ++ pending port l'.frames)) := by
  show (account l' port).produced.Perm
    ((account l' port).relayed ++
      ((account l' port).waiting ++ (account l' port).pending))
  cases h with
  | same h =>
    rw [h]
    exact hi
  | act outs _ h =>
    rw [h]
    show (on port l.com.produced ++ outs).Perm (on port l.com.relayed ++
      (waiting l port ++ (outs ++ pending port l.frames)))
    -- the new outputs come before those still pending
    have hcomm : (pending port l.frames ++ outs).Perm (outs ++ pending port l.frames) :=
      List.perm_append_comm
    have hmove := hcomm.append_left (on port l.com.relayed ++ waiting l port)
    simp only [List.append_assoc] at hmove hi ⊢
    refine (hi.append_right outs).trans ?_
    simp only [List.append_assoc]
    exact hmove
  | send val rest _ _ hpending h =>
    rw [h]
    show (on port l.com.produced).Perm
      (on port l.com.relayed ++ [val] ++ (waiting l port ++ rest))
    rw [hpending] at hi
    refine hi.trans ?_
    rw [List.append_assoc]
    exact List.perm_middle.append_left _
  | hold val rest hpending h =>
    rw [h]
    show (on port l.com.produced).Perm
      (on port l.com.relayed ++ (waiting l port ++ [val] ++ rest))
    rw [hpending] at hi
    rw [List.append_assoc (waiting l port)]
    exact hi
  | flush val rest hwaiting h =>
    rw [h]
    show (on port l.com.produced).Perm
      (on port l.com.relayed ++ [val] ++ (rest ++ pending port l.frames))
    rw [hwaiting] at hi
    rw [List.append_assoc]
    exact hi

/-- A component is active only after `activate`, and so is one that runs or has run. -/
theorem activated_move
    (hi : l.com.active = true ∨ 0 < l.com.ran ∨ Staging l.frames → l.com.activated = true)
    (h : Move K l t l') :
    l'.com.active = true ∨ 0 < l'.com.ran ∨ Staging l'.frames →
      l'.com.activated = true := by
  cases h with
  | direct _ _ hactive | complete _ _ _ _ hactive | loop hactive _ =>
    exact fun _ => hi (Or.inl hactive)
  | buffered _ _ _ | fresh _ _ _ | fill _ _ _ _ | connect _ => exact hi
  | activate _ => exact fun _ => rfl
  | connectFlush hactive _ => exact fun _ => hi (Or.inl hactive)
  | relay _ | hold _ | staged | erased _ => exact fun _ => hi (Or.inr (Or.inr staging_cons))
  | exit _ | flushed _ =>
    rintro (hactive | hran | hs)
    · exact hi (Or.inl hactive)
    · exact hi (Or.inr (Or.inl hran))
    · exact hi (Or.inr (Or.inr ((staging_tail rfl).mpr hs)))
  | flush _ _ | pop =>
    rintro (hactive | hran | hs)
    · exact hi (Or.inl hactive)
    · exact hi (Or.inr (Or.inl hran))
    · exact hi (Or.inr (Or.inr ((staging_tail rfl).mpr ((staging_tail rfl).mp hs))))

/-- The action of a component that is not persistent ends its activity. -/
theorem completed_move (hi : K.persistent = false → 0 < l.com.ran → l.com.active = true →
    Staging l.frames) (h : Move K l t l') :
    K.persistent = false → 0 < l'.com.ran → l'.com.active = true → Staging l'.frames := by
  intro hp
  cases h with
  | direct _ _ _ | complete _ _ _ _ _ | loop _ _ => exact fun _ _ => staging_cons
  | buffered _ _ _ | fresh _ _ _ | fill _ _ _ _ | connect _ => exact hi hp
  | activate _ => exact fun h => absurd h (Nat.lt_irrefl 0)
  | connectFlush _ _ =>
    intro hran hactive
    exact (staging_tail rfl).mpr (hi hp hran hactive)
  | relay _ | hold _ => exact fun _ _ => staging_cons
  | staged | erased _ =>
    intro _ hactive
    rw [show K.persistent = true from hactive] at hp
    cases hp
  | exit _ | flushed _ =>
    intro hran hactive
    exact (staging_tail rfl).mp (hi hp hran hactive)
  | flush _ _ | pop =>
    intro hran hactive
    exact (staging_tail rfl).mpr ((staging_tail rfl).mp (hi hp hran hactive))

theorem kept_move (hn : Nested l.frames) (hi : Kept K l) (h : Move K l t l') :
    Kept K l' where
  flush := flushReady_move hn hi.flush h
  count port := count_traffic (traffic hn hi.flush h port) (hi.count port)
  activated := activated_move hi.activated h
  completed := completed_move hi.completed h

theorem kept_new : Kept K ⟨.new K, []⟩ where
  flush _ := fun ⟨_, hmem, _⟩ => (by cases hmem)
  count _ := List.Perm.refl []
  activated h := by
    rcases h with h | h | ⟨_, hmem, _⟩
    · cases h
    · exact absurd h (Nat.lt_irrefl 0)
    · cases hmem
  completed _ h := absurd h (Nat.lt_irrefl 0)

end Kept

/-- Every value produced on a port of the component has been relayed. -/
def AllRelayed (K : Class σ V) (c : Component σ V) : Prop :=
  ∀ port < K.nOutputs, (on port c.produced).Perm (on port c.relayed)

/-- What `collectible` is to say. -/
structure CollectsExactly (K : Class σ V) (c : Component σ V) : Prop where
  iff : c.collectible K = true ↔ c.activated = true ∧ c.active = false ∧ AllRelayed K c
  /-- A component that is not persistent and has run since it was activated. -/
  completed : K.persistent = false → 0 < c.ran → AllRelayed K c → c.collectible K = true

section Collectible

variable {K : Class σ V} {c : Component σ V}

theorem collectible_eq : c.collectible K = true ↔
    c.activated = true ∧ c.active = false ∧ c.empty K = true := by
  rw [Component.collectible, Bool.and_eq_true, Bool.and_eq_true,
    Bool.not_eq_true', and_assoc]

/-- When no member function is in progress, what is not relayed is in the buffer. -/
theorem allRelayed_iff (hi : Kept K ⟨c, []⟩) :
    AllRelayed K c ↔ ∀ port < K.nOutputs, c.buffer port = [] := by
  refine forall₂_congr fun port _ => ?_
  have hcount : (on port c.produced).Perm (on port c.relayed ++ (c.buffer port ++ [])) :=
    hi.count port
  rw [List.append_nil] at hcount
  constructor
  · intro h
    have hlen := (hcount.symm.trans h).length_eq
    rw [List.length_append] at hlen
    exact List.eq_nil_of_length_eq_zero (by omega)
  · intro h
    rw [h, List.append_nil] at hcount
    exact hcount

/-- With an output, `empty` says that no buffer holds a value. -/
theorem empty_iff (hpos : K.nOutputs ≠ 0) :
    c.empty K = true ↔ ∀ port < K.nOutputs, c.buffer port = [] := by
  unfold Component.empty
  split
  next h => exact absurd h hpos
  next m h =>
    rw [emptyUpTo_iff, h]
    exact forall_congr' fun port => imp_congr_left (by omega)

end Collectible

/-- **`collectible` is exact when the component has an output**, and when it has none
until it has been activated and is inactive again: then `outbox_<std::tuple<>>` says
that it is not empty. For every wiring, after every run. -/
theorem collectible_iff {K : Nat → Class σ V} {typeOf : V → Option String}
    {n : Network σ V}
    (h : (system K typeOf).Reachable (fun _ _ => True) n) (com : Nat)
    (hidle : (n.view com).frames = []) :
    CollectsExactly (K com) (n.components com) ↔
      ((K com).nOutputs ≠ 0 ∨ (n.components com).activated = false ∨
        (n.components com).active = true) := by
  have hlocal : (localSystem (K com) typeOf com).Reachable (fun _ _ => True)
      (n.view com) :=
    Network.Reachable.view (fun _ _ _ _ _ _ => trivial) h
  have hkept :=
    (local_invariant kept_new (fun _ _ _ hn hi _ hm => kept_move hn hi hm) hlocal).2
  rw [show n.view com = ⟨n.components com, []⟩ by rw [← hidle]; rfl] at hkept
  constructor
  · intro hexact
    by_contra hcon
    obtain ⟨hzero, hactivated, hactive⟩ : (K com).nOutputs = 0 ∧
        (n.components com).activated = true ∧ (n.components com).active = false := by
      simpa using hcon
    -- with no outputs everything is relayed, and yet `empty()` is false
    have hcollect := hexact.iff.mpr ⟨hactivated, hactive, fun port hlt => by omega⟩
    obtain ⟨_, _, hempty⟩ := collectible_eq.mp hcollect
    rw [Component.empty, hzero] at hempty
    cases hempty
  · intro hcond
    have hiff : (n.components com).collectible (K com) = true ↔
        (n.components com).activated = true ∧ (n.components com).active = false ∧
          AllRelayed (K com) (n.components com) := by
      rw [collectible_eq]
      refine and_congr_right fun hactivated => and_congr_right fun hactive => ?_
      have hpos : (K com).nOutputs ≠ 0 := by
        rcases hcond with hpos | hnot | hnot
        · exact hpos
        · rw [hactivated] at hnot
          cases hnot
        · rw [hactive] at hnot
          cases hnot
      rw [empty_iff hpos, allRelayed_iff hkept]
    refine ⟨hiff, fun hp hran hall =>
      hiff.mpr ⟨hkept.activated (Or.inr (Or.inl hran)), ?_, hall⟩⟩
    refine Bool.eq_false_iff.mpr fun hactive => ?_
    obtain ⟨_, hmem, _⟩ := hkept.completed hp hran hactive
    cases hmem

/-- A component without outputs has run and sent all that it produced, which is
nothing, and is not collectible. -/
theorem never_collected : ∃ n : Network Unit Nat,
    (system (chain false) intType).run (.init (chain false))
      [.activate 1, .proceed, .accept 1 0 (some 7), .proceed, .proceed] = some n ∧
    n.stack.length = 0 ∧ (n.components 1).ran = 1 ∧
    ¬ CollectsExactly (chain false 1) (n.components 1) := by
  have hrun : ((system (chain false) intType).run (.init (chain false))
      [.activate 1, .proceed, .accept 1 0 (some 7), .proceed, .proceed]).map
      (fun n => (n.stack.length, (n.components 1).ran, (n.components 1).collectible
        (chain false 1))) =
      some (0, 1, false) := by
    decide +kernel
  obtain ⟨n, hrun, hsum⟩ := Option.map_eq_some_iff.mp hrun
  obtain ⟨hstack, hsum⟩ := Prod.mk.inj hsum
  obtain ⟨hran, hcollect⟩ := Prod.mk.inj hsum
  refine ⟨n, hrun, hstack, hran, fun h => ?_⟩
  have hnone : AllRelayed (chain false 1) (n.components 1) :=
    fun port hlt => absurd hlt (Nat.not_lt_zero _)
  rw [h.completed rfl (by omega) hnone] at hcollect
  cases hcollect

/-- A component that has run and sent its output on is collectible. -/
theorem collectible_iff_sender : ∃ n : Network Unit Nat,
    (system (chain false) intType).run (.init (chain false))
      ([.outputTo 0 0 1 0, .activate 0, .proceed, .accept 0 0 (some 7)] ++
        List.replicate 4 .proceed) = some n ∧
    (n.components 0).ran = 1 ∧ CollectsExactly (chain false 0) (n.components 0) := by
  have hrun : ((system (chain false) intType).run (.init (chain false))
      ([.outputTo 0 0 1 0, .activate 0, .proceed, .accept 0 0 (some 7)] ++
        List.replicate 4 .proceed)).map
          (fun n => (n.stack.length, (n.components 0).ran)) =
      some (0, 1) := by
    decide +kernel
  obtain ⟨n, hrun, hsum⟩ := Option.map_eq_some_iff.mp hrun
  obtain ⟨hstack, hran⟩ := Prod.mk.inj hsum
  refine ⟨n, hrun, hran,
    (collectible_iff (Transition.run_reachable _ (fun _ _ _ => trivial)
    (.init rfl) hrun) 0 ?_).mpr (Or.inl (by decide))⟩
  show Network.framesOf 0 n.stack = []
  rw [List.eq_nil_of_length_eq_zero hstack]
  rfl

end CharmExperiments.Comex
