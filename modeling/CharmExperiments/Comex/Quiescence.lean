import CharmExperiments.Comex.Activation
import Mathlib.Algebra.BigOperators.Group.List.Basic
import Mathlib.Data.Finset.Card

/-!
# What a component tells the quiescence detection

`component.hh` passes every value that it keeps to `QdCreate` and every value that
it is done with to `QdProcess`. `Tally` is a component with the two totals; its
functions are those of `Component` with the calls of `QdCreate` and `QdProcess`
where the source has them, and leave the component as those do.

Three paths count in three ways: a multi-input `accept` one value at a time,
`buffer_ready_set_` a set at a time, and the direct path of a single input not at
all; `stage_action` discounts a whole set when it erases it. Between `action` and
the erasure the set is counted and no longer whole, so the invariant `Balanced`
counts the sets that are held by a `stage_action` at `nInputs` each, whatever the
action has left of them.

The payoff is `pending_balance`: whenever no `accept` or `activate` of the component
is in progress, the difference of the two totals is the number of values in
`incoming`, and it is zero only if `incoming` is empty.
-/

namespace CharmExperiments.Comex

open CharmExperiments.Lib

variable {σ V : Type}

/-- A component with the totals it has passed to `QdCreate` and `QdProcess`. -/
structure Tally (σ V : Type) where
  com : Component σ V
  created : Nat
  processed : Nat

namespace Tally

variable (K : Class σ V)

/-- `QdCreate`. -/
def qdCreate (t : Tally σ V) (n : Nat) : Tally σ V := { t with created := t.created + n }

/-- `QdProcess`. -/
def qdProcess (t : Tally σ V) (n : Nat) : Tally σ V :=
  { t with processed := t.processed + n }

/-- `buffer_ready_set_`. -/
def bufferReadySet (t : Tally σ V) (set : InSet V) : Tally σ V :=
  { t with com := t.com.bufferReadySet set }.qdCreate K.nInputs

/-- `stage_action`, up to the delivery of the outputs. -/
def stageAction (t : Tally σ V) (search : Option Deque.Iterator) (set : InSet V) :
    Tally σ V × List (Frame V) :=
  ({ t with com := (t.com.stageAction K search set).1 },
    (t.com.stageAction K search set).2)

/-- `direct_stage`. -/
def directStage (t : Tally σ V) (val : V) : Tally σ V × List (Frame V) :=
  if t.com.active then t.stageAction K none (single 0 val)
  else (t.bufferReadySet K (single 0 val), [])

/-- `accept`, for a value of the port's type. -/
def accept (t : Tally σ V) (port : Nat) (val : V) : Tally σ V × List (Frame V) :=
  let t := { t with com := t.com.note port val }
  if K.nInputs = 1 then t.directStage K val
  else
    match t.com.findGap port with
    | none =>
      let c := { t.com with incoming := t.com.incoming.emplaceFront (single port val) }
      ({ t with com := c }.qdCreate 1, [])
    | some (id, partialSet) =>
      let set := Function.update partialSet port (some val)
      let t := { t with com := t.com.write id set }.qdCreate 1
      if isReady K set then t.stageAction K (some (t.com.incoming.iter id)) set
      else (t, [])

/-- `component_base_::accept` on component `com`, which checks the value first. -/
def baseAccept (typeOf : V → Option String) (com : Nat) (t : Tally σ V) (port : Nat)
    (val : Option V) : Except Failure (Tally σ V × List (Frame V)) :=
  match val with
  | none => .error .nullValue
  | some val =>
    match typeOf val with
    | none => .error (.abort s!"com{com}> invalid value for port {port}, (nil)")
    | some ty =>
      if Component.accepts K port ty then .ok (t.accept K port val)
      else .error (.abort s!"com{com}> invalid value for port {port}, {ty}")

/-- `activate`, up to its loop. -/
def activate (t : Tally σ V) : Except Failure (Tally σ V × List (Frame V)) := do
  let (c, fs) ← t.com.activate
  return ({ t with com := c }, fs)

/-- `output_to`, up to the loop of `try_flush`. -/
def outputTo (t : Tally σ V) (port peer peerPort : Nat) :
    Except Failure (Tally σ V × List (Frame V)) := do
  let (c, fs) ← t.com.outputTo port peer peerPort
  return ({ t with com := c }, fs)

/-- Goes on with a member function. The end of the `stage_action` that takes an
iterator erases the set and passes it to `QdProcess`. -/
def resume (t : Tally σ V) (f : Frame V) :
    Except Failure (Tally σ V × List (Frame V) × Option (Relay V)) := do
  let (c, fs, r) ← t.com.resume K f
  let t := { t with com := c }
  match f with
  | .staging (some _) [] => return (t.qdProcess K.nInputs, fs, r)
  | _ => return (t, fs, r)

end Tally

/-- A component with its totals, and what is left of its member functions, innermost
first. -/
structure Counted (σ V : Type) where
  tally : Tally σ V
  frames : List (Frame V)

namespace Counted

/-- The component without the totals. -/
def view (s : Counted σ V) : Local σ V := ⟨s.tally.com, s.frames⟩

/-- A turn of the component of number `com`, as in `Local.step`. -/
def step (K : Class σ V) (typeOf : V → Option String) (com : Nat) (s : Counted σ V) :
    Turn V → Option (Counted σ V)
  | .accept port val =>
    (s.tally.baseAccept K typeOf com port val).toOption.map fun r =>
    ⟨r.1, r.2 ++ s.frames⟩
  | .activate =>
    if s.frames.isEmpty then s.tally.activate.toOption.map fun r => ⟨r.1, r.2⟩ else none
  | .outputTo port peer peerPort =>
    if s.frames.isEmpty then
      (s.tally.outputTo port peer peerPort).toOption.map fun r => ⟨r.1, r.2⟩
    else none
  | .resume =>
    match s.frames with
    | [] => none
    | f :: rest => (s.tally.resume K f).toOption.map fun r => ⟨r.1, r.2.1 ++ rest⟩

end Counted

/-- One component with its totals as a transition system. -/
def countedSystem (K : Class σ V) (typeOf : V → Option String) (com : Nat) :
    Transition (Counted σ V) (Turn V) where
  init s := s = ⟨⟨.new K, 0, 0⟩, []⟩
  step := Counted.step K typeOf com

/-! ## What a turn passes to the counters -/

/-- What a turn of a component passes to `QdCreate`. -/
def creates (K : Class σ V) (c : Component σ V) : Turn V → Nat
  | .accept _ _ => if K.nInputs = 1 then if c.active then 0 else K.nInputs else 1
  | .activate | .outputTo _ _ _ | .resume => 0

/-- What the end of a member function passes to `QdProcess`. -/
def discount (K : Class σ V) : Frame V → Nat
  | .staging (some _) [] => K.nInputs
  | _ => 0

/-- What a turn of a component with frames `fs` passes to `QdProcess`. -/
def processes (K : Class σ V) (fs : List (Frame V)) : Turn V → Nat
  | .accept _ _ | .activate | .outputTo _ _ _ => 0
  | .resume => (fs.head?.map (discount K)).getD 0

section Counts

variable {K : Class σ V} {typeOf : V → Option String} {com : Nat}

/-- `accept` does to the component what it does without the totals, and counts. -/
theorem accept_counts (t : Tally σ V) (port : Nat) (val : V) :
    (t.accept K port val).1.com = (t.com.accept K port val).1 ∧
    (t.accept K port val).2 = (t.com.accept K port val).2 ∧
    (t.accept K port val).1.created = t.created + creates K t.com
    (.accept port (some val)) ∧ (t.accept K port val).1.processed = t.processed := by
  unfold Tally.accept Component.accept creates
  dsimp only
  by_cases hone : K.nInputs = 1
  · rw [if_pos hone, if_pos hone, if_pos hone]
    unfold Tally.directStage Component.directStage
    cases hactive : (t.com.note port val).active with
    | true =>
      rw [if_pos rfl, if_pos rfl, if_pos (show t.com.active = true from hactive)]
      exact ⟨rfl, rfl, rfl, rfl⟩
    | false =>
      rw [if_neg Bool.false_ne_true, if_neg Bool.false_ne_true,
        show t.com.active = false from
        hactive, if_neg Bool.false_ne_true]
      exact ⟨rfl, rfl, rfl, rfl⟩
  · rw [if_neg hone, if_neg hone, if_neg hone]
    cases hgap : (t.com.note port val).findGap port with
    | none => exact ⟨rfl, rfl, rfl, rfl⟩
    | some found =>
      obtain ⟨id, set⟩ := found
      dsimp only
      split
      · exact ⟨rfl, rfl, rfl, rfl⟩
      · exact ⟨rfl, rfl, rfl, rfl⟩

/-- What goes on in a member function counts what it discounts. -/
theorem resume_counts {t t' : Tally σ V} {f : Frame V} {fs : List (Frame V)}
    {r : Option (Relay V)}
    (h : (t.resume K f).toOption = some (t', fs, r)) :
    t.com.resume K f = .ok (t'.com, fs, r) ∧ t'.created = t.created ∧
    t'.processed = t.processed + discount K f := by
  obtain ⟨⟨c, fs', r'⟩, hc, h⟩ := Network.bind_toOption h
  cases f with
  | staging search outs =>
    cases search with
    | none =>
      cases h
      exact ⟨hc, rfl, rfl⟩
    | some it =>
      cases outs with
      | nil =>
        cases h
        exact ⟨hc, rfl, rfl⟩
      | cons out outs =>
        cases h
        exact ⟨hc, rfl, rfl⟩
  | activating =>
    cases h
    exact ⟨hc, rfl, rfl⟩
  | flushing port relayed =>
    cases h
    exact ⟨hc, rfl, rfl⟩

/-- A turn counts, and is otherwise the turn of the component without the totals. -/
theorem step_counts {s s' : Counted σ V} {t : Turn V}
    (h : s.step K typeOf com t = some s') :
    Move K s.view t s'.view ∧
    s'.tally.created = s.tally.created + creates K s.tally.com t ∧
    s'.tally.processed = s.tally.processed + processes K s.frames t := by
  obtain ⟨tally, fs⟩ := s
  cases t with
  | accept port val =>
    obtain ⟨r, hr, rfl⟩ := Option.map_eq_some_iff.mp h
    cases val with
    | none => cases hr
    | some val =>
      unfold Tally.baseAccept at hr
      dsimp only at hr
      split at hr
      next => cases hr
      next ty _ =>
        split at hr
        next haccepts =>
          cases hr
          -- the component does what it does without the counts
          obtain ⟨hcom, hframes, hcreated, hprocessed⟩ := accept_counts tally port val
          refine ⟨?_, hcreated, hprocessed⟩
          show Move K ⟨tally.com, fs⟩ _ ⟨(tally.accept K port val).1.com, _ ++ fs⟩
          rw [hcom, hframes]
          exact accept_move (accepts_lt haccepts)
        next => cases hr
  | activate =>
    unfold Counted.step at h
    dsimp only at h
    split at h
    next hfs =>
      obtain ⟨r, hr, rfl⟩ := Option.map_eq_some_iff.mp h
      obtain ⟨⟨c, fs'⟩, hc, hr⟩ := Network.bind_toOption hr
      cases hr
      have hlocal : Local.step K typeOf com ⟨tally.com, fs⟩ .activate =
          some ⟨c, fs'⟩ := by
        show (if fs.isEmpty then tally.com.activate.toOption.map _ else none) = _
        rw [if_pos hfs, hc]
        rfl
      exact ⟨step_move hlocal, rfl, rfl⟩
    next => cases h
  | outputTo port peer peerPort =>
    unfold Counted.step at h
    dsimp only at h
    split at h
    next hfs =>
      obtain ⟨r, hr, rfl⟩ := Option.map_eq_some_iff.mp h
      obtain ⟨⟨c, fs'⟩, hc, hr⟩ := Network.bind_toOption hr
      cases hr
      have hlocal :
        Local.step K typeOf com ⟨tally.com, fs⟩ (.outputTo port peer peerPort) =
          some ⟨c, fs'⟩ := by
        show (if fs.isEmpty then (tally.com.outputTo port peer peerPort).toOption.map _
          else none) = _
        rw [if_pos hfs, hc]
        rfl
      exact ⟨step_move hlocal, rfl, rfl⟩
    next => cases h
  | resume =>
    unfold Counted.step at h
    cases fs with
    | nil => cases h
    | cons f fs =>
      obtain ⟨⟨tally', fs', r⟩, hr, rfl⟩ := Option.map_eq_some_iff.mp h
      obtain ⟨hc, hcreated, hprocessed⟩ := resume_counts hr
      exact ⟨resume_move hc, hcreated, hprocessed⟩

end Counts

/-! ## The values that wait -/

/-- How many inputs of a set have a value. -/
def filled (K : Class σ V) (set : InSet V) : Nat :=
  ((Finset.range K.nInputs).filter fun i => (set i).isSome).card

/-- How many values the sets have. -/
def valuesIn (K : Class σ V) (sets : List (InSet V)) : Nat := (sets.map (filled K)).sum

section Filled

variable {K : Class σ V} {set : InSet V} {port : Nat} {val : V}

/-- A value at an input that has none adds to the set. -/
theorem filled_update (hport : port < K.nInputs) (hgap : set port = none) :
    filled K (Function.update set port (some val)) = filled K set + 1 := by
  have hinsert : (Finset.range K.nInputs).filter
      (fun i => (Function.update set port (some val) i).isSome) =
      insert port ((Finset.range K.nInputs).filter fun i => (set i).isSome) := by
    ext i
    rw [Finset.mem_insert, Finset.mem_filter, Finset.mem_filter, Finset.mem_range]
    by_cases hi : i = port
    · subst hi
      rw [Function.update_self]
      exact iff_of_true ⟨hport, rfl⟩ (Or.inl rfl)
    · rw [Function.update_of_ne hi, or_iff_right hi]
  have hnew : port ∉ (Finset.range K.nInputs).filter fun i => (set i).isSome := by
    rw [Finset.mem_filter, hgap]
    exact fun h => Bool.false_ne_true h.2
  rw [filled, hinsert, Finset.card_insert_of_notMem hnew]
  rfl

theorem filled_single (hport : port < K.nInputs) : filled K (single port val) = 1 := by
  have hnone : filled K (fun _ => none : InSet V) = 0 :=
    Finset.card_eq_zero.mpr (Finset.filter_false_of_mem fun _ _ h => Bool.false_ne_true h)
  rw [single, filled_update hport rfl, hnone]

/-- A ready set has a value for every input. -/
theorem filled_ready (h : isReady K set = true) : filled K set = K.nInputs := by
  rw [filled, Finset.filter_true_of_mem fun i hi =>
    (isReady_iff K).mp h i (Finset.mem_range.mp hi),
    Finset.card_range]

theorem filled_eq_zero : filled K set = 0 ↔ ∀ i < K.nInputs, set i = none := by
  rw [filled, Finset.card_eq_zero, Finset.filter_eq_empty_iff]
  refine ⟨fun h i hi => ?_, fun h i hi => ?_⟩
  · have hnot := h (Finset.mem_range.mpr hi)
    rwa [Bool.not_eq_true, Option.isSome_eq_false_iff, Option.isNone_iff_eq_none] at hnot
  · rw [h i (Finset.mem_range.mp hi)]
    exact Bool.false_ne_true

theorem valuesIn_cons (sets : List (InSet V)) :
    valuesIn K (set :: sets) = filled K set + valuesIn K sets := List.sum_cons

theorem valuesIn_append (sets sets' : List (InSet V)) :
    valuesIn K (sets ++ sets') = valuesIn K sets + valuesIn K sets' := by
  rw [valuesIn, List.map_append, List.sum_append]
  rfl

/-- The count of a set among others. -/
theorem valuesIn_split {left right : List (Nat × InSet V)} {id : Nat} :
    valuesIn K ((left ++ (id, set) :: right).map Prod.snd) =
      valuesIn K ((left ++ right).map Prod.snd) + filled K set := by
  rw [List.map_append, List.map_cons, List.map_append, valuesIn_append, valuesIn_cons,
    valuesIn_append]
  show _ + (filled K set + _) = _
  omega

theorem valuesIn_eq_zero {sets : List (InSet V)} :
    valuesIn K sets = 0 ↔ ∀ set ∈ sets, ∀ i < K.nInputs, set i = none := by
  induction sets with
  | nil => exact iff_of_true rfl fun _ hset => absurd hset List.not_mem_nil
  | cons set sets ih =>
    rw [valuesIn_cons, Nat.add_eq_zero_iff, ih, filled_eq_zero, List.forall_mem_cons]

end Filled

/-! ## The totals agree with what waits -/

/-- The totals of a component: every value left in `incoming` counts one, and every
set that a `stage_action` holds counts one for each input. No set that is left is
without a value. -/
structure Balanced (K : Class σ V) (l : Local σ V) (created processed : Nat) : Prop where
  balance : created = processed + valuesIn K (rest l) + K.nInputs * (held l.frames).length
  filled : ∀ set ∈ rest l, filled K set ≠ 0

section Moves

variable {K : Class σ V} {l l' : Local σ V} {t : Turn V}
  {created processed port : Nat} {val : V}
  {c : Component σ V} {fs : List (Frame V)}

/-- Nothing that is counted has changed. -/
theorem balanced_same {d e : Nat} (hi : Balanced K l created processed)
    (hd : d = 0) (he : e = 0) (hrest : rest l' = rest l)
    (hheld : held l'.frames = held l.frames) :
    Balanced K l' (created + d) (processed + e) where
  balance := by
    rw [hd, he, hrest, hheld]
    exact hi.balance
  filled := hrest ▸ hi.filled

/-- A set waits in front. -/
theorem balanced_wait {set : InSet V} (hi : Balanced K ⟨c, fs⟩ created processed)
    (hs : ¬ Staging fs) (hset : filled K set = 1) :
    Balanced K ⟨(c.note port val).bufferReadySet set, fs⟩ (created + 1)
      (processed + 0) := by
  have hrest : rest ⟨(c.note port val).bufferReadySet set, fs⟩ = set :: rest ⟨c, fs⟩ := by
    rw [rest_idle hs, rest_idle hs]
    rfl
  refine ⟨?_, fun set' hset' => ?_⟩
  · have hbalance := hi.balance
    rw [hrest, valuesIn_cons, hset, hbalance]
    show _ + K.nInputs * (held fs).length + 1 = processed + 0 + (1 + _) +
      K.nInputs * (held fs).length
    omega
  · rw [hrest] at hset'
    rcases List.mem_cons.mp hset' with rfl | hset'
    · omega
    · exact hi.filled set' hset'

/-- The set in a deque that the search has found, with the ones around it. -/
theorem balanced_split {set : InSet V} {left right : List (Nat × InSet V)} {id : Nat}
    (hi : Balanced K ⟨c, fs⟩ created processed) (hs : ¬ Staging fs)
    (hitems : c.incoming.items = left ++ (id, set) :: right) :
    created = processed + (valuesIn K ((left ++ right).map Prod.snd) + filled K set) ∧
    ∀ set' ∈ (left ++ right).map Prod.snd, filled K set' ≠ 0 := by
  have hrest : rest ⟨c, fs⟩ = (left ++ (id, set) :: right).map Prod.snd := by
    rw [rest_idle hs, ← hitems]
    rfl
  refine ⟨?_, fun set' hset' => hi.filled set' ?_⟩
  · have hbalance := hi.balance
    rw [hrest, valuesIn_split, show held (⟨c, fs⟩ : Local σ V).frames =
      [] from held_eq_nil hs, List.length_nil, Nat.mul_zero] at hbalance
    exact hbalance
  · rw [hrest]
    have hsub : (left ++ right).Sublist (left ++ (id, set) :: right) :=
      List.Sublist.append_left (List.sublist_cons_self _ _) _
    exact (hsub.map Prod.snd).subset hset'

/-- The gap that the search has found for a value, and what the value makes of its set. -/
theorem balanced_gap {set : InSet V} {id port : Nat} {val : V}
    (hi : Balanced K ⟨c, fs⟩ created processed) (hs : ¬ Staging fs)
    (hport : port < K.nInputs) (hgap : c.findGap port = some (id, set)) :
    ∃ left right, c.incoming.items = left ++ (id, set) :: right ∧
      created = processed + (valuesIn K ((left ++ right).map Prod.snd) + filled K set) ∧
      (∀ set' ∈ (left ++ right).map Prod.snd, filled K set' ≠ 0) ∧
      filled K (Function.update set port (some val)) = filled K set + 1 := by
  obtain ⟨hnone, left, right, hitems, _⟩ := Deque.findBack_some hgap
  obtain ⟨hbalance, hfilled⟩ := balanced_split hi hs hitems
  exact ⟨left, right, hitems, hbalance, hfilled,
    filled_update hport (Option.isNone_iff_eq_none.mp hnone)⟩

/-- A set with a value for every input is handed to the action. -/
theorem balanced_hand {c' : Component σ V} {it : Deque.Iterator}
    {outs : List (Nat × Option V)}
    {set : InSet V} {left right : List (Nat × InSet V)} (hs : ¬ Staging fs)
    (hitems : c'.incoming.items = left ++ (it.id, set) :: right)
    (hcreated : created = processed +
      (valuesIn K ((left ++ right).map Prod.snd) + K.nInputs))
    (hfilled : ∀ set' ∈ (left ++ right).map Prod.snd, filled K set' ≠ 0) :
    Balanced K ⟨c', .staging (some it) outs :: fs⟩ created processed where
  balance := by
    rw [rest_staged hs hitems]
    show _ = _ + _ + K.nInputs * (it :: held fs).length
    rw [held_eq_nil hs, List.length_singleton, Nat.mul_one, hcreated, Nat.add_assoc]
  filled := by
    rw [rest_staged hs hitems]
    exact hfilled

/-- **A turn passes to the counters what it does to the values that wait.** -/
theorem balanced_move (hn : Nested l.frames) (hi : Balanced K l created processed)
    (hfed : Unfed l t) (h : Move K l t l') :
    Balanced K l' (created + creates K l.com t) (processed + processes K l.frames t) := by
  cases h with
  | @direct c fs port val hport hone hactive =>
    have hd : creates K c (.accept port (some val)) = 0 := by
      rw [creates, if_pos hone, if_pos hactive]
    exact balanced_same hi hd rfl rfl rfl
  | @buffered c fs port val hport hone hactive =>
    have hd : creates K c (.accept port (some val)) = 1 := by
      rw [creates, if_pos hone, hactive, if_neg Bool.false_ne_true, hone]
    show Balanced K _ (created + creates K c _) (processed + 0)
    rw [hd]
    exact balanced_wait hi (Idle.not_staging hfed) (filled_single (by omega))
  | @fresh c fs port val hport hone hgap =>
    have hd : creates K c (.accept port (some val)) = 1 := by rw [creates, if_neg hone]
    show Balanced K _ (created + creates K c _) (processed + 0)
    rw [hd]
    exact balanced_wait hi (Idle.not_staging hfed) (filled_single hport)
  | @fill c fs port val id set hport hone hgap hnot =>
    have hd : creates K c (.accept port (some val)) = 1 := by rw [creates, if_neg hone]
    show Balanced K _ (created + creates K c _) (processed + 0)
    rw [hd]
    have hs := Idle.not_staging hfed
    obtain ⟨left, right, hitems, hbalance, hfilled, hset⟩ := balanced_gap hi hs hport hgap
    have hrest : rest
      ⟨(c.note port val).write id (Function.update set port (some val)), fs⟩ =
        (left ++ (id, Function.update set port (some val)) :: right).map Prod.snd := by
      rw [rest_idle hs, ← Deque.write_split hitems]
      rfl
    refine ⟨?_, fun set' hset' => ?_⟩
    · rw [hrest, valuesIn_split, hset, hbalance, held_eq_nil hs]
      show _ = processed + 0 + _ + K.nInputs * 0
      omega
    · rw [hrest, List.mem_map] at hset'
      obtain ⟨x, hx, rfl⟩ := hset'
      rcases List.mem_append.mp hx with hx | hx
      · exact hfilled _ (List.mem_map_of_mem (List.mem_append_left _ hx))
      · rcases List.mem_cons.mp hx with rfl | hx
        · rw [hset]
          exact Nat.succ_ne_zero _
        · exact hfilled _ (List.mem_map_of_mem (List.mem_append_right _ hx))
  | @complete c fs port val id set hport hone hgap hready hactive =>
    have hd : creates K c (.accept port (some val)) = 1 := by rw [creates, if_neg hone]
    show Balanced K _ (created + creates K c _) (processed + 0)
    rw [hd]
    have hs := Idle.not_staging hfed
    obtain ⟨left, right, hitems, hbalance, hfilled, hset⟩ := balanced_gap hi hs hport hgap
    rw [filled_ready hready] at hset
    refine balanced_hand hs (Deque.write_split (Deque.write_split hitems _) _) ?_ hfilled
    rw [hbalance, hset]
    omega
  | activate _ | connect _ | connectFlush _ _ | staged | exit _ | flushed _ | flush _ _ | pop =>
    exact balanced_same hi rfl rfl rfl rfl
  | @relay c fs search port val outs com peerPort _ | @hold c fs search port val outs _ =>
    have he : discount K (.staging search ((port, val) :: outs)) =
        0 := by cases search <;> rfl
    exact balanced_same hi rfl he rfl rfl
  | @erased c fs it hv =>
    -- the set was counted whole while it was held
    have hbalance : created = processed +
      valuesIn K (rest ⟨c, .staging (some it) [] :: fs⟩) +
        K.nInputs * ((held fs).length + 1) := hi.balance
    have hrest : rest
        ⟨{ c with active := K.persistent, incoming := c.incoming.without it.id }, fs⟩ =
        rest ⟨c, .staging (some it) [] :: fs⟩ := rest_erased
    refine ⟨?_, ?_⟩
    · rw [hrest]
      show created = processed + K.nInputs + _ + K.nInputs * (held fs).length
      rw [Nat.mul_add, Nat.mul_one] at hbalance
      omega
    · rw [hrest]
      exact hi.filled
  | @loop c fs id set hactive hready =>
    obtain rfl := hn.activating_last
    have hs : ¬ Staging [(.activating : Frame V)] := fun ⟨f, hf, hs⟩ => by
      rw [List.mem_singleton.mp hf] at hs
      cases hs
    obtain ⟨hset, left, right, hitems, _⟩ := Deque.findFront_some hready
    obtain ⟨hbalance, hfilled⟩ := balanced_split hi hs hitems
    rw [filled_ready hset] at hbalance
    exact balanced_hand hs (Deque.write_split hitems _) hbalance hfilled

end Moves

/-- What is asked of the totals when no member function of the component is in progress
but the flushing of an output. -/
structure Accounted (K : Class σ V) (t : Tally σ V) : Prop where
  /-- Their difference is the number of values in `incoming`, -/
  balance : (t.created : Int) - t.processed = valuesIn K t.com.incoming.values
  /-- so it is not negative, -/
  nonneg : 0 ≤ (t.created : Int) - t.processed
  /-- and zero exactly when nothing waits. -/
  zero : (t.created : Int) - t.processed = 0 ↔
    ∀ set ∈ t.com.incoming.values, ∀ i < K.nInputs, set i = none
  /-- No set without a value is kept. -/
  empty : (t.created : Int) - t.processed = 0 ↔ t.com.incoming.values = []

section Runs

variable {K : Class σ V} {typeOf : V → Option String} {com : Nat} {s : Counted σ V}

/-- What every run without feedback keeps. -/
theorem reachable_balanced
    (h : (countedSystem K typeOf com).Reachable (fun s t => Unfed s.view t) s) :
    Nested s.frames ∧ Balanced K s.view s.tally.created s.tally.processed := by
  refine h.invariant (I := fun s => Nested s.frames ∧
    Balanced K s.view s.tally.created s.tally.processed) ?_ ?_
  · intro s hs
    obtain rfl := hs
    exact ⟨.nil, rfl, fun _ hset => absurd hset List.not_mem_nil⟩
  · intro s t s' ⟨hn, hi⟩ hfed hs
    obtain ⟨hmove, hcreated, hprocessed⟩ := step_counts hs
    refine ⟨nested_move hn hmove, ?_⟩
    rw [hcreated, hprocessed]
    exact balanced_move hn hi hfed hmove

/-- **Quiescence is accounted for**: in every run of a component whose actions do not
feed back into it, after each call of `accept` and `activate` the values passed to
`QdCreate` and not to `QdProcess` are as many as wait in `incoming`. -/
theorem pending_balance
    (h : (countedSystem K typeOf com).Reachable (fun s t => Unfed s.view t) s)
    (hidle : Idle s.frames) : Accounted K s.tally := by
  obtain ⟨_, hi⟩ := reachable_balanced h
  have hrest : rest s.view = s.tally.com.incoming.values := rest_idle hidle.not_staging
  have hbalance : s.tally.created = s.tally.processed +
      valuesIn K s.tally.com.incoming.values := by
    have hbalance := hi.balance
    rw [hrest, show held s.view.frames =
      [] from held_eq_nil hidle.not_staging] at hbalance
    exact hbalance
  have hzero : (s.tally.created : Int) - s.tally.processed = 0 ↔
      ∀ set ∈ s.tally.com.incoming.values, ∀ i < K.nInputs, set i = none := by
    rw [← valuesIn_eq_zero]
    omega
  refine ⟨by omega, by omega, hzero, hzero.trans ⟨fun hnone => ?_, fun hnil => ?_⟩⟩
  · refine List.eq_nil_iff_forall_not_mem.mpr fun set hset => ?_
    exact hi.filled set (hrest ▸ hset) (filled_eq_zero.mpr (hnone set hset))
  · rw [hnil]
    exact fun _ hset => absurd hset List.not_mem_nil

end Runs

instance (l : Local σ V) (t : Turn V) : Decidable (Unfed l t) :=
  match t with
  | .accept _ _ => inferInstanceAs (Decidable (Idle l.frames))
  | .activate | .outputTo _ _ _ | .resume => isTrue trivial

/-- A component with two inputs is given three values before it is activated; the
set that is complete then goes to its action, and one value waits. -/
def threeValues : List (Turn Nat) :=
  [.accept 0 (some 1), .accept 0 (some 2), .accept 1 (some 3), .activate, .resume,
    .resume, .resume, .resume]

theorem pending_balance_pair : ∃ s : Counted Unit Nat,
    (countedSystem (pair 1) intType 1).follow (fun s t => decide (Unfed s.view t))
      ⟨⟨.new (pair 1), 0, 0⟩, []⟩ threeValues = some s ∧
    s.tally.created = 3 ∧ s.tally.processed = 2 ∧ Accounted (pair 1) s.tally := by
  have hrun : ((countedSystem (pair 1) intType 1).follow
    (fun s t => decide (Unfed s.view t))
      ⟨⟨.new (pair 1), 0, 0⟩, []⟩ threeValues).map
      (fun s => (s.tally.created, s.tally.processed, s.frames.length)) =
      some (3, 2, 0) := by
    decide +kernel
  obtain ⟨s, hs, hsum⟩ := Option.map_eq_some_iff.mp hrun
  obtain ⟨hcreated, hprocessed, hframes⟩ := And.imp_right Prod.mk.inj (Prod.mk.inj hsum)
  refine ⟨s, hs, hcreated, hprocessed, pending_balance (Transition.follow_reachable
    (fun _ _ hc => of_decide_eq_true hc) _ (.init rfl) hs) ?_⟩
  rw [List.eq_nil_of_length_eq_zero hframes]
  exact fun _ hf => absurd hf List.not_mem_nil

end CharmExperiments.Comex
