import CharmExperiments.Comex.Activation
import CharmExperiments.Comex.Reentry
import Mathlib.Algebra.BigOperators.Group.Finset.Basic
import Mathlib.Algebra.Order.BigOperators.Group.Finset

/-!
# The exchange of the dataflow test

`archive/tests/comex/tester.cc`: every exchanger of an array has an adder and a
consumer, and when it is constructed sends `kNumIters` messages to the adders of an
even and of an odd exchanger. Even exchangers have an `adder<int, double>` and odd
ones an `adder<double, int>`; what is added goes to the exchanger's own consumer.

A message carries the component and the port in its reference number, and its data
as bytes: the acceptor of the port takes them for a value of the port's type,
whatever they are. A value that is relayed does get checked, but goes to the
components of `locality_::context()`, which all exchangers of a PE share.

Mirroring notes:
- A PE is a process of its own (no SMP build): `locality_::context_` is a plain static.
- Entry methods of the exchangers on one PE run one after the other; `stack` has the
  calls in progress on a PE, each with its exchanger. The constructor makes its calls
  on the new components before any message can reach them (`components`).
- The runtime delivers messages in any order, and not before the exchanger is
  constructed. `home` places the exchangers on PEs.
- `double` is a parameter: the conversion of an `int`, the sum and the default.
- The consumer's printing is left out.
-/

namespace CharmExperiments.Comex

open CharmExperiments.Lib

/-- `default_data_<double>::value`, and what is done with a `double`. -/
structure Double (D : Type) where
  ofInt : Int → D
  add : D → D → D
  value : D

/-- A `typed_value`, or the data of a message. -/
inductive Value (D : Type)
  | int (i : Int)
  | double (d : D)

variable {D : Type}

def Value.type : Value D → String
  | .int _ => "int"
  | .double _ => "double"

/-- `get_type`. -/
def getType (v : Value D) : Option String := some v.type

/-- `**(std::get<0>(set)) + **(std::get<1>(set))`. -/
def sum (F : Double D) : Option (Value D) → Option (Value D) → Option (Value D)
  | some (.int i), some (.double d) => some (.double (F.add (F.ofInt i) d))
  | some (.double d), some (.int i) => some (.double (F.add d (F.ofInt i)))
  | _, _ => none

/-- `adder<Ts...>`, by the types of its two inputs. -/
def adder (F : Double D) (inTypes : Nat → String) : Class Unit (Value D) where
  nInputs := 2
  nOutputs := 1
  inputs := Nat.zero_lt_two
  inTypes := inTypes
  persistent := true
  start := ()
  action _ set := ((), set, fun _ => sum F (set 0) (set 1))

/-- `consumer<double>`. -/
def consumer : Class Unit (Value D) where
  nInputs := 1
  nOutputs := 0
  inputs := Nat.zero_lt_one
  inTypes _ := "double"
  persistent := true
  start := ()
  action _ set := ((), set, fun _ => none)

/-- The input types of the adder of exchanger `mine`: an even one adds to an `int` a
`double`, an odd one to a `double` an `int`. -/
def adderTypes (mine port : Nat) : String := if (mine + port) % 2 = 0 then "int"
    else "double"

/-- The component types of exchanger `mine`. -/
def classOf (F : Double D) (mine com : Nat) : Class Unit (Value D) :=
  if com = mine + 1 then consumer else adder F (adderTypes mine)

/-- `default_data_<int>::value`. -/
def defaultInt : Int := 87654321

/-! ## The messages -/

/-- A `CkDataMsg`: its reference number and its data. -/
structure DataMsg (D : Type) where
  refnum : Nat
  data : Value D

/-- `kNumIters`. -/
def kNumIters : Nat := 8

/-- The exchangers that `mine` sends to, of `kNumElts`. -/
def even (kNumElts mine : Nat) : Nat := (mine + (2 - mine % 2)) % kNumElts

def odd (kNumElts mine : Nat) : Nat := (mine + mine % 2 + 1) % kNumElts

/-- The message of round `it`, with the exchanger it goes to. -/
def message (F : Double D) (kNumElts mine it : Nat) : Nat × DataMsg D :=
  let dstPort := it % 4 / 2
  let dstCom := if it % 2 = 0 then even kNumElts mine else odd kNumElts mine
  let data : Value D :=
    if (even kNumElts mine = dstCom ∧ dstPort = 0) ∨ (odd kNumElts mine = dstCom ∧ dstPort ≠ 0) then
      .int defaultInt
    else .double F.value
  (dstCom, ⟨(dstCom % 256) * 256 ||| (0xFF &&& dstPort), data⟩)

/-- `do_sends`. -/
def doSends (F : Double D) (kNumElts mine : Nat) : List (Nat × DataMsg D) :=
  (List.range kNumIters).map (message F kNumElts mine)

/-- The low byte of the reference number, -/
def DataMsg.port (msg : DataMsg D) : Nat := msg.refnum % 256

/-- and the one above it. -/
def DataMsg.com (msg : DataMsg D) : Nat := msg.refnum / 256 % 256

/-! ## The exchangers -/

/-- How the test goes wrong. -/
inductive Crash
  | component (f : Failure)
  /-- `components_[com]` is null. -/
  | noComponent (com : Nat)
  /-- The data of a message are taken for a value of another type. -/
  | misread (com port : Nat)
  /-- `locality_::context()` is null. -/
  | noContext
  /-- `CkEnforce(mine <= std::numeric_limits<std::uint8_t>::max())`. -/
  | tooMany
deriving DecidableEq, Repr

/-- All exchangers, the PEs they run on and the messages under way. -/
structure Exchange (D : Type) where
  /-- The exchangers constructed so far, the first one first. -/
  constructed : List Nat
  /-- `components_` of every exchanger. -/
  components : Nat → Nat → Option (Component Unit (Value D))
  /-- `locality_::context_` on every PE. -/
  context : Nat → Option Nat
  /-- The calls in progress on every PE, innermost first, with their exchangers. -/
  stack : Nat → List (Nat × Pending (Value D))
  inFlight : List (Nat × DataMsg D)
  crash : Option Crash

/-- What happens next. -/
inductive Event
  | construct (mine : Nat)
  /-- The `k`-th of the messages in flight is handed over. -/
  | deliver (k : Nat)
  /-- PE `pe` goes on. -/
  | proceed (pe : Nat)

/-- What the constructor does with the new components: it activates the consumer and the
adder, and wires them up. -/
def wiring (mine : Nat) : List (Act (Value D)) :=
  [.activate (mine + 1), .proceed, .activate mine, .proceed,
    .outputTo mine 0 (mine + 1) 0, .proceed]

/-- The components that the constructor puts into `components_`. -/
def components (F : Double D) (mine com : Nat) : Option (Component Unit (Value D)) :=
  if com = mine ∨ com = mine + 1 then
    ((system (classOf F mine) getType).run (.init (classOf F mine)) (wiring mine)).map
      (·.components com)
  else none

namespace Exchange

variable (F : Double D) (kNumElts : Nat) (home : Nat → Nat)

def start : Exchange D := ⟨[], fun _ _ => none, fun _ => none, fun _ => [], [], none⟩

/-- Component `com` of exchanger `e` has changed to `c`; its frames and the calls it makes
are on the stack of `pe` over `rest`. -/
def put (s : Exchange D) (pe e com : Nat) (c : Component Unit (Value D))
    (top rest : List (Nat × Pending (Value D))) : Exchange D :=
  { s with
    components :=
      Function.update s.components e (Function.update (s.components e) com (some c))
    stack := Function.update s.stack pe (top ++ rest) }

/-- The frames of component `com` of exchanger `e`. -/
def frames (e com : Nat) (fs : List (Frame (Value D))) : List (Nat × Pending (Value D)) :=
  fs.map fun f => (e, .frame com f)

/-- `locality_::context()->accept(...)`, for the value that is relayed, if any. -/
def relay (context : Option Nat) :
    Option (Relay (Value D)) → Except Crash (List (Nat × Pending (Value D)))
  | none => .ok []
  | some r =>
    match context with
    | none => .error .noContext
    | some e => .ok [(e, .call r.com r.port r.val)]

/-- `components_[com]`. -/
def component (s : Exchange D) (e com : Nat) : Except Crash (Component Unit (Value D)) :=
  match s.components e com with
  | none => .error (.noComponent com)
  | some c => .ok c

/-- The entry method `accept` of exchanger `e`. -/
def accept (s : Exchange D) (e : Nat) (msg : DataMsg D) : Except Crash (Exchange D) := do
  let s := { s with context := Function.update s.context (home e) (some e) }
  let c ← s.component e msg.com
  if msg.port < (classOf F e msg.com).nInputs then
    if msg.data.type = (classOf F e msg.com).inTypes msg.port then
      let (c, fs) := c.accept (classOf F e msg.com) msg.port msg.data
      return s.put (home e) e msg.com c (frames e msg.com fs) []
    else throw (.misread msg.com msg.port)
  else throw (.component (.abort "port out of range!"))

/-- Enters the call that is innermost on `pe`, or goes on with it. -/
def proceed (s : Exchange D) (pe : Nat) (rest : List (Nat × Pending (Value D))) :
    Nat × Pending (Value D) → Except Crash (Exchange D)
  | (e, .call com port val) => do
    let c ← s.component e com
    let (c, fs) ← (c.baseAccept (classOf F e com) getType com port
      val).mapError .component
    return s.put pe e com c (frames e com fs) rest
  | (e, .frame com f) => do
    let c ← s.component e com
    let (c, fs, r) ← (c.resume (classOf F e com) f).mapError .component
    let calls ← relay (s.context pe) r
    return s.put pe e com c (calls ++ frames e com fs) rest

/-- The constructor of exchanger `mine`. -/
def construct (s : Exchange D) (mine : Nat) : Except Crash (Exchange D) :=
  if mine ≤ 255 then
    .ok { s with
      constructed := s.constructed ++ [mine]
      components := Function.update s.components mine (Comex.components F mine)
      context := Function.update s.context (home mine) (some mine)
      inFlight := s.inFlight ++ doSends F kNumElts mine }
  else .error .tooMany

/-- A crash ends the test. -/
def after (s : Exchange D) : Except Crash (Exchange D) → Exchange D
  | .ok s' => s'
  | .error c => { s with crash := some c }

/-- One step. -/
def step (s : Exchange D) : Event → Option (Exchange D)
  | .construct mine =>
    if s.crash = none ∧ mine < kNumElts ∧ mine ∉ s.constructed ∧ s.stack (home mine) = [] then
      some (s.after (s.construct F kNumElts home mine))
    else none
  | .deliver k =>
    match s.inFlight[k]? with
    | none => none
    | some (e, msg) =>
      if s.crash = none ∧ e ∈ s.constructed ∧ s.stack (home e) = [] then
        some (s.after ({ s with inFlight := s.inFlight.eraseIdx k }.accept F home e msg))
      else none
  | .proceed pe =>
    match s.stack pe with
    | [] => none
    | top :: rest => if s.crash = none then some (s.after (s.proceed F pe rest top))
      else none

end Exchange

/-- The test as a transition system. -/
def exchangeSystem (F : Double D) (kNumElts : Nat) (home : Nat → Nat) :
    Transition (Exchange D) Event where
  init s := s = .start
  step := Exchange.step F kNumElts home

/-! ## What is sent -/

/-- A value as the adder of exchanger `e` expects it at `port`. -/
def letter (F : Double D) (e port : Nat) : Value D :=
  if (e + port) % 2 = 0 then .int defaultInt else .double F.value

theorem letter_type (F : Double D) (e port : Nat) :
    (letter F e port).type = adderTypes e port := by
  unfold letter adderTypes
  split <;> rfl

/-- A message to input `port` of the adder of exchanger `e`. -/
def addressed (F : Double D) (e port : Nat) : Nat × DataMsg D :=
  (e, ⟨e * 256 + port, letter F e port⟩)

section Messages

variable {F : Double D} {kNumElts mine : Nat}

theorem addressed_port {e port : Nat} (hport : port < 256) :
    (addressed F e port).2.port = port := by
  show (e * 256 + port) % 256 = port
  omega

theorem addressed_com {e port : Nat} (he : e < 256) (hport : port < 256) :
    (addressed F e port).2.com = e := by
  show (e * 256 + port) / 256 % 256 = e
  omega

/-- The two bytes of a reference number do not overlap. -/
theorem refnum_eq {e port : Nat} (he : e < 256) (hport : port < 256) :
    (e % 256) * 256 ||| (0xFF &&& port) = e * 256 + port := by
  have hmask : 0xFF &&& port = port := by
    rw [Nat.and_comm]
    exact (Nat.and_two_pow_sub_one_eq_mod port 8).trans (Nat.mod_eq_of_lt hport)
  rw [hmask, Nat.mod_eq_of_lt he, Nat.mul_comm]
  exact (Nat.two_pow_add_eq_or_of_lt (i := 8) hport e).symm

theorem even_lt (mine : Nat) (hpos : 0 < kNumElts) : even kNumElts mine < kNumElts :=
  Nat.mod_lt _ hpos

theorem odd_lt (mine : Nat) (hpos : 0 < kNumElts) : odd kNumElts mine < kNumElts :=
  Nat.mod_lt _ hpos

/-- With an even number of exchangers the names of the two destinations are right. -/
theorem even_even (mine : Nat) (hn : kNumElts % 2 = 0) : even kNumElts mine % 2 = 0 := by
  rw [even, Nat.mod_mod_of_dvd _ (Nat.dvd_of_mod_eq_zero hn)]
  omega

theorem odd_odd (mine : Nat) (hn : kNumElts % 2 = 0) : odd kNumElts mine % 2 = 1 := by
  rw [odd, Nat.mod_mod_of_dvd _ (Nat.dvd_of_mod_eq_zero hn)]
  omega

/-- **Every message is fit for its destination.** -/
theorem message_eq (hn : kNumElts % 2 = 0) (hpos : 0 < kNumElts)
    (hle : kNumElts ≤ 256) (it : Nat) :
    message F kNumElts mine it = addressed F
      (if it % 2 = 0 then even kNumElts mine else odd kNumElts mine) (it % 4 / 2) := by
  have heven := even_even mine hn
  have hodd := odd_odd mine hn
  have heven_lt := even_lt mine hpos
  have hodd_lt := odd_lt mine hpos
  have hport : it % 4 / 2 < 2 := by omega
  unfold message addressed letter
  dsimp only
  by_cases hit : it % 2 = 0
  · rw [if_pos hit, refnum_eq (by omega) (by omega)]
    refine congrArg (fun data => (_, DataMsg.mk _ data)) (if_congr ?_ rfl rfl)
    omega
  · rw [if_neg hit, refnum_eq (by omega) (by omega)]
    refine congrArg (fun data => (_, DataMsg.mk _ data)) (if_congr ?_ rfl rfl)
    omega

/-- The eight messages. -/
theorem doSends_eq (mine : Nat) (hn : kNumElts % 2 = 0) (hpos : 0 < kNumElts)
    (hle : kNumElts ≤ 256) :
    doSends F kNumElts mine =
      [addressed F (even kNumElts mine) 0, addressed F (odd kNumElts mine) 0,
        addressed F (even kNumElts mine) 1, addressed F (odd kNumElts mine) 1,
        addressed F (even kNumElts mine) 0, addressed F (odd kNumElts mine) 0,
        addressed F (even kNumElts mine) 1, addressed F (odd kNumElts mine) 1] := by
  rw [doSends, List.map_congr_left fun it _ => message_eq hn hpos hle it]
  rfl

/-- A message is for input `port` of exchanger `e`. -/
def isTo (e port : Nat) (x : Nat × DataMsg D) : Bool := x.1 == e && x.2.port == port

theorem isTo_addressed {e e' port port' : Nat} (hport : port < 256) :
    isTo e' port' (addressed F e port) = (e == e' && port == port') := by
  rw [isTo, addressed_port hport]
  rfl

/-- To either destination go two messages for each input. -/
theorem doSends_count (hn : kNumElts % 2 = 0) (hpos : 0 < kNumElts) (hle : kNumElts ≤ 256)
    {e port : Nat}
    (hport : port < 2) :
    (doSends F kNumElts mine).countP (isTo e port) =
      if even kNumElts mine = e ∨ odd kNumElts mine = e then 2 else 0 := by
  have hne : even kNumElts mine ≠ odd kNumElts mine := fun heq => by
    have heven := even_even mine hn
    have hodd := odd_odd mine hn
    omega
  rw [doSends_eq mine hn hpos hle]
  simp only [List.countP_cons, List.countP_nil, isTo_addressed (Nat.zero_lt_succ _),
    isTo_addressed (show 1 < 256 by omega), Bool.and_eq_true, beq_iff_eq]
  obtain rfl | rfl : port = 0 ∨ port = 1 := by omega
  all_goals
    by_cases heven : even kNumElts mine = e
    · have hodd : odd kNumElts mine ≠ e := fun h => hne (heven.trans h.symm)
      simp [heven, hodd]
    · by_cases hodd : odd kNumElts mine = e
      · simp [heven, hodd]
      · simp [heven, hodd]

theorem even_eq_iff {m e : Nat} (hn : kNumElts % 2 = 0) (hm : m < kNumElts)
    (he : e < kNumElts) :
    even kNumElts m = e ↔
      m + (2 - m % 2) = e ∨ (m + (2 - m % 2) = kNumElts ∧ e = 0) := by
  unfold even
  by_cases hlast : m + (2 - m % 2) = kNumElts
  · rw [hlast, Nat.mod_self]
    omega
  · rw [Nat.mod_eq_of_lt (by omega)]
    omega

theorem odd_eq_iff {m e : Nat} (hn : kNumElts % 2 = 0) (hm : m < kNumElts)
    (he : e < kNumElts) :
    odd kNumElts m = e ↔ m + m % 2 + 1 = e ∨ (m + 1 = kNumElts ∧ e = 1) := by
  unfold odd
  by_cases hlast : m + 1 = kNumElts
  · rw [show m + m % 2 + 1 = kNumElts + 1 by omega, Nat.add_mod_left,
      Nat.mod_eq_of_lt (by omega)]
    omega
  · rw [Nat.mod_eq_of_lt (by omega)]
    omega

/-- Every exchanger is a destination of two. -/
theorem senders (hn : kNumElts % 2 = 0) {e : Nat} (he : e < kNumElts) :
    ((Finset.range kNumElts).filter fun m => even kNumElts m = e ∨
      odd kNumElts m = e).card = 2 := by
  rw [Finset.card_eq_two]
  -- for an even exchanger the pair before it, for an odd one the two before it
  refine ⟨if e % 2 = 0 then (if e = 0 then kNumElts - 2 else e - 2) else e - 1,
    if e % 2 = 0 then (if e = 0 then kNumElts - 1 else e - 1)
      else (if e = 1 then kNumElts - 1 else e - 2), ?_, ?_⟩
  · split_ifs <;> omega
  · ext m
    rw [Finset.mem_filter, Finset.mem_range, Finset.mem_insert, Finset.mem_singleton]
    by_cases hm : m < kNumElts
    · rw [even_eq_iff hn hm he, odd_eq_iff hn hm he]
      split_ifs <;> omega
    · split_ifs <;> omega

end Messages

/-! ## The components of one exchanger -/

/-- A set as the adder of exchanger `e` is to get it. -/
def inputs (F : Double D) (e : Nat) : InSet (Value D) := fun port =>
  if port < 2 then some (letter F e port) else none

/-- What the adder makes of it. -/
def total (F : Double D) (e : Nat) : D :=
  if e % 2 = 0 then F.add (F.ofInt defaultInt) F.value
  else F.add F.value (F.ofInt defaultInt)

theorem sum_inputs (F : Double D) (e : Nat) :
    sum F (inputs F e 0) (inputs F e 1) = some (.double (total F e)) := by
  show sum F (some (letter F e 0)) (some (letter F e 1)) = _
  unfold letter total
  by_cases he : e % 2 = 0
  · rw [if_pos (show (e + 0) % 2 = 0 from he),
      if_neg (show ¬ (e + 1) % 2 = 0 by omega), if_pos he]
    rfl
  · rw [if_neg (show ¬ (e + 0) % 2 = 0 from he),
      if_pos (show (e + 1) % 2 = 0 by omega), if_neg he]
    rfl

theorem classOf_self (F : Double D) (e : Nat) : classOf F e e = adder F (adderTypes e) :=
  if_neg (by omega)

theorem classOf_succ (F : Double D) (e : Nat) : classOf F e (e + 1) = consumer :=
  if_pos rfl

/-- Where an exchanger is in the handling of a message. -/
inductive Phase
  | idle
  /-- The adder has run and its sum is to be delivered. -/
  | staged
  /-- The consumer is called. -/
  | called
  | consumed
  /-- The consumer has returned, and the set is to be erased. -/
  | erasing
deriving DecidableEq

/-- The calls in progress. -/
def Phase.stack (F : Double D) (e : Nat) (it : Deque.Iterator) :
    Phase → List (Pending (Value D))
  | .idle => []
  | .staged => [.frame e (.staging (some it) [(0, some (.double (total F e)))])]
  | .called => [.call (e + 1) 0 (some (.double (total F e))),
    .frame e (.staging (some it) [])]
  | .consumed => [.frame (e + 1) (.staging none []), .frame e (.staging (some it) [])]
  | .erasing => [.frame e (.staging (some it) [])]

/-- The sums that the consumer has yet to get. -/
def Phase.behind : Phase → Nat
  | .staged | .called => 1
  | _ => 0

/-- The steps left. -/
def Phase.work : Phase → Nat
  | .idle => 0
  | .staged => 4
  | .called => 3
  | .consumed => 2
  | .erasing => 1

/-- No component is called while its own action is running. -/
def NoReentry (n : Network Unit (Value D)) (a : Act (Value D)) : Prop :=
  match n.turn a with
  | some (d, .accept _ _) => Idle (n.view d).frames
  | _ => True

instance (n : Network Unit (Value D)) (a : Act (Value D)) :
    Decidable (NoReentry n a) := by
  unfold NoReentry
  split <;> infer_instance

/-- The components of exchanger `e`, wired up. -/
structure Exchanger (F : Double D) (e : Nat) (ph : Phase) (n : Network Unit (Value D)) :
    Prop where
  run : (system (classOf F e) getType).Reachable NoReentry n
  stack : ∃ it, n.stack = ph.stack F e it ∧
    (ph ≠ .idle → (n.components e).incoming.Valid it)
  active : (n.components e).active = true ∧ (n.components (e + 1)).active = true
  wire : (n.components e).connectors 0 = .kWire (e + 1) 0
  activations : (n.components e).activations = [0]
  letters : ∀ x ∈ (n.components e).accepted, x.2 = letter F e x.1
  consumed : (n.components (e + 1)).acted =
    List.replicate ((n.components e).acted.length - ph.behind)
      (single 0 (.double (total F e)))
  ahead : ph.behind ≤ (n.components e).acted.length
  direct : (n.components (e + 1)).incoming.values = []

section Exchanger

variable {F : Double D} {e : Nat} {ph : Phase} {n : Network Unit (Value D)}

theorem noFeedback (com : Nat) {a : Act (Value D)} (h : NoReentry n a) :
    NoFeedback com n a := by
  unfold NoReentry at h
  unfold NoFeedback
  split
  next d port val hturn =>
    rw [hturn] at h
    intro hd
    exact hd ▸ h
  next => trivial

/-- The adder only gets sets that are fit for it. -/
theorem acted_inputs (h : (system (classOf F e) getType).Reachable NoReentry n)
    (hletters : ∀ x ∈ (n.components e).accepted, x.2 = letter F e x.1) :
    ∀ set ∈ (n.components e).acted, set = inputs F e := by
  obtain ⟨as, ks, hr, _⟩ := reachable_grouping (h.mono fun _ _ hc => noFeedback e hc)
  have hacted : (n.components e).acted = as.map (rank (n.components e).accepted) :=
    hr.acted
  rw [classOf_self] at hr
  intro set hset
  rw [hacted] at hset
  obtain ⟨k, hk, rfl⟩ := List.mem_map.mp hset
  have hlt : ∀ i < 2, k < (on i (n.components e).accepted).length :=
    lt_fewest_iff.mp (hr.complete k hk)
  funext port
  unfold rank inputs
  by_cases hport : port < 2
  · rw [if_pos hport, List.getElem?_eq_getElem (hlt port hport)]
    have hmem := List.getElem_mem (hlt port hport)
    obtain ⟨x, hx, hval⟩ := List.mem_map.mp hmem
    obtain ⟨hx, hxport⟩ := List.mem_filter.mp hx
    have hxport : x.1 = port := of_decide_eq_true hxport
    have hletter := hletters x hx
    rw [hxport] at hletter
    exact congrArg some (hval.symm.trans hletter)
  · rw [if_neg hport]
    have hnil : on port (n.components e).accepted = [] :=
      on_eq_nil hr.ports (Nat.le_of_not_lt hport)
    rw [hnil]
    rfl

/-- The components that the constructor leaves behind. -/
def wired (F : Double D) (e : Nat) : Network Unit (Value D) :=
  ⟨Function.update (Function.update (fun com => .new (classOf F e com)) (e + 1)
    (Component.new consumer).online) e
      ((Component.new (adder F (adderTypes e))).online.connect 0 (e + 1) 0), []⟩

theorem wiring_run (F : Double D) (e : Nat) :
    (system (classOf F e) getType).run (.init (classOf F e)) (wiring e) =
    some (wired F e) := by
  simp [Transition.run, wiring, system, Network.step, Network.init, Network.enter,
    Component.activate, Component.new, Except.toOption, bind, Except.bind,
      pure, Except.pure,
    Network.put, Network.relayed, Network.proceed, Component.resume, Component.online,
    Component.findReady, Deque.findFront, Deque.empty, Component.outputTo,
      Component.connect,
    Connector.ready, wired, classOf_self, classOf_succ]

/-- The loop of `activate` ends at once when there is no set. -/
theorem activate_reachable (com : Nat)
    (hr : (system (classOf F e) getType).Reachable NoReentry n)
    (hstack : n.stack = []) (hactive : (n.components com).active = false)
    (hempty : (n.components com).incoming.items = []) :
    (system (classOf F e) getType).Reachable NoReentry
      ⟨Function.update n.components com (n.components com).online, []⟩ := by
  have hfirst : n.step (classOf F e) getType (.activate com) =
      some (n.put com (n.components com).online [.activating] none []) := by
    simp [Network.step, hstack, Network.enter, Component.activate, hactive, bind,
      Except.bind, pure, Except.pure, Except.toOption]
  have hsecond :
    (n.put com (n.components com).online [.activating] none []).step (classOf F e)
      getType .proceed =
        some ⟨Function.update n.components com (n.components com).online, []⟩ := by
    simp [Network.step, Network.put, Network.relayed, Network.proceed, Component.resume,
      Component.online, Component.findReady, Deque.findFront, hempty, bind,
        Except.bind, pure,
      Except.pure, Except.toOption]
  exact .step (a := .proceed) (.step (a := .activate com) hr trivial hfirst)
    trivial hsecond

/-- Nothing waits for the wire. -/
theorem outputTo_reachable (com peer : Nat)
    (hr : (system (classOf F e) getType).Reachable NoReentry n) (hstack : n.stack = [])
    (hactive : (n.components com).active = true)
    (hwire : (n.components com).connectors 0 = .kInvalid)
    (hempty : (n.components com).buffer 0 = []) :
    (system (classOf F e) getType).Reachable NoReentry
      ⟨Function.update n.components com ((n.components com).connect 0 peer 0), []⟩ := by
  have hfirst : n.step (classOf F e) getType (.outputTo com 0 peer 0) =
      some (n.put com ((n.components com).connect 0 peer 0) [.flushing 0 false]
        none []) := by
    simp [Network.step, hstack, Network.enter, Component.outputTo, Component.connect,
      hactive, hwire, Connector.ready, bind, Except.bind, pure, Except.pure,
        Except.toOption]
  have hsecond :
    (n.put com ((n.components com).connect 0 peer 0) [.flushing 0 false] none []).step
      (classOf F e) getType .proceed =
      some ⟨Function.update n.components com ((n.components com).connect 0 peer 0),
        []⟩ := by
    simp [Network.step, Network.put, Network.relayed, Network.proceed, Component.resume,
      Component.connect, hempty, bind, Except.bind, pure, Except.pure, Except.toOption]
  exact .step (a := .proceed) (.step (a := .outputTo com 0 peer 0) hr trivial hfirst)
    trivial hsecond

/-- **The constructor leaves the components fit for the messages.** -/
theorem wired_exchanger (F : Double D) (e : Nat) : Exchanger F e .idle (wired F e) := by
  have hne : e ≠ e + 1 := by omega
  have hself : (wired F e).components e =
      (Component.new (adder F (adderTypes e))).online.connect 0 (e + 1) 0 :=
    Function.update_self _ _ _
  have hsucc : (wired F e).components (e + 1) = (Component.new consumer).online :=
    (Function.update_of_ne hne.symm _ _).trans (Function.update_self _ _ _)
  have hrun : (system (classOf F e) getType).Reachable NoReentry (wired F e) := by
    have hconsumer := activate_reachable (e + 1)
      (.init (T := system (classOf F e) getType) (C := NoReentry) rfl) rfl rfl rfl
    have hnew : Function.update (Network.init (classOf F e)).components (e + 1)
        ((Network.init (classOf F e)).components (e + 1)).online e =
        .new (classOf F e e) :=
      Function.update_of_ne hne _ _
    have hadder := activate_reachable e hconsumer rfl (congrArg Component.active hnew)
      (congrArg (·.incoming.items) hnew)
    have honline :
      Function.update (Function.update (Network.init (classOf F e)).components (e + 1)
        ((Network.init (classOf F e)).components (e + 1)).online) e
        (Function.update (Network.init (classOf F e)).components (e + 1)
          ((Network.init (classOf F e)).components (e + 1)).online e).online e =
        (Component.new (classOf F e e)).online := by
      rw [Function.update_self, hnew]
    have hwire := outputTo_reachable e (e + 1) hadder rfl
      (congrArg Component.active honline) (congrArg (·.connectors 0) honline)
      (congrArg (·.buffer 0) honline)
    dsimp only at hwire
    rw [honline, Function.update_idem, classOf_self] at hwire
    exact hwire
  refine ⟨hrun, ⟨⟨0, 0⟩, rfl, fun h => absurd rfl h⟩, ?_, ?_, ?_, ?_, ?_,
    Nat.zero_le _, ?_⟩
  · rw [hself, hsucc]
    exact ⟨rfl, rfl⟩
  · rw [hself]
    rfl
  · rw [hself]
    rfl
  · rw [hself]
    exact fun _ hx => absurd hx List.not_mem_nil
  · rw [hself, hsucc]
    rfl
  · rw [hsucc]
    rfl

theorem components_eq (F : Double D) (e com : Nat) :
    components F e com =
      if com = e ∨ com = e + 1 then some ((wired F e).components com) else none := by
  unfold components
  rw [wiring_run]
  rfl

theorem proceed_reachable {top : Pending (Value D)} {rest : List (Pending (Value D))}
    {n' : Network Unit (Value D)}
    (hr : (system (classOf F e) getType).Reachable NoReentry n)
    (hstack : n.stack = top :: rest)
    (hidle : ∀ com port val, top = .call com port val → Idle (n.view com).frames)
    (hn' : n.proceed (classOf F e) getType top rest = .ok n') :
    (system (classOf F e) getType).Reachable NoReentry n' := by
  refine .step (a := .proceed) hr ?_ ?_
  · unfold NoReentry Network.turn
    dsimp only
    rw [hstack]
    cases top with
    | call com port val => exact hidle com port val rfl
    | frame com f => trivial
  · show n.step (classOf F e) getType .proceed = some n'
    unfold Network.step
    rw [hstack]
    show (n.proceed (classOf F e) getType top rest).toOption = some n'
    rw [hn']
    rfl

theorem put_self {com : Nat} {c : Component Unit (Value D)} {fs : List (Frame (Value D))}
    {r : Option (Relay (Value D))} {rest : List (Pending (Value D))} :
    (n.put com c fs r rest).components com = c :=
  Function.update_self _ _ _

theorem put_other {com d : Nat} {c : Component Unit (Value D)}
    {fs : List (Frame (Value D))}
    {r : Option (Relay (Value D))} {rest : List (Pending (Value D))} (hne : d ≠ com) :
    (n.put com c fs r rest).components d = n.components d :=
  Function.update_of_ne hne _ _

/-- The consumer takes a sum. -/
theorem consumer_accept {c : Component Unit (Value D)} {v : Value D}
    (hactive : c.active = true) :
    c.accept consumer 0 v = ((c.note 0 v).act consumer none (single 0 v),
      [.staging none []]) := by
  have hone : (consumer (D := D)).nInputs = 1 := rfl
  have hnote : (c.note 0 v).active = true := hactive
  unfold Component.accept
  dsimp only
  rw [if_pos hone]
  unfold Component.directStage
  rw [if_pos hnote, stageAction_active hnote]
  rfl

theorem proceed_frame (rest : List (Pending (Value D))) {com : Nat} {f : Frame (Value D)}
    {c : Component Unit (Value D)} {fs : List (Frame (Value D))}
    {r : Option (Relay (Value D))}
    (h : (n.components com).resume (classOf F e com) f = .ok (c, fs, r)) :
    n.proceed (classOf F e) getType (.frame com f) rest =
      .ok (n.put com c fs r rest) := by
  show ((n.components com).resume (classOf F e com) f >>= _) = _
  rw [h]
  rfl

theorem proceed_call (rest : List (Pending (Value D))) {com port : Nat}
    {val : Option (Value D)}
    {c : Component Unit (Value D)} {fs : List (Frame (Value D))}
    (h : (n.components com).baseAccept (classOf F e com) getType com port val =
      .ok (c, fs)) :
    n.proceed (classOf F e) getType (.call com port val) rest =
      .ok (n.put com c fs none rest) := by
  show ((n.components com).baseAccept (classOf F e com) getType com port val >>= _) = _
  rw [h]
  rfl

/-- **The calls in progress go on**, and what they do is what the phase says. -/
theorem proceed_exchanger (h : Exchanger F e ph n) (hph : ph ≠ .idle) :
    ∃ top rest n' ph', n.stack = top :: rest ∧ (top.com = e ∨ top.com = e + 1) ∧
      n.proceed (classOf F e) getType top rest = .ok n' ∧ Exchanger F e ph' n' ∧
      ph'.work + 1 = ph.work ∧ (n'.components e).accepted =
        (n.components e).accepted := by
  have hne : e + 1 ≠ e := by omega
  obtain ⟨it, hstack, hvalid⟩ := h.stack
  replace hvalid := hvalid hph
  have hconsumed := h.consumed
  have hahead := h.ahead
  cases ph with
  | idle => exact absurd rfl hph
  | staged =>
    -- the sum goes to the consumer
    have hresume : (n.components e).resume (classOf F e e)
        (.staging (some it) [(0, some (.double (total F e)))]) =
        .ok ({ n.components e with
            relayed := (n.components e).relayed ++ [(0, some (.double (total F e)))] },
          [.staging (some it) []], some ⟨e + 1, 0, some (.double (total F e))⟩) := by
      simp only [Component.resume, h.wire]
    have hn' := proceed_frame [] hresume
    have hreach := proceed_reachable h.run hstack (fun _ _ _ hcall => by cases hcall) hn'
    refine ⟨_, _, _, .called, hstack, Or.inl rfl, hn',
      ⟨hreach, ⟨it, rfl, fun _ => ?_⟩, ?_, ?_, ?_, ?_,
      ?_, ?_, ?_⟩, rfl, ?_⟩
    all_goals first | rw [put_self, put_other hne] | rw [put_self] | rw [put_other hne]
    · exact hvalid
    · exact h.active
    · exact h.wire
    · exact h.activations
    · exact h.letters
    · exact hconsumed
    · exact hahead
    · exact h.direct
  | called =>
    -- the consumer's action runs at once
    have haccept :
      (n.components (e + 1)).baseAccept (classOf F e (e + 1)) getType (e + 1) 0
        (some (.double (total F e))) =
        .ok (((n.components (e + 1)).note 0 (.double (total F e))).act consumer none
          (single 0 (.double (total F e))), [.staging none []]) := by
      rw [classOf_succ, ← consumer_accept h.active.2]
      rfl
    have hn' := proceed_call [.frame e (.staging (some it) [])] haccept
    have hreach := proceed_reachable h.run hstack (fun com _ _ hcall => by
      cases hcall
      intro f hf
      rw [Network.view, hstack] at hf
      simp [Phase.stack, Network.framesOf] at hf) hn'
    refine ⟨_, _, _, .consumed, hstack, Or.inr rfl, hn',
      ⟨hreach, ⟨it, rfl, fun _ => ?_⟩, ?_, ?_, ?_, ?_, ?_, Nat.zero_le _, ?_⟩, rfl, ?_⟩
    all_goals first | rw [put_self,
      put_other hne.symm] | rw [put_self] | rw [put_other hne.symm]
    · exact hvalid
    · exact h.active
    · exact h.wire
    · exact h.activations
    · exact h.letters
    · show (n.components (e + 1)).acted ++ [single 0 (.double (total F e))] = _
      rw [hconsumed, ← List.replicate_succ']
      refine congrArg (List.replicate · _) ?_
      show _ - 1 + 1 = _ - 0
      have hahead : 1 ≤ (n.components e).acted.length := hahead
      omega
    · exact h.direct
  | consumed =>
    have hresume :
      (n.components (e + 1)).resume (classOf F e (e + 1)) (.staging none []) =
        .ok ({ n.components (e + 1) with active := true }, [], none) := by
      rw [classOf_succ]
      rfl
    have hn' := proceed_frame [.frame e (.staging (some it) [])] hresume
    have hreach := proceed_reachable h.run hstack (fun _ _ _ hcall => by cases hcall) hn'
    refine ⟨_, _, _, .erasing, hstack, Or.inr rfl, hn',
      ⟨hreach, ⟨it, rfl, fun _ => ?_⟩, ?_, ?_, ?_, ?_,
      ?_, ?_, ?_⟩, rfl, ?_⟩
    all_goals first | rw [put_self,
      put_other hne.symm] | rw [put_self] | rw [put_other hne.symm]
    · exact hvalid
    · exact ⟨h.active.1, rfl⟩
    · exact h.wire
    · exact h.activations
    · exact h.letters
    · exact hconsumed
    · exact hahead
    · exact h.direct
  | erasing =>
    have hresume : (n.components e).resume (classOf F e e) (.staging (some it) []) =
        .ok ({ n.components e with
          active := true, incoming := (n.components e).incoming.without it.id },
            [], none) := by
      simp only [Component.resume, Deque.erase_eq hvalid, classOf_self]
      rfl
    have hn' := proceed_frame [] hresume
    have hreach := proceed_reachable h.run hstack (fun _ _ _ hcall => by cases hcall) hn'
    refine ⟨_, _, _, .idle, hstack, Or.inl rfl, hn',
      ⟨hreach, ⟨it, rfl, fun h => absurd rfl h⟩, ?_, ?_,
      ?_, ?_, ?_, ?_, ?_⟩, rfl, ?_⟩
    all_goals first | rw [put_self, put_other hne] | rw [put_self] | rw [put_other hne]
    · exact ⟨rfl, h.active.2⟩
    · exact h.wire
    · exact h.activations
    · exact h.letters
    · exact hconsumed
    · exact hahead
    · exact h.direct

/-- **A message is taken**: it waits, or completes a set on which the adder runs. -/
theorem accept_exchanger (h : Exchanger F e .idle n) {port : Nat} (hport : port < 2) :
    ∃ c fs ph', (n.components e).accept (classOf F e e) port (letter F e port) = (c, fs) ∧
      Exchanger F e ph' (n.put e c fs none []) ∧ ph'.work ≤ 4 ∧
      c.accepted = (n.components e).accepted ++ [(port, letter F e port)] := by
  have hne : e + 1 ≠ e := by omega
  obtain ⟨it, hstack, _⟩ := h.stack
  have hstack : n.stack = [] := hstack
  have hconsumed := h.consumed
  obtain ⟨c, fs, heq⟩ : ∃ c fs,
      (n.components e).accept (classOf F e e) port (letter F e port) = (c, fs) :=
    ⟨_, _, rfl⟩
  have hlt : port < (classOf F e e).nInputs := by
    rw [classOf_self]
    exact hport
  -- as the network sees it, a call from outside that is entered
  have hbase : (n.components e).baseAccept (classOf F e e) getType e port
    (some (letter F e port)) =
      .ok (c, fs) := by
    have htype : Component.accepts (classOf F e e) port
        (letter F e port).type = true := by
      rw [Component.accepts, Bool.and_eq_true, decide_eq_true_eq,
        beq_iff_eq, classOf_self]
      exact ⟨hport, letter_type F e port⟩
    simp only [Component.baseAccept, getType, htype, heq, if_true]
  have hcalled : (system (classOf F e) getType).Reachable NoReentry
      { n with stack := [.call e port (some (letter F e port))] } := by
    refine .step (a := .accept e port (some (letter F e port))) h.run trivial ?_
    show n.step (classOf F e) getType _ = _
    unfold Network.step
    rw [hstack]
    rfl
  have hreach :
      (system (classOf F e) getType).Reachable NoReentry (n.put e c fs none []) :=
    proceed_reachable hcalled rfl (fun com _ _ hcall => by
      cases hcall
      intro f hf
      exact absurd hf List.not_mem_nil) (proceed_call _ hbase)
  have hmove : Move (classOf F e e) ⟨n.components e, []⟩
      (.accept port (some (letter F e port))) _ :=
    accept_move hlt
  rw [heq, List.append_nil] at hmove
  have hletters : ∀ x ∈ (n.components e).accepted ++ [(port, letter F e port)], x.2 =
      letter F e x.1 := by
    intro x hx
    rcases List.mem_append.mp hx with hx | hx
    · exact h.letters x hx
    · rw [List.mem_singleton.mp hx]
  refine ⟨c, fs, ?_⟩
  have htwo : (classOf F e e).nInputs ≠ 1 := by
    rw [classOf_self]
    exact Nat.succ_ne_self 1
  cases hmove with
  | direct _ hone _ => exact absurd hone htwo
  | buffered _ hone _ => exact absurd hone htwo
  | fresh _ _ _ =>
    refine ⟨.idle, heq, ⟨hreach, ⟨it, rfl, fun h => absurd rfl h⟩, ?_, ?_, ?_,
      ?_, ?_, ?_, ?_⟩, Nat.zero_le _, rfl⟩
    all_goals first | rw [put_self, put_other hne] | rw [put_self] | rw [put_other hne]
    · exact h.active
    · exact h.wire
    · exact h.activations
    · exact hletters
    · exact hconsumed
    · exact Nat.zero_le _
    · exact h.direct
  | fill _ _ _ _ =>
    refine ⟨.idle, heq, ⟨hreach, ⟨it, rfl, fun h => absurd rfl h⟩, ?_, ?_, ?_,
      ?_, ?_, ?_, ?_⟩, Nat.zero_le _, rfl⟩
    all_goals first | rw [put_self, put_other hne] | rw [put_self] | rw [put_other hne]
    · exact h.active
    · exact h.wire
    · exact h.activations
    · exact hletters
    · exact hconsumed
    · exact Nat.zero_le _
    · exact h.direct
  | @complete _ _ _ _ id set _ _ hgap hready _ =>
    have hset : Function.update set port (some (letter F e port)) = inputs F e := by
      refine acted_inputs hreach ?_ _ ?_
      · rw [put_self]
        exact hletters
      · rw [put_self]
        exact List.mem_append_right _ (List.mem_singleton.mpr rfl)
    have houts : (n.components e).outs (classOf F e e) (inputs F e) =
        [(0, some (.double (total F e)))] := by
      rw [Component.outs, classOf_self]
      show [(0, sum F (inputs F e 0) (inputs F e 1))] = _
      rw [sum_inputs]
    refine ⟨.staged, heq, ⟨hreach, ⟨(n.components e).incoming.iter id, ?_, fun _ => ?_⟩,
      ?_, ?_, ?_, ?_, ?_, ?_, ?_⟩, Nat.le_refl _, rfl⟩
    · rw [hset, houts]
      rfl
    all_goals first | rw [put_self, put_other hne] | rw [put_self] | rw [put_other hne]
    · exact Deque.valid_write.mpr
        (Deque.valid_write.mpr (Deque.iter_valid (findGap_mem hgap)))
    · exact h.active
    · exact h.wire
    · exact h.activations
    · exact hletters
    · show _ = List.replicate (((n.components e).acted ++ [_]).length - 1) _
      rw [hconsumed, List.length_append]
      rfl
    · show 1 ≤ ((n.components e).acted ++ [_]).length
      rw [List.length_append]
      exact Nat.le_add_left 1 _
    · exact h.direct

end Exchanger

/-! ## All exchangers -/

namespace Exchange

/-- Calls in progress, all of exchanger `e`. -/
def labelled (e : Nat) (l : List (Pending (Value D))) : List (Nat × Pending (Value D)) :=
  l.map (Prod.mk e)

/-- Those of exchanger `e`. -/
def callsOf (e : Nat) (l : List (Nat × Pending (Value D))) : List (Pending (Value D)) :=
  l.filterMap fun x => if x.1 = e then some x.2 else none

/-- Exchanger `e` as a network of its own. -/
def net (F : Double D) (home : Nat → Nat) (s : Exchange D) (e : Nat) :
    Network Unit (Value D) :=
  ⟨fun com => (s.components e com).getD (.new (classOf F e com)),
    callsOf e (s.stack (home e))⟩

/-- Exchanger `e` has gone on: component `com` is `c`, and `calls` are in progress. -/
def moved (home : Nat → Nat) (s : Exchange D) (e com : Nat) (c : Component Unit (Value D))
    (calls : List (Pending (Value D))) (inFlight : List (Nat × DataMsg D)) : Exchange D :=
  { s with
    components :=
      Function.update s.components e (Function.update (s.components e) com (some c))
    context := Function.update s.context (home e) (some e)
    stack := Function.update s.stack (home e) (labelled e calls)
    inFlight := inFlight }

/-- What holds in every state of the test. -/
structure Inv (F : Double D) (kNumElts : Nat) (home : Nat → Nat) (s : Exchange D) :
    Prop where
  crash : s.crash = none
  nodup : s.constructed.Nodup
  bound : ∀ e ∈ s.constructed, e < kNumElts
  fresh : ∀ e ∉ s.constructed, ∀ com, s.components e com = none
  has : ∀ e ∈ s.constructed, ∀ com, (s.components e com).isSome = true ↔ com = e ∨
    com = e + 1
  fit : ∀ e ∈ s.constructed, ∃ ph, Exchanger F e ph (s.net F home e)
  /-- The calls in progress on a PE are those of the exchanger that set the context. -/
  calls : ∀ pe, s.stack pe = [] ∨ ∃ e ∈ s.constructed, home e = pe ∧
    s.context pe = some e ∧
    s.stack pe = labelled e (s.net F home e).stack
  inFlight : ∀ x ∈ s.inFlight, ∃ e port, e < kNumElts ∧ port < 2 ∧ x = addressed F e port
  /-- What was sent for an input is under way or has been accepted. -/
  count : ∀ e port, port < 2 →
    (on port ((s.net F home e).components e).accepted).length + s.inFlight.countP
    (isTo e port) =
      (s.constructed.flatMap (doSends F kNumElts)).countP (isTo e port)

section Invariant

variable {F : Double D} {kNumElts : Nat} {home : Nat → Nat} {s : Exchange D} {e : Nat}

theorem callsOf_labelled (l : List (Pending (Value D))) :
    callsOf e (labelled e l) = l := by
  rw [callsOf, labelled, List.filterMap_map]
  exact (List.filterMap_congr fun _ _ => if_pos rfl).trans List.filterMap_some

theorem callsOf_other {d : Nat} (hne : d ≠ e) (l : List (Pending (Value D))) :
    callsOf d (labelled e l) = [] := by
  rw [callsOf, labelled, List.filterMap_map, List.filterMap_eq_nil_iff]
  exact fun _ _ => if_neg (Ne.symm hne)

theorem frames_eq (com : Nat) (fs : List (Frame (Value D))) :
    frames e com fs = labelled e (fs.map (.frame com)) := by
  rw [frames, labelled, List.map_map]
  rfl

theorem net_moved {com : Nat} {c : Component Unit (Value D)} {fs : List (Frame (Value D))}
    {r : Option (Relay (Value D))} {rest : List (Pending (Value D))}
    {inFlight : List (Nat × DataMsg D)} :
    (s.moved home e com c (Network.relayed r ++ fs.map (.frame com) ++ rest)
      inFlight).net F home e =
      (s.net F home e).put com c fs r rest := by
  unfold net moved Network.put
  dsimp only
  rw [Function.update_self, Function.update_self, callsOf_labelled]
  refine congrArg (Network.mk · _) ?_
  funext com'
  by_cases hcom : com' = com
  · rw [hcom, Function.update_self, Function.update_self]
    rfl
  · rw [Function.update_of_ne hcom, Function.update_of_ne hcom]

theorem callsOf_moved_other {com d : Nat} {c : Component Unit (Value D)}
    {calls : List (Pending (Value D))} {inFlight : List (Nat × DataMsg D)} (hne : d ≠ e)
    (hstack : ∃ l, s.stack (home e) = labelled e l) :
    callsOf d ((s.moved home e com c calls inFlight).stack (home d)) =
      callsOf d (s.stack (home d)) := by
  obtain ⟨l, hl⟩ := hstack
  unfold moved
  dsimp only
  by_cases hhome : home d = home e
  · rw [hhome, Function.update_self, hl, callsOf_other hne, callsOf_other hne]
  · rw [Function.update_of_ne hhome]

theorem net_moved_other {com d : Nat} {c : Component Unit (Value D)}
    {calls : List (Pending (Value D))} {inFlight : List (Nat × DataMsg D)} (hne : d ≠ e)
    (hstack : ∃ l, s.stack (home e) = labelled e l) :
    (s.moved home e com c calls inFlight).net F home d = s.net F home d := by
  unfold net
  rw [callsOf_moved_other hne hstack]
  unfold moved
  dsimp only
  rw [Function.update_of_ne hne]

/-- One exchanger goes on, and the others stay. -/
theorem Inv.moved (h : Inv F kNumElts home s) (he : e ∈ s.constructed) {com : Nat}
    (hcom : com = e ∨ com = e + 1) (hstack : ∃ l, s.stack (home e) = labelled e l)
    {c : Component Unit (Value D)} {fs : List (Frame (Value D))}
    {r : Option (Relay (Value D))}
    {rest : List (Pending (Value D))} {inFlight : List (Nat × DataMsg D)} {ph : Phase}
    (hfit : Exchanger F e ph ((s.net F home e).put com c fs r rest))
    (hsub : ∀ x ∈ inFlight, x ∈ s.inFlight)
    (hcount : ∀ port, port < 2 →
      (on port (((s.net F home e).put com c fs r rest).components e).accepted).length +
        inFlight.countP (isTo e port) =
      (on port ((s.net F home e).components e).accepted).length + s.inFlight.countP
      (isTo e port))
    (hothers : ∀ d ≠ e, ∀ port, port < 2 →
      inFlight.countP (isTo d port) = s.inFlight.countP (isTo d port)) :
    Inv F kNumElts home
      (s.moved home e com c (Network.relayed r ++ fs.map (.frame com) ++ rest)
        inFlight) where
  crash := h.crash
  nodup := h.nodup
  bound := h.bound
  fresh d hd com' := by
    have hne : d ≠ e := fun heq => hd (heq ▸ he)
    show Function.update s.components e _ d com' = none
    rw [Function.update_of_ne hne]
    exact h.fresh d hd com'
  has d hd com' := by
    show (Function.update s.components e _ d com').isSome = true ↔ _
    by_cases hne : d = e
    · subst hne
      rw [Function.update_self]
      by_cases hcom' : com' = com
      · rw [hcom', Function.update_self]
        exact iff_of_true rfl hcom
      · rw [Function.update_of_ne hcom']
        exact h.has d hd com'
    · rw [Function.update_of_ne hne]
      exact h.has d hd com'
  fit d hd := by
    by_cases hne : d = e
    · subst hne
      rw [net_moved]
      exact ⟨ph, hfit⟩
    · rw [net_moved_other hne hstack]
      exact h.fit d hd
  calls pe := by
    by_cases hpe : pe = home e
    · subst hpe
      refine Or.inr ⟨e, he, rfl, Function.update_self _ _ _, ?_⟩
      rw [net_moved]
      exact Function.update_self _ _ _
    · have hsame :
        (s.moved home e com c (Network.relayed r ++ fs.map (.frame com) ++ rest)
          inFlight).stack pe = s.stack pe := Function.update_of_ne hpe _ _
      rw [hsame]
      refine (h.calls pe).imp id fun hother => ?_
      obtain ⟨d, hd, hhome, hcontext, hcalls⟩ := hother
      have hne : d ≠ e := fun heq => hpe (heq ▸ hhome.symm)
      refine ⟨d, hd, hhome, (Function.update_of_ne hpe _ _).trans hcontext, ?_⟩
      rw [net_moved_other hne hstack]
      exact hcalls
  inFlight x hx := h.inFlight x (hsub x hx)
  count d port hport := by
    refine Eq.trans ?_ (h.count d port hport)
    by_cases hne : d = e
    · subst hne
      rw [net_moved]
      exact hcount port hport
    · rw [net_moved_other hne hstack]
      exact congrArg _ (hothers d hne port hport)

/-- What an exchanger does is what its network does. -/
theorem proceed_moved {top : Pending (Value D)} {rest : List (Pending (Value D))}
    {n' : Network Unit (Value D)} (hstack : s.stack (home e) = labelled e (top :: rest))
    (hcontext : s.context (home e) = some e)
    (hsome : (s.components e top.com).isSome = true)
    (hn' : (s.net F home e).proceed (classOf F e) getType top rest = .ok n') :
    ∃ c fs r, n' = (s.net F home e).put top.com c fs r rest ∧
      s.proceed F (home e) (labelled e rest) (e, top) =
        .ok (s.moved home e top.com c
          (Network.relayed r ++ fs.map (.frame top.com) ++ rest)
          s.inFlight) := by
  obtain ⟨c₀, hc₀⟩ := Option.isSome_iff_exists.mp hsome
  have hnet : (s.net F home e).components top.com = c₀ := by
    show (s.components e top.com).getD _ = c₀
    rw [hc₀]
    rfl
  have hcomponent : s.component e top.com = .ok c₀ := by
    unfold component
    rw [hc₀]
  have hput : ∀ c (fs : List (Frame (Value D))) (r : Option (Relay (Value D))),
      s.put (home e) e top.com c (labelled e (Network.relayed r) ++ frames e top.com fs)
        (labelled e rest) =
      s.moved home e top.com c (Network.relayed r ++ fs.map (.frame top.com) ++ rest)
        s.inFlight := by
    intro c fs r
    have hsame : Function.update s.context (home e) (some e) = s.context := by
      rw [← hcontext, Function.update_eq_self]
    unfold put Exchange.moved
    rw [frames_eq, hsame]
    simp only [labelled, List.map_append]
  cases top with
  | call com port val =>
    obtain ⟨⟨c, fs⟩, hc, heq⟩ := Network.bind_toOption (congrArg Except.toOption hn')
    have hc : c₀.baseAccept (classOf F e com) getType com port val = .ok (c, fs) :=
      hnet ▸ hc
    refine ⟨c, fs, none, (Option.some.inj heq).symm, ?_⟩
    rw [← hput]
    show (s.component e com >>= fun c => _) = _
    rw [show s.component e com = .ok c₀ from hcomponent]
    show ((c₀.baseAccept (classOf F e com) getType com port val).mapError
      Crash.component >>= _) = _
    rw [hc]
    rfl
  | frame com f =>
    obtain ⟨⟨c, fs, r⟩, hc, heq⟩ := Network.bind_toOption (congrArg Except.toOption hn')
    have hc : c₀.resume (classOf F e com) f = .ok (c, fs, r) := hnet ▸ hc
    refine ⟨c, fs, r, (Option.some.inj heq).symm, ?_⟩
    have hrelay : relay (s.context (home e)) r =
        .ok (labelled e (Network.relayed r)) := by
      rw [hcontext]
      cases r <;> rfl
    rw [← hput]
    show (s.component e com >>= fun c => _) = _
    rw [show s.component e com = .ok c₀ from hcomponent]
    show ((c₀.resume (classOf F e com) f).mapError Crash.component >>= _) = _
    rw [hc]
    show (relay (s.context (home e)) r >>= _) = _
    rw [hrelay]
    rfl

/-- An exchanger at rest on whose PE nothing is in progress. -/
theorem Inv.resting (h : Inv F kNumElts home s) (he : e ∈ s.constructed)
    (hstack : s.stack (home e) = []) : Exchanger F e .idle (s.net F home e) := by
  obtain ⟨ph, hfit⟩ := h.fit e he
  obtain ⟨it, hcalls, _⟩ := hfit.stack
  have hnil : (s.net F home e).stack = [] := by
    show callsOf e (s.stack (home e)) = []
    rw [hstack]
    rfl
  rw [hnil] at hcalls
  cases ph with
  | idle => exact hfit
  | _ => cases hcalls

/-- A message whose data are of the port's type is taken. -/
theorem accept_eq {msg : DataMsg D} {c₀ c : Component Unit (Value D)}
    {fs : List (Frame (Value D))}
    (hc₀ : s.components e msg.com = some c₀)
    (hport : msg.port < (classOf F e msg.com).nInputs)
    (htype : msg.data.type = (classOf F e msg.com).inTypes msg.port)
    (haccept : c₀.accept (classOf F e msg.com) msg.port msg.data = (c, fs)) :
    s.accept F home e msg =
      .ok ({ s with context := Function.update s.context (home e) (some e) }.put
        (home e) e msg.com c (frames e msg.com fs) []) := by
  simp only [accept, component, hc₀, if_pos hport, if_pos htype, haccept, bind,
    Except.bind, pure, Except.pure]

/-- A message is taken by the exchanger it is addressed to. -/
theorem accept_moved (h : Inv F kNumElts home s) (hle : kNumElts ≤ 256)
    (he : e ∈ s.constructed) (hstack : s.stack (home e) = []) {port : Nat}
    (hport : port < 2) (inFlight : List (Nat × DataMsg D)) :
    ∃ c fs ph, Exchanger F e ph ((s.net F home e).put e c fs none []) ∧ ph.work ≤ 4 ∧
      c.accepted = ((s.net F home e).components e).accepted ++ [(port, letter F e port)] ∧
      { s with inFlight := inFlight }.accept F home e (addressed F e port).2 =
        .ok (s.moved home e e c (Network.relayed none ++ fs.map (.frame e) ++ [])
          inFlight) := by
  have hlt := h.bound e he
  obtain ⟨c₀, hc₀⟩ := Option.isSome_iff_exists.mp ((h.has e he e).mpr (Or.inl rfl))
  have hnet : (s.net F home e).components e = c₀ := by
    show (s.components e e).getD _ = c₀
    rw [hc₀]
    rfl
  obtain ⟨c, fs, ph, haccept, hfit, hwork, haccepted⟩ :=
    accept_exchanger (h.resting he hstack) hport
  rw [hnet] at haccept
  refine ⟨c, fs, ph, hfit, hwork, haccepted, ?_⟩
  have hcom : (addressed F e port).2.com = e := addressed_com (by omega) (by omega)
  have hat : (addressed F e port).2.port = port := addressed_port (by omega)
  have htype : (letter F e port).type = (classOf F e e).inTypes port := by
    rw [classOf_self]
    exact letter_type F e port
  have haccept :
    c₀.accept (classOf F e (addressed F e port).2.com) (addressed F e port).2.port
      (addressed F e port).2.data = (c, fs) := by
    rw [hcom, hat]
    exact haccept
  refine (accept_eq (by rw [hcom]; exact hc₀)
    (by rw [hcom, hat, classOf_self]; exact hport)
    (by rw [hcom, hat]; exact htype) haccept).trans ?_
  unfold put Exchange.moved
  rw [hcom, frames_eq]
  simp only [labelled, List.map_append, List.map_nil, Network.relayed, List.nil_append]

/-! ## Every run -/

/-- The steps that a call in progress has yet to make. -/
def weight : Pending (Value D) → Nat
  | .call _ _ _ => 2
  | .frame _ (.staging _ outs) => 1 + 3 * outs.length
  | .frame _ _ => 0

/-- The steps left on exchanger `e`. -/
def work (s : Exchange D) (home : Nat → Nat) (e : Nat) : Nat :=
  ((callsOf e (s.stack (home e))).map weight).sum

theorem work_phase {ph : Phase} (h : Exchanger F e ph (s.net F home e)) :
    s.work home e = ph.work := by
  obtain ⟨it, hcalls, _⟩ := h.stack
  have hcalls : callsOf e (s.stack (home e)) = ph.stack F e it := hcalls
  rw [work, hcalls]
  cases ph <;> rfl

/-- The steps left of the test: an exchanger takes one step to construct and sends
`kNumIters` messages, each of which takes five. -/
def left (kNumElts : Nat) (home : Nat → Nat) (s : Exchange D) : Nat :=
  (kNumElts - s.constructed.length) * 41 + s.inFlight.length * 5 +
    (s.constructed.map (s.work home)).sum

/-- Taking a message out of the list takes it from the count it is in. -/
theorem countP_eraseIdx {α : Type} {l : List α} {k : Nat} {x : α} (h : l[k]? = some x)
    (p : α → Bool) :
    l.countP p = (l.eraseIdx k).countP p + if p x then 1 else 0 := by
  obtain ⟨hk, rfl⟩ := List.getElem?_eq_some_iff.mp h
  rw [← (List.getElem_cons_eraseIdx_perm hk).countP_eq p, List.countP_cons]

/-- A sum over the exchangers in which only the part of `e` changes. -/
theorem sum_change {l : List Nat} {f g : Nat → Nat} (hnodup : l.Nodup) (he : e ∈ l)
    (hother : ∀ d ≠ e, g d = f d) : (l.map g).sum + f e = (l.map f).sum + g e := by
  have hrest : ((l.erase e).map g) = (l.erase e).map f :=
    List.map_congr_left fun d hd => hother d (hnodup.mem_erase_iff.mp hd).1
  have hf := List.sum_map_erase f he
  have hg := List.sum_map_erase g he
  rw [hrest] at hg
  omega

/-- The exchangers that stay have as much left as before. -/
theorem work_moved_other {com d : Nat} {c : Component Unit (Value D)}
    {calls : List (Pending (Value D))} {inFlight : List (Nat × DataMsg D)} (hne : d ≠ e)
    (hstack : ∃ l, s.stack (home e) = labelled e l) :
    (s.moved home e com c calls inFlight).work home d = s.work home d := by
  rw [work, callsOf_moved_other hne hstack]
  rfl

/-- What a step of exchanger `e` does to the steps left. -/
theorem left_moved (h : Inv F kNumElts home s) (he : e ∈ s.constructed)
    (hstack : ∃ l, s.stack (home e) = labelled e l) {com : Nat}
    {c : Component Unit (Value D)}
    {fs : List (Frame (Value D))} {r : Option (Relay (Value D))}
    {rest : List (Pending (Value D))}
    {ph ph' : Phase} (hfit : Exchanger F e ph (s.net F home e))
    (hfit' : Exchanger F e ph' ((s.net F home e).put com c fs r rest))
    (inFlight : List (Nat × DataMsg D)) :
    (s.moved home e com c (Network.relayed r ++ fs.map (.frame com) ++ rest)
      inFlight).left kNumElts
        home + (s.inFlight.length * 5 + ph.work) =
      s.left kNumElts home + (inFlight.length * 5 + ph'.work) := by
  have hsum : (s.constructed.map (work (s.moved home e com c
      (Network.relayed r ++ fs.map (.frame com) ++ rest) inFlight) home)).sum + _ = _ :=
    sum_change h.nodup he fun _ hne => work_moved_other hne hstack
  rw [work_phase hfit, work_phase (net_moved (F := F) ▸ hfit')] at hsum
  show (kNumElts - s.constructed.length) * 41 + inFlight.length * 5 +
    (s.constructed.map (work (s.moved home e com c _ inFlight) home)).sum + _ =
    (kNumElts - s.constructed.length) * 41 + s.inFlight.length * 5 + _ + _
  omega

/-- A call in progress goes on. -/
theorem proceed_step (h : Inv F kNumElts home s) {pe : Nat}
    {top : Nat × Pending (Value D)}
    {rest : List (Nat × Pending (Value D))} (hstack : s.stack pe = top :: rest) :
    ∃ s', s.proceed F pe rest top = .ok s' ∧ Inv F kNumElts home s' ∧
      s'.left kNumElts home < s.left kNumElts home := by
  rcases h.calls pe with hnil | ⟨e, he, rfl, hcontext, hcalls⟩
  · rw [hnil] at hstack
    cases hstack
  · obtain ⟨ph, hfit⟩ := h.fit e he
    have hph : ph ≠ .idle := by
      rintro rfl
      obtain ⟨it, hidle, _⟩ := hfit.stack
      rw [hidle, hstack] at hcalls
      cases hcalls
    obtain ⟨top', rest', n', ph', htop, hcom, hn', hfit', hwork, haccepted⟩ :=
      proceed_exchanger hfit hph
    rw [htop] at hcalls
    obtain ⟨htop', hrest'⟩ := List.cons.inj (hstack.symm.trans hcalls)
    obtain ⟨c, fs, r, hput, hproceed⟩ := proceed_moved hcalls hcontext
      ((h.has e he _).mpr hcom) hn'
    rw [hput] at hfit' haccepted
    have hinv := h.moved he hcom ⟨_, hcalls⟩ hfit' (fun _ hx => hx)
      (fun port _ => by rw [haccepted]) (fun _ _ _ _ => rfl)
    refine ⟨_, by rw [htop', hrest']; exact hproceed, hinv, ?_⟩
    have hleft := left_moved h he ⟨_, hcalls⟩ hfit hfit' s.inFlight
    omega

/-- A message is handed over. -/
theorem deliver_step (h : Inv F kNumElts home s) (hle : kNumElts ≤ 256) {k : Nat}
    {msg : DataMsg D} (hk : s.inFlight[k]? = some (e, msg)) (he : e ∈ s.constructed)
    (hstack : s.stack (home e) = []) :
    ∃ s', { s with inFlight := s.inFlight.eraseIdx k }.accept F home e msg = .ok s' ∧
      Inv F kNumElts home s' ∧ s'.left kNumElts home < s.left kNumElts home := by
  obtain ⟨d, port, _, hport, heq⟩ := h.inFlight _ (List.mem_of_getElem? hk)
  obtain ⟨rfl, rfl⟩ := Prod.mk.inj heq
  have hcalls : ∃ l, s.stack (home e) = labelled e l := ⟨[], hstack⟩
  obtain ⟨c, fs, ph, hfit, hwork, haccepted, haccept⟩ :=
    accept_moved h hle he hstack hport (s.inFlight.eraseIdx k)
  have hcountP : ∀ d port', port' < 2 → s.inFlight.countP (isTo d port') =
      (s.inFlight.eraseIdx k).countP (isTo d port') + if e = d ∧ port = port' then 1
      else 0 := by
    intro d port' _
    rw [countP_eraseIdx hk]
    refine congrArg _ (if_congr ?_ rfl rfl)
    show isTo d port' (addressed F e port) = true ↔ _
    rw [isTo_addressed (by omega), Bool.and_eq_true, beq_iff_eq, beq_iff_eq]
  have hinv := h.moved he (Or.inl rfl) hcalls hfit
    (fun x hx => List.mem_of_mem_eraseIdx hx) (fun port' hport' => by
      rw [put_self, haccepted, hcountP e port' hport']
      by_cases hsame : port = port'
      · rw [hsame, on_append_self, List.length_append, if_pos ⟨rfl, rfl⟩]
        exact Nat.add_right_comm _ 1 _
      · rw [on_append_other hsame, if_neg fun hand => hsame hand.2]
        rfl)
    (fun d hne port' hport' => by
      rw [hcountP d port' hport', if_neg fun hand => hne hand.1.symm]
      rfl)
  refine ⟨_, haccept, hinv, ?_⟩
  have hleft := left_moved h he hcalls (h.resting he hstack) hfit (s.inFlight.eraseIdx k)
  have hlength := List.length_eraseIdx_add_one (List.getElem?_eq_some_iff.mp hk).1
  have hidle : Phase.idle.work = 0 := rfl
  omega

/-- The exchanger constructed next. -/
theorem construct_net (hstack : s.stack (home e) = [])
    (context : Nat → Option Nat) (constructed : List Nat)
    (inFlight : List (Nat × DataMsg D)) :
    net F home ⟨constructed, Function.update s.components e (Comex.components F e),
      context, s.stack, inFlight, s.crash⟩ e = wired F e := by
  unfold net
  dsimp only
  rw [Function.update_self, hstack]
  refine congrArg (Network.mk · []) ?_
  funext com
  rw [components_eq]
  split
  next => rfl
  next hother =>
    obtain ⟨hself, hsucc⟩ := not_or.mp hother
    show Component.new (classOf F e com) = _
    rw [Function.update_of_ne hself, Function.update_of_ne hsucc]

/-- An exchanger is constructed. -/
theorem construct_step (hn : kNumElts % 2 = 0) (h : Inv F kNumElts home s)
    (hle : kNumElts ≤ 256) (hlt : e < kNumElts) (hnew : e ∉ s.constructed)
    (hstack : s.stack (home e) = []) :
    ∃ s', s.construct F kNumElts home e = .ok s' ∧ Inv F kNumElts home s' ∧
      s'.left kNumElts home < s.left kNumElts home := by
  have hfresh := h.fresh e hnew
  have hsends := doSends_eq (F := F) e hn (by omega) hle
  have hother : ∀ d ≠ e, net F home ⟨s.constructed ++ [e],
      Function.update s.components e (Comex.components F e),
        Function.update s.context (home e) (some e),
      s.stack, s.inFlight ++ doSends F kNumElts e, s.crash⟩ d = s.net F home d := by
    intro d hne
    unfold net
    dsimp only
    rw [Function.update_of_ne hne]
  refine ⟨_, if_pos (by omega), ⟨h.crash, ?_, ?_, ?_, ?_, ?_, ?_, ?_, ?_⟩, ?_⟩
  · exact List.nodup_append.mpr ⟨h.nodup, List.nodup_singleton e, fun d hd d' hd' heq =>
      hnew (List.mem_singleton.mp hd' ▸ heq ▸ hd)⟩
  · intro d hd
    rcases List.mem_append.mp hd with hd | hd
    · exact h.bound d hd
    · exact List.mem_singleton.mp hd ▸ hlt
  · intro d hd com
    obtain ⟨hd, hde⟩ := not_or.mp (mt List.mem_append.mpr hd)
    show Function.update s.components e _ d com = none
    rw [Function.update_of_ne fun heq => hde (List.mem_singleton.mpr heq)]
    exact h.fresh d hd com
  · intro d hd com
    show (Function.update s.components e _ d com).isSome = true ↔ _
    by_cases hne : d = e
    · subst hne
      rw [Function.update_self, components_eq]
      split
      next hcom => exact iff_of_true rfl hcom
      next hcom => exact iff_of_false Bool.false_ne_true hcom
    · rw [Function.update_of_ne hne]
      refine h.has d ?_ com
      exact (List.mem_append.mp hd).resolve_right fun hd => hne (List.mem_singleton.mp hd)
  · intro d hd
    by_cases hne : d = e
    · subst hne
      rw [construct_net hstack]
      exact ⟨.idle, wired_exchanger F d⟩
    · rw [hother d hne]
      exact h.fit d ((List.mem_append.mp hd).resolve_right fun hd =>
        hne (List.mem_singleton.mp hd))
  · intro pe
    by_cases hpe : pe = home e
    · exact Or.inl (hpe ▸ hstack)
    · refine (h.calls pe).imp id fun hcalls => ?_
      obtain ⟨d, hd, hhome, hcontext, hcalls⟩ := hcalls
      have hne : d ≠ e := fun heq => hnew (heq ▸ hd)
      refine ⟨d, List.mem_append_left _ hd, hhome, ?_, ?_⟩
      · exact (Function.update_of_ne hpe _ _).trans hcontext
      · rw [hother d hne]
        exact hcalls
  · intro x hx
    rcases List.mem_append.mp hx with hx | hx
    · exact h.inFlight x hx
    · obtain ⟨it, _, rfl⟩ := List.mem_map.mp hx
      rw [message_eq hn (by omega) hle]
      refine ⟨_, _, ?_, ?_, rfl⟩
      · split
        · exact even_lt e (by omega)
        · exact odd_lt e (by omega)
      · omega
  · intro d port hport
    have hcount := h.count d port hport
    show _ + (s.inFlight ++ doSends F kNumElts e).countP (isTo d port) =
      ((s.constructed ++ [e]).flatMap (doSends F kNumElts)).countP (isTo d port)
    rw [List.flatMap_append, List.countP_append, List.countP_append,
      List.flatMap_singleton, ← hcount]
    by_cases hne : d = e
    · subst hne
      rw [construct_net hstack]
      have hold : ((s.net F home d).components d).accepted = [] := by
        show ((s.components d d).getD _).accepted = []
        rw [hfresh]
        rfl
      have hwired : ((wired F d).components d).accepted = [] := by
        unfold wired
        dsimp only
        rw [Function.update_self]
        rfl
      rw [hold, hwired]
      exact (Nat.add_assoc _ _ _).symm
    · rw [hother d hne]
      exact (Nat.add_assoc _ _ _).symm
  · have hroom : s.constructed.length < kNumElts := by
      have hsub : (e :: s.constructed).Subperm (List.range kNumElts) :=
        (List.nodup_cons.mpr ⟨hnew, h.nodup⟩).subperm fun d hd => by
          rw [List.mem_range]
          rcases List.mem_cons.mp hd with rfl | hd
          · exact hlt
          · exact h.bound d hd
      have hlen := hsub.length_le
      rw [List.length_range] at hlen
      exact hlen
    have hidle : s.work home e = 0 := by
      unfold work
      rw [hstack]
      rfl
    show (kNumElts - (s.constructed ++ [e]).length) * 41 +
      (s.inFlight ++ doSends F kNumElts e).length * 5 +
      ((s.constructed ++ [e]).map (s.work home)).sum <
      (kNumElts - s.constructed.length) * 41 + s.inFlight.length * 5 +
      (s.constructed.map (s.work home)).sum
    rw [hsends, List.map_append, List.sum_append, List.length_append, List.length_append,
      List.map_singleton, hidle]
    simp only [List.length_cons, List.length_nil, List.sum_singleton]
    omega

/-- **Every step is sound and brings the end nearer.** -/
theorem step_inv (hn : kNumElts % 2 = 0) (hle : kNumElts ≤ 256)
    (h : Inv F kNumElts home s)
    {ev : Event} {s' : Exchange D} (hs : s.step F kNumElts home ev = some s') :
    Inv F kNumElts home s' ∧ s'.left kNumElts home < s.left kNumElts home := by
  unfold step at hs
  split at hs
  next mine =>
    split at hs
    next hcan =>
      obtain ⟨_, hlt, hnew, hstack⟩ := hcan
      obtain ⟨t, ht, hinv, hleft⟩ := construct_step hn h hle hlt hnew hstack
      rw [ht] at hs
      obtain rfl := Option.some.inj hs
      exact ⟨hinv, hleft⟩
    next => cases hs
  next k =>
    split at hs
    next => cases hs
    next e msg hk =>
      split at hs
      next hcan =>
        obtain ⟨_, he, hstack⟩ := hcan
        obtain ⟨t, ht, hinv, hleft⟩ := deliver_step h hle hk he hstack
        rw [ht] at hs
        obtain rfl := Option.some.inj hs
        exact ⟨hinv, hleft⟩
      next => cases hs
  next pe =>
    split at hs
    next => cases hs
    next top rest hstack =>
      obtain ⟨t, ht, hinv, hleft⟩ := proceed_step h hstack
      rw [if_pos h.crash, ht] at hs
      obtain rfl := Option.some.inj hs
      exact ⟨hinv, hleft⟩

theorem start_inv (F : Double D) (kNumElts : Nat) (home : Nat → Nat) :
    Inv F kNumElts home .start where
  crash := rfl
  nodup := List.nodup_nil
  bound _ he := absurd he List.not_mem_nil
  fresh _ _ _ := rfl
  has _ he := absurd he List.not_mem_nil
  fit _ he := absurd he List.not_mem_nil
  calls _ := Or.inl rfl
  inFlight _ hx := absurd hx List.not_mem_nil
  count _ _ _ := rfl

/-- Nothing is left to do: all exchangers are constructed, no message is under way and no
call in progress. Then the runtime detects quiescence, if no component holds a value. -/
def Quiet (kNumElts : Nat) (s : Exchange D) : Prop :=
  (∀ e < kNumElts, e ∈ s.constructed) ∧ s.inFlight = [] ∧ ∀ pe, s.stack pe = []

/-- With everything delivered each input has got four values. -/
theorem Inv.delivered (h : Inv F kNumElts home s) (hn : kNumElts % 2 = 0)
    (hle : kNumElts ≤ 256) (hquiet : s.Quiet kNumElts) (he : e < kNumElts) {port : Nat}
    (hport : port < 2) : (on port ((s.net F home e).components e).accepted).length =
    kNumIters / 2 := by
  obtain ⟨hall, hinFlight, _⟩ := hquiet
  have hperm : s.constructed.Perm (List.range kNumElts) :=
    (List.perm_ext_iff_of_nodup h.nodup List.nodup_range).mpr fun d =>
      ⟨fun hd => List.mem_range.mpr (h.bound d hd), fun hd =>
        hall d (List.mem_range.mp hd)⟩
  have hcount := h.count e port hport
  rw [hinFlight, List.countP_nil, Nat.add_zero] at hcount
  rw [hcount, List.countP_flatMap, (hperm.map _).sum_eq]
  have hsum : ((List.range kNumElts).map
    (List.countP (isTo e port) ∘ doSends F kNumElts)).sum =
      ∑ m ∈ Finset.range kNumElts, if even kNumElts m = e ∨ odd kNumElts m = e then 2
        else 0 := by
    refine congrArg List.sum (List.map_congr_left fun m _ => ?_)
    exact doSends_count hn (by omega) hle hport
  rw [hsum, ← Finset.sum_filter, Finset.sum_const, senders hn he]
  rfl

theorem fewest_most (F : Double D) (types : Nat → String)
    {acc : List (Nat × Value D)} {m : Nat}
    (h : ∀ port < 2, (on port acc).length = m) :
    fewest (adder F types) acc = m ∧ most (adder F types) acc = m := by
  have hzero := h 0 (by omega)
  constructor
  · refine Nat.le_antisymm (hzero ▸ fewest_le (K := adder F types) (Nat.zero_lt_two)) ?_
    by_contra hlt
    refine absurd (lt_fewest_iff.mpr fun i hi => ?_)
      (Nat.lt_irrefl (fewest (adder F types) acc))
    rw [h i hi]
    omega
  · refine Nat.le_antisymm ?_ (hzero ▸ le_most (K := adder F types) (Nat.zero_lt_two))
    by_contra hlt
    obtain ⟨i, hi, hmost⟩ := lt_most_iff.mp (Nat.lt_of_not_le hlt)
    rw [h i hi] at hmost
    exact Nat.lt_irrefl m hmost

/-- What an adder has done with four values at each input. -/
theorem four_sets {n : Network Unit (Value D)} (h : Exchanger F e .idle n)
    (hfour : ∀ port < 2, (on port (n.components e).accepted).length = kNumIters / 2) :
    (n.components e).acted = List.replicate (kNumIters / 2) (inputs F e) ∧
      (n.components e).incoming.values = [] := by
  have hidle : Idle (n.view e).frames := by
    obtain ⟨it, hstack, _⟩ := h.stack
    have hnil : (n.view e).frames = [] := by
      show Network.framesOf e n.stack = []
      rw [hstack]
      rfl
    rw [hnil]
    exact fun _ hf => absurd hf List.not_mem_nil
  obtain ⟨hacted, hwaits⟩ := acted_eq (h.run.mono fun _ _ hc => noFeedback e hc)
    (by rw [classOf_self]; rfl) hidle h.activations
  rw [classOf_self] at hacted hwaits
  obtain ⟨hfewest, hmost⟩ := fewest_most F (adderTypes e) hfour
  have hnone : fewest (adder F (adderTypes e)) [] = 0 :=
    (fewest_most _ _ fun _ _ => rfl).1
  rw [List.take_zero, hnone, hfewest] at hacted
  rw [hfewest, hmost, Nat.sub_self] at hwaits
  refine ⟨List.eq_replicate_iff.mpr ⟨?_, acted_inputs h.run h.letters⟩, hwaits⟩
  rw [hacted, backlog, List.take_zero, hnone]
  simp only [List.range_zero, List.map_nil, List.reverse_nil, List.nil_append,
    List.length_map, List.length_range', Nat.sub_zero]

/-- What the exchange does. -/
structure Sound (F : Double D) (kNumElts : Nat) (home : Nat → Nat) (s : Exchange D) :
    Prop where
  /-- Nothing aborts, no null component is called and no data are misread. -/
  crash : s.crash = none
  /-- What a component relays goes to the components of its own exchanger. -/
  context : ∀ pe, ∀ x ∈ s.stack pe, s.context pe = some x.1 ∧ home x.1 = pe
  /-- An adder only ever adds the two defaults, -/
  added : ∀ e c, s.components e e = some c → ∀ set ∈ c.acted, set = inputs F e
  /-- and a consumer only ever gets their sum. -/
  consumed : ∀ e c, s.components e (e + 1) = some c →
    ∀ set ∈ c.acted, set = single 0 (.double (total F e))
  /-- In the end all values have been added and consumed, and none is left waiting. -/
  complete : s.Quiet kNumElts → ∀ e < kNumElts, ∃ a c,
    s.components e e = some a ∧ s.components e (e + 1) = some c ∧
    a.acted = List.replicate (kNumIters / 2) (inputs F e) ∧ a.incoming.values = [] ∧
    c.acted = List.replicate (kNumIters / 2) (single 0 (.double (total F e))) ∧
      c.incoming.values = []

/-- A component that is there belongs to an exchanger that is constructed. -/
theorem Inv.at (h : Inv F kNumElts home s) {com : Nat} {c : Component Unit (Value D)}
    (hc : s.components e com = some c) :
    e ∈ s.constructed ∧ (s.net F home e).components com = c := by
  constructor
  · by_contra hnew
    rw [h.fresh e hnew com] at hc
    cases hc
  · show (s.components e com).getD _ = c
    rw [hc]
    rfl

theorem Inv.sound (h : Inv F kNumElts home s) (hn : kNumElts % 2 = 0)
    (hle : kNumElts ≤ 256) :
    Sound F kNumElts home s where
  crash := h.crash
  context pe x hx := by
    rcases h.calls pe with hnil | ⟨e, _, hhome, hcontext, hcalls⟩
    · rw [hnil] at hx
      cases hx
    · rw [hcalls] at hx
      obtain ⟨call, _, rfl⟩ := List.mem_map.mp hx
      exact ⟨hcontext, hhome⟩
  added e c hc := by
    obtain ⟨he, hnet⟩ := h.at hc
    obtain ⟨ph, hfit⟩ := h.fit e he
    exact hnet ▸ acted_inputs hfit.run hfit.letters
  consumed e c hc set hset := by
    obtain ⟨he, hnet⟩ := h.at hc
    obtain ⟨ph, hfit⟩ := h.fit e he
    rw [← hnet, hfit.consumed] at hset
    exact List.eq_of_mem_replicate hset
  complete hquiet e he := by
    have hmem := hquiet.1 e he
    have hfit := h.resting hmem (hquiet.2.2 _)
    obtain ⟨a, ha⟩ := Option.isSome_iff_exists.mp ((h.has e hmem e).mpr (Or.inl rfl))
    obtain ⟨c, hc⟩ :=
      Option.isSome_iff_exists.mp ((h.has e hmem (e + 1)).mpr (Or.inr rfl))
    obtain ⟨hacted, hwaits⟩ := four_sets hfit fun _ hport =>
      h.delivered hn hle hquiet he hport
    have hconsumed := hfit.consumed
    rw [hacted, List.length_replicate] at hconsumed
    have hdirect := hfit.direct
    rw [(h.at ha).2] at hacted hwaits
    rw [(h.at hc).2] at hconsumed hdirect
    exact ⟨a, c, ha, hc, hacted, hwaits, hconsumed, hdirect⟩

/-- When no step is left the exchange is over. -/
theorem Inv.quiet (h : Inv F kNumElts home s)
    (hstuck : ∀ ev, s.step F kNumElts home ev = none) : s.Quiet kNumElts := by
  have hstack : ∀ pe, s.stack pe = [] := by
    intro pe
    by_contra hcalls
    obtain ⟨top, rest, hcons⟩ := List.exists_cons_of_ne_nil hcalls
    have hnone := hstuck (.proceed pe)
    simp only [step, hcons, if_pos h.crash] at hnone
    cases hnone
  have hall : ∀ e < kNumElts, e ∈ s.constructed := by
    intro e he
    by_contra hnew
    have hnone := hstuck (.construct e)
    simp only [step,
      if_pos (And.intro h.crash (And.intro he (And.intro hnew (hstack _))))] at hnone
    cases hnone
  refine ⟨hall, ?_, hstack⟩
  by_contra hflight
  obtain ⟨x, rest, hcons⟩ := List.exists_cons_of_ne_nil hflight
  obtain ⟨e, port, he, _, rfl⟩ := h.inFlight x (hcons ▸ List.mem_cons_self)
  have hnone := hstuck (.deliver 0)
  have hfirst : s.inFlight[0]? = some (addressed F e port) := by
    rw [hcons]
    rfl
  simp only [step, hfirst] at hnone
  rw [if_pos ⟨h.crash, hall e he, hstack _⟩] at hnone
  cases hnone

end Invariant

end Exchange

section Runs

variable {F : Double D} {kNumElts : Nat} {home : Nat → Nat} {s : Exchange D}

/-- **The exchange is sound**, for an even number of exchangers on any PEs and every order
in which they are constructed and messages arrive. -/
theorem exchange_sound (hn : kNumElts % 2 = 0) (hle : kNumElts ≤ 256)
    (h : (exchangeSystem F kNumElts home).Reachable (fun _ _ => True) s) :
    s.Sound F kNumElts home := by
  have hinv : s.Inv F kNumElts home := by
    refine Transition.Reachable.invariant (I := fun s => s.Inv F kNumElts home)
      (fun s hs => ?_) (fun _ _ _ hi _ hs => (Exchange.step_inv hn hle hi hs).1) h
    obtain rfl : s = .start := hs
    exact Exchange.start_inv F kNumElts home
  exact hinv.sound hn hle

/-- What a run keeps, and how far it has come. -/
theorem run_inv (hn : kNumElts % 2 = 0) (hle : kNumElts ≤ 256) :
    ∀ (evs : List Event) {s s' : Exchange D}, s.Inv F kNumElts home →
      (exchangeSystem F kNumElts home).run s evs = some s' →
      s'.Inv F kNumElts home ∧ evs.length + s'.left kNumElts home ≤
        s.left kNumElts home := by
  intro evs
  induction evs with
  | nil =>
    intro s s' h hrun
    obtain rfl := Option.some.inj hrun
    exact ⟨h, Nat.le_of_eq (Nat.zero_add _)⟩
  | cons ev evs ih =>
    intro s s' h hrun
    rw [Transition.run, List.foldlM_cons] at hrun
    obtain ⟨t, hstep, hrest⟩ := Option.bind_eq_some_iff.mp hrun
    obtain ⟨hinv, hleft⟩ := Exchange.step_inv hn hle h hstep
    obtain ⟨hinv', hlength⟩ := ih hinv hrest
    refine ⟨hinv', ?_⟩
    rw [List.length_cons]
    omega

/-- **The exchange ends**: no run is longer than 41 steps an exchanger, and one that
cannot go on has delivered everything. -/
theorem exchange_ends (hn : kNumElts % 2 = 0) (hle : kNumElts ≤ 256) {evs : List Event}
    (hrun : (exchangeSystem F kNumElts home).run .start evs = some s) :
    evs.length ≤ 41 * kNumElts ∧
      ((∀ ev, s.step F kNumElts home ev = none) → s.Quiet kNumElts) := by
  obtain ⟨hinv, hlength⟩ := run_inv hn hle evs (Exchange.start_inv F kNumElts home) hrun
  have hstart : Exchange.left kNumElts home (Exchange.start : Exchange D) =
      kNumElts * 41 := rfl
  rw [hstart] at hlength
  exact ⟨by omega, hinv.quiet⟩

/-- Whole numbers for doubles. -/
def wholeNumbers : Double Int := ⟨id, (· + ·), 1⟩

/-- Two of four exchangers are constructed on one PE, and one on the other; the adder of
exchanger 1 has run, and its consumer is called. -/
def firstSum : List Event :=
  [.construct 1, .construct 0, .deliver 9, .deliver 10, .construct 3, .proceed 0]

theorem exchange_sound_first : ∃ s : Exchange Int,
    (exchangeSystem wholeNumbers 4 (· / 2)).run .start firstSum = some s ∧
      s.Sound wholeNumbers 4 (· / 2) := by
  have hrun : ((exchangeSystem wholeNumbers 4 (· / 2)).run .start firstSum).isSome =
      true := by
    decide +kernel
  obtain ⟨s, hs⟩ := Option.isSome_iff_exists.mp hrun
  exact ⟨s, hs, exchange_sound (by decide) (by decide)
    (Transition.run_reachable _ (fun _ _ _ => trivial) (.init rfl) hs)⟩

theorem exchange_ends_first : ∃ s : Exchange Int,
    (exchangeSystem wholeNumbers 4 (· / 2)).run .start firstSum = some s ∧
      firstSum.length ≤ 41 * 4 ∧
        ((∀ ev, s.step wholeNumbers 4 (· / 2) ev = none) → s.Quiet 4) := by
  have hrun : ((exchangeSystem wholeNumbers 4 (· / 2)).run .start firstSum).isSome =
      true := by
    decide +kernel
  obtain ⟨s, hs⟩ := Option.isSome_iff_exists.mp hrun
  exact ⟨s, hs, exchange_ends (by decide) (by decide) hs⟩

/-- `check_accepts`. -/
example : let com := adder wholeNumbers (adderTypes 0)
    Component.accepts com 0 "int" = true ∧ Component.accepts com 1 "double" = true ∧
      Component.accepts com 1 "int" = false ∧ Component.accepts com 2 "int" = false := by
  decide

end Runs

end CharmExperiments.Comex
