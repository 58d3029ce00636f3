import Mathlib.Logic.Relation
import CharmExperiments.Lib.Pup
import CharmExperiments.Hypercomm.Isolation
import CharmExperiments.Hypercomm.Payload

/-!
# Migration of workgroup elements

`archive/path2.0/include/hypercomm/workgroup.hpp`: between two entries an element can
be moved to another process. `workgroup::pup` packs its members there; here the
migration constructor makes an element without members, and `workgroup::pup` unpacks
them. What a routine of the source does with its members is put together from what
Charm++ does with numbers, maps and messages (`PupStl`).

An element that moved is the element it was, but for `active_`, which no `pup` names
and the constructor leaves as it is (`migrate_eq`): no assertion fails, as only active
tasks are kept. It takes payloads that a move keeps: those of task messages
(`Lies.kept`).

Mirroring notes:
- The maps of an element are written in the order of their iteration (`Order`).
- Kinds and continuation ids are numbers here, and `task<T>::kind_` is the kind the
  record was found under.
- The array has the payloads as user code reads them. `Moving` says where they lie in
  memory before the move and where their messages are rebuilt.
- `ran`, which is not in the source, is carried along.
-/

namespace CharmExperiments.Hypercomm

open CharmExperiments.Lib

variable {β σ δ : Type}

/-- What `workgroup::pup` uses of `pup.h` and `pup_stl.h`: the routines of numbers, of
`task_id` (`PUPbytes`), of messages (`CkPupMessage`), and of what the standard library
makes of others. -/
structure PupStl (β : Type) where
  nat : Puper β Nat
  bits : (w : Nat) → Puper β (BitVec w)
  taskId : Puper β TaskId
  message : Puper β CkMessage
  map : {κ ν : Type} → Puper β κ → Puper β ν → Puper β (List (κ × ν))
  deque : {α : Type} → Puper β α → Puper β (List α)
  uniquePtr : {α : Type} → Puper β α → Puper β α
  nat_arrives : ∀ k, nat.Arrives k k
  bits_arrives : ∀ w x, (bits w).Arrives x x
  taskId_arrives : ∀ tid, taskId.Arrives tid tid
  message_arrives : ∀ m, message.Arrives m m
  map_arrives : ∀ {κ ν : Type} {P : Puper β κ} {Q : Puper β ν} {xs ys : List (κ × ν)},
    List.Forall₂ (P.andThen Q).Arrives xs ys → (map P Q).Arrives xs ys
  deque_arrives : ∀ {α : Type} {P : Puper β α} {xs ys : List α},
    List.Forall₂ P.Arrives xs ys → (deque P).Arrives xs ys
  uniquePtr_arrives : ∀ {α : Type} {P : Puper β α} {a b : α},
    P.Arrives a b → (uniquePtr P).Arrives a b

/-- `task_payload::pup`; a message is rebuilt at its `place`. -/
def TaskPayload.pup (S : PupStl β) (place : CkMessage → Address) : Puper β TaskPayload :=
  (S.message.andThen (S.nat.andThen (S.bits 64))).via
    (fun p => (p.pupPacking.msg, p.pupPacking.len, p.pupPacking.offset))
    (fun x => pupUnpacking ⟨x.1, x.2.1, x.2.2⟩ (place x.1))

/-- The routines of an element: Charm++'s, the `T::pup` of the task types by their
kind, and what user code reads at `task_payload::data`. -/
structure Pups (β σ δ : Type) where
  stl : PupStl β
  self : TaskKind → Puper β σ
  read : (Nat → Byte) → δ

/-- A move: where the payloads lie before, and for the new process where it puts
messages and what else it has in memory. -/
structure Moving (δ : Type) where
  held : Payload δ → TaskPayload
  place : CkMessage → Address
  heap : Heap

variable (M : Pups β σ δ) (mv : Moving δ)

/-- What user code gets to see of a payload. -/
def Pups.payload (heap : Heap) (q : TaskPayload) : Payload δ :=
  ⟨q.id, M.read (q.get heap)⟩

/-- `task_payload::pup`. -/
def Pups.payloadPup : Puper β (Payload δ) :=
  (TaskPayload.pup M.stl mv.place).via mv.held (M.payload mv.heap)

/-- `task_puping_helper_<T>::pup`, with `task_base_::pup_base_`. While unpacking the
task comes from `task(void)`. -/
def Pups.taskPup (kind : TaskKind) : Puper β (Task σ) :=
  ((M.stl.nat.andThen (M.self kind)).via (fun task => (task.continuation, task.self))
    (fun x => ⟨true, kind, x.1, x.2⟩)).asserting fun task => task.active

/-- `ptr_helper<task_base_, false>`. -/
def Pups.taskPtrPup : Puper β (Task σ) :=
  M.stl.nat.tagged (fun task => task.kind) M.taskPup

/-- The members `workgroup::pup` names: `last_task_`, `tasks_` and `buffers_`. -/
abbrev Members (σ δ : Type) : Type :=
  BitVec 32 × List (TaskId × Task σ) × List
    (TaskId × List (ContinuationId × List (Payload δ)))

/-- `workgroup::pup`. -/
def Pups.membersPup : Puper β (Members σ δ) :=
  (M.stl.bits 32).andThen ((M.stl.map M.stl.taskId (M.stl.uniquePtr M.taskPtrPup)).andThen
    (M.stl.map M.stl.taskId (M.stl.map M.stl.nat (M.stl.deque (M.payloadPup mv)))))

/-- The orders in which the maps of an element are iterated. -/
structure Order where
  tasks : List TaskId
  buffers : List TaskId
  queues : TaskId → List ContinuationId

/-- They have the keys the maps have. -/
structure Order.Of (o : Order) (g : Workgroup σ δ) : Prop where
  tasks : Enumerates o.tasks g.tasks
  buffers : Enumerates o.buffers g.buffers
  queues : ∀ tid map, g.buffers tid = some map → Enumerates (o.queues tid) map

/-- The members in these orders. -/
def Workgroup.members (g : Workgroup σ δ) (o : Order) : Members σ δ :=
  (g.lastTask, entriesOf g.tasks o.tasks,
    (entriesOf g.buffers o.buffers).map fun x => (x.1, entriesOf x.2 (o.queues x.1)))

/-- `workgroup::workgroup(CkMigrateMessage *)` with the members unpacked. -/
def Workgroup.rebuilt (active : TaskId) (ran : List (Ran δ)) (x : Members σ δ) :
    Workgroup σ δ where
  active
  lastTask := x.1
  tasks := ofEntries x.2.1
  buffers := ofEntries (x.2.2.map fun y => (y.1, ofEntries y.2))
  ran

/-- The element moves: `none` where an assertion fails, or what is read is not there. -/
def Workgroup.migrate (o : Order) (active : TaskId) (g : Workgroup σ δ) :
    Option (Workgroup σ δ) :=
  match (M.membersPup mv).pack (g.members o) with
  | none => none
  | some bs => ((M.membersPup mv).unpack bs).map fun x =>
    Workgroup.rebuilt active g.ran x.1

/-! ## What arrives -/

section Arrives

variable {M mv} {g : Workgroup σ δ} {o : Order}

/-- **The members are unpacked as they were packed**, in whichever order. -/
theorem rebuilt_members (ho : o.Of g) (active : TaskId) :
    Workgroup.rebuilt active g.ran (g.members o) = { g with active } := by
  have hbuffers : ofEntries (((g.members o).2.2).map fun y => (y.1, ofEntries y.2)) =
      g.buffers := by
    have hmap : ((g.members o).2.2).map (fun y => (y.1, ofEntries y.2)) =
        entriesOf g.buffers o.buffers := by
      show (((entriesOf g.buffers o.buffers).map _).map _) = _
      rw [List.map_map]
      refine (List.map_congr_left fun x hx => ?_).trans (List.map_id _)
      exact congrArg (Prod.mk x.1)
        (ofEntries_entriesOf (ho.queues x.1 x.2 (mem_entriesOf hx)))
    rw [hmap, ofEntries_entriesOf ho.buffers]
  show Workgroup.mk active g.lastTask (ofEntries (entriesOf g.tasks o.tasks)) _ g.ran = _
  rw [ofEntries_entriesOf ho.tasks, hbuffers]

theorem taskPayload_arrives (S : PupStl β) (place : CkMessage → Address)
    (q : TaskPayload) : (TaskPayload.pup S place).Arrives q
    (q.migrate (place q.src.pack)) := by
  have hparts : (S.message.andThen (S.nat.andThen (S.bits 64))).Arrives
      (q.pupPacking.msg, q.pupPacking.len, q.pupPacking.offset)
      (q.pupPacking.msg, q.pupPacking.len, q.pupPacking.offset) :=
    .andThen (S.message_arrives _) (.andThen (S.nat_arrives _) (S.bits_arrives 64 _))
  exact Puper.Arrives.via (f := fun p : TaskPayload =>
    (p.pupPacking.msg, p.pupPacking.len, p.pupPacking.offset)) hparts

/-- A payload arrives as it is read after the move. -/
theorem payloadPup_arrives (p : Payload δ) : (M.payloadPup mv).Arrives p
    (M.payload mv.heap ((mv.held p).migrate (mv.place (mv.held p).src.pack))) :=
  (taskPayload_arrives M.stl mv.place (mv.held p)).via

/-- The move keeps a payload. -/
def Kept (M : Pups β σ δ) (mv : Moving δ) (p : Payload δ) : Prop :=
  M.payload mv.heap ((mv.held p).migrate (mv.place (mv.held p).src.pack)) = p

/-- An active task arrives as it is, when its members do. -/
theorem taskPtrPup_arrives {task : Task σ} (hactive : task.active = true)
    (hself : (M.self task.kind).Arrives task.self task.self) :
    M.taskPtrPup.Arrives task task := by
  have htask : (⟨true, task.kind, task.continuation, task.self⟩ : Task σ) = task := by
    rw [← hactive]
  have hparts :
    (M.stl.nat.andThen (M.self task.kind)).Arrives (task.continuation, task.self)
      (task.continuation, task.self) := .andThen (M.stl.nat_arrives _) hself
  have hvia := hparts.via (f := fun task : Task σ => (task.continuation, task.self))
    (g := fun x => (⟨true, task.kind, x.1, x.2⟩ : Task σ))
  rw [htask] at hvia
  exact .tagged (M.stl.nat_arrives _) (.asserting hactive hvia)

/-- What a move needs of an element: its tasks are active and their members arrive. -/
def Movable (M : Pups β σ δ) (g : Workgroup σ δ) : Prop :=
  ∀ tid task, g.tasks tid = some task →
    task.active = true ∧ (M.self task.kind).Arrives task.self task.self

/-- What is buffered is kept. -/
def BuffersKept (M : Pups β σ δ) (mv : Moving δ) (g : Workgroup σ δ) : Prop :=
  ∀ tid id, ∀ p ∈ g.queue tid id, Kept M mv p

theorem forall₂_same {α : Type} {R : α → α → Prop} {xs : List α} (h : ∀ x ∈ xs, R x x) :
    List.Forall₂ R xs xs :=
  List.forall₂_same.mpr h

theorem members_arrive (hs : Movable M g) (hk : BuffersKept M mv g) :
    (M.membersPup mv).Arrives (g.members o) (g.members o) := by
  refine .andThen (M.stl.bits_arrives 32 _) (.andThen ?_ ?_)
  · refine M.stl.map_arrives (forall₂_same fun x hx => ?_)
    obtain ⟨hactive, hself⟩ := hs x.1 x.2 (mem_entriesOf hx)
    exact .andThen (M.stl.taskId_arrives _)
      (M.stl.uniquePtr_arrives (taskPtrPup_arrives hactive hself))
  · refine M.stl.map_arrives (forall₂_same fun y hy => ?_)
    obtain ⟨x, hx, rfl⟩ := List.mem_map.mp hy
    refine .andThen (M.stl.taskId_arrives _)
      (M.stl.map_arrives (forall₂_same fun z hz => ?_))
    refine .andThen (M.stl.nat_arrives _)
      (M.stl.deque_arrives (forall₂_same fun p hp => ?_))
    have hqueue : g.queue x.1 z.1 = z.2 := by
      rw [Workgroup.queue, mem_entriesOf hx]
      show (x.2 z.1).getD [] = z.2
      rw [mem_entriesOf hz]
      rfl
    have hkept : Kept M mv p := hk x.1 z.1 p (hqueue ▸ hp)
    have harrives : (M.payloadPup mv).Arrives p _ := payloadPup_arrives p
    rwa [hkept] at harrives

/-- **An element that moved is the element it was**, but for `active_`. -/
theorem migrate_eq (hs : Movable M g) (hk : BuffersKept M mv g) (ho : o.Of g)
    (active : TaskId) :
    g.migrate M mv o active = some { g with active } := by
  obtain ⟨bs, hpack, hunpack⟩ := members_arrive (o := o) hs hk
  have hread := hunpack []
  rw [List.append_nil] at hread
  simp only [Workgroup.migrate, hpack, hread, Option.map_some, rebuilt_members ho active]

/-- `q` is the payload of a task message, and user code reads from what was packed
into it no more than it needs to get `p`. -/
structure Lies (M : Pups β σ δ) (C : Charm) (q : TaskPayload) (p : Payload δ) : Prop where
  source : ∃ s : TaskSource C, q = .ofTaskMessage C s.msg ∧
    ∀ heap f, (∀ i < s.size, f i = q.get heap i) → M.read f = p.data
  refnum : q.id = p.refnum

/-- **A move keeps the payloads of task messages.** -/
theorem Lies.kept {C : Charm} {p : Payload δ} (h : Lies M C (mv.held p) p) :
    Kept M mv p := by
  obtain ⟨⟨s, hsource, hread⟩, hrefnum⟩ := h
  have hmoved := moved_migrate (mv.held p) (mv.place (mv.held p).src.pack)
  refine congrArg₂ Payload.mk (hmoved.src.refnum.trans hrefnum)
    (hread mv.heap _ fun i hi => ?_)
  rw [hsource] at hmoved ⊢
  exact (Source.taskMessage s).get_eq trivial hmoved mv.heap mv.heap hi

/-- **What `task::send` packs and sends lies so**: the arguments, in a message with the
reference number set. -/
theorem lies_sent {C : Charm} {address : Address} {junk : Bytes} {args : List Byte}
    {m : CkMessage}
    (hpack : C.packArgs address junk args = some m) (a : Address) {p : Payload δ}
    (hread : ∀ f : Nat → Byte, (∀ i (hi : i < args.length), f i = args[i]) →
      M.read f = p.data) :
    Lies M C (.ofTaskMessage C { m.sendTo a with refnum := p.refnum }) p where
  source := by
    have hlaid := (m.same_sendTo a).laid (packArgs_laid hpack)
    refine ⟨⟨{ m.sendTo a with refnum := p.refnum }, args.length, (packArgs_some hpack).1,
      hlaid.type, hlaid.room, hlaid.data⟩, rfl, fun heap f hf => hread f fun i hi => ?_⟩
    rw [hf i hi]
    show Option.getD ((m.sendTo a).at?
      ((TaskPayload.ofTaskMessage C (m.sendTo a)).data + BitVec.ofNat 64 i)) _ = _
    rw [payload_points hpack a hi, Option.getD_some]
  refnum := rfl

end Arrives

/-! ## What an entry does, in small steps -/

section Entries

variable {M mv} {P : Program σ δ} {g g' : Workgroup σ δ}

/-- The ways in which the functions of an element change it. -/
inductive Small (P : Program σ δ) (g : Workgroup σ δ) : Workgroup σ δ → Prop
  | activate (tid : TaskId) : Small P g { g with active := tid }
  | touch (tid : TaskId) : Small P g (g.touch tid)
  | setQueue (tid : TaskId) (id : ContinuationId) (q : List (Payload δ)) :
      Small P g (g.setQueue tid id q)
  | invoke (tid : TaskId) (task : Task σ) (payload : Payload δ) :
      g.tasks tid = some task → Small P g (g.invoke P tid task payload)
  | keep (tid : TaskId) (kind : TaskKind) (payload : Payload δ) :
      (P.creator kind payload).active = true →
      Small P g { g with tasks := Function.update g.tasks tid (some (P.creator kind payload)) }

open Relation (ReflTransGen)

theorem tryContinue_small {it : TaskId} : ∀ (fuel : Nat) {g g' : Workgroup σ δ},
    g.tryContinue P fuel it = some g' → ReflTransGen (Small P) g g' := by
  intro fuel
  induction fuel with
  | zero =>
    intro g g' h
    cases h
  | succ fuel ih =>
    intro g g' h
    unfold Workgroup.tryContinue at h
    split at h
    next => cases h
    next task ht =>
      dsimp only at h
      have htouch := ReflTransGen.single (Small.touch (P := P) (g := g) g.active)
      split at h
      next =>
        obtain rfl := Option.some.inj h
        exact htouch
      next payload rest hq =>
        split at h
        next =>
          obtain rfl := Option.some.inj h
          exact htouch
        next g₁ keep hres =>
          obtain ⟨task', ht', _, rfl, _⟩ := resumeObserved_inv hres
          have hpop := fun q => (htouch.tail (.invoke g.active task' payload ht')).tail
            (.setQueue g.active task.continuation q)
          split at h
          next => exact (hpop _).trans (ih h)
          next =>
            obtain rfl := Option.some.inj h
            exact hpop _

theorem resumeOrBuffer_small {fuel : Nat} {tid : TaskId} {payload : Payload δ}
    (h : g.resumeOrBuffer P fuel tid payload = some g') :
    ReflTransGen (Small P) g g' := by
  unfold Workgroup.resumeOrBuffer Workgroup.resume at h
  cases hobs : g.resumeObserved P tid payload with
  | none =>
    rw [hobs] at h
    obtain rfl := Option.some.inj h
    exact .single (.setQueue tid payload.id _)
  | some x =>
    obtain ⟨g₁, keep⟩ := x
    obtain ⟨task, ht, _, hg, _⟩ := resumeObserved_inv hobs
    have hinvoke := ReflTransGen.single (Small.invoke (P := P) tid task payload ht)
    rw [hobs] at h
    dsimp only at h
    by_cases hkeep : keep = true
    · rw [if_pos hkeep] at h
      cases htry : g₁.tryContinue P fuel tid with
      | none =>
        rw [htry] at h
        cases h
      | some g₂ =>
        rw [htry] at h
        obtain rfl := Option.some.inj h
        rw [← hg] at hinvoke
        exact hinvoke.trans (tryContinue_small fuel htry)
    · rw [if_neg hkeep] at h
      obtain rfl := Option.some.inj h
      rw [hg]
      exact hinvoke

/-- **An entry is a sequence of small steps.** -/
theorem deliver_small {fuel : Nat} {e : Entry δ} (h : g.deliver P fuel e = some g') :
    ReflTransGen (Small P) g g' := by
  cases e with
  | create msg =>
    unfold Workgroup.deliver Workgroup.create at h
    dsimp only at h
    have hfirst := ReflTransGen.single (Small.activate (P := P) (g := g) msg.tid)
    split at h
    next hactive =>
      split at h
      next => cases h
      next =>
        exact (hfirst.tail (.keep msg.tid msg.kind _ hactive)).trans (tryContinue_small fuel h)
    next =>
      obtain rfl := Option.some.inj h
      exact hfirst
  | resumeMessage msg => exact resumeOrBuffer_small h
  | resumeReduction msg => exact resumeOrBuffer_small h

/-- What the small steps keep an entry keeps. -/
theorem deliver_keeps {I : Workgroup σ δ → Prop} (hI : ∀ g g', I g → Small P g g' → I g')
    {fuel : Nat} {e : Entry δ} (hg : I g) (h : g.deliver P fuel e = some g') : I g' := by
  have hsteps := deliver_small h
  clear h
  induction hsteps with
  | refl => exact hg
  | tail _ hstep ih => exact hI _ _ ih hstep

/-- What user code makes of a task its type's `pup` carries. -/
structure Pupable (M : Pups β σ δ) (P : Program σ δ) : Prop where
  creator : ∀ kind payload, let task := P.creator kind payload
    (M.self task.kind).Arrives task.self task.self
  continuation : ∀ id task payload, (M.self task.kind).Arrives task.self task.self →
    let task' := P.continuation id task payload
    (M.self task'.kind).Arrives task'.self task'.self

/-- Every map of queues has finitely many entries. -/
def FiniteQueues (g : Workgroup σ δ) : Prop :=
  ∀ tid map, g.buffers tid = some map → {id | (map id).isSome = true}.Finite

/-- An entry of an updated map is the new one or an old one. -/
theorem update_some {κ ν : Type} [DecidableEq κ] {m : κ → Option ν} {k k' : κ}
    {v : Option ν} {x : ν}
    (h : Function.update m k v k' = some x) : v = some x ∨ m k' = some x := by
  by_cases heq : k' = k
  · subst heq
    rw [Function.update_self] at h
    exact Or.inl h
  · rw [Function.update_of_ne heq] at h
    exact Or.inr h

theorem small_movable (hpup : Pupable M P) (h : Movable M g) (hstep : Small P g g') :
    Movable M g' := by
  cases hstep with
  | activate | setQueue => exact h
  | touch tid =>
    intro t task ht
    rw [touch_tasks] at ht
    exact h t task ht
  | invoke tid task payload htask =>
    intro t task' ht
    rcases update_some ht with hnew | hold
    · split at hnew
      next hactive =>
        obtain rfl := Option.some.inj hnew
        exact ⟨hactive, hpup.continuation _ _ _ (h tid task htask).2⟩
      next => cases hnew
    · exact h t task' hold
  | keep tid kind payload hactive =>
    intro t task ht
    rcases update_some ht with hnew | hold
    · obtain rfl := Option.some.inj hnew
      exact ⟨hactive, hpup.creator _ _⟩
    · exact h t task hold

theorem small_finite (h : FiniteQueues g) (hstep : Small P g g') : FiniteQueues g' := by
  cases hstep with
  | activate | invoke | keep => exact h
  | touch tid =>
    intro t map hmap
    unfold Workgroup.touch at hmap
    split at hmap
    next => exact h t map hmap
    next =>
      rcases update_some hmap with hnew | hold
      · obtain rfl := Option.some.inj hnew
        exact Set.finite_empty.subset fun _ hid => nomatch hid
      · exact h t map hold
  | setQueue tid id q =>
    intro t map hmap
    rcases update_some hmap with hnew | hold
    · obtain rfl := Option.some.inj hnew
      have hbefore : {i | (((g.buffers tid).getD fun _ => none) i).isSome =
          true}.Finite := by
        cases hbuffers : g.buffers tid with
        | none => exact Set.finite_empty.subset fun _ hid => nomatch hid
        | some before => exact h tid before hbuffers
      refine (hbefore.insert id).subset fun i hi => ?_
      by_cases hid : i = id
      · exact Or.inl hid
      · rw [Set.mem_ofPred_eq, Function.update_of_ne hid] at hi
        exact Or.inr hi
    · exact h t map hold

/-- There are finitely many task ids, so the maps of an element can be iterated. -/
theorem exists_order (h : FiniteQueues g) : ∃ o : Order, o.Of g := by
  have hfinite : Finite TaskId := Finite.of_injective
    (fun tid : TaskId => (tid.host.toFin, tid.task.toFin)) fun a b hab => by
      obtain ⟨hhost, htask⟩ := Prod.mk.inj hab
      cases a
      cases b
      exact congrArg₂ TaskId.mk (BitVec.eq_of_toFin_eq hhost)
        (BitVec.eq_of_toFin_eq htask)
  obtain ⟨tasks, htasks⟩ := exists_enumerates (m := g.tasks) (Set.toFinite _)
  obtain ⟨buffers, hbuffers⟩ := exists_enumerates (m := g.buffers) (Set.toFinite _)
  have hqueues : ∀ tid, ∃ ids, ∀ map, g.buffers tid = some map → Enumerates ids map := by
    intro tid
    cases hmap : g.buffers tid with
    | none => exact ⟨[], fun map hsome => nomatch hsome⟩
    | some map =>
      obtain ⟨ids, hids⟩ := exists_enumerates (h tid map hmap)
      exact ⟨ids, fun map' hsome => Option.some.inj hsome ▸ hids⟩
  choose queues hids using hqueues
  exact ⟨⟨tasks, buffers, queues⟩, htasks, hbuffers, hids⟩

end Entries

end CharmExperiments.Hypercomm
