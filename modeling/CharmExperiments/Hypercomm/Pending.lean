import CharmExperiments.Hypercomm.Solo

/-!
# What is on its way to a continuation

The payloads for one continuation of one element are in flight or in its queue;
`Solo.pending` puts them together, without their order. An arrival changes
nothing. A read takes one payload out, and what user code sends and the results
of reductions are added. Counting invariants are stated over `pending`.
-/

namespace CharmExperiments.Hypercomm

open CharmExperiments.Lib

variable {n : Nat} {σ δ : Type}

/-- The payload a message brings for the continuation `id` of element `i`. -/
def mailFor (i : Nat) (id : ContinuationId) (x : Nat × Entry δ) : Option (Payload δ) :=
  if x.1 = i then x.2.payload?.filter fun p => p.id = id else none

/-- The payloads in flight for a continuation of an element. -/
def mail (i : Nat) (id : ContinuationId) (flight : List (Nat × Entry δ)) :
    List (Payload δ) :=
  flight.filterMap (mailFor i id)

/-- The payloads in flight and in the queue. -/
def Solo.pending (u : Solo n σ δ) (i : Fin n) (id : ContinuationId) : List (Payload δ) :=
  mail i id u.flight ++ u.queues i id

@[simp] theorem mail_nil (i : Nat) (id : ContinuationId) :
    mail i id ([] : List (Nat × Entry δ)) = [] := rfl

@[simp] theorem mail_append (i : Nat) (id : ContinuationId)
    (xs ys : List (Nat × Entry δ)) :
    mail i id (xs ++ ys) = mail i id xs ++ mail i id ys :=
  List.filterMap_append ..

theorem mailFor_payload {i : Nat} {id : ContinuationId} {x : Nat × Entry δ}
    {p : Payload δ}
    (hp : x.2.payload? = some p) :
    mailFor i id x = if x.1 = i ∧ p.id = id then some p else none := by
  unfold mailFor
  rw [hp, Option.filter_some]
  by_cases hx : x.1 = i <;> by_cases hid : p.id = id <;> simp [hx, hid]

theorem mailFor_none {i : Nat} {id : ContinuationId} {x : Nat × Entry δ}
    (hp : x.2.payload? = none) : mailFor i id x = none := by
  unfold mailFor
  rw [hp]
  split <;> rfl

/-- The messages of one send. -/
theorem mail_single (i : Nat) (id : ContinuationId) {x : Nat × Entry δ} {p : Payload δ}
    (hp : x.2.payload? = some p) :
    mail i id [x] = if x.1 = i ∧ p.id = id then [p] else [] := by
  unfold mail
  rw [List.filterMap_cons, mailFor_payload hp]
  split <;> split <;> simp_all

/-- A message for every element of the array. -/
theorem mail_all (i : Fin n) (id : ContinuationId) {e : Entry δ} {p : Payload δ}
    (hp : e.payload? = some p) :
    mail i id ((List.range n).map fun q => (q, e)) = if p.id = id then [p] else [] := by
  have hfilter : mail i id ((List.range n).map fun q => (q, e))
      = ((List.range n).filter fun q => q = i.val).flatMap fun _ =>
        if p.id = id then [p] else [] := by
    induction List.range n with
    | nil => rfl
    | cons q qs ih =>
      rw [List.map_cons, ← List.singleton_append, mail_append, ih, mail_single _ _ hp]
      by_cases hq : q = i.val
      · simp [hq]
      · simp [hq]
  rw [hfilter, List.filter_eq, List.count_eq_one_of_mem List.nodup_range
    (List.mem_range.mpr i.isLt)]
  exact List.append_nil _

variable [DecidableEq δ]

/-- What is taken out of the flight is one payload less. -/
theorem mail_erase_some {i : Nat} {id : ContinuationId} {flight : List (Nat × Entry δ)}
    {x : Nat × Entry δ} {p : Payload δ} (hmem : x ∈ flight)
    (hx : mailFor i id x = some p) :
    (mail i id flight).Perm (p :: mail i id (flight.erase x)) := by
  have hperm := (List.perm_cons_erase hmem).filterMap (mailFor i id)
  rw [List.filterMap_cons_some hx] at hperm
  exact hperm

theorem mail_erase_none {i : Nat} {id : ContinuationId} {flight : List (Nat × Entry δ)}
    {x : Nat × Entry δ} (hmem : x ∈ flight) (hx : mailFor i id x = none) :
    (mail i id flight).Perm (mail i id (flight.erase x)) := by
  have hperm := (List.perm_cons_erase hmem).filterMap (mailFor i id)
  rw [List.filterMap_cons_none hx] at hperm
  exact hperm

/-- **An arrival moves a payload from the flight to the queue.** -/
theorem pending_arrive {u : Solo n σ δ} {i : Fin n} {e : Entry δ} {payload : Payload δ}
    (hmem : (i.val, e) ∈ u.flight) (hp : e.payload? = some payload) (q : Fin n)
    (id : ContinuationId) : ((u.arrive i e payload).pending q id).Perm
    (u.pending q id) := by
  show (mail q id (u.flight.erase (i.val, e)) ++ Function.update u.queues i _ q id).Perm
    (mail q id u.flight ++ u.queues q id)
  have hmail : mailFor q.val id (i.val, e) = _ := mailFor_payload hp
  by_cases hq : q = i
  · subst hq
    rw [Function.update_self]
    by_cases hid : id = payload.id
    · subst hid
      rw [if_pos ⟨rfl, rfl⟩] at hmail
      rw [Function.update_self, ← List.append_assoc]
      refine (List.perm_append_singleton ..).trans ?_
      exact (mail_erase_some hmem hmail).symm.append_right _
    · rw [if_neg (fun h => hid h.2.symm)] at hmail
      rw [Function.update_of_ne hid]
      exact (mail_erase_none hmem hmail).symm.append_right _
  · rw [if_neg (fun h => hq (Fin.ext h.1.symm))] at hmail
    rw [Function.update_of_ne hq]
    exact (mail_erase_none hmem hmail).symm.append_right _

/-- A constructed task adds what it sends. -/
theorem pending_construct (B : Fin n → Behaviour σ δ) (tid : TaskId)
    {u : Solo n σ δ} {i : Fin n}
    {msg : TaskMessage δ} (hmem : (i.val, .create msg) ∈ u.flight) (q : Fin n)
    (id : ContinuationId) :
    (u.pending q id ++ mail q id
        ((((B i).creator msg.kind ⟨msg.refnum, msg.data⟩).2.map
          fun effect => ⟨tid, tid, effect⟩).flatMap (Issued.messages n))).Perm
      ((Solo.construct B tid { u with flight := u.flight.erase (i.val, .create msg) } i msg.kind
        ⟨msg.refnum, msg.data⟩).pending q id) := by
  show (mail q id u.flight ++ u.queues q id ++ _).Perm
    (mail q id (u.flight.erase _ ++ _) ++ u.queues q id)
  rw [mail_append, List.append_assoc, List.append_assoc]
  exact (mail_erase_none hmem (mailFor_none rfl)).append List.perm_append_comm

omit [DecidableEq δ] in
/-- **A read takes a payload out, and the continuation adds what it sends.** -/
theorem pending_read (B : Fin n → Behaviour σ δ) (tid : TaskId)
    {u : Solo n σ δ} {i : Fin n}
    {task : Task σ} {payload : Payload δ} {rest : List (Payload δ)}
    (hq : u.queues i task.continuation = payload :: rest) (q : Fin n)
    (id : ContinuationId) : (u.pending q id ++ mail q id
        ((Solo.callOf (B i) tid task payload).issued.flatMap (Issued.messages n))).Perm
      ((if q = i ∧ id = task.continuation then [payload] else []) ++
        (u.read B tid i task payload rest).pending q id) := by
  show (mail q id u.flight ++ u.queues q id ++ _).Perm
    (_ ++ (mail q id (u.flight ++ _) ++ Function.update u.queues i _ q id))
  have hqueue : u.queues q id = (if q = i ∧ id = task.continuation then [payload]
    else []) ++
      Function.update u.queues i
        (Function.update (u.queues i) task.continuation rest) q id := by
    by_cases hqi : q = i
    · subst hqi
      rw [Function.update_self]
      by_cases hid : id = task.continuation
      · subst hid
        rw [if_pos ⟨rfl, rfl⟩, Function.update_self, hq]
        rfl
      · rw [if_neg (fun h => hid h.2), Function.update_of_ne hid]
        rfl
    · rw [if_neg (fun h => hqi h.1), Function.update_of_ne hqi]
      rfl
  conv_lhs => rw [hqueue]
  rw [mail_append]
  generalize mail q id u.flight = a
  generalize (if q = i ∧ id = task.continuation then [payload] else []) = b
  generalize Function.update u.queues i _ q id = c
  generalize mail q id _ = d
  rw [List.append_assoc, List.append_assoc, List.append_assoc]
  refine (List.perm_append_comm_assoc a b _).trans (List.Perm.append_left b ?_)
  exact List.perm_append_comm.append_left a

end CharmExperiments.Hypercomm
