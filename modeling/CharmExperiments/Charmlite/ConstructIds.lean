import CharmExperiments.Charmlite.System
import Mathlib.Algebra.BigOperators.Group.Finset.Basic

/-!
# The ids of collectives

`collective_proxy::construct` and `group_proxy::construct` take ids from one
count per PE, the first before and the second after it is incremented. So a
collective made right after a group gets the group's id, and this is the only
way two ids agree (`ids_nodup_iff`). Every kind message then finds no entry in
the table of its PE (`construct_ids_iff`), since the messages under way for an
id and the entries there are as many as the calls that returned it (`IdInv`).
-/

namespace CharmExperiments.Charmlite

open CharmExperiments.Lib

/-- The ids that the `construct` calls on a PE returned, with whether it was a
group that was made. -/
def Pe.made (pe : Pe) : List (CollectiveIndex × Bool) :=
  pe.log.filterMap fun
    | .constructed id group => some (id, group)
    | _ => none

def Pe.ids (pe : Pe) : List CollectiveIndex := pe.made.map (·.1)

/-- On a PE no collective was made right after a group. -/
def Pe.NoneAfterGroup (pe : Pe) : Prop :=
  pe.made.IsChain fun a b => ¬ (a.2 = true ∧ b.2 = false)

/-- The ids that were returned on all PEs. -/
def System.ids (X : Machine) (s : System) : List CollectiveIndex :=
  (List.range X.numPes).flatMap fun p => (s.pes p).ids

/-- The `emplace` for each message under way that makes a collective inserts. -/
def System.Inserts (X : Machine) (s : System) : Prop :=
  ∀ p msg, (p, msg) ∈ s.net → p < X.numPes → msg.collectiveKind = true →
    (s.pes p).collectiveTable msg.collective = none

/-! ## The ids of one PE -/

/-- The id of the `i`-th call on a PE. -/
def idAt (me i : Nat) (group : Bool) : CollectiveIndex :=
  ⟨BitVec.ofNat 32 me, BitVec.ofNat 32 (if group then i + 1 else i)⟩

/-- The `i`-th id is the count before or after the call. -/
structure IdsOk (me : Nat) (pe : Pe) : Prop where
  count : pe.localCollectiveCount = BitVec.ofNat 32 pe.made.length
  ids : ∀ i id group, pe.made[i]? = some (id, group) → id = idAt me i group

theorem ofNat_inj {w a b : Nat} (ha : a < 2 ^ w) (hb : b < 2 ^ w)
    (h : BitVec.ofNat w a = BitVec.ofNat w b) : a = b := by
  have h := congrArg BitVec.toNat h
  rw [BitVec.toNat_ofNat, BitVec.toNat_ofNat, Nat.mod_eq_of_lt ha,
    Nat.mod_eq_of_lt hb] at h
  exact h

/-- Two ids of a PE agree only if the second call made a collective right after
the first made a group. -/
theorem IdsOk.eq_iff {me : Nat} {pe : Pe} (h : IdsOk me pe)
    (hlt : pe.made.length < 2 ^ 31)
    {i j : Nat} (hij : i < j) {a b : CollectiveIndex × Bool} (ha : pe.made[i]? = some a)
    (hb : pe.made[j]? = some b) :
    a.1 = b.1 ↔ j = i + 1 ∧ a.2 = true ∧ b.2 = false := by
  have hj : j < pe.made.length := (List.getElem?_eq_some_iff.mp hb).1
  rw [h.ids i a.1 a.2 ha, h.ids j b.1 b.2 hb, idAt, idAt, CollectiveIndex.mk.injEq]
  constructor
  · rintro ⟨_, hid⟩
    have hid := ofNat_inj (by split <;> omega) (by split <;> omega) hid
    split at hid
    next hgroup =>
      split at hid
      next => omega
      next hcol => exact ⟨hid.symm, hgroup, Bool.eq_false_iff.mpr hcol⟩
    next => split at hid <;> omega
  · rintro ⟨rfl, hgroup, hcol⟩
    rw [hgroup, hcol]
    exact ⟨rfl, rfl⟩

theorem IdsOk.nodup_iff {me : Nat} {pe : Pe} (h : IdsOk me pe)
    (hlt : pe.made.length < 2 ^ 31) : pe.ids.Nodup ↔ pe.NoneAfterGroup := by
  rw [Pe.ids, List.Nodup, List.pairwise_map, List.pairwise_iff_getElem, Pe.NoneAfterGroup,
    List.isChain_iff_getElem]
  constructor
  · intro hne i hi hafter
    exact hne i (i + 1) (by omega) hi (by omega) ((h.eq_iff hlt (Nat.lt_succ_self i)
      (List.getElem?_eq_getElem _) (List.getElem?_eq_getElem _)).mpr ⟨rfl, hafter⟩)
  · intro hchain i j hi hj hij heq
    obtain ⟨rfl, hafter⟩ := (h.eq_iff hlt hij (List.getElem?_eq_getElem _)
      (List.getElem?_eq_getElem _)).mp heq
    exact hchain i hj hafter

/-! ## What a handler does to them -/

/-- The messages for PE `q` that make the collective `id`. -/
def kindCount (q : Nat) (id : CollectiveIndex) (l : List (Nat × Message)) : Nat :=
  l.countP fun r => r.1 == q && r.2.collectiveKind && r.2.collective == id

/-- No message that makes a collective is held back. -/
structure NoKind (pe : Pe) : Prop where
  buffers : ∀ cid col, pe.collectiveTable cid = some col →
    ∀ idx, ∀ m ∈ col.buffers idx, m.collectiveKind = false
  collectiveBuffer : ∀ cid, ∀ m ∈ pe.collectiveBuffer cid, m.collectiveKind = false

/-- The ids of the PE are those of its calls, and since the state `pe₀` it has
made no collective itself and sent one message per PE for each id returned. -/
structure IdInv (X : Machine) (me : Nat) (pe₀ pe : Pe) : Prop where
  noKind : NoKind pe
  ids : IdsOk me pe
  table : ∀ id, (pe.collectiveTable id).isSome = (pe₀.collectiveTable id).isSome
  sent : ∀ q, q < X.numPes → ∀ id,
    kindCount q id pe.sent + pe₀.ids.count id = kindCount q id pe₀.sent + pe.ids.count id

variable {X : Machine} {me : Nat}

theorem IdInv.refl {pe : Pe} (hkind : NoKind pe) (hids : IdsOk me pe) :
    IdInv X me pe pe :=
  ⟨hkind, hids, fun _ => rfl, fun _ _ _ => rfl⟩

theorem kindCount_append (q : Nat) (id : CollectiveIndex) (l l' : List (Nat × Message)) :
    kindCount q id (l ++ l') = kindCount q id l + kindCount q id l' := List.countP_append

theorem kindCount_of_noKind {q : Nat} {id : CollectiveIndex} {l : List (Nat × Message)}
    (h : ∀ r ∈ l, r.2.collectiveKind = false) : kindCount q id l = 0 := by
  rw [kindCount, List.countP_eq_zero]
  intro r hr
  simp [h r hr]

theorem made_append {pe pe' : Pe} {l : List Event} (h : pe'.log = pe.log ++ l) :
    pe'.made = pe.made ++ l.filterMap (fun
      | .constructed id group => some (id, group)
      | _ => none) := by
  rw [Pe.made, h, List.filterMap_append, Pe.made]

/-- A step of a PE that sends nothing of this kind and returns no id. -/
theorem IdInv.same {pe₀ pe pe' : Pe} (h : IdInv X me pe₀ pe) (hkind : NoKind pe')
    (hcount : pe'.localCollectiveCount = pe.localCollectiveCount)
    (hmade : pe'.made = pe.made) (htable : ∀ id, (pe'.collectiveTable id).isSome =
      (pe.collectiveTable id).isSome)
    (hsent : ∀ q id, kindCount q id pe'.sent = kindCount q id pe.sent) :
    IdInv X me pe₀ pe' where
  noKind := hkind
  ids := ⟨by rw [hcount, hmade]; exact h.ids.count, by rw [hmade]; exact h.ids.ids⟩
  table := fun id => (htable id).trans (h.table id)
  sent := by
    intro q hq id
    have hids : pe'.ids = pe.ids := by rw [Pe.ids, hmade, Pe.ids]
    rw [hsent, hids]
    exact h.sent q hq id

/-- The messages that make a collective, one for each PE. -/
theorem kindCount_range {q : Nat} (hq : q < X.numPes) (id id' : CollectiveIndex)
    (f : Nat → Message) (hf : ∀ i, (f i).collectiveKind = true ∧ (f i).collective = id) :
    kindCount q id' ((List.range X.numPes).map fun i => (i, f i)) = if id = id' then 1
      else 0 := by
  rw [kindCount, List.countP_map]
  by_cases hid : id = id'
  · subst hid
    rw [if_pos rfl]
    have hone : (List.range X.numPes).countP ((fun r : Nat × Message =>
        r.1 == q && r.2.collectiveKind && r.2.collective == id) ∘ fun i => (i, f i))
        = (List.range X.numPes).count q := by
      apply List.countP_congr
      intro i _
      simp [(hf i).1, (hf i).2]
    rw [hone, List.count_eq_one_of_mem List.nodup_range (List.mem_range.mpr hq)]
  · rw [if_neg hid, List.countP_eq_zero]
    intro i _
    simp [(hf i).2, hid]

/-- A `construct` returns the next id and sends the messages for it. -/
theorem IdInv.construct {pe₀ pe pe' : Pe} (h : IdInv X me pe₀ pe) (group : Bool)
    (htable : pe'.collectiveTable = pe.collectiveTable)
    (hbuffer : pe'.collectiveBuffer = pe.collectiveBuffer)
    (hcount : pe'.localCollectiveCount = pe.localCollectiveCount + 1)
    (hlog : pe'.log = pe.log ++ [.constructed (idAt me pe.made.length group) group])
    (hsent : ∀ q, q < X.numPes → ∀ id, kindCount q id pe'.sent = kindCount q id pe.sent
      + if idAt me pe.made.length group = id then 1 else 0) : IdInv X me pe₀ pe' where
  noKind := ⟨by rw [htable]; exact h.noKind.buffers,
    by rw [hbuffer]; exact h.noKind.collectiveBuffer⟩
  ids := by
    have hmade : pe'.made = pe.made ++ [(idAt me pe.made.length group, group)] :=
      made_append hlog
    refine ⟨?_, ?_⟩
    · rw [hcount, h.ids.count, hmade, List.length_append, List.length_singleton,
        BitVec.ofNat_add]
      rfl
    · intro i id g hi
      rw [hmade] at hi
      by_cases hlt : i < pe.made.length
      · rw [List.getElem?_append_left hlt] at hi
        exact h.ids.ids i id g hi
      · rw [List.getElem?_append_right (by omega), List.getElem?_singleton] at hi
        split at hi
        next hzero =>
          obtain ⟨rfl, rfl⟩ := Prod.mk.inj (Option.some.inj hi)
          rw [show i = pe.made.length by omega]
        next => cases hi
  table := fun id => by rw [htable]; exact h.table id
  sent := by
    intro q hq id
    have hids : pe'.ids = pe.ids ++ [idAt me pe.made.length group] := by
      rw [Pe.ids, made_append hlog, List.map_append, Pe.ids]
      rfl
    have hold := h.sent q hq id
    rw [hsent q hq id, hids, List.count_append, List.count_singleton]
    simp only [beq_iff_eq]
    omega

theorem made_record {pe : Pe} {e : Event} (h : ∀ id g, e ≠ .constructed id g) :
    (pe.record e).made = pe.made := by
  cases e with
  | constructed id g => exact absurd rfl (h id g)
  | _ => simp [Pe.made]

theorem IdInv.record {pe₀ pe : Pe} (h : IdInv X me pe₀ pe) {e : Event}
    (he : ∀ id g, e ≠ .constructed id g) : IdInv X me pe₀ (pe.record e) :=
  h.same ⟨h.noKind.buffers, h.noKind.collectiveBuffer⟩ rfl (made_record he) (fun _ => rfl)
    (fun _ _ => rfl)

theorem IdInv.push {pe₀ pe : Pe} (h : IdInv X me pe₀ pe) (dst : Nat) {msg : Message}
    (hmsg : msg.collectiveKind = false) : IdInv X me pe₀ (pe.push dst msg) := by
  refine h.same ⟨h.noKind.buffers, h.noKind.collectiveBuffer⟩ rfl rfl (fun _ => rfl) ?_
  intro q id
  rw [push_sent, kindCount_append, Nat.add_eq_left]
  exact kindCount_of_noKind (by simpa using hmsg)

theorem IdInv.sendCopies {pe₀ pe : Pe} (h : IdInv X me pe₀ pe) (col : Collective)
    {msg : Message}
    (hmsg : msg.collectiveKind = false) (children : List ChareIndex) :
    IdInv X me pe₀ (X.sendCopies col msg children pe) := by
  rw [← Machine.foldl_deliverLater]
  induction children generalizing pe with
  | nil => exact h
  | cons child children ih => exact ih (h.push _ hmsg)

theorem IdInv.modify {pe₀ pe : Pe} (h : IdInv X me pe₀ pe) (cid : CollectiveIndex)
    {f : Collective → Collective}
    (hf : ∀ col idx m, m ∈ (f col).buffers idx → m ∈ col.buffers idx ∨
      m.collectiveKind = false) :
    IdInv X me pe₀ (pe.modify cid f) := by
  refine h.same ⟨?_, h.noKind.collectiveBuffer⟩ rfl rfl modify_isSome (fun _ _ => rfl)
  intro i col hcol idx m hm
  by_cases hi : i = cid
  · subst hi
    rw [modify_self, Option.map_eq_some_iff] at hcol
    obtain ⟨col', hcol', rfl⟩ := hcol
    rcases hf col' idx m hm with hold | hnew
    · exact h.noKind.buffers i col' hcol' idx m hold
    · exact hnew
  · rw [modify_ne hi] at hcol
    exact h.noKind.buffers i col hcol idx m hm

theorem IdInv.issue {pe₀ pe : Pe} (h : IdInv X me pe₀ pe) (msg : Message) :
    IdInv X me pe₀ (Machine.issue pe msg) :=
  h.same ⟨h.noKind.buffers, h.noKind.collectiveBuffer⟩ rfl (@made_record pe _ (by simp))
    (fun _ => rfl) (fun _ _ => rfl)

theorem IdInv.constructCollective {pe₀ pe : Pe} (h : IdInv X me pe₀ pe) (kind : Nat) :
    IdInv X me pe₀ (X.constructCollective me kind pe) := by
  refine IdInv.construct h false ?_ ?_ ?_ ?_ ?_
  · rfl
  · rfl
  · rfl
  · show pe.log ++ [.constructed ⟨_, pe.localCollectiveCount⟩ false] = _
    rw [h.ids.count]
    rfl
  · intro q hq id
    show kindCount q id (pe.sent ++ _) = _
    rw [kindCount_append, kindCount_range hq ⟨_, pe.localCollectiveCount⟩ id _
      (fun i => ⟨rfl, rfl⟩), h.ids.count]
    rfl

theorem IdInv.constructGroup {pe₀ pe : Pe} (h : IdInv X me pe₀ pe)
    (kind constructor : Nat) :
    IdInv X me pe₀ (X.constructGroup me kind constructor pe) := by
  have hid : (⟨BitVec.ofNat 32 me, pe.localCollectiveCount + 1⟩ : CollectiveIndex)
      = idAt me pe.made.length true := by
    rw [idAt, if_pos rfl, h.ids.count, BitVec.ofNat_add]
    rfl
  refine IdInv.construct h true ?_ ?_ ?_ ?_ ?_
  · rfl
  · rfl
  · rfl
  · rw [← hid]
    rfl
  · intro q hq id
    rw [← hid]
    show kindCount q id ((pe.sent ++ _) ++ _) = _
    rw [kindCount_append, kindCount_append,
      kindCount_range hq ⟨_, pe.localCollectiveCount + 1⟩
      id _ (fun i => ⟨rfl, rfl⟩), Nat.add_eq_left]
    apply kindCount_of_noKind
    intro r hr
    obtain ⟨i, _, rfl⟩ := List.mem_map.mp hr
    rfl

/-- Every function keeps the invariant, whatever the program calls. -/
theorem idInv_kept (X : Machine) (me : Nat) (pe₀ : Pe) :
    X.Kept me (fun _ => True) (fun m => m.collectiveKind = false) (IdInv X me pe₀) where
  bodies := fun _ _ _ _ => trivial
  stored := fun _ h => h.noKind.buffers
  waiting := fun _ h => h.noKind.collectiveBuffer
  record := fun _ _ he h => h.record (by cases he <;> simp)
  push := fun _ dst _ hm h => h.push dst hm
  buffer := fun _ cid _ hm h => h.modify cid fun _ _ _ hx =>
    (mem_buffer hx).imp_right fun heq => by rw [heq, hm]
  popFront := fun _ cid _ h => h.modify cid fun _ _ _ hx => Or.inl (mem_popFront hx)
  bufferCollective := by
    intro pe m hm h
    refine h.same ⟨h.noKind.buffers, ?_⟩ rfl rfl (fun _ => rfl) (fun _ _ => rfl)
    intro cid x hx
    rcases mem_bufferCollective hx with hold | rfl
    · exact h.noKind.collectiveBuffer cid x hold
    · exact hm
  take := by
    intro pe cid m rest hfront h
    refine h.same ⟨h.noKind.buffers, ?_⟩ rfl rfl (fun _ => rfl) (fun _ _ => rfl)
    intro i x hx
    by_cases hi : i = cid
    · subst hi
      refine h.noKind.collectiveBuffer i x ?_
      rw [hfront]
      exact List.mem_cons_of_mem _ (by simpa using hx)
    · exact h.noKind.collectiveBuffer i x (by simpa [Function.update_of_ne hi] using hx)
  construct := fun _ cid _ _ _ _ _ _ h =>
    (h.modify cid fun _ _ _ hx => Or.inl (by simpa using hx)).record (by simp)
  plain := fun _ _ _ _ _ _ _ _ _ _ h => h.record (by simp)
  accept := by
    intro pe cid msg col ch children _ _ _ _ _ _ hm h
    refine IdInv.record ?_ (by simp)
    refine IdInv.sendCopies ?_ col hm children
    exact h.modify cid fun _ _ _ hx => Or.inl hx
  rootNext := by
    intro pe cid msg col root obj children _ _ _ _ _ _ hm h
    refine IdInv.record ?_ (by simp)
    refine IdInv.sendCopies ?_ col (by exact hm) children
    exact (h.record (by simp)).modify cid fun _ _ _ hx => Or.inl hx
  rootWrapped := by
    intro pe cid msg col root obj _ _ _ _ _ _ h
    refine IdInv.record ?_ (by simp)
    exact h.record (by simp)
  insert := fun _ _ _ _ _ h => ⟨rfl, h.issue _⟩
  send := fun _ _ _ _ _ h => ⟨rfl, h.issue _⟩
  collective := fun _ kind _ h => h.constructCollective kind
  group := fun _ kind constructor _ h => h.constructGroup kind constructor

/-! ## All PEs -/

/-- For each PE and id, the messages under way that make the collective there
and the entry it has are as many as the calls that returned the id. -/
structure IdsInv (X : Machine) (s : System) : Prop where
  atRest : ∀ p, (s.pes p).sent = []
  noKind : ∀ p, NoKind (s.pes p)
  ids : ∀ p, IdsOk p (s.pes p)
  count : ∀ q, q < X.numPes → ∀ id, kindCount q id s.net
    + (if ((s.pes q).collectiveTable id).isSome then 1 else 0) = (s.ids X).count id

theorem init_idsInv : IdsInv X .init where
  atRest := fun _ => rfl
  noKind := by
    intro p
    refine ⟨?_, ?_⟩
    · intro cid col h
      cases h
    · intro cid m h
      cases h
  ids := by
    intro p
    refine ⟨rfl, ?_⟩
    intro i id g h
    cases h
  count := by
    intro q _ id
    have hids : (System.init.ids X) = [] := by
      simp [System.ids, System.init, Pe.ids, Pe.made, Pe.init]
    rw [hids]
    rfl

/-- The ids of one PE change. -/
theorem count_ids_update {s s' : System} {p : Nat} (hp : p < X.numPes)
    (hne : ∀ q, q ≠ p → (s'.pes q).ids = (s.pes q).ids) (id : CollectiveIndex) :
    (s'.ids X).count id + (s.pes p).ids.count id = (s.ids X).count id +
    (s'.pes p).ids.count id := by
  have hsum : ∀ t : System, (t.ids X).count id
      = (t.pes p).ids.count id + ∑ q ∈ (Finset.range X.numPes).erase p,
        (t.pes q).ids.count id := by
    intro t
    rw [Finset.add_sum_erase _ (fun q => (t.pes q).ids.count id)
      (Finset.mem_range.mpr hp), System.ids, List.count_flatMap]
    rfl
  have hrest : ∑ q ∈ (Finset.range X.numPes).erase p, (s'.pes q).ids.count id
      = ∑ q ∈ (Finset.range X.numPes).erase p, (s.pes q).ids.count id :=
    Finset.sum_congr rfl fun q hq => by rw [hne q (Finset.ne_of_mem_erase hq)]
  rw [hsum s', hsum s, hrest]
  omega

/-- A PE has run from `pe₀`, with the messages `net` left under way. -/
theorem IdsInv.settle {s : System} {p : Nat} {pe₀ pe : Pe} {net : List (Nat × Message)}
    (h : IdsInv X s) (hp : p < X.numPes) (hpe : IdInv X p pe₀ pe) (hsent : pe₀.sent = [])
    (hids : pe₀.ids = (s.pes p).ids)
    (hothers : ∀ q, q ≠ p → ∀ id, kindCount q id net = kindCount q id s.net)
    (hself : ∀ id, kindCount p id net + (if (pe₀.collectiveTable id).isSome then 1 else 0)
      = kindCount p id s.net + (if ((s.pes p).collectiveTable id).isSome then 1 else 0)) :
    IdsInv X ((⟨s.pes, net⟩ : System).settle p pe) where
  atRest := by
    intro q
    by_cases hq : q = p
    · subst hq
      simp [System.settle]
    · simp [System.settle, Function.update_of_ne hq, h.atRest q]
  noKind := by
    intro q
    by_cases hq : q = p
    · subst hq
      have hk := hpe.noKind
      simp only [System.settle, Function.update_self]
      exact ⟨hk.buffers, hk.collectiveBuffer⟩
    · simp only [System.settle, Function.update_of_ne hq]
      exact h.noKind q
  ids := by
    intro q
    by_cases hq : q = p
    · subst hq
      simp only [System.settle, Function.update_self]
      exact ⟨hpe.ids.count, hpe.ids.ids⟩
    · simp only [System.settle, Function.update_of_ne hq]
      exact h.ids q
  count := by
    intro q hq id
    have hupdate := @count_ids_update X s ((⟨s.pes, net⟩ : System).settle p pe) p hp
      (fun r hr => by simp only [System.settle, Function.update_of_ne hr]) id
    have hnew : (((⟨s.pes, net⟩ : System).settle p pe).pes p).ids = pe.ids := by
      simp only [System.settle, Function.update_self]
      rfl
    -- a kind message sent for each id given out in this run
    have hbalance := hpe.sent q hq id
    have hold := h.count q hq id
    rw [hnew] at hupdate
    rw [hsent, hids, show kindCount q id [] = 0 from rfl] at hbalance
    rw [show ((⟨s.pes, net⟩ : System).settle p pe).net = net ++ pe.sent from rfl,
      kindCount_append]
    by_cases hqp : q = p
    · subst hqp
      have hs := hself id
      have ht := hpe.table id
      simp only [System.settle, Function.update_self]
      rw [ht]
      simp only [System.settle] at hupdate
      omega
    · have ho := hothers q hqp id
      simp only [System.settle, Function.update_of_ne hqp]
      simp only [System.settle] at hupdate
      omega

theorem kindCount_eraseIdx {l : List (Nat × Message)} {j p : Nat} {msg : Message}
    (hj : l[j]? = some (p, msg)) (q : Nat) (id : CollectiveIndex) :
    kindCount q id l = kindCount q id (l.eraseIdx j)
      + if p = q ∧ msg.collectiveKind = true ∧ msg.collective = id then 1 else 0 := by
  obtain ⟨hlt, hget⟩ := List.getElem?_eq_some_iff.mp hj
  have hperm := List.getElem_cons_eraseIdx_perm hlt
  rw [kindCount, ← hperm.countP_eq, List.countP_cons, hget, kindCount]
  simp [and_assoc]

theorem step_idsInv {s s' : System} {a : System.Action} (h : IdsInv X s)
    (hs : s.step X a = some s') : IdsInv X s' := by
  rcases System.step_cases hs with ⟨p, fuel, c, pe, _, hp, hrun, rfl⟩ |
    ⟨j, fuel, p, msg, pe, _, hj, hp, hrun, rfl⟩
  · have hinv :=
      hrun.kept (idInv_kept X p (s.pes p)) trivial (.refl (h.noKind p) (h.ids p))
    exact h.settle hp hinv (h.atRest p) rfl (fun _ _ _ => rfl) (fun _ => rfl)
  · unfold Machine.Delivers at hrun
    split at hrun
    next hkind =>
      -- the collective is made, then what waited for it is delivered
      obtain ⟨hnone, hrun⟩ := hrun
      have hstart : IdInv X p (X.create msg (s.pes p)) (X.create msg (s.pes p)) := by
        refine .refl ⟨?_, (h.noKind p).collectiveBuffer⟩ ⟨(h.ids p).count, (h.ids p).ids⟩
        intro cid col hcol idx m hm
        by_cases hc : cid = msg.collective
        · subst hc
          simp only [Machine.create, Function.update_self] at hcol
          obtain rfl := Option.some.inj hcol
          cases hm
        · simp only [Machine.create, Function.update_of_ne hc] at hcol
          exact (h.noKind p).buffers cid col hcol idx m hm
      have hinv := hrun.kept (idInv_kept X p _) trivial hstart
      refine h.settle hp hinv (h.atRest p) rfl ?_ ?_
      · intro q hq id
        rw [kindCount_eraseIdx hj q id, if_neg (fun hc => hq hc.1.symm), Nat.add_zero]
      · intro id
        rw [kindCount_eraseIdx hj p id]
        by_cases hid : id = msg.collective
        · subst hid
          simp [Machine.create, hnone, hkind]
        · simp [Machine.create, Function.update_of_ne hid, Ne.symm hid]
    next hkind =>
      have hinv := hrun.kept (idInv_kept X p (s.pes p)) (Bool.eq_false_iff.mpr hkind)
        (.refl (h.noKind p) (h.ids p))
      refine h.settle hp hinv (h.atRest p) rfl ?_ ?_
      · intro q _ id
        rw [kindCount_eraseIdx hj q id, if_neg (fun hc => hkind hc.2.1), Nat.add_zero]
      · intro id
        rw [kindCount_eraseIdx hj p id]
        simp [hkind]

theorem reachable_idsInv {C : System → System.Action → Prop} {s : System}
    (h : X.system.Reachable C s) : IdsInv X s := by
  refine h.invariant ?_ ?_
  · rintro _ rfl
    exact init_idsInv
  · intro s a s' hi _ hs
    exact step_idsInv hi hs

/-! ## The result -/

theorem ids_nodup_iff {s : System} (h : IdsInv X s)
    (hlt : ∀ p, p < X.numPes → (s.pes p).made.length < 2 ^ 31) :
    (s.ids X).Nodup ↔ ∀ p, p < X.numPes → (s.pes p).NoneAfterGroup := by
  rw [System.ids, List.nodup_flatMap]
  constructor
  · intro ⟨hself, _⟩ p hp
    exact ((h.ids p).nodup_iff (hlt p hp)).mp (hself p (List.mem_range.mpr hp))
  · intro hafter
    refine ⟨fun p hp => ?_, ?_⟩
    · have hp := List.mem_range.mp hp
      exact ((h.ids p).nodup_iff (hlt p hp)).mpr (hafter p hp)
    · refine List.nodup_range.pairwise_of_forall_ne ?_
      intro p hp q hq hpq id hidp hidq
      -- ids of two PEs differ in the PE
      have hpe : ∀ r, r ∈ List.range X.numPes → id ∈ (s.pes r).ids →
          id.pe = BitVec.ofNat 32 r := by
        intro r _ hr
        obtain ⟨⟨_, g⟩, hmem, rfl⟩ := List.mem_map.mp hr
        obtain ⟨i, hi⟩ := List.getElem?_of_mem hmem
        rw [(h.ids r).ids i _ g hi, idAt]
      have hlt' := X.numPes_lt
      have hp' := List.mem_range.mp hp
      have hq' := List.mem_range.mp hq
      exact hpq (ofNat_inj (by omega) (by omega)
        ((hpe p hp hidp).symm.trans (hpe q hq hidq)))

/-- **Ids of collectives.** In every state reached with fewer than `2 ^ 31`
`construct` calls on each PE, the ids returned are pairwise distinct and every
`emplace` to come inserts, exactly if on no PE a `collective_proxy::construct`
was called right after a `group_proxy::construct`. -/
theorem construct_ids_iff {s : System} (hreach : X.system.Reachable (fun _ _ => True) s)
    (hlt : ∀ p, p < X.numPes → (s.pes p).made.length < 2 ^ 31) :
    ((s.ids X).Nodup ∧ s.Inserts X) ↔ ∀ p, p < X.numPes → (s.pes p).NoneAfterGroup := by
  have h := reachable_idsInv hreach
  rw [← ids_nodup_iff h hlt]
  refine ⟨fun hboth => hboth.1, fun hnodup => ⟨hnodup, ?_⟩⟩
  intro p msg hmem hp hkind
  have hcount := h.count p hp msg.collective
  have hle := List.nodup_iff_count_le_one.mp hnodup msg.collective
  have hpos : 0 < kindCount p msg.collective s.net :=
    List.countP_pos_iff.mpr ⟨_, hmem, by simp [hkind]⟩
  by_contra hsome
  rw [← ne_eq, Option.ne_none_iff_isSome] at hsome
  rw [if_pos hsome] at hcount
  omega

/-- A program on one PE, with groups and collectives, whose entry functions do
nothing. -/
def quietMachine : Machine where
  numPes := 1
  numPes_lt := by decide
  tree := .star 1
  kinds := fun kind => if kind = 1 then .group else .default
  body := fun _ _ _ => []
  indexAfter := fun _ _ msg => msg.chare

/-- A collective made right after a group gets the id of the group: the
`emplace` for it finds the entry of the group. -/
theorem construct_ids_collide :
    ∃ s : System, quietMachine.system.run .init
        [.call 0 1 (.constructGroup 1 1),
          .call 0 1 (.constructCollective 2), .deliver 0 3]
        = some s ∧
      s.ids quietMachine = [⟨0, 1⟩, ⟨0, 1⟩] ∧ ¬ s.Inserts quietMachine := by
  refine ⟨_, rfl, rfl, ?_⟩
  intro h
  have hnone := h 0 ⟨⟨0, 2⟩, true, ⟨0, 1⟩, encode all, ⟨2, false⟩, 0⟩
    (List.mem_of_getElem? (i := 1) rfl) (by decide) rfl
  cases hnone

/-- In the other order the ids differ. -/
theorem construct_ids_iff_ordered :
    ∃ s : System, quietMachine.system.run .init
        [.call 0 1 (.constructCollective 2), .call 0 1 (.constructGroup 1 1)] = some s ∧
      (((s.ids quietMachine).Nodup ∧ s.Inserts quietMachine) ↔
        ∀ p, p < quietMachine.numPes → (s.pes p).NoneAfterGroup) := by
  refine ⟨_, rfl, @construct_ids_iff quietMachine _ (Transition.run_reachable
    [.call 0 1 (.constructCollective 2), .call 0 1 (.constructGroup 1 1)]
    (fun _ _ _ => trivial) (.init rfl) rfl) ?_⟩
  intro p hp
  obtain rfl : p = 0 := Nat.lt_one_iff.mp hp
  decide

end CharmExperiments.Charmlite
