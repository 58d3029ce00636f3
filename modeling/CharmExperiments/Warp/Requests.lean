import Mathlib.Data.List.Nodup
import Mathlib.Order.Nat
import Mathlib.Order.Lattice
import CharmExperiments.Lib.SearchTree
import CharmExperiments.Lib.Transition

/-!
# The maps of pending requests

`warp/warp.hpp`: `receives` and `sends` map the handle of a request of MPI to its
message. `__foreach_request` goes through one of them and tests each handle in place;
on completion MPI overwrites it with `MPI_REQUEST_NULL`, so the key of a node that is
still in the map changes. For `receives` the entry function then runs, and may post a
receive, which is put into that map before the node is erased.

`emplace_ordered` says exactly when a map is in order whenever something is put into
it: when, each time an entry function posts a receive, the null handle is between the
handles of the neighbours of the node. No message is dropped in any case
(`emplace_kept`).

Mirroring notes:
- `std::map` is a search tree that is balanced again after each change, in any way that
  keeps its order: an action carries the tree it leaves (`rebalanced`).
- A node is known by its message; an iterator is the message of its node.
- A handle is of a type with a linear order, in which `null` is anything. A new handle
  is not that of a request that is pending.
- `__run_once` is cut at its tests and at the return of the entry function; what its
  probe loop posts is posted outside.
- `emplaces` has, for each `emplace`, the keys it found and whether it put its message
  into the map; no function reads it.
-/

namespace CharmExperiments.Warp

open CharmExperiments.Lib

variable {H : Type}

/-- A node of a map: the handle that is its key, and its message. -/
structure Pending (H : Type) where
  req : H
  msg : Nat
deriving DecidableEq

/-- Where `__run_once` is. -/
inductive Cursor
  | outside
  /-- `__foreach_request(sends)`, before it tests `it`. -/
  | sends (it : Option Nat)
  /-- `__foreach_request(receives)`, before it tests `it`. -/
  | receives (it : Option Nat)
  /-- In the entry function of the message of `it`. -/
  | entry (it : Nat)
deriving DecidableEq

/-- What an `emplace` found and did. -/
structure Emplace (H : Type) where
  keys : List H
  inserted : Bool

structure Requests (H : Type) where
  receives : SearchTree (Pending H)
  sends : SearchTree (Pending H)
  cursor : Cursor
  next : Nat
  emplaces : List (Emplace H)

/-- What can happen: a receive or a send is posted, and MPI gives it a handle;
`__run_once` is called; it tests the handle of its iterator; the entry function
returns; a loop ends. -/
inductive RequestsAction (H : Type)
  | request (req : H) (rebalanced : SearchTree (Pending H))
  | send (req : H) (rebalanced : SearchTree (Pending H))
  | run
  | test (flag : Bool) (rebalanced : SearchTree (Pending H))
  | back (rebalanced : SearchTree (Pending H))
  | last

/-- `map.begin()`. -/
def begin (xs : List (Pending H)) : Option Nat := xs.head?.map Pending.msg

/-- `++it`. -/
def after (it : Nat) : List (Pending H) → Option Nat
  | [] => none
  | x :: xs => if x.msg = it then begin xs else after it xs

/-- `map.erase(it)`. -/
def erase (it : Nat) (xs : List (Pending H)) : List (Pending H) :=
  xs.filter fun x => x.msg ≠ it

/-- `MPI_Test` overwrites the handle of a node. -/
def overwrite (null : H) (it : Nat) : SearchTree (Pending H) → SearchTree (Pending H)
  | .leaf => .leaf
  | .node left x right =>
    .node (overwrite null it left) (if x.msg = it then { x with req := null } else x)
      (overwrite null it right)

namespace Requests

variable [LinearOrder H]

/-- The handle is not null, and not that of a request that is pending. -/
def Fresh (null : H) (s : Requests H) (req : H) : Prop :=
  req ≠ null ∧ ∀ x ∈ s.receives.toList ++ s.sends.toList, x.req ≠ req

instance (null : H) (s : Requests H) (req : H) : Decidable (s.Fresh null req) :=
  inferInstanceAs (Decidable (_ ∧ _))

/-- `map.emplace(req, msg)`: the map it leaves, if that can be `rebalanced`, and
whether the message is in it. -/
def emplace (map rebalanced : SearchTree (Pending H)) (x : Pending H) :
    Option (SearchTree (Pending H) × Bool) :=
  match map.insert Pending.req x with
  | some t => if rebalanced.toList = t.toList then some (rebalanced, true) else none
  | none => some (map, false)

/-- `request`, which puts the receive into `receives`. -/
def request (s : Requests H) (req : H) (rebalanced : SearchTree (Pending H)) :
    Option (Requests H) :=
  (emplace s.receives rebalanced ⟨req, s.next⟩).map fun r =>
    { s with
      receives := r.1
      next := s.next + 1
      emplaces := s.emplaces ++ [⟨s.receives.toList.map Pending.req, r.2⟩] }

/-- `send`, which puts the message into `sends`. -/
def send (s : Requests H) (req : H) (rebalanced : SearchTree (Pending H)) :
    Option (Requests H) :=
  (emplace s.sends rebalanced ⟨req, s.next⟩).map fun r =>
    { s with
      sends := r.1
      next := s.next + 1
      emplaces := s.emplaces ++ [⟨s.sends.toList.map Pending.req, r.2⟩] }

/-- One step; `none` when it cannot be taken. -/
def step (null : H) (s : Requests H) : RequestsAction H → Option (Requests H)
  | .request req rebalanced =>
    match s.cursor with
    | .outside | .entry _ => if s.Fresh null req then s.request req rebalanced else none
    | _ => none
  | .send req rebalanced =>
    match s.cursor with
    | .outside | .entry _ => if s.Fresh null req then s.send req rebalanced else none
    | _ => none
  | .run =>
    match s.cursor with
    | .outside => some { s with cursor := .sends (begin s.sends.toList) }
    | _ => none
  | .test flag rebalanced =>
    match s.cursor with
    | .sends (some it) =>
      if flag = false then some { s with cursor := .sends (after it s.sends.toList) }
      else if rebalanced.toList = erase it s.sends.toList then
        some { s with sends := rebalanced, cursor := .sends (after it s.sends.toList) }
      else none
    | .receives (some it) =>
      if flag = false then
        some { s with cursor := .receives (after it s.receives.toList) }
      else some { s with receives := overwrite null it s.receives, cursor := .entry it }
    | _ => none
  | .back rebalanced =>
    match s.cursor with
    | .entry it =>
      if rebalanced.toList = erase it s.receives.toList then
        some { s with receives := rebalanced, cursor := .receives (after it s.receives.toList) }
      else none
    | _ => none
  | .last =>
    match s.cursor with
    | .sends none => some { s with cursor := .receives (begin s.receives.toList) }
    | .receives none => some { s with cursor := .outside }
    | _ => none

omit [LinearOrder H] in
def init : Requests H := ⟨.leaf, .leaf, .outside, 0, []⟩

/-- The maps as a transition system. -/
def system (null : H) : Transition (Requests H) (RequestsAction H) where
  init s := s = init
  step := step null

/-! ## What is claimed -/

/-- At every `emplace` so far the keys of the map were strictly increasing, and its
message is in the map. -/
def Ordered (s : Requests H) : Prop :=
  ∀ e ∈ s.emplaces, e.keys.Pairwise (· < ·) ∧ e.inserted = true

/-- When an entry function posts a receive, the null handle is between the handles of
the neighbours of the node being tested. -/
def Between (null : H) (s : Requests H) : RequestsAction H → Prop
  | .request _ _ => ∀ it pre x post, s.cursor = .entry it → x.msg = it →
      s.receives.toList = pre ++ x :: post →
      (∀ y ∈ pre.getLast?, y.req < null) ∧ ∀ y ∈ post.head?, null < y.req
  | .send _ _ | .run | .test _ _ | .back _ | .last => True

/-- The run meets the condition at every step. -/
def Meets (null : H) (s : Requests H) : List (RequestsAction H) → Prop
  | [] => True
  | a :: as => s.Between null a ∧ ∀ s', s.step null a = some s' → s'.Meets null as

/-! ## Iterators -/

section Iterators

omit [LinearOrder H]

theorem begin_mem {xs : List (Pending H)} {m : Nat} (h : begin xs = some m) :
    ∃ x ∈ xs, x.msg = m := by
  obtain ⟨x, hx, rfl⟩ := Option.map_eq_some_iff.mp h
  exact ⟨x, List.mem_of_head? hx, rfl⟩

theorem after_mem {it m : Nat} :
    ∀ {xs : List (Pending H)}, after it xs = some m → ∃ x ∈ xs, x.msg = m := by
  intro xs
  induction xs with
  | nil => exact fun h => by cases h
  | cons x xs ih =>
    intro h
    unfold after at h
    have hrest : ∃ y ∈ xs, y.msg = m := by
      split at h
      next => exact begin_mem h
      next => exact ih h
    obtain ⟨y, hy, hm⟩ := hrest
    exact ⟨y, List.mem_cons_of_mem x hy, hm⟩

theorem overwrite_toList (null : H) (it : Nat) (t : SearchTree (Pending H)) :
    (overwrite null it t).toList
      = t.toList.map fun x => if x.msg = it then { x with req := null } else x := by
  induction t with
  | leaf => rfl
  | node left x right ihl ihr =>
    rw [overwrite, SearchTree.toList, SearchTree.toList, ihl, ihr, List.map_append,
      List.map_cons]

theorem overwrite_msgs (null : H) (it : Nat) (t : SearchTree (Pending H)) :
    (overwrite null it t).toList.map Pending.msg = t.toList.map Pending.msg := by
  rw [overwrite_toList, List.map_map]
  refine List.map_congr_left fun x _ => ?_
  show (if x.msg = it then _ else x).msg = x.msg
  split <;> rfl

/-- What is not at the iterator is not overwritten. -/
theorem erase_overwrite (null : H) (it : Nat) (t : SearchTree (Pending H)) :
    erase it (overwrite null it t).toList = erase it t.toList := by
  rw [overwrite_toList]
  unfold erase
  induction t.toList with
  | nil => rfl
  | cons x xs ih =>
    by_cases hx : x.msg = it
    · rw [List.map_cons, if_pos hx, List.filter_cons_of_neg (by simpa using hx),
        List.filter_cons_of_neg (by simpa using hx), ih]
    · rw [List.map_cons, if_neg hx, List.filter_cons_of_pos (by simpa using hx),
        List.filter_cons_of_pos (by simpa using hx), ih]

theorem erase_of_notMem {it : Nat} {xs : List (Pending H)} (h : ∀ x ∈ xs, x.msg ≠ it) :
    erase it xs = xs :=
  List.filter_eq_self.mpr fun x hx => decide_eq_true (h x hx)

/-- Messages are distinct, so the node of the iterator is the only one erased. -/
theorem erase_split {pre post : List (Pending H)} {x : Pending H}
    (h : ((pre ++ x :: post).map Pending.msg).Nodup) :
    erase x.msg (pre ++ x :: post) = pre ++ post := by
  rw [List.map_append, List.map_cons, List.nodup_middle, List.nodup_cons] at h
  have hne : ∀ y ∈ pre ++ post, y.msg ≠ x.msg := by
    intro y hy heq
    refine h.1 (heq ▸ ?_)
    rw [← List.map_append]
    exact List.mem_map_of_mem hy
  unfold erase
  rw [List.filter_append, List.filter_cons_of_neg (by simp), ← List.filter_append]
  exact erase_of_notMem hne

end Iterators

/-! ## The maps stay in order -/

/-- The keys that must be in order: all, but that of the node whose entry function runs. -/
def settled (s : Requests H) : List (Pending H) :=
  match s.cursor with
  | .entry it => erase it s.receives.toList
  | _ => s.receives.toList

omit [LinearOrder H] in
theorem settled_entry {s : Requests H} {it : Nat} (hc : s.cursor = .entry it) :
    s.settled = erase it s.receives.toList := by
  unfold settled
  rw [hc]

omit [LinearOrder H] in
theorem settled_all {s : Requests H} (hc : ∀ it, s.cursor ≠ .entry it) :
    s.settled = s.receives.toList := by
  unfold settled
  split
  next it heq => exact (hc it heq).elim
  next => rfl

omit [LinearOrder H] in
theorem settled_sublist (s : Requests H) : s.settled.Sublist s.receives.toList := by
  unfold settled
  split
  next => exact List.filter_sublist
  next => exact List.Sublist.refl _

structure MapsInv (null : H) (s : Requests H) : Prop where
  receives : SearchTree.Increasing Pending.req s.settled
  sends : SearchTree.Increasing Pending.req s.sends.toList
  ids : (s.receives.toList.map Pending.msg).Nodup
  old : ∀ x ∈ s.receives.toList, x.msg < s.next
  bound : ∀ it, s.cursor = .receives (some it) ∨ s.cursor = .entry it → it < s.next
  entry : ∀ it, s.cursor = .entry it → ∀ x ∈ s.receives.toList, x.msg = it → x.req = null

variable {null : H} {s s' : Requests H}

/-- A new key is put into the map, and if the keys were in order, in order. -/
theorem emplace_cases {map t : SearchTree (Pending H)} {x : Pending H}
    {r : SearchTree (Pending H) × Bool} (hnew : ∀ y ∈ map.toList, y.req ≠ x.req)
    (h : emplace map t x = some r) :
    r = (t, true) ∧ (∃ pre post, map.toList = pre ++ post ∧ t.toList = pre ++ x :: post) ∧
      (SearchTree.Increasing Pending.req map.toList →
        SearchTree.Increasing Pending.req t.toList) := by
  obtain ⟨t', pre, post, hins, hmap, ht', _⟩ := SearchTree.insert_toList hnew
  unfold emplace at h
  rw [hins] at h
  simp only at h
  split at h
  next heq =>
    refine ⟨(Option.some.inj h).symm, ⟨pre, post, hmap, heq.trans ht'⟩, fun hinc => ?_⟩
    obtain ⟨t'', hins', hinc', _⟩ := SearchTree.insert_sorted hnew hinc
    obtain rfl := Option.some.inj (hins.symm.trans hins')
    rw [heq]
    exact hinc'
  next => cases h

/-- The whole map is in order, when the null handle is between its neighbours. -/
theorem MapsInv.increasing_iff (h : MapsInv null s) {req : H}
    {t : SearchTree (Pending H)} :
    SearchTree.Increasing Pending.req s.receives.toList ↔
      s.Between null (.request req t) := by
  have hsettled := h.receives
  cases hc : s.cursor with
  | entry it =>
    rw [settled_entry hc] at hsettled
    constructor
    · rintro hinc it' pre x post hc' rfl heq
      obtain rfl := Cursor.entry.inj (hc.symm.trans hc')
      rw [heq] at hinc
      have hnull : x.req = null :=
        h.entry _ hc x (by rw [heq]; exact List.mem_append_right _ List.mem_cons_self) rfl
      rw [← hnull]
      exact (SearchTree.increasing_insert.mp hinc).2
    · intro hbetween
      by_cases hmem : ∃ x ∈ s.receives.toList, x.msg = it
      · obtain ⟨x, hx, rfl⟩ := hmem
        have hnull : x.req = null := h.entry _ hc x hx rfl
        obtain ⟨pre, post, heq⟩ := List.append_of_mem hx
        have hids := h.ids
        rw [heq] at hsettled hids ⊢
        rw [erase_split hids] at hsettled
        refine SearchTree.increasing_insert.mpr ⟨hsettled, ?_⟩
        rw [hnull]
        exact hbetween _ pre x post hc rfl heq
      · rw [erase_of_notMem fun x hx hit => hmem ⟨x, hx, hit⟩] at hsettled
        exact hsettled
  | _ =>
    rw [settled_all (by rw [hc]; exact nofun)] at hsettled
    exact iff_of_true hsettled fun it pre x post hc' => nomatch hc.symm.trans hc'

omit [LinearOrder H] in
/-- An iterator is one of the messages. -/
theorem begin_bound {xs : List (Pending H)} {n : Nat} (h : ∀ x ∈ xs, x.msg < n) (it : Nat)
    (hit : Cursor.receives (begin xs) = .receives (some it) ∨
      Cursor.receives (begin xs) = .entry it) : it < n := by
  rcases hit with hit | hit
  · obtain ⟨x, hx, rfl⟩ := begin_mem (Cursor.receives.inj hit)
    exact h x hx
  · cases hit

omit [LinearOrder H] in
theorem after_bound {xs : List (Pending H)} {n i : Nat}
    (h : ∀ x ∈ xs, x.msg < n) (it : Nat)
    (hit : Cursor.receives (after i xs) = .receives (some it) ∨
      Cursor.receives (after i xs) = .entry it) : it < n := by
  rcases hit with hit | hit
  · obtain ⟨x, hx, rfl⟩ := after_mem (Cursor.receives.inj hit)
    exact h x hx
  · cases hit

/-- Whatever its keys, an `emplace` of a handle MPI gives puts the message into the map. -/
theorem emplace_kept {map t : SearchTree (Pending H)} {req : H}
    {r : SearchTree (Pending H) × Bool}
    (hnew : ∀ y ∈ map.toList, y.req ≠ req) (h : emplace map t ⟨req, s.next⟩ = some r) :
    r.2 = true ∧ ⟨req, s.next⟩ ∈ r.1.toList := by
  obtain ⟨rfl, ⟨pre, post, _, heq⟩, _⟩ := emplace_cases hnew h
  exact ⟨rfl, by rw [heq]; exact List.mem_append_right _ List.mem_cons_self⟩

/-- `request` was called when that was possible, with a handle that is new. -/
theorem request_cases {req : H} {t : SearchTree (Pending H)}
    (hs : s.step null (.request req t) = some s') :
    s.Fresh null req ∧ (s.cursor = .outside ∨ ∃ it, s.cursor = .entry it) ∧
      ∃ pre post, s.receives.toList = pre ++ post ∧ t.toList = pre ++ ⟨req, s.next⟩ ::
        post ∧
        (SearchTree.Increasing Pending.req s.receives.toList →
          SearchTree.Increasing Pending.req t.toList) ∧
        s' = { s with
          receives := t
          next := s.next + 1
          emplaces := s.emplaces ++ [⟨s.receives.toList.map Pending.req, true⟩] } := by
  have hguard : (s.cursor = .outside ∨ ∃ it, s.cursor = .entry it) ∧
      (if s.Fresh null req then s.request req t else none) = some s' := by
    simp only [step] at hs
    cases hc : s.cursor with
    | outside =>
      rw [hc] at hs
      exact ⟨Or.inl rfl, hs⟩
    | entry it =>
      rw [hc] at hs
      exact ⟨Or.inr ⟨it, rfl⟩, hs⟩
    | _ =>
      rw [hc] at hs
      cases hs
  obtain ⟨hcursor, hs⟩ := hguard
  split at hs
  next hfresh =>
    obtain ⟨r, hr, rfl⟩ := Option.map_eq_some_iff.mp hs
    obtain ⟨rfl, ⟨pre, post, hmap, ht⟩, hinc⟩ :=
      emplace_cases (fun y hy => hfresh.2 y (List.mem_append_left _ hy)) hr
    exact ⟨hfresh, hcursor, pre, post, hmap, ht, hinc, rfl⟩
  next => cases hs

theorem send_cases {req : H} {t : SearchTree (Pending H)}
    (hs : s.step null (.send req t) = some s') :
    (SearchTree.Increasing Pending.req s.sends.toList →
      SearchTree.Increasing Pending.req t.toList) ∧
      s' = { s with
        sends := t
        next := s.next + 1
        emplaces := s.emplaces ++ [⟨s.sends.toList.map Pending.req, true⟩] } := by
  have hguard : (if s.Fresh null req then s.send req t else none) = some s' := by
    simp only [step] at hs
    cases hc : s.cursor with
    | outside | entry =>
      rw [hc] at hs
      exact hs
    | _ =>
      rw [hc] at hs
      cases hs
  split at hguard
  next hfresh =>
    obtain ⟨r, hr, rfl⟩ := Option.map_eq_some_iff.mp hguard
    obtain ⟨rfl, _, hinc⟩ :=
      emplace_cases (fun y hy => hfresh.2 y (List.mem_append_right _ hy)) hr
    exact ⟨hinc, rfl⟩
  next => cases hguard

/-- A receive is posted: its message is the newest. -/
theorem request_inv (h : MapsInv null s) {req : H} {t : SearchTree (Pending H)}
    (hc : s.Between null (.request req t)) (hs : s.step null (.request req t) = some s') :
    MapsInv null s' := by
  have hinc := h.increasing_iff.mpr hc
  obtain ⟨hfresh, _, pre, post, hmap, ht, hkeep, rfl⟩ := request_cases hs
  have hmem : ∀ x, x ∈ t.toList ↔ x = ⟨req, s.next⟩ ∨ x ∈ s.receives.toList := by
    intro x
    rw [ht, hmap, List.mem_append, List.mem_cons, List.mem_append]
    exact or_left_comm
  have hids : (t.toList.map Pending.msg).Nodup := by
    have hids := h.ids
    rw [hmap] at hids
    rw [ht, List.map_append, List.map_cons, List.nodup_middle, ← List.map_append,
      List.nodup_cons]
    refine ⟨fun hin => ?_, hids⟩
    obtain ⟨x, hx, heq⟩ := List.mem_map.mp hin
    exact absurd (h.old x (hmap ▸ hx)) (by rw [heq]; exact Nat.lt_irrefl _)
  refine ⟨?_, h.sends, hids, fun x hx => ?_, fun it hit =>
    Nat.lt_succ_of_lt (h.bound it hit), fun it hit x hx hm => ?_⟩
  · exact (hkeep hinc).sublist (settled_sublist _)
  · rcases (hmem x).mp hx with rfl | hx
    · exact Nat.lt_succ_self _
    · exact Nat.lt_succ_of_lt (h.old x hx)
  · rcases (hmem x).mp hx with rfl | hx
    · exact absurd (h.bound it (Or.inr hit)) (by rw [← hm]; exact Nat.lt_irrefl _)
    · exact h.entry it hit x hx hm

theorem send_inv (h : MapsInv null s) {req : H} {t : SearchTree (Pending H)}
    (hs : s.step null (.send req t) = some s') : MapsInv null s' := by
  obtain ⟨hkeep, rfl⟩ := send_cases hs
  exact ⟨h.receives, hkeep h.sends, h.ids, fun x hx => Nat.lt_succ_of_lt (h.old x hx),
    fun it hit => Nat.lt_succ_of_lt (h.bound it hit), h.entry⟩

/-- Outside entry functions no node of the map is apart. -/
theorem MapsInv.whole (h : MapsInv null s) (hc : ∀ it, s.cursor ≠ .entry it) :
    SearchTree.Increasing Pending.req s.receives.toList := by
  have hall := h.receives
  rwa [settled_all hc] at hall

/-- Only the iterator moves. -/
theorem MapsInv.moves (h : MapsInv null s)
    (hold : ∀ it, s.cursor ≠ .entry it) {c : Cursor}
    (hnew : ∀ it, c ≠ .entry it)
    (hbound : ∀ it, c = .receives (some it) ∨ c = .entry it → it < s.next) :
    MapsInv null { s with cursor := c } where
  receives := by
    rw [settled_all hnew]
    exact h.whole hold
  sends := h.sends
  ids := h.ids
  old := h.old
  bound := hbound
  entry := fun it hit => absurd hit (hnew it)

/-- A receive is complete: its handle becomes the null handle, and its entry
function is next. -/
theorem overwrite_inv (h : MapsInv null s) {it : Nat} (hcur : s.cursor = .receives (some it)) :
    MapsInv null { s with receives := overwrite null it s.receives, cursor := .entry it } := by
  have hall := h.whole (by rw [hcur]; exact nofun)
  refine ⟨?_, h.sends, ?_, fun x hx => ?_, fun it' hit => ?_, fun it' hit x hx hm => ?_⟩
  · show SearchTree.Increasing Pending.req
      (erase it (overwrite null it s.receives).toList)
    rw [erase_overwrite]
    exact hall.sublist List.filter_sublist
  · exact (overwrite_msgs null it s.receives).symm ▸ h.ids
  · have hmsg := List.mem_map_of_mem (f := Pending.msg) hx
    rw [overwrite_msgs] at hmsg
    obtain ⟨y, hy, heq⟩ := List.mem_map.mp hmsg
    exact heq ▸ h.old y hy
  · rcases hit with hit | hit
    · cases hit
    · exact Cursor.entry.inj hit ▸ h.bound it (Or.inl hcur)
  · obtain rfl := Cursor.entry.inj hit
    rw [overwrite_toList] at hx
    obtain ⟨y, _, rfl⟩ := List.mem_map.mp hx
    by_cases hy : y.msg = it
    · rw [if_pos hy]
    · rw [if_neg hy] at hm
      exact (hy hm).elim

theorem test_inv (h : MapsInv null s) {flag : Bool} {t : SearchTree (Pending H)}
    (hs : s.step null (.test flag t) = some s') : MapsInv null s' := by
  simp only [step] at hs
  split at hs
  next it hcur =>
    -- a send: tested, and erased when it is complete
    have hmoved : MapsInv null { s with cursor := .sends (after it s.sends.toList) } :=
      h.moves (by rw [hcur]; exact nofun) nofun nofun
    split at hs
    next =>
      obtain rfl := Option.some.inj hs
      exact hmoved
    next =>
      split at hs
      next herase =>
        obtain rfl := Option.some.inj hs
        refine ⟨hmoved.receives, ?_, hmoved.ids, hmoved.old, hmoved.bound, hmoved.entry⟩
        rw [herase]
        exact h.sends.sublist List.filter_sublist
      next => cases hs
  next it hcur =>
    split at hs
    next =>
      obtain rfl := Option.some.inj hs
      exact h.moves (by rw [hcur]; exact nofun) nofun (after_bound h.old)
    next =>
      obtain rfl := Option.some.inj hs
      exact overwrite_inv h hcur
  next => cases hs

/-- The entry function has returned, and its node is erased. -/
theorem back_inv (h : MapsInv null s) {t : SearchTree (Pending H)}
    (hs : s.step null (.back t) = some s') : MapsInv null s' := by
  simp only [step] at hs
  split at hs
  next it hcur =>
    split at hs
    next herase =>
      obtain rfl := Option.some.inj hs
      have hrest := h.receives
      rw [settled_entry hcur] at hrest
      refine ⟨?_, h.sends, ?_, fun x hx => ?_, after_bound h.old, fun it hit => (by cases hit)⟩
      · show SearchTree.Increasing Pending.req t.toList
        rw [herase]
        exact hrest
      · rw [herase]
        exact h.ids.sublist (List.filter_sublist.map _)
      · rw [herase] at hx
        exact h.old x (List.mem_filter.mp hx).1
    next => cases hs
  next => cases hs

theorem run_inv (h : MapsInv null s) (hs : s.step null .run = some s') : MapsInv null s' := by
  simp only [step] at hs
  split at hs
  next hcur =>
    obtain rfl := Option.some.inj hs
    exact h.moves (by rw [hcur]; exact nofun) nofun nofun
  next => cases hs

theorem last_inv (h : MapsInv null s) (hs : s.step null .last = some s') :
    MapsInv null s' := by
  simp only [step] at hs
  split at hs
  next hcur =>
    obtain rfl := Option.some.inj hs
    exact h.moves (by rw [hcur]; exact nofun) nofun (begin_bound h.old)
  next hcur =>
    obtain rfl := Option.some.inj hs
    exact h.moves (by rw [hcur]; exact nofun) nofun nofun
  next => cases hs

/-- **A step that meets the condition keeps the maps in order.** -/
theorem step_inv (h : MapsInv null s) {a : RequestsAction H} (hc : s.Between null a)
    (hs : s.step null a = some s') : MapsInv null s' := by
  cases a with
  | request req t => exact request_inv h hc hs
  | send req t => exact send_inv h hs
  | run => exact run_inv h hs
  | test flag t => exact test_inv h hs
  | back t => exact back_inv h hs
  | last => exact last_inv h hs

theorem init_inv : MapsInv null init :=
  ⟨List.Pairwise.nil, List.Pairwise.nil, List.nodup_nil, fun _ hx => (by cases hx),
    fun it hit => (by rcases hit with hit | hit <;> cases hit), fun it hit =>
      (by cases hit)⟩

/-! ## What holds of every run -/

/-- What a step adds to the record. -/
def recorded (s : Requests H) : RequestsAction H → List (Emplace H)
  | .request _ _ => [⟨s.receives.toList.map Pending.req, true⟩]
  | .send _ _ => [⟨s.sends.toList.map Pending.req, true⟩]
  | .run | .test _ _ | .back _ | .last => []

theorem step_emplaces {a : RequestsAction H} (hs : s.step null a = some s') :
    s'.emplaces = s.emplaces ++ s.recorded a := by
  have hsame : s'.emplaces = s.emplaces → s'.emplaces = s.emplaces ++ [] :=
    fun h => by rw [h, List.append_nil]
  cases a with
  | request req t =>
    obtain ⟨_, _, _, _, _, _, _, rfl⟩ := request_cases hs
    rfl
  | send req t =>
    obtain ⟨_, rfl⟩ := send_cases hs
    rfl
  | run =>
    simp only [step] at hs
    split at hs
    next =>
      obtain rfl := Option.some.inj hs
      exact hsame rfl
    next => cases hs
  | test flag t =>
    simp only [step] at hs
    split at hs
    next =>
      split at hs
      next =>
        obtain rfl := Option.some.inj hs
        exact hsame rfl
      next =>
        split at hs
        next =>
          obtain rfl := Option.some.inj hs
          exact hsame rfl
        next => cases hs
    next =>
      split at hs
      next =>
        obtain rfl := Option.some.inj hs
        exact hsame rfl
      next =>
        obtain rfl := Option.some.inj hs
        exact hsame rfl
    next => cases hs
  | back t =>
    simp only [step] at hs
    split at hs
    next =>
      split at hs
      next =>
        obtain rfl := Option.some.inj hs
        exact hsame rfl
      next => cases hs
    next => cases hs
  | last =>
    simp only [step] at hs
    split at hs
    next =>
      obtain rfl := Option.some.inj hs
      exact hsame rfl
    next =>
      obtain rfl := Option.some.inj hs
      exact hsame rfl
    next => cases hs

/-- What was out of order stays recorded. -/
theorem ordered_mono {as : List (RequestsAction H)} :
    ∀ {s s' : Requests H}, (system null).run s as = some s' → s'.Ordered → s.Ordered := by
  induction as with
  | nil =>
    intro s s' hrun h
    obtain rfl := Option.some.inj hrun
    exact h
  | cons a as ih =>
    intro s s' hrun h
    simp only [Transition.run, List.foldlM_cons, Option.bind_eq_bind,
      Option.bind_eq_some_iff] at hrun
    obtain ⟨t, hstep, hrest⟩ := hrun
    intro e he
    exact ih hrest h e (by rw [step_emplaces hstep]; exact List.mem_append_left _ he)

/-- One step keeps the record in order exactly when it meets the condition. -/
theorem step_ordered (h : MapsInv null s) (hord : s.Ordered) {a : RequestsAction H}
    (hs : s.step null a = some s') : s'.Ordered ↔ s.Between null a := by
  have hmap : ∀ xs : List (Pending H), (xs.map Pending.req).Pairwise (· < ·) ↔
      SearchTree.Increasing Pending.req xs := fun xs => List.pairwise_map
  have hordered : s'.Ordered ↔
      ∀ e ∈ s.recorded a, e.keys.Pairwise (· < ·) ∧ e.inserted = true := by
    unfold Ordered
    rw [step_emplaces hs]
    exact ⟨fun h' e he => h' e (List.mem_append_right _ he),
      fun h' e he => (List.mem_append.mp he).elim (hord e) (h' e)⟩
  rw [hordered]
  cases a with
  | request req t =>
    rw [← h.increasing_iff, ← hmap]
    exact ⟨fun h' => (h' _ (List.mem_singleton_self _)).1,
      fun hinc e he => List.mem_singleton.mp he ▸ ⟨hinc, rfl⟩⟩
  | send req t =>
    refine iff_of_true (fun e he => ?_) trivial
    obtain rfl := List.mem_singleton.mp he
    exact ⟨(hmap _).mpr h.sends, rfl⟩
  | _ => exact iff_of_true (fun e he => by cases he) trivial

/-- **The maps are in order whenever something is put into them, and everything is put
into them, exactly in the runs in which the null handle is, each time an entry
function posts a receive, between the handles of the neighbours of its node.** -/
theorem emplace_ordered {as : List (RequestsAction H)}
    (h : (system null).run init as = some s) :
    s.Ordered ↔ init.Meets null as := by
  have hrun : ∀ (as : List (RequestsAction H)) {t : Requests H}, MapsInv null t →
    t.Ordered →
      (system null).run t as = some s → (s.Ordered ↔ t.Meets null as) := by
    intro as
    induction as with
    | nil =>
      intro t _ hord hrun
      obtain rfl := Option.some.inj hrun
      exact iff_of_true hord trivial
    | cons a as ih =>
      intro t hinv hord hrun
      simp only [Transition.run, List.foldlM_cons, Option.bind_eq_bind,
        Option.bind_eq_some_iff] at hrun
      obtain ⟨t', hstep, hrest⟩ := hrun
      constructor
      · intro hs
        have hbetween := (step_ordered hinv hord hstep).mp (ordered_mono hrest hs)
        refine ⟨hbetween, fun t'' hstep' => ?_⟩
        obtain rfl := Option.some.inj (hstep.symm.trans hstep')
        exact (ih (step_inv hinv hbetween hstep)
          ((step_ordered hinv hord hstep).mpr hbetween) hrest).mp hs
      · rintro ⟨hbetween, hmeets⟩
        exact (ih (step_inv hinv hbetween hstep)
          ((step_ordered hinv hord hstep).mpr hbetween) hrest).mpr (hmeets t' hstep)
  exact hrun as init_inv (fun e he => by cases he) h

/-- A node with no left subtree, and the rest to its right. -/
def rightSpine : List (Pending Nat) → SearchTree (Pending Nat)
  | [] => .leaf
  | x :: xs => .node .leaf x (rightSpine xs)

/-- One receive is pending; its entry function posts the next. -/
theorem emplace_ordered_one :
    ∃ s, (system 0).run init [.request 5 (rightSpine [⟨5, 0⟩]), .run, .last,
      .test true .leaf,
        .request 3 (rightSpine [⟨0, 0⟩, ⟨3, 1⟩])] = some s ∧
      (s.Ordered ↔ init.Meets 0
        [.request 5 (rightSpine [⟨5, 0⟩]), .run, .last, .test true .leaf,
        .request 3 (rightSpine [⟨0, 0⟩, ⟨3, 1⟩])]) :=
  ⟨_, rfl, emplace_ordered rfl⟩

/-- Of two receives the second completes, and its entry function posts another: the keys
are then 5 and the null handle, 0. -/
theorem out_of_order :
    ∃ s, (system 0).run init [.request 5 (rightSpine [⟨5, 0⟩]),
        .request 7 (rightSpine [⟨5, 0⟩, ⟨7, 1⟩]), .run, .last, .test false .leaf,
          .test true .leaf,
        .request 6 (rightSpine [⟨5, 0⟩, ⟨0, 1⟩, ⟨6, 2⟩])] = some s ∧ ¬s.Ordered := by
  refine ⟨_, rfl, fun hord => ?_⟩
  have hkeys :=
    (hord ⟨[5, 0], true⟩ (List.mem_append_right _ (List.mem_singleton_self _))).1
  exact absurd hkeys (by decide)

end Requests

end CharmExperiments.Warp
