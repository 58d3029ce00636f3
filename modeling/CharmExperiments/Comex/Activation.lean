import CharmExperiments.Comex.Ranks

/-!
# Which sets the action is given, and when

For a component whose calls do not come back:

- `grouped_by_rank`: the sets handed to the action and those in the deque group the
  accepted values by rank, and the action only gets complete sets.
- A persistent component that is activated early is given the sets in the order of
  their ranks. One that is activated late is first given the complete sets that
  wait, from the front of the deque: the latest first. So the two agree just when
  these sets read the same backwards (`early_late`); two values are enough to tell
  them apart (`late_reversed`).
-/

namespace CharmExperiments.Comex

open CharmExperiments.Lib

variable {σ V : Type}

def Frame.isFlushing : Frame V → Bool
  | .flushing _ _ => true
  | _ => false

/-- No member function but the flushing of an output is in progress. -/
def Idle (fs : List (Frame V)) : Prop := ∀ f ∈ fs, f.isFlushing = true

instance (fs : List (Frame V)) : Decidable (Idle fs) :=
  inferInstanceAs (Decidable (∀ f ∈ fs, _))

/-- The loop of `activate` is in progress. -/
def Looping (fs : List (Frame V)) : Prop := .activating ∈ fs

def Frame.loops : Frame V → Bool
  | .activating => true
  | _ => false

/-- A call of `accept` does not come from the component's own action. -/
def Unfed (l : Local σ V) : Turn V → Prop
  | .accept _ _ => Idle l.frames
  | _ => True

/-- The order in which a persistent component is given the sets: not at all before it
is activated; then the complete ones that wait, the latest first; then each as it
is completed. -/
structure Order (K : Class σ V) (l : Local σ V) (as ks : List Nat) : Prop where
  before : l.com.activations = [] → l.com.active = false ∧ as = []
  active : l.com.activations ≠ [] → l.com.active = true
  staged : Staging l.frames → l.com.activations ≠ []
  bound : ∀ p ∈ l.com.activations, p ≤ l.com.accepted.length
  loop : ∀ p, l.com.activations = [p] → Looping l.frames →
    l.com.accepted.length = p ∧
    as ++ ks.filter (· < fewest K l.com.accepted) =
      (List.range (fewest K l.com.accepted)).reverse
  after : ∀ p, l.com.activations = [p] → ¬ Looping l.frames →
    as = (List.range (fewest K (l.com.accepted.take p))).reverse ++
      List.range' (fewest K (l.com.accepted.take p))
        (fewest K l.com.accepted - fewest K (l.com.accepted.take p)) ∧
    ∀ k ∈ ks, fewest K l.com.accepted ≤ k

/-- What holds of a component whose calls do not come back. -/
def Grouping (K : Class σ V) (l : Local σ V) : Prop :=
  ∃ as ks, Ranked K l as ks ∧ (K.persistent = true → Order K l as ks)

section Moves

variable {K : Class σ V} {l l' : Local σ V} {t : Turn V} {as ks : List Nat}
  {c : Component σ V}
  {fs : List (Frame V)}

theorem Idle.not_staging (h : Idle fs) : ¬ Staging fs := by
  rintro ⟨f, hf, hs⟩
  have hflush := h f hf
  cases f with
  | staging search outs => cases hflush
  | activating => cases hs
  | flushing port relayed => cases hs

theorem Idle.not_looping (h : Idle fs) : ¬ Looping fs := by
  intro hf
  have hflush := h _ hf
  cases hflush

theorem looping_tail {f : Frame V} (hf : f.loops = false) : Looping (f :: fs) ↔
    Looping fs := by
  constructor
  · intro h
    rcases List.mem_cons.mp h with rfl | h
    · cases hf
    · exact h
  · exact List.mem_cons_of_mem f

theorem staging_of_tail {f : Frame V} (h : Staging fs) : Staging (f :: fs) := by
  obtain ⟨g, hmem, hg⟩ := h
  exact ⟨g, List.mem_cons_of_mem f hmem, hg⟩

/-- The set that is erased was not left. -/
theorem rest_erased {it : Deque.Iterator} {outs : List (Nat × Option V)} {b : Bool} :
    rest ⟨{ c with active := b, incoming := c.incoming.without it.id }, fs⟩ =
      rest ⟨c, .staging (some it) outs :: fs⟩ := by
  show ((c.incoming.items.filter (·.1 ≠ it.id)).filter fun x =>
    x.1 ∉ (held fs).map (·.id)).map
    Prod.snd = (c.incoming.items.filter fun x =>
      x.1 ∉ (held (.staging (some it) outs :: fs)).map (·.id)).map Prod.snd
  rw [List.filter_filter, held_some]
  refine congrArg _ (List.filter_congr fun x _ => ?_)
  by_cases h : x.1 = it.id
  · simp [h]
  · simp [h]

/-- Nothing that concerns the order has changed. -/
theorem order_same (hi : Order K l as ks) (hacc : l'.com.accepted = l.com.accepted)
    (hactivations : l'.com.activations = l.com.activations)
    (hactive : l'.com.active = l.com.active ∨ l.com.activations ≠ [] ∧
      l'.com.active = true)
    (hstaged : Staging l'.frames → Staging l.frames)
    (hloop : Looping l'.frames ↔ Looping l.frames) : Order K l' as ks where
  before h := by
    rw [hactivations] at h
    obtain ⟨ha, has⟩ := hi.before h
    rcases hactive with heq | ⟨hne, _⟩
    · exact ⟨heq.trans ha, has⟩
    · exact absurd h hne
  active h := by
    rw [hactivations] at h
    rcases hactive with heq | ⟨_, ht⟩
    · exact heq.trans (hi.active h)
    · exact ht
  staged h := by
    rw [hactivations]
    exact hi.staged (hstaged h)
  bound p hp := by
    rw [hacc]
    exact hi.bound p (hactivations ▸ hp)
  loop p hp h := by
    rw [hacc]
    exact hi.loop p (hactivations ▸ hp) (hloop.mp h)
  after p hp h := by
    rw [hacc]
    exact hi.after p (hactivations ▸ hp) fun hl => h (hloop.mpr hl)

/-- A value that completes no set while the component is active. -/
theorem order_note {port : Nat} {val : V} {c' : Component σ V} {ks' : List Nat}
    (hi : Order K ⟨c, fs⟩ as ks) (hidle : Idle fs)
    (hacc : c'.accepted = c.accepted ++ [(port, val)])
    (hactivations : c'.activations = c.activations) (hactive : c'.active = c.active)
    (hnot : c.active = true → ¬ (on port c.accepted).length < fewest K c'.accepted)
    (hks : c.active = true → ∀ k ∈ ks', k ∈ ks ∨ k = (on port c.accepted).length) :
    Order K ⟨c', fs⟩ as ks' where
  before h := by
    rw [show c'.activations = c.activations from hactivations] at h
    exact ⟨hactive.trans (hi.before h).1, (hi.before h).2⟩
  active h := by
    rw [show c'.activations = c.activations from hactivations] at h
    exact hactive.trans (hi.active h)
  staged h := absurd h hidle.not_staging
  bound p hp := by
    rw [show c'.activations = c.activations from hactivations] at hp
    show p ≤ c'.accepted.length
    rw [hacc, List.length_append]
    exact (hi.bound p hp).trans (Nat.le_add_right _ _)
  loop _ _ h := absurd h hidle.not_looping
  after p hp h := by
    rw [show c'.activations = c.activations from hactivations] at hp
    have hp : c.activations = [p] := hp
    have hon : c.active = true :=
      hi.active (by rw [show _ = [p] from hp]; exact List.cons_ne_nil _ _)
    obtain ⟨has, hks₀⟩ := hi.after p hp h
    have hle : p ≤ c.accepted.length := hi.bound p (by
      rw [show (⟨c, fs⟩ : Local σ V).com.activations = [p] from hp]
      exact List.mem_singleton_self p)
    have hn := hnot hon
    show as = (List.range (fewest K (c'.accepted.take p))).reverse ++
      List.range' (fewest K (c'.accepted.take p)) (fewest K c'.accepted - _) ∧
      ∀ k ∈ ks', fewest K c'.accepted ≤ k
    rw [hacc] at hn ⊢
    -- no further set is complete, so `fewest` stays
    rw [fewest_note_other hn, List.take_append_of_le_length hle]
    refine ⟨has, fun k hk => ?_⟩
    rcases hks hon k hk with h | rfl
    · exact hks₀ k h
    · rw [fewest_note_other hn] at hn
      omega

/-- A value that completes a set of an active component. -/
theorem order_run {port : Nat} {val : V} {c' : Component σ V}
    {search : Option Deque.Iterator}
    {outs : List (Nat × Option V)} {ks' : List Nat} (hi : Order K ⟨c, fs⟩ as ks)
    (hidle : Idle fs) (hport : port < K.nInputs)
    (hacc : c'.accepted = c.accepted ++ [(port, val)])
    (hactivations : c'.activations = c.activations) (hsame : c'.active = c.active)
    (hactive : c.active = true)
    (hfull : (on port c.accepted).length < fewest K (c.accepted ++ [(port, val)]))
    (hks : ∀ k ∈ ks', k ∈ ks ∧ k ≠ (on port c.accepted).length) :
    Order K ⟨c', .staging search outs :: fs⟩
      (as ++ [(on port c.accepted).length]) ks' := by
  have hne : c.activations ≠ [] := fun h => by
    have hoff : c.active = false := (hi.before h).1
    rw [hactive] at hoff
    cases hoff
  refine ⟨fun h => absurd (hactivations ▸ h) hne, fun _ => hsame.trans hactive,
    fun _ => by rw [hactivations]; exact hne, fun p hp => ?_, fun p _ h =>
      ?_, fun p hp _ => ?_⟩
  · rw [show (⟨c', .staging search outs :: fs⟩ : Local σ V).com.activations =
      c.activations from
      hactivations] at hp
    show p ≤ c'.accepted.length
    rw [hacc, List.length_append]
    exact (hi.bound p hp).trans (Nat.le_add_right _ _)
  · rcases List.mem_cons.mp h with h | h
    · cases h
    · exact absurd h hidle.not_looping
  · have hp : c.activations = [p] := hactivations ▸ hp
    have hle : p ≤ c.accepted.length := hi.bound p (by
      rw [show (⟨c, fs⟩ : Local σ V).com.activations = [p] from hp]
      exact List.mem_singleton_self p)
    obtain ⟨has, hks₀⟩ := hi.after p hp hidle.not_looping
    obtain ⟨hold, hnew⟩ := fewest_note_complete hport hfull
    show as ++ [(on port c.accepted).length] =
      (List.range (fewest K (c'.accepted.take p))).reverse ++
      List.range' (fewest K (c'.accepted.take p)) (fewest K c'.accepted - _) ∧
      ∀ k ∈ ks', fewest K c'.accepted ≤ k
    rw [hacc, hnew, List.take_append_of_le_length hle]
    have hmono : fewest K (c.accepted.take p) ≤ fewest K c.accepted := fewest_take p
    -- the set completed is the next one in order, and it is acted on at once
    refine ⟨?_, fun k hk => ?_⟩
    · rw [show as = _ from has, show (⟨c, fs⟩ : Local σ V).com.accepted =
        c.accepted from rfl, hold, List.append_assoc, Nat.succ_sub (by omega),
          List.range'_1_concat]
      congr 3
      omega
    · have hk₀ : fewest K c.accepted ≤ k := hks₀ k (hks k hk).1
      have hk₁ := (hks k hk).2
      omega

/-- The loop of `activate` takes the first complete set. -/
theorem order_loop {c' : Component σ V} {search : Option Deque.Iterator}
    {outs : List (Nat × Option V)} {k : Nat} {ks₁ ks₂ : List Nat}
    (hi : Order K ⟨c, [.activating]⟩ as (ks₁ ++ k :: ks₂))
    (hacc : c'.accepted = c.accepted) (hactivations : c'.activations = c.activations)
    (hsame : c'.active = c.active) (hactive : c.active = true)
    (hfirst : ∀ j ∈ ks₁, fewest K c.accepted ≤ j)
    (hk : k < fewest K c.accepted) :
    Order K ⟨c', [.staging search outs, .activating]⟩ (as ++ [k]) (ks₁ ++ ks₂) := by
  have hne : c.activations ≠ [] := fun h => by
    have hoff : c.active = false := (hi.before h).1
    rw [hactive] at hoff
    cases hoff
  have hloop : Looping [(.staging search outs : Frame V), .activating] :=
    List.mem_cons_of_mem _ List.mem_cons_self
  refine ⟨fun h => absurd (hactivations ▸ h) hne, fun _ => hsame.trans hactive,
    fun _ => by rw [hactivations]; exact hne, fun p hp => ?_, fun p hp _ => ?_,
    fun p _ h => absurd hloop h⟩
  · show p ≤ c'.accepted.length
    rw [hacc]
    exact hi.bound p (hactivations ▸ hp)
  · obtain ⟨hlen, horder⟩ := hi.loop p (hactivations ▸ hp) List.mem_cons_self
    show c'.accepted.length = p ∧
      as ++ [k] ++ (ks₁ ++ ks₂).filter (· < fewest K c'.accepted) =
      (List.range (fewest K c'.accepted)).reverse
    rw [hacc]
    refine ⟨hlen, ?_⟩
    rw [← show _ = (List.range (fewest K c.accepted)).reverse from horder]
    -- the search passes over `ks₁`, whose sets are not complete
    have hnil : ks₁.filter (· < fewest K c.accepted) = [] := by
      rw [List.filter_eq_nil_iff]
      intro j hj
      have hle := hfirst j hj
      simp only [decide_eq_true_eq]
      omega
    show as ++ [k] ++ (ks₁ ++ ks₂).filter (· < fewest K c.accepted) =
      as ++ (ks₁ ++ k :: ks₂).filter (· < fewest K c.accepted)
    rw [List.filter_append, List.filter_append, hnil,
      List.filter_cons_of_pos (by simpa using hk), List.append_assoc]
    rfl

/-- The loop ends when no complete set is left. -/
theorem order_exit (hr : Ranked K ⟨c, [.activating]⟩ as ks)
    (hi : Order K ⟨c, [.activating]⟩ as ks)
    (hnone : c.active = true → c.findReady K = none) : Order K ⟨c, []⟩ as ks := by
  have hs : ¬ Staging [(.activating : Frame V)] := fun ⟨f, hf, hs⟩ => by
    rw [List.mem_singleton.mp hf] at hs
    cases hs
  refine ⟨hi.before, hi.active, fun ⟨_, hf, _⟩ => (by cases hf), hi.bound,
    fun _ _ h => (by cases h), fun p hp _ => ?_⟩
  have hp : c.activations = [p] := hp
  obtain ⟨hlen, horder⟩ := hi.loop p hp List.mem_cons_self
  have hlen : c.accepted.length = p := hlen
  -- the search found nothing: every set left is incomplete
  have hleft : ∀ k ∈ ks, fewest K c.accepted ≤ k := by
    intro k hk
    have hset : rank c.accepted k ∈ c.incoming.values := by
      rw [← rest_idle hs, hr.waits]
      exact List.mem_map_of_mem hk
    obtain ⟨x, hx, heq⟩ := List.mem_map.mp hset
    have hnot := Deque.findFront_none (hnone (hi.active (by
      rw [show (⟨c, [.activating]⟩ : Local σ V).com.activations = [p] from hp]
      exact List.cons_ne_nil _ _))) x hx
    refine Nat.le_of_not_lt fun hlt => ?_
    rw [heq, rank_ready_iff.mpr hlt] at hnot
    cases hnot
  refine ⟨?_, hleft⟩
  have hnil : ks.filter (· < fewest K c.accepted) = [] := by
    rw [List.filter_eq_nil_iff]
    intro k hk
    have hle := hleft k hk
    simp only [decide_eq_true_eq]
    omega
  show as = (List.range (fewest K (c.accepted.take p))).reverse ++
    List.range' (fewest K (c.accepted.take p)) (fewest K c.accepted - _)
  rw [← hlen, List.take_length, Nat.sub_self, List.range'_zero, List.append_nil]
  have horder : as ++ ks.filter (· < fewest K c.accepted) =
      (List.range (fewest K c.accepted)).reverse := horder
  rw [hnil, List.append_nil] at horder
  exact horder

/-- Of decreasing ranks the smallest are the last. -/
theorem filter_sorted {q m : Nat} (hs : ks.Pairwise (· > ·)) (hp : ks.Perm (List.range m))
    (hle : q ≤ m) : ks.filter (· < q) = (List.range q).reverse := by
  have hgt : ((List.range q).reverse).Pairwise (· > ·) :=
    List.pairwise_reverse.mpr List.pairwise_lt_range
  have hperm : (ks.filter (· < q)).Perm (List.range q).reverse := by
    refine (List.perm_ext_iff_of_nodup ?_ (List.nodup_reverse.mpr List.nodup_range)).mpr
      fun k => ?_
    · exact (hp.nodup_iff.mpr List.nodup_range).filter _
    · rw [List.mem_filter, List.mem_reverse, List.mem_range, hp.mem_iff, List.mem_range,
        decide_eq_true_eq]
      omega
  refine hperm.eq_of_pairwise (fun a b _ _ hab hba => ?_) (hs.filter _) hgt
  omega

theorem range_split {q m : Nat} (h : q ≤ m) :
    List.range' 0 m = List.range q ++ List.range' q (m - q) := by
  have hsplit := @List.range'_append_1 0 q (m - q)
  rw [Nat.zero_add, Nat.add_sub_cancel' h] at hsplit
  rw [List.range_eq_range', hsplit]

/-- A persistent component is activated once, before it has run. -/
theorem order_activate (hr : Ranked K ⟨c, []⟩ as ks) (hi : Order K ⟨c, []⟩ as ks)
    (hactive : c.active = false) : Order K ⟨c.online, [.activating]⟩ as ks := by
  have hnil : c.activations = [] := by
    by_contra hne
    have hon : c.active = true := hi.active hne
    rw [hactive] at hon
    cases hon
  have hnew : c.online.activations = [c.accepted.length] := by
    show c.activations ++ [c.accepted.length] = _
    rw [hnil]
    rfl
  obtain rfl := (hi.before hnil).2
  refine ⟨fun h => ?_, fun _ => rfl, fun _ => ?_, fun p hp => ?_, fun p hp _ => ?_,
    fun p _ h => absurd List.mem_cons_self h⟩
  · rw [show _ = [c.accepted.length] from hnew] at h
    cases h
  · rw [show _ = [c.accepted.length] from hnew]
    exact List.cons_ne_nil _ _
  · rw [show _ = [c.accepted.length] from hnew] at hp
    exact (List.mem_singleton.mp hp).le
  · rw [show _ = [c.accepted.length] from hnew] at hp
    exact ⟨(List.cons.inj hp).1, filter_sorted hr.sorted hr.ranks fewest_le_most⟩

/-- **Every turn keeps the sets grouped**, if no call comes back from the action. -/
theorem grouping_move (hn : Nested l.frames) (hi : Grouping K l) (hc : Unfed l t)
    (h : Move K l t l') : Grouping K l' := by
  obtain ⟨as, ks, hr, ho⟩ := hi
  cases h with
  | @direct c fs port val hport hone hactive =>
    have hidle : Idle fs := hc
    obtain ⟨hfull, hr'⟩ := @ranked_direct _ _ _ _ _ _ _ _ val _ hr hone hport
    refine ⟨_, _, hr', fun hp =>
      order_run (ho hp) hidle hport rfl rfl rfl hactive hfull ?_⟩
    intro k hk
    have hlt : k < most K c.accepted := hr.ks_lt k hk
    have hmost := (one_most (c := c) hone hport).2
    exact ⟨hk, by omega⟩
  | @buffered c fs port val hport hone hactive =>
    have hidle : Idle fs := hc
    obtain ⟨rfl, hmost⟩ := one_most (c := c) hone hport
    refine ⟨_, _, ranked_wait hr hidle.not_staging hport hmost, fun hp => ?_⟩
    refine order_note (ho hp) hidle rfl rfl rfl (fun h => ?_) fun h => ?_
    all_goals
      rw [hactive] at h
      cases h
  | @fresh c fs port val hport hone hgap =>
    have hidle : Idle fs := hc
    have hmost := gapless_most hr hidle.not_staging hport hgap
    refine ⟨_, _, ranked_wait hr hidle.not_staging hport hmost, fun hp => ?_⟩
    exact order_note (ho hp) hidle rfl rfl rfl (fun _ => fresh_not_full hone hport hmost)
      fun _ k hk => (List.mem_cons.mp hk).symm
  | @fill c fs port val id set hport hone hgap hready =>
    have hidle : Idle fs := hc
    refine ⟨_, _, ranked_fill hr hidle.not_staging hport hgap, fun hp => ?_⟩
    refine order_note (ho hp) hidle rfl rfl rfl (fun h hlt => ?_) fun _ k hk => Or.inl hk
    -- a set that this value completes is buffered only while offline
    have hoff : c.active = false := hready (by
      rw [gap_set hr hidle.not_staging hport hgap]
      exact rank_ready_iff.mpr hlt)
    rw [h] at hoff
    cases hoff
  | @complete c fs port val id set hport hone hgap hready hactive =>
    have hidle : Idle fs := hc
    obtain ⟨ks₁, ks₂, rfl, hfull, hne, hr'⟩ :=
      ranked_complete hr hidle.not_staging hport hgap hready
    refine ⟨_, _, hr', fun hp =>
      order_run (ho hp) hidle hport rfl rfl rfl hactive hfull ?_⟩
    intro k hk
    refine ⟨?_, hne k hk⟩
    exact (List.Sublist.append_left (List.sublist_cons_self _ ks₂) ks₁).subset hk
  | activate hactive =>
    refine ⟨as, ks, ranked_same hr rfl rfl rfl,
      fun hp => order_activate hr (ho hp) hactive⟩
  | connect _ => exact ⟨as, ks, ranked_same hr rfl rfl rfl,
      fun hp => order_same (ho hp) rfl rfl (Or.inl rfl) id Iff.rfl⟩
  | connectFlush _ _ =>
    exact ⟨as, ks, ranked_same hr rfl rfl rfl, fun hp =>
      order_same (ho hp) rfl rfl (Or.inl rfl)
      (staging_tail rfl).mp (looping_tail rfl)⟩
  | relay _ | hold _ =>
    exact ⟨as, ks, ranked_same hr rfl rfl rfl, fun hp =>
      order_same (ho hp) rfl rfl (Or.inl rfl)
      (fun _ => staging_cons) ((looping_tail rfl).trans (looping_tail rfl).symm)⟩
  | staged =>
    exact ⟨as, ks, ranked_same hr rfl rfl rfl, fun hp => order_same (ho hp) rfl rfl
      (Or.inr ⟨(ho hp).staged staging_cons, hp⟩) staging_of_tail (looping_tail rfl).symm⟩
  | erased _ =>
    exact ⟨as, ks, ranked_same hr rfl rfl rest_erased, fun hp =>
      order_same (ho hp) rfl rfl
      (Or.inr ⟨(ho hp).staged staging_cons, hp⟩) staging_of_tail (looping_tail rfl).symm⟩
  | @loop c fs id set hactive hready =>
    obtain rfl := hn.activating_last
    have hs : ¬ Staging [(.activating : Frame V)] := fun ⟨f, hf, hs⟩ => by
      rw [List.mem_singleton.mp hf] at hs
      cases hs
    obtain ⟨ks₁, k, ks₂, rfl, hfirst, hk, hr'⟩ := ranked_loop hr hs hready
    exact ⟨_, _, hr', fun hp => order_loop (ho hp) rfl rfl rfl hactive hfirst hk⟩
  | exit hnone =>
    obtain rfl := hn.activating_last
    exact ⟨as, ks, ranked_same hr rfl rfl rfl, fun hp => order_exit hr (ho hp) hnone⟩
  | flushed _ =>
    exact ⟨as, ks, ranked_same hr rfl rfl rfl, fun hp =>
      order_same (ho hp) rfl rfl (Or.inl rfl)
      staging_of_tail (looping_tail rfl).symm⟩
  | flush _ _ | pop =>
    exact ⟨as, ks, ranked_same hr rfl rfl rfl, fun hp =>
      order_same (ho hp) rfl rfl (Or.inl rfl)
      (fun h => staging_of_tail ((staging_tail rfl).mp h))
      ((looping_tail rfl).trans (looping_tail rfl).symm)⟩

end Moves

/-- No call of `accept` comes back to `com` from its own action. -/
def NoFeedback (com : Nat) (n : Network σ V) (a : Act V) : Prop :=
  match n.turn a with
  | some (d, .accept _ _) => d = com → Idle (n.view com).frames
  | _ => True

instance (com : Nat) (n : Network σ V) (a : Act V) : Decidable (NoFeedback com n a) := by
  unfold NoFeedback
  split <;> infer_instance

/-- What is asked of the sets of a component, those handed to its action with those
in `incoming`. -/
structure GroupedByRank (K : Class σ V) (c : Component σ V) : Prop where
  /-- They are the sets of the ranks, each once, -/
  sets : (c.acted ++ c.incoming.values).Perm
    ((List.range (most K c.accepted)).map (rank c.accepted))
  /-- and every value has one of these ranks. -/
  ranks : ∀ port, (on port c.accepted).length ≤ most K c.accepted
  /-- The action only gets complete sets. -/
  complete : ∀ set ∈ c.acted, isReady K set = true

section Runs

variable {K K' : Nat → Class σ V} {typeOf : V → Option String}
  {n n' : Network σ V} {com : Nat}

/-- What every run without feedback keeps. -/
theorem reachable_grouping (h : (system K typeOf).Reachable (NoFeedback com) n) :
    Grouping (K com) (n.view com) := by
  have hlocal : (localSystem (K com) typeOf com).Reachable Unfed (n.view com) := by
    refine Network.Reachable.view (fun n a t _ hc hturn => ?_) h
    rw [NoFeedback, hturn] at hc
    cases t with
    | accept port val => exact hc rfl
    | _ => trivial
  have hnew : Grouping (K com) ⟨.new (K com), []⟩ := by
    refine ⟨[], [], ⟨fun _ hx => (by cases hx), rfl, rfl, List.Pairwise.nil, ?_,
      fun _ hk => (by cases hk)⟩, fun _ => ⟨fun _ => ⟨rfl, rfl⟩, fun h => absurd rfl h,
      fun ⟨_, hf, _⟩ => (by cases hf), fun _ hp => (by cases hp), fun _ hp =>
        (by cases hp),
      fun _ hp => (by cases hp)⟩⟩
    have hzero : most (K com) [] = 0 := by
      refine Nat.eq_zero_of_not_pos fun hpos => ?_
      obtain ⟨i, _, hlt⟩ := lt_most_iff.mp hpos
      exact Nat.not_lt_zero 0 hlt
    show List.Perm [] (List.range (most (K com) []))
    rw [hzero]
    exact List.Perm.refl _
  exact (local_invariant hnew
    (fun _ _ _ hn hi hc hm => grouping_move hn hi hc hm) hlocal).2

/-- **Values are grouped by rank**, whenever the component is not in its action. -/
theorem grouped_by_rank (h : (system K typeOf).Reachable (NoFeedback com) n)
    (hs : ¬ Staging (n.view com).frames) : GroupedByRank (K com) (n.components com) := by
  obtain ⟨as, ks, hr, _⟩ := reachable_grouping h
  have hacted : (n.components com).acted = as.map (rank (n.components com).accepted) :=
    hr.acted
  have hwaits : (n.components com).incoming.values =
      ks.map (rank (n.components com).accepted) :=
    (rest_idle (c := n.components com) hs).symm.trans hr.waits
  refine ⟨?_, fun port => ?_, fun set hset => ?_⟩
  · rw [hacted, hwaits, ← List.map_append]
    exact hr.ranks.map _
  · by_cases hport : port < (K com).nInputs
    · exact le_most hport
    · have hnil : on port (n.components com).accepted = [] :=
        on_eq_nil hr.ports (Nat.le_of_not_lt hport)
      rw [hnil]
      exact Nat.zero_le _
  · rw [hacted] at hset
    obtain ⟨k, hk, rfl⟩ := List.mem_map.mp hset
    exact rank_ready_iff.mpr (hr.complete k hk)

/-- The complete sets among the first `p` values, in the order of their ranks. -/
def backlog (K : Class σ V) (acc : List (Nat × V)) (p : Nat) : List (InSet V) :=
  (List.range (fewest K (acc.take p))).map (rank acc)

/-- The sets handed to a persistent component that was activated once. -/
theorem acted_eq {p : Nat} (h : (system K typeOf).Reachable (NoFeedback com) n)
    (hp : (K com).persistent = true) (hidle : Idle (n.view com).frames)
    (hact : (n.components com).activations = [p]) :
    (n.components com).acted =
      (backlog (K com) (n.components com).accepted p).reverse ++
        (List.range' (fewest (K com) ((n.components com).accepted.take p))
          (fewest (K com) (n.components com).accepted -
            fewest (K com) ((n.components com).accepted.take p))).map
          (rank (n.components com).accepted) ∧
    (n.components com).incoming.values =
      ((List.range' (fewest (K com) (n.components com).accepted)
        (most (K com) (n.components com).accepted -
          fewest (K com) (n.components com).accepted)).reverse).map
        (rank (n.components com).accepted) := by
  obtain ⟨as, ks, hr, ho⟩ := reachable_grouping h
  obtain ⟨has, hks⟩ := (ho hp).after p hact hidle.not_looping
  have hsorted : ((List.range' (fewest (K com) (n.components com).accepted)
      (most (K com) (n.components com).accepted -
        fewest (K com) (n.components com).accepted)).reverse).Pairwise (· > ·) :=
    List.pairwise_reverse.mpr (List.pairwise_lt_range' 1 Nat.one_pos)
  have hle : fewest (K com) (n.components com).accepted ≤
      most (K com) (n.components com).accepted :=
    fewest_le_most
  have hperm : ks.Perm (List.range' (fewest (K com) (n.components com).accepted)
      (most (K com) (n.components com).accepted -
        fewest (K com) (n.components com).accepted)).reverse := by
    refine (List.perm_ext_iff_of_nodup ?_ (List.nodup_reverse.mpr List.nodup_range')).mpr
      fun k => ?_
    · exact (List.nodup_append.mp (hr.ranks.nodup_iff.mpr List.nodup_range)).2.1
    · rw [List.mem_reverse, List.mem_range'_1]
      constructor
      · intro hk
        have hlt : k < most (K com) (n.components com).accepted := hr.ks_lt k hk
        have hge : fewest (K com) (n.components com).accepted ≤ k := hks k hk
        omega
      · rintro ⟨hge, hlt⟩
        exact hr.mem_ks (show k < most (K com) (n.components com).accepted by omega) hge
  -- two decreasing lists with the same members
  have heq := hperm.eq_of_pairwise (fun a b _ _ hab hba => by omega) hr.sorted hsorted
  constructor
  · have hacted : (n.components com).acted = as.map (rank (n.components com).accepted) :=
      hr.acted
    rw [hacted, has, List.map_append, List.map_reverse]
    rfl
  · have hwaits : (n.components com).incoming.values =
        ks.map (rank (n.components com).accepted) :=
      (rest_idle (c := n.components com) hidle.not_staging).symm.trans hr.waits
    rw [hwaits, heq]

/-- **Activating early or late makes no difference if and only if** the complete sets
that wait when the component is activated late read the same backwards. The two
runs are of a persistent component of one type, in any networks, that accepts the
same values: activated before the first, or after `p` of them. -/
theorem early_late {p : Nat} {typeOf' : V → Option String}
    (h : (system K typeOf).Reachable (NoFeedback com) n)
    (h' : (system K' typeOf').Reachable (NoFeedback com) n') (hK : K' com = K com)
    (hp : (K com).persistent = true)
    (hidle : Idle (n.view com).frames) (hidle' : Idle (n'.view com).frames)
    (hacc : (n'.components com).accepted = (n.components com).accepted)
    (hearly : (n.components com).activations = [0])
    (hlate : (n'.components com).activations = [p]) :
    ((n'.components com).acted = (n.components com).acted ∧
      (n'.components com).incoming.values = (n.components com).incoming.values) ↔
    (backlog (K com) (n.components com).accepted p).reverse =
      backlog (K com) (n.components com).accepted p := by
  obtain ⟨hacted, hwaits⟩ := acted_eq h hp hidle hearly
  obtain ⟨hacted', hwaits'⟩ := acted_eq h' (hK ▸ hp) hidle' hlate
  rw [hK, hacc] at hacted' hwaits'
  have hzero : fewest (K com) ((n.components com).accepted.take 0) = 0 := by
    refine Nat.eq_zero_of_not_pos fun hpos => ?_
    exact Nat.not_lt_zero 0 (lt_fewest_iff.mp hpos 0 (K com).inputs)
  have hall : (n.components com).acted =
      backlog (K com) (n.components com).accepted p ++
        (List.range' (fewest (K com) ((n.components com).accepted.take p))
          (fewest (K com) (n.components com).accepted -
            fewest (K com) ((n.components com).accepted.take p))).map
          (rank (n.components com).accepted) := by
    rw [hacted, backlog, backlog, hzero, Nat.sub_zero, range_split (fewest_take p),
      List.map_append]
    rfl
  rw [hwaits', hwaits, and_iff_left rfl, hacted', hall]
  exact List.append_left_inj _

end Runs

/-- A component with one input is activated and given two values. -/
def early : List (Act Nat) :=
  [.activate 1, .proceed, .accept 1 0 (some 7), .proceed, .proceed,
    .accept 1 0 (some 8), .proceed, .proceed]

/-- It is given them first. -/
def late : List (Act Nat) :=
  [.accept 1 0 (some 7), .proceed, .accept 1 0 (some 8), .proceed, .activate 1] ++
    List.replicate 5 .proceed

/-- Activated late, the component is given the second value first. -/
theorem late_reversed : ∃ n n' : Network Unit Nat,
    (system (chain true) intType).follow (fun n a => decide (NoFeedback 1 n a))
    (.init (chain true))
      early = some n ∧
    (system (chain true) intType).follow (fun n a => decide (NoFeedback 1 n a))
    (.init (chain true))
      late = some n' ∧
    (n.components 1).accepted = (n'.components 1).accepted ∧
    (n.components 1).acted.map (· 0) = [some 7, some 8] ∧
    (n'.components 1).acted.map (· 0) = [some 8, some 7] ∧
    (n'.components 1).acted ≠ (n.components 1).acted := by
  have hrun : ((system (chain true) intType).follow (fun n a => decide (NoFeedback 1 n a))
      (.init (chain true)) early).map
      (fun n => ((n.components 1).accepted, (n.components 1).acted.map (· 0))) =
      some ([(0, 7), (0, 8)], [some 7, some 8]) := by
    decide +kernel
  have hrun' : ((system (chain true) intType).follow
    (fun n a => decide (NoFeedback 1 n a))
      (.init (chain true)) late).map
      (fun n => ((n.components 1).accepted, (n.components 1).acted.map (· 0))) =
      some ([(0, 7), (0, 8)], [some 8, some 7]) := by
    decide +kernel
  obtain ⟨n, hn, hsum⟩ := Option.map_eq_some_iff.mp hrun
  obtain ⟨n', hn', hsum'⟩ := Option.map_eq_some_iff.mp hrun'
  obtain ⟨hacc, hacted⟩ := Prod.mk.inj hsum
  obtain ⟨hacc', hacted'⟩ := Prod.mk.inj hsum'
  refine ⟨n, n', hn, hn', hacc.trans hacc'.symm, hacted, hacted', fun heq => ?_⟩
  rw [heq, hacted] at hacted'
  cases hacted'

/-- Both with a third value that is the first again. -/
def earlyThree : List (Act Nat) :=
  early ++ [.accept 1 0 (some 7), .proceed, .proceed]

def lateThree : List (Act Nat) :=
  [.accept 1 0 (some 7), .proceed, .accept 1 0 (some 8), .proceed, .accept 1 0 (some 7),
    .proceed, .activate 1] ++ List.replicate 7 .proceed

/-- Three values that wait and read the same backwards make no difference. -/
theorem early_late_three : ∃ n n' : Network Unit Nat,
    (system (chain true) intType).follow (fun n a => decide (NoFeedback 1 n a))
    (.init (chain true))
      earlyThree = some n ∧
    (system (chain true) intType).follow (fun n a => decide (NoFeedback 1 n a))
    (.init (chain true))
      lateThree = some n' ∧
    (n'.components 1).acted.map (· 0) = [some 7, some 8, some 7] ∧
    (n'.components 1).acted = (n.components 1).acted := by
  have hrun : ((system (chain true) intType).follow (fun n a => decide (NoFeedback 1 n a))
      (.init (chain true)) earlyThree).map
      (fun n => ((n.components 1).accepted, (n.components 1).activations,
        n.stack.length)) =
      some ([(0, 7), (0, 8), (0, 7)], [0], 0) := by
    decide +kernel
  have hrun' : ((system (chain true) intType).follow
    (fun n a => decide (NoFeedback 1 n a))
      (.init (chain true)) lateThree).map
      (fun n => ((n.components 1).accepted, (n.components 1).activations, n.stack.length,
        (n.components 1).acted.map (· 0))) =
      some ([(0, 7), (0, 8), (0, 7)], [3], 0, [some 7, some 8, some 7]) := by
    decide +kernel
  obtain ⟨n, hn, hsum⟩ := Option.map_eq_some_iff.mp hrun
  obtain ⟨n', hn', hsum'⟩ := Option.map_eq_some_iff.mp hrun'
  obtain ⟨hacc, hact, hstack⟩ := And.imp_right Prod.mk.inj (Prod.mk.inj hsum)
  obtain ⟨hacc', hsum'⟩ := Prod.mk.inj hsum'
  obtain ⟨hact', hstack', hacted⟩ := And.imp_right Prod.mk.inj (Prod.mk.inj hsum')
  have hidle : ∀ {n : Network Unit Nat}, n.stack.length = 0 → Idle (n.view 1).frames := by
    intro n hlen
    rw [Network.view, List.eq_nil_of_length_eq_zero hlen]
    exact fun _ hf => by cases hf
  have hreach : ∀ {as : List (Act Nat)} {n : Network Unit Nat},
      (system (chain true) intType).follow (fun n a => decide (NoFeedback 1 n a))
        (.init (chain true)) as = some n →
      (system (chain true) intType).Reachable (NoFeedback 1) n := fun hrun =>
    Transition.follow_reachable (fun _ _ hc => of_decide_eq_true hc) _ (.init rfl) hrun
  refine ⟨n, n', hn, hn', hacted,
    ((early_late (hreach hn) (hreach hn') rfl rfl (hidle hstack)
    (hidle hstack') (hacc'.trans hacc.symm) hact hact').mpr ?_).1⟩
  -- the third set is the first again
  have hsame : rank [(0, 7), (0, 8), (0, 7)] 2 = rank [(0, 7), (0, 8), (0, 7)] 0 := by
    funext port
    cases port <;> rfl
  have hbacklog : backlog (chain true 1) [(0, 7), (0, 8), (0, 7)] 3 =
      [rank [(0, 7), (0, 8), (0, 7)] 0, rank [(0, 7), (0, 8), (0, 7)] 1,
        rank [(0, 7), (0, 8), (0, 7)] 2] := rfl
  rw [hacc, hbacklog, hsame]
  rfl

/-- Two sets of a component with two inputs, one of them complete. -/
theorem grouped_by_rank_pair : ∃ n : Network Unit Nat,
    (system pair intType).follow (fun n a => decide (NoFeedback 1 n a)) (.init pair)
      [.activate 1, .proceed, .accept 1 0 (some 1), .proceed,
        .accept 1 0 (some 2), .proceed, .accept 1 1 (some 3), .proceed, .proceed,
          .proceed] = some n ∧
    (n.components 1).acted.length = 1 ∧ (n.components 1).incoming.values.length = 1 ∧
    GroupedByRank (pair 1) (n.components 1) := by
  have hrun : ((system pair intType).follow
    (fun n a => decide (NoFeedback 1 n a)) (.init pair)
      [.activate 1, .proceed, .accept 1 0 (some 1), .proceed,
        .accept 1 0 (some 2), .proceed, .accept 1 1 (some 3), .proceed, .proceed,
          .proceed]).map
      (fun n => ((n.components 1).acted.length, (n.components 1).incoming.values.length,
        n.stack.length)) = some (1, 1, 0) := by
    decide +kernel
  obtain ⟨n, hn, hsum⟩ := Option.map_eq_some_iff.mp hrun
  obtain ⟨hacted, hincoming, hstack⟩ := And.imp_right Prod.mk.inj (Prod.mk.inj hsum)
  refine ⟨n, hn, hacted, hincoming, grouped_by_rank (Transition.follow_reachable
    (fun _ _ hc => of_decide_eq_true hc) _ (.init rfl) hn) ?_⟩
  rw [Network.view, List.eq_nil_of_length_eq_zero hstack]
  intro hstaging
  obtain ⟨_, hf, _⟩ := hstaging
  cases hf

end CharmExperiments.Comex
