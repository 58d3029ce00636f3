import CharmExperiments.Lib.Align
import Mathlib.Logic.Function.Basic

/-!
# Attaching remote memory

`archive/include/xpmem.hh`: `translate_address` makes bytes of another process
addressable. It attaches a window around them, from the last multiple of 8 MiB not
above the first byte to one past the first multiple not below the last, and returns
where the first byte is in it. The sums are those of 64-bit words; where the range
ends 8 MiB before the end of memory, none of them wraps, and every byte asked for is
in the window (`translateAddress_spec`).

Mirroring notes:
- `Xpmem` is the XPMEM library: `xpmem_get`, and `xpmem_attach` with what the process
  has mapped afterwards. Either returns -1 when it fails.
- `OPAL_DOWN_ALIGN` and `OPAL_ALIGN` are `Lib.maskDown` and `Lib.maskUp`. `recv_msg` of
  the experiments computes its window by the same two.
- A failed assertion ends the call: `none`.
- `attached` records the calls of `xpmem_attach`; no function reads it.
-/

namespace CharmExperiments.Ipc

open CharmExperiments.Lib

/-- A `void *`, or a `uintptr_t`. -/
abbrev Word := BitVec 64

/-- `xpmem_addr`; the offset is an `off_t`, here by its bits. -/
structure XpmemAddr where
  apid : Int
  offset : Word
deriving DecidableEq

/-- What is mapped: for a local address, the instance and the remote address. -/
abbrev Mapping := Word → Option (Int × Word)

/-- The XPMEM library. -/
structure Xpmem where
  get : Int → Int
  attach : Mapping → XpmemAddr → Word → Word × Mapping

/-- `xpmem_attach` maps remote byte `offset + k` to `ctx + k`, for all `k` below the
length. -/
def Xpmem.Maps (X : Xpmem) : Prop :=
  ∀ memory addr (len : Word), (X.attach memory addr len).1 ≠ -1 → ∀ k < len.toNat,
    (X.attach memory addr len).2 ((X.attach memory addr len).1 + BitVec.ofNat 64 k) =
      some (addr.apid, addr.offset + BitVec.ofNat 64 k)

/-- `segments_` and `instances_`, and what the process has mapped. -/
structure Attacher where
  segments : Int → Option Int
  instances : Int → Option Int
  memory : Mapping
  attached : List (XpmemAddr × Word)

/-- `get_instance`. -/
def Xpmem.getInstance (X : Xpmem) (a : Attacher) (pe : Int) : Int × Attacher :=
  match a.segments pe with
  | none => (-1, a)
  | some segid =>
    match a.instances segid with
    | none => (X.get segid, { a with
        instances := Function.update a.instances segid (some (X.get segid)) })
    | some apid => (apid, a)

/-- `1 << 23`. -/
def attachAlign : Word := BitVec.twoPow 64 23

/-- `OPAL_DOWN_ALIGN_PTR(remote_ptr, attach_align, uintptr_t)`. -/
def attachBase (remotePtr : Word) : Word := maskDown attachAlign remotePtr

/-- `OPAL_ALIGN_PTR(remote_ptr + size - 1, attach_align, uintptr_t) + 1`. -/
def attachBound (remotePtr size : Word) : Word :=
  maskUp attachAlign (remotePtr + size - 1) + 1

/-- `translate_address`, where `mine` is `CmiMyNode()`. -/
def Xpmem.translateAddress (X : Xpmem) (mine : Int) (a : Attacher) (pe : Int)
    (remotePtr size : Word) : Option (Word × Attacher) :=
  if pe = mine then some (remotePtr, a)
  else
    let (apid, a) := X.getInstance a pe
    if apid < 0 then none
    else
      let base := attachBase remotePtr
      let bound := attachBound remotePtr size
      let addr : XpmemAddr := { apid, offset := base }
      let (ctx, memory) := X.attach a.memory addr (bound - base)
      if ctx = -1 then none
      else
        some (ctx + (remotePtr - base),
          { a with memory, attached := a.attached ++ [(addr, bound - base)] })

/-- `[base, bound)` starts at a multiple of 8 MiB, contains `[p, p + s)` and is not much
longer. -/
structure Window (p s base bound : Word) : Prop where
  multiple : 2 ^ 23 ∣ base.toNat
  first : base.toNat ≤ p.toNat
  last : p.toNat + s.toNat ≤ bound.toNat
  short : bound.toNat - base.toNat < s.toNat + 2 ^ 24

/-- The range is attached by a window around it, and if that does not fail, the result
points to its image. -/
def Xpmem.Translates (X : Xpmem) (mine : Int) (a : Attacher) (pe : Int) (p s : Word) :
    Prop :=
  ∃ base bound, Window p s base bound ∧
    let apid := (X.getInstance a pe).1
    let memory := (X.getInstance a pe).2.memory
    0 ≤ apid → (X.attach memory ⟨apid, base⟩ (bound - base)).1 ≠ -1 →
      ∃ ptr a', X.translateAddress mine a pe p s = some (ptr, a') ∧
        a'.attached = a.attached ++ [(⟨apid, base⟩, bound - base)] ∧
        ∀ j < s.toNat, a'.memory (ptr + BitVec.ofNat 64 j) =
          some (apid, p + BitVec.ofNat 64 j)

/-! ## The window -/

section Window

variable {p s : Word}

theorem toNat_attachBase (p : Word) : (attachBase p).toNat = roundDown (2 ^ 23) p.toNat :=
  toNat_maskDown (Nat.lt_of_sub_eq_succ rfl) p

/-- The last byte, where the range does not wrap. -/
theorem toNat_last (hs : 1 ≤ s.toNat) (h : p.toNat + s.toNat + 2 ^ 23 ≤ 2 ^ 64) :
    (p + s - 1).toNat = p.toNat + s.toNat - 1 := by
  bv_omega

theorem toNat_attachBound (hs : 1 ≤ s.toNat) (h : p.toNat + s.toNat + 2 ^ 23 ≤ 2 ^ 64) :
    (attachBound p s).toNat = roundUp (2 ^ 23) (p.toNat + s.toNat - 1) + 1 := by
  have hlast := toNat_last hs h
  have hup : (maskUp attachAlign (p + s - 1)).toNat =
      roundUp (2 ^ 23) (p.toNat + s.toNat - 1) := by
    rw [← hlast]
    exact toNat_maskUp (Nat.lt_of_sub_eq_succ rfl) _ (by rw [hlast]; omega)
  have hlt : roundUp (2 ^ 23) (p.toNat + s.toNat - 1) < p.toNat + s.toNat - 1 + 2 ^ 23 :=
    roundUp_lt (Nat.two_pow_pos 23)
  rw [attachBound, BitVec.toNat_add, hup]
  exact Nat.mod_eq_of_lt (by
    show _ + 1 < 2 ^ 64
    omega)

/-- **The window is as it should be.** -/
theorem window (hs : 1 ≤ s.toNat) (h : p.toNat + s.toNat + 2 ^ 23 ≤ 2 ^ 64) :
    Window p s (attachBase p) (attachBound p s) := by
  have hbase := toNat_attachBase p
  have hbound := toNat_attachBound hs h
  have hlow : p.toNat < roundDown (2 ^ 23) p.toNat + 2 ^ 23 :=
    lt_roundDown_add (Nat.two_pow_pos 23)
  have hle : roundDown (2 ^ 23) p.toNat ≤ p.toNat := roundDown_le
  have hge : p.toNat + s.toNat - 1 ≤ roundUp (2 ^ 23) (p.toNat + s.toNat - 1) :=
    le_roundUp (Nat.two_pow_pos 23)
  have hlt : roundUp (2 ^ 23) (p.toNat + s.toNat - 1) < p.toNat + s.toNat - 1 + 2 ^ 23 :=
    roundUp_lt (Nat.two_pow_pos 23)
  refine ⟨hbase ▸ dvd_roundDown, ?_, ?_, ?_⟩
  · rw [hbase]
    exact hle
  · rw [hbound]
    omega
  · rw [hbase, hbound]
    omega

/-- A byte of the range is in the window, and the pointer returned is as far from its
image as from the byte. -/
theorem Window.byte {base bound : Word} (h : Window p s base bound) {j : Nat}
    (hj : j < s.toNat) :
    ∃ k < (bound - base).toNat, (∀ ctx : Word,
      ctx + (p - base) + BitVec.ofNat 64 j = ctx + BitVec.ofNat 64 k) ∧
      base + BitVec.ofNat 64 k = p + BitVec.ofNat 64 j := by
  have hfirst := h.first
  have hlast := h.last
  have hlen : (bound - base).toNat = bound.toNat - base.toNat :=
    BitVec.toNat_sub_of_le (BitVec.le_def.mpr (by omega))
  have hoff : (p - base) + BitVec.ofNat 64 j =
      BitVec.ofNat 64 (p.toNat - base.toNat + j) := by
    bv_omega
  refine ⟨p.toNat - base.toNat + j, by omega, fun ctx => ?_, ?_⟩
  · rw [BitVec.add_assoc, hoff]
  · rw [← hoff, ← BitVec.add_assoc, BitVec.add_comm base, BitVec.sub_add_cancel]

end Window

/-! ## The translation -/

section Translate

variable {X : Xpmem} {mine pe : Int} {a : Attacher} {p s : Word}

theorem getInstance_attached (X : Xpmem) (a : Attacher) (pe : Int) :
    (X.getInstance a pe).2.attached = a.attached := by
  unfold Xpmem.getInstance
  split
  next => rfl
  next => split <;> rfl

/-- What a call returns that neither assertion ends. -/
theorem translateAddress_eq (hremote : pe ≠ mine) (hapid : 0 ≤ (X.getInstance a pe).1)
    {ctx : Word} {memory : Mapping}
    (hattach : X.attach (X.getInstance a pe).2.memory
      ⟨(X.getInstance a pe).1, attachBase p⟩ (attachBound p s - attachBase p) =
      (ctx, memory)) (hctx : ctx ≠ -1) :
    X.translateAddress mine a pe p s = some (ctx + (p - attachBase p),
      { (X.getInstance a pe).2 with
        memory := memory
        attached := a.attached ++ [(⟨(X.getInstance a pe).1, attachBase p⟩,
          attachBound p s - attachBase p)] }) := by
  rw [Xpmem.translateAddress, if_neg hremote]
  simp only [Int.not_lt.mpr hapid, if_false, hattach, if_neg hctx, getInstance_attached]

/-- A byte of the range is the image of its byte once the window is attached. -/
theorem attach_window (hmaps : X.Maps) (hs : 1 ≤ s.toNat)
    (h : p.toNat + s.toNat + 2 ^ 23 ≤ 2 ^ 64) {memory : Mapping} {apid : Int}
    (hctx : (X.attach memory ⟨apid, attachBase p⟩ (attachBound p s - attachBase p)).1 ≠
      -1)
    {j : Nat} (hj : j < s.toNat) :
    (X.attach memory ⟨apid, attachBase p⟩ (attachBound p s - attachBase p)).2
        ((X.attach memory ⟨apid, attachBase p⟩ (attachBound p s - attachBase p)).1 +
          (p - attachBase p) + BitVec.ofNat 64 j) =
      some (apid, p + BitVec.ofNat 64 j) := by
  obtain ⟨k, hk, hptr, hbyte⟩ := (window hs h).byte hj
  rw [hptr, ← hbyte]
  exact hmaps _ _ _ hctx k hk

/-- **Every byte of a remote range is the image of its byte.** -/
theorem translateAddress_spec (hmaps : X.Maps) (hremote : pe ≠ mine) (hs : 1 ≤ s.toNat)
    (h : p.toNat + s.toNat + 2 ^ 23 ≤ 2 ^ 64) : X.Translates mine a pe p s := by
  refine ⟨attachBase p, attachBound p s, window hs h, fun hapid hctx => ?_⟩
  exact ⟨_, _, translateAddress_eq hremote hapid rfl hctx, rfl, fun j hj =>
    attach_window hmaps hs h hctx hj⟩

end Translate

/-! ## One library -/

/-- Everything is attached at one place. -/
def fixedXpmem : Xpmem where
  get segid := segid + 4
  attach memory addr len := (0x7f0000000000, fun q =>
    if (q - 0x7f0000000000).toNat < len.toNat then
      some (addr.apid, addr.offset + (q - 0x7f0000000000))
    else memory q)

theorem fixedXpmem_maps : fixedXpmem.Maps := by
  intro memory addr len _ k hk
  have hoff : (0x7f0000000000 : Word) + BitVec.ofNat 64 k - 0x7f0000000000 =
      BitVec.ofNat 64 k := by
    rw [BitVec.add_comm, BitVec.add_sub_cancel]
  have hlt : (BitVec.ofNat 64 k).toNat < len.toNat := by
    rw [BitVec.toNat_ofNat, Nat.mod_eq_of_lt (Nat.lt_trans hk len.isLt)]
    exact hk
  show (if ((0x7f0000000000 : Word) + BitVec.ofNat 64 k - 0x7f0000000000).toNat < len.toNat then
    some (addr.apid, addr.offset + ((0x7f0000000000 : Word) +
      BitVec.ofNat 64 k - 0x7f0000000000))
    else _) = _
  rw [hoff, if_pos hlt]

/-- Process 1 made segment 3. -/
def oneSegment : Attacher :=
  ⟨fun pe => if pe = 1 then some 3 else none, fun _ => none, fun _ => none, []⟩

/-- Two bytes across a boundary of 8 MiB. -/
theorem translateAddress_across : fixedXpmem.Translates 0 oneSegment 1 0x17fffff 2 :=
  translateAddress_spec fixedXpmem_maps (by decide) (by decide) (by decide)

/-- They are there: the bytes attached before and after the boundary. -/
example : (fixedXpmem.translateAddress 0 oneSegment 1 0x17fffff 2).map (fun r =>
    (r.1, r.2.memory r.1, r.2.memory (r.1 + 1))) =
    some (0x7f00007fffff, some (7, 0x17fffff), some (7, 0x1800000)) := by decide

end CharmExperiments.Ipc
