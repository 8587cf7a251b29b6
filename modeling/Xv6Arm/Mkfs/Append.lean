import Mathlib.Data.List.GetD
import Xv6Arm.Mkfs.Image

/-!
# What iappend does

`iappend` takes an image of a volume to the image of the volume with more bytes in
one file, or it fails because the file or the image has no room for them.

The loop of `iappend` keeps the inode in a variable and writes it at the end.  Its
invariant speaks of the state in which the inode is written already.
-/

namespace Xv6Arm.Mkfs

open Bytes Fs Fallible

/-! ## Inodes in their sectors -/

/-- The state after `winode`. -/
def State.put (s : State) (i : Nat) (d : Dinode) : State :=
  wsect (i2b i) (paste (s.img (i2b i)) (i % IPB * 64) d) s

section Put

variable {s : State} {i j x : Nat} {d d' : Dinode}

theorem i2b_lt (hi : i < 216) : i2b i < 29 := by
  unfold i2b IPB
  omega

theorem le_i2b (i : Nat) : 2 ≤ i2b i := Nat.le_add_left 2 _

theorem put_img_ne (hx : x ≠ i2b i) : (s.put i d).img x = s.img x := Function.update_of_ne hx ..

theorem wsect_len {sec : Nat} {buf : Block} (h : sec < s.len) : (wsect sec buf s).len = s.len :=
  Nat.max_eq_left h

theorem put_len (hi : i < 216) (hlen : s.len = 1024) : (s.put i d).len = 1024 := by
  have hlt := i2b_lt hi
  rw [State.put, wsect_len (by omega), hlen]

theorem winode_run (hi : i < 216) (hlen : s.len = 1024) : winode i d s = .ok (s.put i d) := by
  have hlt := i2b_lt hi
  rw [winode, rsect, if_pos (by omega)]
  rfl

theorem rinode_run (hi : i < 216) (hlen : s.len = 1024) : rinode i s = .ok (dinode s.img i) := by
  have hlt := i2b_lt hi
  rw [rinode, rsect, if_pos (by omega)]
  rfl

theorem dinode_put_self : dinode (s.put i d).img i = d := by
  have hoff : i % IPB * 64 + 64 ≤ 512 := by
    unfold IPB
    omega
  show slice (Function.update s.img (i2b i) _ (i2b i)) _ _ = d
  rw [Function.update_self]
  exact slice_paste_self _ hoff

theorem dinode_put_ne (hj : j ≠ i) : dinode (s.put i d).img j = dinode s.img j := by
  by_cases hb : i2b j = i2b i
  · have hoff : j % IPB * 64 + 64 ≤ i % IPB * 64 ∨ i % IPB * 64 + 64 ≤ j % IPB * 64 := by
      unfold i2b IPB at *
      omega
    have hin : j % IPB * 64 + 64 ≤ 512 := by
      unfold IPB
      omega
    show slice (Function.update s.img (i2b i) _ (i2b j)) _ _ = slice (s.img (i2b j)) _ _
    rw [hb, Function.update_self]
    exact slice_paste_of_disjoint _ hin hoff
  · unfold dinode
    rw [put_img_ne (show IBLOCK j ≠ i2b i from hb)]

theorem put_dinode (hi : i < 216) (hlen : s.len = 1024) : s.put i (dinode s.img i) = s := by
  have hlt := i2b_lt hi
  have hsame : paste (s.img (i2b i)) (i % IPB * 64) (dinode s.img i) = s.img (i2b i) :=
    paste_slice ..
  have hmax : max s.len (i2b i + 1) = s.len := Nat.max_eq_left (by omega)
  rw [State.put, hsame]
  unfold wsect
  rw [Function.update_eq_self, hmax]

end Put

/-! ## The fields of an inode -/

section Fields

variable {d : Dinode} {k v : Nat}

theorem addr_setAddr_self (hk : k ≤ 12) (hv : v < 2 ^ 32) : Dinode.addr (setAddr d k v) k = v :=
  getLe_putLe_of_lt d (by omega) hv

theorem addr_setAddr_ne {j : Nat} (hj : j ≤ 12) (hne : j ≠ k) :
    Dinode.addr (setAddr d k v) j = Dinode.addr d j :=
  getLe_putLe_of_disjoint d (by omega) (by omega)

theorem size_setSize (hv : v < 2 ^ 32) : Dinode.size (setSize d v) = v :=
  getLe_putLe_of_lt d (by decide) hv

/-- Inodes that differ in their sizes only. -/
theorem Names.congr {f : File} {d' : Dinode} (h : Names f d)
    (hsame : ∀ off w, off + w ≤ 8 ∨ 12 ≤ off ∧ off + w ≤ 64 → getLe d' off w = getLe d off w) :
    Names f d' where
  type := (hsame 0 2 (by decide)).trans h.type
  major := (hsame 2 2 (by decide)).trans h.major
  minor := (hsame 4 2 (by decide)).trans h.minor
  nlink := (hsame 6 2 (by decide)).trans h.nlink
  addr k hk := (hsame (12 + 4 * k) 4 (by omega)).trans (h.addr k hk)
  ind := (hsame 60 4 (by decide)).trans h.ind

theorem names_setSize {f : File} : Names f (setSize d v) ↔ Names f d := by
  have hsame : ∀ off w, off + w ≤ 8 ∨ 12 ≤ off ∧ off + w ≤ 64 →
      getLe (setSize d v) off w = getLe d off w :=
    fun off w h => getLe_putLe_of_disjoint d (by omega) (by omega)
  exact ⟨fun h => h.congr fun off w hw => (hsame off w hw).symm, fun h => h.congr hsame⟩

/-- An assignment to `addrs` leaves the other fields. -/
theorem Names.setAddr {f g : File} (h : Names f d) (hk : k ≤ 12) (htype : g.type = f.type)
    (hnlink : g.nlink = f.nlink)
    (haddr : ∀ j, j < 12 → Dinode.addr (setAddr d k v) j = g.blocks.getD j 0)
    (hind : Dinode.addr (setAddr d k v) 12 = g.ind) : Names g (setAddr d k v) where
  type := by
    rw [htype, ← h.type]
    exact getLe_putLe_of_disjoint d (by omega) (by omega)
  major := by
    rw [← h.major]
    exact getLe_putLe_of_disjoint d (by omega) (by omega)
  minor := by
    rw [← h.minor]
    exact getLe_putLe_of_disjoint d (by omega) (by omega)
  nlink := by
    rw [hnlink, ← h.nlink]
    exact getLe_putLe_of_disjoint d (by omega) (by omega)
  addr := haddr
  ind := hind

end Fields

/-! ## The block of a round -/

/-- The state in a round of `iappend` for a file, when `n` is the first free block. -/
structure Round (f : File) (n : Nat) (din : Dinode) (s : State) : Prop where
  wf : f.Wf
  names : Names f din
  filled : Filled s.img f
  len : s.len = 1024
  freeblock : s.freeblock = n
  usedblocks : s.usedblocks = n
  zero : ∀ x, n ≤ x → s.img x = zeroBuf 512
  bounds : ∀ x ∈ f.refs, usedBefore ≤ x ∧ x < n
  low_le : usedBefore ≤ n
  le_top : n ≤ 1024

/-- `blockFor` found block `k` of the file `g`, after allocations that leave `m` as the first
free block. -/
structure Found (g : File) (m k x : Nat) (s : State) (din' : Dinode) (s' : State) : Prop where
  block : g.blocks[k]? = some x
  names : Names g din'
  len : s'.len = s.len
  freeblock : s'.freeblock = m
  usedblocks : s'.usedblocks = m
  freeinode : s'.freeinode = s.freeinode
  frame : ∀ y, (y = g.ind → y = 0) → s'.img y = s.img y
  ind : g.ind ≠ 0 → ∀ j, j < 128 → getLe (s'.img g.ind) (4 * j) 4 = g.blocks.getD (12 + j) 0

section BlockFor

variable {f : File} {n k : Nat} {din : Dinode} {s : State}

theorem Round.block_bounds (h : Round f n din s) {x : Nat} (hx : x ∈ f.blocks) : 29 ≤ x ∧ x < n :=
  h.bounds x (mem_refs.mpr (Or.inl hx))

theorem Round.ind_bounds (h : Round f n din s) (hne : f.ind ≠ 0) : 29 ≤ f.ind ∧ f.ind < n :=
  h.bounds f.ind (mem_refs.mpr (Or.inr ⟨rfl, hne⟩))

/-- The indirect block of a file that has one. -/
theorem Round.rsect_ind (h : Round f n din s) (hne : f.ind ≠ 0) :
    rsect (Dinode.addr din NDIRECT) s = .ok (s.img f.ind) := by
  have hb := h.ind_bounds hne
  have htop := h.le_top
  have haddr : Dinode.addr din NDIRECT = f.ind := h.names.ind
  rw [haddr, rsect, h.len, if_pos (by omega)]

/-- The block is there. -/
theorem Round.hit (h : Round f n din s) (hmod : ¬ f.data.length % 512 = 0)
    (hk : f.data.length / 512 = k) (hlt : k < 140) :
    ∃ x, blockFor din k s = .ok (x, din, s) ∧ Found f n k x s din s := by
  have hlen := h.wf.blocks_length
  have hkb : k < f.blocks.length := by omega
  have hget : f.blocks[k]? = some f.blocks[k] := List.getElem?_eq_getElem hkb
  have hgetD : f.blocks.getD k 0 = f.blocks[k] := by simp [List.getD, hget]
  have hb := h.block_bounds (List.getElem_mem hkb)
  refine ⟨f.blocks[k], ?_, hget, h.names, rfl, h.freeblock, h.usedblocks, rfl, fun _ _ => rfl,
    h.filled.ind⟩
  by_cases hdir : k < 12
  · have haddr : Dinode.addr din k = f.blocks[k] := (h.names.addr k hdir).trans hgetD
    rw [blockFor, if_pos (show k < NDIRECT from hdir), haddr, if_neg (by omega)]
  · have hind : f.ind ≠ 0 := h.wf.ind_ne_zero.mpr (by omega)
    have haddr : Dinode.addr din NDIRECT = f.ind := h.names.ind
    have hentry : getLe (s.img f.ind) (4 * (k - NDIRECT)) 4 = f.blocks[k] := by
      have hj := h.filled.ind hind (k - 12) (by omega)
      rwa [show 12 + (k - 12) = k by omega, hgetD] at hj
    have hrs := h.rsect_ind hind
    rw [blockFor, if_neg (show ¬ k < NDIRECT from hdir)]
    simp only [haddr, if_neg hind] at hrs ⊢
    rw [hrs, ok_bind, hentry, if_neg (by omega)]
    rfl

theorem getD_append_singleton (l : List Nat) (a j : Nat) :
    (l ++ [a]).getD j 0 = if j = l.length then a else l.getD j 0 := by
  rcases Nat.lt_trichotomy j l.length with hj | hj | hj
  · rw [if_neg (by omega), List.getD_append _ _ _ _ hj]
  · subst hj
    simp
  · rw [if_neg (by omega), List.getD_eq_default _ _ (by simpa using Nat.succ_le_of_lt hj),
      List.getD_eq_default _ _ (by omega)]

theorem Round.n_lt (h : Round f n din s) {c : Nat} (hc : c ≤ 1) : n + c < 2 ^ 32 := by
  have htop := h.le_top
  omega

/-- A block that the inode names is allocated. -/
theorem Round.direct (h : Round f n din s) (hk : f.blocks.length = k) (hdir : k < 12) :
    blockFor din k s = .ok (n, setAddr din k n, s.take) ∧
      Found { f with blocks := f.blocks ++ [n] } (n + 1) k n s (setAddr din k n) s.take := by
  have hn : n < 2 ^ 32 := h.n_lt (c := 0) (by decide)
  have hnew : Dinode.addr (setAddr din k n) k = n := addr_setAddr_self (by omega) hn
  have hind : f.ind = 0 := by
    by_contra hne
    exact absurd (h.wf.ind_ne_zero.mp hne) (by omega)
  constructor
  · have haddr : Dinode.addr din k = 0 := by
      rw [h.names.addr k hdir, List.getD_eq_default _ _ (by omega)]
    rw [blockFor, if_pos (show k < NDIRECT from hdir), haddr, if_pos rfl, h.freeblock]
    simp only [hnew]
  · refine ⟨?_, ?_, rfl, congrArg (· + 1) h.freeblock, congrArg (· + 1) h.usedblocks, rfl,
      fun _ _ => rfl, fun hne => absurd hind hne⟩
    · simp [← hk]
    · refine h.names.setAddr (by omega) rfl rfl ?_ ?_
      · intro j hj
        show _ = (f.blocks ++ [n]).getD j 0
        rw [getD_append_singleton, hk]
        by_cases hjk : j = k
        · rw [hjk, hnew, if_pos rfl]
        · rw [if_neg hjk, addr_setAddr_ne (by omega) hjk, h.names.addr j hj]
      · rw [addr_setAddr_ne (by omega) (by omega), h.names.ind]

/-- The inode has no indirect block before the first one is set. -/
theorem Round.addr_indirect (h : Round f n din s) (hk : f.blocks.length = 12) :
    Dinode.addr din NDIRECT = 0 ∧ Dinode.addr (setAddr din NDIRECT n) NDIRECT = n := by
  have hzero : f.ind = 0 := by
    by_contra hne
    exact absurd (h.wf.ind_ne_zero.mp hne) (by omega)
  exact ⟨h.names.ind.trans hzero,
    addr_setAddr_self (by decide) (h.n_lt (c := 0) (by decide))⟩

/-- The indirect block and the first block that it names are allocated. -/
theorem Round.firstIndirect (h : Round f n din s) (hk : f.blocks.length = 12) (hn : n < 1024) :
    ∃ s', blockFor din 12 s = .ok (n + 1, setAddr din 12 n, s') ∧
      Found { f with ind := n, blocks := f.blocks ++ [n + 1] } (n + 2) 12 (n + 1) s
        (setAddr din 12 n) s' := by
  obtain ⟨haddr, hnew⟩ := h.addr_indirect hk
  have hrs : rsect n s.take = .ok (zeroBuf 512) := by
    rw [rsect, ← h.zero n (Nat.le_refl n)]
    exact if_pos (h.len.symm ▸ hn)
  have hentry : getLe (putLe (zeroBuf 512) 0 4 (n + 1)) 0 4 = n + 1 :=
    getLe_putLe_of_lt _ (by decide) (h.n_lt (Nat.le_refl 1))
  refine ⟨wsect n (putLe (zeroBuf 512) 0 4 (n + 1)) s.take.take, ?_, ?_, ?_, ?_, ?_, ?_, rfl, ?_, ?_⟩
  · rw [blockFor, if_neg (by decide)]
    simp only [haddr, if_true, h.freeblock, hnew]
    rw [hrs, ok_bind]
    simp only [Nat.sub_self, Nat.mul_zero, NDIRECT, getLe_zeroBuf, if_true]
    show Except.ok (_, _, _) = _
    have hfree : s.take.freeblock = n + 1 := congrArg (· + 1) h.freeblock
    rw [hfree, hentry]
  · simp [← hk]
  · refine h.names.setAddr (by omega) rfl rfl ?_ hnew
    intro j hj
    show _ = (f.blocks ++ [n + 1]).getD j 0
    rw [getD_append_singleton, if_neg (by omega), addr_setAddr_ne (by omega) (by omega),
      h.names.addr j hj]
  · exact wsect_len (show n < s.len by rw [h.len]; exact hn)
  · exact congrArg (· + 2) h.freeblock
  · exact congrArg (· + 2) h.usedblocks
  · intro y hy
    have hne : y ≠ n := by
      intro he
      have hlow := h.low_le
      have hpos : 0 < usedBefore := by decide
      have hy0 := hy he
      omega
    exact Function.update_of_ne hne ..
  · intro _ j hj
    show getLe (Function.update s.img n _ n) (4 * j) 4 = (f.blocks ++ [n + 1]).getD (12 + j) 0
    rw [Function.update_self, getD_append_singleton, hk]
    by_cases hj0 : j = 0
    · subst hj0
      exact hentry
    · rw [if_neg (by omega), getLe_putLe_of_disjoint _ (by omega) (by omega), getLe_zeroBuf,
        List.getD_eq_default _ _ (by omega)]

/-- A block that the indirect block names is allocated. -/
theorem Round.indirect (h : Round f n din s) (hk : f.blocks.length = k) (hdir : 12 < k)
    (hlt : k < 140) :
    ∃ s', blockFor din k s = .ok (n, din, s') ∧
      Found { f with blocks := f.blocks ++ [n] } (n + 1) k n s din s' := by
  have hind : f.ind ≠ 0 := h.wf.ind_ne_zero.mpr (by omega)
  have haddr : Dinode.addr din NDIRECT = f.ind := h.names.ind
  have hb := h.ind_bounds hind
  have htop := h.le_top
  have hrs := h.rsect_ind hind
  have hold : getLe (s.img f.ind) (4 * (k - NDIRECT)) 4 = 0 := by
    have hj := h.filled.ind hind (k - 12) (by omega)
    rwa [List.getD_eq_default _ _ (by omega)] at hj
  have hentry : getLe (putLe (s.img f.ind) (4 * (k - NDIRECT)) 4 n) (4 * (k - NDIRECT)) 4 = n := by
    apply getLe_putLe_of_lt _ _ (h.n_lt (c := 0) (by decide))
    unfold NDIRECT
    omega
  refine ⟨wsect f.ind (putLe (s.img f.ind) (4 * (k - NDIRECT)) 4 n) s.take, ?_, ?_, ?_, ?_,
    congrArg (· + 1) h.freeblock, congrArg (· + 1) h.usedblocks, rfl, ?_, ?_⟩
  · rw [blockFor, if_neg (show ¬ k < NDIRECT from Nat.not_lt.mpr (Nat.le_of_lt hdir))]
    simp only [haddr, if_neg hind] at hrs ⊢
    rw [hrs, ok_bind, if_pos hold, h.freeblock]
    show Except.ok (_, _, _) = _
    rw [hentry]
  · simp [← hk]
  · refine ⟨h.names.type, h.names.major, h.names.minor, h.names.nlink, fun j hj => ?_, h.names.ind⟩
    show _ = (f.blocks ++ [n]).getD j 0
    rw [getD_append_singleton, if_neg (by omega), h.names.addr j hj]
  · exact wsect_len (show f.ind < s.len by rw [h.len]; omega)
  · intro y hy
    have hne : y ≠ f.ind := fun he => hind (he ▸ hy he)
    exact Function.update_of_ne hne ..
  · intro _ j hj
    show getLe (Function.update s.img f.ind _ f.ind) (4 * j) 4 = (f.blocks ++ [n]).getD (12 + j) 0
    rw [Function.update_self, getD_append_singleton, hk]
    by_cases hjk : 12 + j = k
    · obtain rfl : j = k - 12 := by omega
      rw [if_pos hjk]
      exact hentry
    · have hapart : 4 * j + 4 ≤ 4 * (k - NDIRECT) ∨ 4 * (k - NDIRECT) + 4 ≤ 4 * j := by
        unfold NDIRECT
        omega
      rw [if_neg hjk, getLe_putLe_of_disjoint _ (by omega) hapart, h.filled.ind hind j hj]

theorem Round.firstIndirect_full (h : Round f n din s) (hk : f.blocks.length = 12) (hn : n = 1024) :
    blockFor din 12 s = .error .exit := by
  obtain ⟨haddr, hnew⟩ := h.addr_indirect hk
  have hrs : rsect n s.take = .error .exit := if_neg (by
    show ¬ n < s.len
    rw [h.len]
    omega)
  rw [Mkfs.blockFor, if_neg (by decide)]
  simp only [haddr, if_true, h.freeblock, hnew]
  rw [hrs, error_bind]

theorem rsect_full {x : Nat} (hlen : s.len = 1024) (hx : 1024 ≤ x) : rsect x s = .error .exit :=
  if_neg (by omega)

/-- `blockFor` finds the block for the next byte of a file, unless the image is full. -/
theorem Round.blockFor (h : Round f n din s) (hk : f.data.length / 512 = k) (hlt : k < 140) :
    ((f.reserve n).2 ≤ 1024 ∧ ∃ x din' s', blockFor din k s = .ok (x, din', s') ∧
      Found (f.reserve n).1 (f.reserve n).2 k x s din' s') ∨
    (1024 < (f.reserve n).2 ∧ ∀ x din' s', Mkfs.blockFor din k s = .ok (x, din', s') →
      rsect x s' = .error .exit) := by
  have htop := h.le_top
  have hlen := h.wf.blocks_length
  unfold File.reserve
  split
  · next hmod =>
    have hkb : f.blocks.length = k := by omega
    unfold File.grow
    split
    · next hfirst =>
      obtain rfl : k = 12 := hkb.symm.trans hfirst
      rcases Nat.lt_or_ge n 1024 with hn | hn
      · obtain ⟨s', hrun, hfound⟩ := h.firstIndirect hkb hn
        rcases Nat.lt_or_ge n 1023 with hn' | hn'
        · exact Or.inl ⟨by simp only; omega, _, _, s', hrun, hfound⟩
        · refine Or.inr ⟨by simp only; omega, fun x din' s₁ hrun' => ?_⟩
          cases hrun.symm.trans hrun'
          exact rsect_full (hfound.len.trans h.len) (by omega)
      · refine Or.inr ⟨by simp only; omega, fun x din' s' hrun => ?_⟩
        rw [h.firstIndirect_full hkb (by omega)] at hrun
        cases hrun
    · next hother =>
      have hne : k ≠ 12 := fun he => hother (hkb.trans he)
      obtain ⟨din', s', hrun, hfound⟩ : ∃ din' s', Mkfs.blockFor din k s = .ok (n, din', s') ∧
          Found { f with blocks := f.blocks ++ [n] } (n + 1) k n s din' s' := by
        rcases Nat.lt_or_gt_of_ne hne with hdir | hdir
        · exact ⟨_, _, h.direct hkb hdir⟩
        · exact ⟨din, h.indirect hkb hdir hlt⟩
      rcases Nat.lt_or_ge n 1024 with hn | hn
      · exact Or.inl ⟨by simp only; omega, n, din', s', hrun, hfound⟩
      · refine Or.inr ⟨by simp only; omega, fun x din₁ s₁ hrun' => ?_⟩
        cases hrun.symm.trans hrun'
        exact rsect_full (hfound.len.trans h.len) hn
  · next hmod =>
    obtain ⟨x, hrun, hfound⟩ := h.hit hmod hk hlt
    exact Or.inl ⟨htop, x, din, s, hrun, hfound⟩

/-- What the blocks of a file hold when one is reserved: a new block holds zeros. -/
theorem Round.reserved (h : Round f n din s) {y : Nat}
    (hy : (f.reserve n).1.blocks[k]? = some y) {o : Nat} (ho : o < 512) :
    byteAt (s.img y) o = f.data.getD (512 * k + o) 0 := by
  rcases (reserve_blocks (n := n) h.wf).2 with hblocks | ⟨hmod, x, hx, hblocks⟩
  · rw [hblocks] at hy
    exact h.filled.data k y hy o ho
  · have hlen := h.wf.blocks_length
    rw [hblocks, List.getElem?_append] at hy
    split at hy
    · exact h.filled.data k y hy o ho
    · next hk =>
      rw [List.getElem?_singleton] at hy
      split at hy
      · next hk₀ =>
        obtain rfl := Option.some.inj hy
        rw [h.zero _ hx, byteAt_zeroBuf, List.getD_eq_default _ _ (by omega)]
      · cases hy

/-- The bytes of the block that a round writes. -/
theorem getD_blit {data q : List UInt8} {o : Nat} (hk : data.length / 512 = k) :
    (if data.length % 512 ≤ o then (q[o - data.length % 512]?).getD (data.getD (512 * k + o) 0)
      else data.getD (512 * k + o) 0) = (data ++ q).getD (512 * k + o) 0 := by
  split
  · next hle =>
    have hidx : 512 * k + o - data.length = o - data.length % 512 := by omega
    rw [List.getD_append_right _ _ _ _ (by omega), hidx,
      List.getD_eq_default data _ (by omega), List.getD_eq_getElem?_getD]
  · next hlt => rw [List.getD_append _ _ _ _ (by omega)]

/-- The blocks of a file after the write of a round. -/
theorem Found.filled (h : Round f n din s) (hnd : f.refs.Nodup) {x : Nat} {din' : Dinode} {s' : State}
    (hk : f.data.length / 512 = k) (hfound : Found (f.reserve n).1 (f.reserve n).2 k x s din' s')
    (q : List UInt8) :
    Filled (Function.update s'.img x (blit (s'.img x) (f.data.length % 512) q)) (f.extend n q).1 := by
  have hlow := h.low_le
  have hpos : 0 < usedBefore := by decide
  have hgrow := reserve_grows h.wf (n := n) (by omega)
  have hnd' := refs_nodup_iff.mp (hgrow.nodup hnd fun y hy => (h.bounds y hy).2)
  have hblocks := (reserve_blocks (n := n) h.wf).1
  have hind : ∀ y ∈ (f.reserve n).1.blocks, y = (f.reserve n).1.ind → y = 0 := by
    intro y hy he
    by_contra hne
    exact hnd'.2 (he ▸ hne) (he ▸ hy)
  constructor
  · intro k' y hy o ho
    have hy : (f.reserve n).1.blocks[k']? = some y := hy
    have hmem : y ∈ (f.reserve n).1.blocks := List.mem_of_getElem? hy
    have hold : byteAt (s'.img y) o = f.data.getD (512 * k' + o) 0 := by
      rw [hfound.frame y (hind y hmem)]
      exact h.reserved hy ho
    have hk' : k' ≤ k := by
      obtain ⟨hlt, -⟩ := List.getElem?_eq_some_iff.mp hy
      omega
    rw [extend_data]
    by_cases hyx : y = x
    · have hkk : k' = k :=
        (List.getElem?_inj (by omega) hnd'.1).mp (hy.trans (hyx ▸ hfound.block.symm))
      rw [hyx, Function.update_self, byteAt_blit _ ho, ← hyx, hold, hkk]
      exact getD_blit hk
    · have hne : k' ≠ k := by
        rintro rfl
        exact hyx (Option.some.inj (hy.symm.trans hfound.block))
      rw [Function.update_of_ne hyx, hold, List.getD_append _ _ _ _ (by omega)]
  · intro hne j hj
    have hne : (f.reserve n).1.ind ≠ 0 := hne
    have hmem : x ∈ (f.reserve n).1.blocks := List.mem_of_getElem? hfound.block
    have hix : (f.reserve n).1.ind ≠ x := fun he => hnd'.2 hne (he ▸ hmem)
    show getLe (Function.update s'.img x _ (f.reserve n).1.ind) (4 * j) 4 = _
    rw [Function.update_of_ne hix]
    exact hfound.ind hne j hj

end BlockFor

/-! ## A round -/

theorem Filled.congr {img img' : Image} {f : File} (h : Filled img f)
    (hsame : ∀ x ∈ f.refs, img' x = img x) : Filled img' f where
  data k x hx o ho := by
    rw [hsame x (mem_refs.mpr (Or.inl (List.mem_of_getElem? hx)))]
    exact h.data k x hx o ho
  ind hne j hj := by
    rw [hsame f.ind (mem_refs.mpr (Or.inr ⟨rfl, hne⟩))]
    exact h.ind hne j hj

section Round

variable {s t t' : State} {v : Volume} {i : Nat}

/-- A change of one file, which writes its inode and its blocks only. -/
theorem Drafts.set (h : Drafts t v) (hwf : v.Wf usedBefore) {g : File} {m : Nat}
    (hgrow : Grows (v.file i) v.free g m) (hlen : t'.len = 1024) (hfree : t'.freeblock = m)
    (hused : t'.usedblocks = m) (hnext : t'.freeinode = t.freeinode)
    (hframe : ∀ x, x ∉ g.refs → x < 2 ∨ 29 ≤ x → t'.img x = t.img x)
    (hother : ∀ j, j < 216 → j ≠ i → dinode t'.img j = dinode t.img j)
    (hstores : Stores g (dinode t'.img i)) (hfilled : Filled t'.img g) :
    Drafts t' (v.set i (g, m)) := by
  have hlow : ∀ x ∈ g.refs, 29 ≤ x := by
    intro x hx
    have hle : 29 ≤ v.free := hwf.low_le
    rcases (hgrow.mem_refs x).mp hx with hx | hx
    · exact (hwf.ref_bounds i x hx).1
    · omega
  have hlow' : ∀ x, x < 29 → x ∉ g.refs := fun x hx hm => absurd (hlow x hm) (by omega)
  have hself : (v.set i (g, m)).file i = g := Function.update_self ..
  have hne : ∀ j, j ≠ i → (v.set i (g, m)).file j = v.file j := fun j hj => Function.update_of_ne hj ..
  refine ⟨hlen, hfree, hused, hnext.trans h.freeinode, ?_, ?_, ?_, ?_, ?_⟩
  · rw [hframe 0 (hlow' 0 (by decide)) (by decide), h.boot]
  · rw [hframe 1 (hlow' 1 (by decide)) (by decide), h.super]
  · intro j hj
    by_cases hji : j = i
    · rw [hji, hself]
      exact hstores
    · rw [hne j hji, hother j hj hji]
      exact h.inode j hj
  · intro j hj
    by_cases hji : j = i
    · rw [hji, hself]
      exact hfilled
    · rw [hne j hji]
      apply (h.filled j hj).congr
      intro x hx
      have hb := hwf.ref_bounds j x hx
      have hb' : 29 ≤ x := hb.1
      apply hframe x _ (by omega)
      intro hg
      rcases (hgrow.mem_refs x).mp hg with hg | hg
      · exact hji (hwf.ref_inj j i x hx hg)
      · omega
  · intro x hx
    have hx : m ≤ x := hx
    have hle := hgrow.le
    have hle' : 29 ≤ v.free := hwf.low_le
    have hnot : x ∉ g.refs := by
      intro hg
      rcases (hgrow.mem_refs x).mp hg with hg | hg
      · have hb := hwf.ref_bounds i x hg
        omega
      · omega
    rw [hframe x hnot (by omega), h.free x (by omega)]

/-- The state of a round, from the state in which the inode is written. -/
theorem Drafts.round {din : Dinode} {off : Nat} (h : Drafts (s.put i (setSize din off)) v)
    (hwf : v.Wf usedBefore) (hi : i < 216) (hfree : v.free ≤ 1024) :
    Round (v.file i) v.free din s := by
  have hlt := i2b_lt hi
  have hlow : 29 ≤ v.free := hwf.low_le
  have himg : ∀ x, 29 ≤ x → (s.put i (setSize din off)).img x = s.img x :=
    fun x hx => put_img_ne (by omega)
  have hstores := h.inode i hi
  rw [dinode_put_self] at hstores
  refine ⟨hwf.file_wf i, names_setSize.mp hstores.toNames, ?_, ?_, h.freeblock, h.usedblocks, ?_,
    hwf.ref_bounds i, hwf.low_le, hfree⟩
  · apply (h.filled i hi).congr
    intro x hx
    have hb : 29 ≤ x := (hwf.ref_bounds i x hx).1
    rw [himg x (by omega)]
  · have hlen : max s.len (i2b i + 1) = 1024 := h.len
    omega
  · intro x hx
    rw [← himg x (by omega)]
    exact h.free x hx

/-- A round that finds its block writes bytes into it. -/
theorem Drafts.write {din din' : Dinode} {off k x : Nat} {s' : State}
    (h : Drafts (s.put i (setSize din off)) v) (hwf : v.Wf usedBefore) (hi : i < 216)
    (hfree : v.free ≤ 1024) (hoff : (v.file i).data.length = off) (hk : off / 512 = k)
    (hfound : Found ((v.file i).reserve v.free).1 ((v.file i).reserve v.free).2 k x s din' s')
    (hx : x < 1024) (q : List UInt8) (hsize : off + q.length < 2 ^ 32) :
    Drafts ((wsect x (blit (s'.img x) (off % 512) q) s').put i (setSize din' (off + q.length)))
      (v.set i ((v.file i).extend v.free q)) := by
  have hround := h.round hwf hi hfree
  have hlt := i2b_lt hi
  have hlow : 29 ≤ v.free := hwf.low_le
  have hgrow := extend_grows (hwf.file_wf i) hwf.free_pos q
  have hblock : x ∈ ((v.file i).extend v.free q).1.refs :=
    mem_refs.mpr (Or.inl (List.mem_of_getElem? hfound.block))
  have hlow' : ∀ y ∈ ((v.file i).extend v.free q).1.refs, 29 ≤ y := by
    intro y hy
    rcases (hgrow.mem_refs y).mp hy with hy | hy
    · exact (hwf.ref_bounds i y hy).1
    · omega
  have hlen : (wsect x (blit (s'.img x) (off % 512) q) s').len = 1024 := by
    rw [wsect_len (by rw [hfound.len, hround.len]; exact hx), hfound.len, hround.len]
  have himg : ∀ y, y ∉ ((v.file i).extend v.free q).1.refs →
      (wsect x (blit (s'.img x) (off % 512) q) s').img y = s.img y := by
    intro y hy
    have hyx : y ≠ x := fun he => hy (he ▸ hblock)
    show Function.update s'.img x _ y = _
    rw [Function.update_of_ne hyx]
    apply hfound.frame
    intro he
    by_contra hne
    exact hy (mem_refs.mpr (Or.inr ⟨he, hne⟩))
  refine h.set hwf hgrow (put_len hi hlen) hfound.freeblock hfound.usedblocks hfound.freeinode ?_ ?_
    ?_ ?_
  · intro y hy hrange
    have hge := le_i2b i
    rw [put_img_ne (by omega), put_img_ne (by omega), himg y hy]
  · intro j hj hji
    have hjb := i2b_lt hj
    rw [dinode_put_ne hji, dinode_put_ne hji]
    unfold dinode
    rw [himg (IBLOCK j) fun hm => absurd (hlow' _ hm) (by have : IBLOCK j = i2b j := rfl; omega)]
  · rw [dinode_put_self]
    refine ⟨names_setSize.mpr ?_, ?_⟩
    · obtain ⟨h₁, h₂, h₃, h₄, h₅, h₆⟩ := hfound.names
      exact ⟨h₁, h₂, h₃, h₄, h₅, h₆⟩
    · show _ = ((v.file i).data ++ q).length
      rw [size_setSize hsize, List.length_append, hoff]
  · have hfilled := Found.filled hround (hwf.ref_nodup i) (hoff ▸ hk) hfound q
    rw [hoff] at hfilled
    apply hfilled.congr
    intro y hy
    have hb := hlow' y hy
    rw [put_img_ne (by omega)]
    rfl

end Round

/-! ## The loop -/

/-- The image has room for the blocks of a volume, and a file is not too large. -/
def Room (v : Volume) (i : Nat) : Prop := v.free ≤ 1024 ∧ (v.file i).data.length ≤ MAXFILE * 512

section Loop

variable {i : Nat}

theorem append_file (v : Volume) (p : List UInt8) :
    (v.append i p).file i = ((v.file i).append v.free p).1 := Function.update_self ..

/-- A volume with fewer bytes needs less room. -/
theorem Room.of_append {v : Volume} {p : List UInt8} (hwf : v.Wf usedBefore)
    (h : Room (v.append i p) i) : Room v i := by
  obtain ⟨-, hgrow, hdata, -⟩ := append_spec p (hwf.file_wf i) hwf.free_pos
  obtain ⟨hfree, hlen⟩ := h
  rw [append_file, hdata, List.length_append] at hlen
  exact ⟨Nat.le_trans hgrow.le hfree, by omega⟩

/-- The number of bytes that a round of the loop writes. -/
def piece (off : Nat) (p : List UInt8) : Nat := min p.length ((off / 512 + 1) * 512 - off)

/-- A round of the loop that finds its block. -/
theorem appendLoop_found {din din' : Dinode} {off x : Nat} {p : List UInt8} {s s' : State}
    (hp : p ≠ []) (hmax : off / 512 < MAXFILE)
    (hrun : blockFor din (off / 512) s = .ok (x, din', s')) :
    appendLoop din off p s = (rsect x s' >>= fun buf =>
      appendLoop din' (off + piece off p) (p.drop (piece off p))
        (wsect x (blit buf (off % 512) (p.take (piece off p))) s')) := by
  obtain ⟨b, q, rfl⟩ := List.exists_cons_of_ne_nil hp
  have hoff : off - off / 512 * 512 = off % 512 := by omega
  rw [appendLoop, if_neg (Nat.not_le.mpr hmax), hrun, ok_bind]
  simp only [hoff, piece, List.length_cons]

section Piece

variable {v : Volume} {off : Nat} {p : List UInt8}

theorem length_take_piece : (p.take (piece off p)).length = piece off p := by
  rw [List.length_take, piece]
  omega

theorem piece_pos (hp : p ≠ []) : 0 < piece off p := by
  have hlen := List.length_pos_of_ne_nil hp
  rw [piece]
  omega

/-- The bytes of a round go into one block. -/
theorem append_piece (hoff : (v.file i).data.length = off) (hp : p ≠ []) :
    v.append i (p.take (piece off p)) =
      v.set i ((v.file i).extend v.free (p.take (piece off p))) := by
  have hlen : (p.take (piece off p)).length = piece off p := length_take_piece
  have hpos : 0 < piece off p := piece_pos hp
  have hle : piece off p ≤ (off / 512 + 1) * 512 - off := Nat.min_le_right _ _
  rw [Volume.append, append_eq_extend (List.ne_nil_of_length_pos (by omega)) (by omega)]

theorem length_append_piece (hoff : (v.file i).data.length = off) (hp : p ≠ []) :
    ((v.append i (p.take (piece off p))).file i).data.length = off + piece off p := by
  rw [append_piece hoff hp]
  show (Function.update v.file i _ i).data.length = _
  rw [Function.update_self, extend_data, List.length_append, hoff, length_take_piece]

end Piece

/-- The block of a round that finds one is in the image. -/
theorem Found.block_lt {v : Volume} {s s' : State} {din' : Dinode} {k x : Nat}
    (hwf : v.Wf usedBefore) (hfree : ((v.file i).reserve v.free).2 ≤ 1024)
    (hfound : Found ((v.file i).reserve v.free).1 ((v.file i).reserve v.free).2 k x s din' s') :
    x < 1024 := by
  have hmem : x ∈ ((v.file i).reserve v.free).1.refs :=
    mem_refs.mpr (Or.inl (List.mem_of_getElem? hfound.block))
  have hgrow := reserve_grows (hwf.file_wf i) hwf.free_pos
  have hle := hgrow.le
  rcases (hgrow.mem_refs x).mp hmem with hx | hx
  · have hb := hwf.ref_bounds i x hx
    omega
  · omega

/-- A round of the loop of `iappend` adds its bytes to the file, or it fails because there
is no block left. -/
theorem appendLoop_round {p : List UInt8} {v : Volume} {din : Dinode} {off : Nat} {s : State}
    (hp : p ≠ []) (hmax : off / 512 < MAXFILE) (hwf : v.Wf usedBefore) (hi : i < 216)
    (hoff : (v.file i).data.length = off) (hfree : v.free ≤ 1024)
    (h : Drafts (s.put i (setSize din off)) v) :
    ((v.append i (p.take (piece off p))).free ≤ 1024 ∧ ∃ din' s',
      appendLoop din off p s = appendLoop din' (off + piece off p) (p.drop (piece off p)) s' ∧
      Drafts (s'.put i (setSize din' (off + piece off p)))
        (v.append i (p.take (piece off p)))) ∨
    (1024 < (v.append i (p.take (piece off p))).free ∧ ∃ e, appendLoop din off p s = .error e) := by
  have hmax' : off / 512 < 140 := hmax
  have hround := h.round hwf hi hfree
  have hsize : off + (p.take (piece off p)).length < 2 ^ 32 := by
    rw [length_take_piece, piece]
    omega
  rw [append_piece hoff hp]
  rcases hround.blockFor (by rw [hoff]) hmax' with ⟨hm, x, din', s', hrun, hfound⟩ | ⟨hm, hfail⟩
  · have hx := hfound.block_lt hwf hm
    have hread : rsect x s' = .ok (s'.img x) := by
      rw [rsect, hfound.len, hround.len, if_pos hx]
    have hnew := h.write hwf hi hfree hoff rfl hfound hx (p.take (piece off p)) hsize
    rw [length_take_piece] at hnew
    refine Or.inl ⟨hm, din', _, ?_, hnew⟩
    rw [appendLoop_found hp hmax hrun, hread, ok_bind]
  · refine Or.inr ⟨hm, ?_⟩
    cases hrun : blockFor din (off / 512) s with
    | error e =>
        obtain ⟨b, q, rfl⟩ := List.exists_cons_of_ne_nil hp
        exact ⟨e, by rw [appendLoop, if_neg (Nat.not_le.mpr hmax), hrun, error_bind]⟩
    | ok r => exact ⟨.exit, by rw [appendLoop_found hp hmax hrun, hfail _ _ _ hrun, error_bind]⟩

/-- The loop of `iappend` adds its bytes to the file, or it fails because there is no room. -/
theorem appendLoop_run (hi : 0 < i) : ∀ {p : List UInt8} {v : Volume} {din : Dinode} {off : Nat}
    {s : State}, v.Wf usedBefore → i < v.next → v.next ≤ 216 → (v.file i).data.length = off →
    Room v i → Drafts (s.put i (setSize din off)) v →
    (Room (v.append i p) i ∧ ∃ din' s', appendLoop din off p s = .ok (din', off + p.length, s') ∧
      Drafts (s'.put i (setSize din' (off + p.length))) (v.append i p)) ∨
    (¬ Room (v.append i p) i ∧ ∃ e, appendLoop din off p s = .error e) := by
  intro p
  induction hp : p.length using Nat.strong_induction_on generalizing p with
  | _ len ih =>
    intro v din off s hwf hnext htop hoff hroom h
    subst hp
    rcases eq_or_ne p [] with rfl | hp
    · rw [Volume.append_nil, appendLoop]
      exact Or.inl ⟨hroom, din, s, rfl, h⟩
    rcases Nat.lt_or_ge (off / 512) MAXFILE with hmax | hmax
    · have happ : v.append i p =
          (v.append i (p.take (piece off p))).append i (p.drop (piece off p)) := by
        rw [← Volume.append_append, List.take_append_drop]
      have hwf' := hwf.append hi hnext (p.take (piece off p))
      rw [happ]
      rcases appendLoop_round hp hmax hwf (by omega) hoff hroom.1 h with
        ⟨hfree, din', s', hrun, hnew⟩ | ⟨hfree, hfail⟩
      · have hpos : 0 < piece off p := piece_pos hp
        have hle : piece off p ≤ p.length := Nat.min_le_left _ _
        have hdata := length_append_piece (i := i) hoff hp
        have hroom' : Room (v.append i (p.take (piece off p))) i := by
          refine ⟨hfree, ?_⟩
          rw [hdata, piece]
          unfold MAXFILE at hmax ⊢
          omega
        have hrest : (p.drop (piece off p)).length < p.length := by
          rw [List.length_drop]
          omega
        have hsum : off + piece off p + (p.drop (piece off p)).length = off + p.length := by
          rw [List.length_drop]
          omega
        have hih := ih _ hrest rfl hwf' hnext htop hdata hroom' hnew
        rwa [hsum, ← hrun] at hih
      · exact Or.inr ⟨fun hroom' => absurd (hroom'.of_append hwf').1 (Nat.not_le.mpr hfree), hfail⟩
    · refine Or.inr ⟨fun hroom' => ?_, .assert, ?_⟩
      · have hlen := hroom'.2
        have hpos := List.length_pos_of_ne_nil hp
        obtain ⟨-, -, hdata, -⟩ := append_spec p (hwf.file_wf i) hwf.free_pos
        rw [append_file, hdata, List.length_append, hoff] at hlen
        omega
      · obtain ⟨b, q, rfl⟩ := List.exists_cons_of_ne_nil hp
        rw [appendLoop, if_pos hmax]

end Loop

/-! ## iappend -/

/-- The image has room for a volume, and no file is too large. -/
structure Fits (v : Volume) : Prop where
  free_le : v.free ≤ 1024
  data_le : ∀ i, (v.file i).data.length ≤ MAXFILE * 512

section Iappend

variable {v : Volume} {s : State} {i : Nat} {p : List UInt8}

theorem Fits.of_append (hwf : v.Wf usedBefore) (h : Fits (v.append i p)) : Fits v := by
  obtain ⟨hfree, hlen⟩ := Room.of_append hwf (p := p) (i := i) ⟨h.free_le, h.data_le i⟩
  refine ⟨hfree, fun j => ?_⟩
  by_cases hj : j = i
  · exact hj ▸ hlen
  · have hsame : (v.append i p).file j = v.file j := Function.update_of_ne hj ..
    exact hsame ▸ h.data_le j

theorem Fits.append (h : Fits v) (hroom : Room (v.append i p) i) : Fits (v.append i p) := by
  refine ⟨hroom.1, fun j => ?_⟩
  by_cases hj : j = i
  · exact hj ▸ hroom.2
  · have hsame : (v.append i p).file j = v.file j := Function.update_of_ne hj ..
    exact hsame ▸ h.data_le j

/-- A computation makes the image of a volume, or it fails because there is no room. -/
def Yields (x : Except Failure State) (v : Volume) : Prop :=
  (Fits v ∧ ∃ s, x = .ok s ∧ Drafts s v) ∨ (¬ Fits v ∧ ∃ e, x = .error e)

theorem Yields.bind {x : Except Failure State} {g : State → Except Failure State} {w : Volume}
    (h : Yields x v) (hmono : Fits w → Fits v)
    (hg : ∀ s, Drafts s v → Fits v → Yields (g s) w) : Yields (x >>= g) w := by
  rcases h with ⟨hfits, s, rfl, hs⟩ | ⟨hfits, e, rfl⟩
  · exact hg s hs hfits
  · exact Or.inr ⟨fun hw => hfits (hmono hw), e, rfl⟩

/-- `iappend` adds its bytes to the file. -/
theorem iappend_run (h : Drafts s v) (hwf : v.Wf usedBefore) (hi : 0 < i) (hnext : i < v.next)
    (htop : v.next ≤ 216) (hfits : Fits v) (p : List UInt8) :
    Yields (iappend i p s) (v.append i p) := by
  have hin : i < 216 := by omega
  have hsize : Dinode.size (dinode s.img i) = (v.file i).data.length := (h.inode i hin).size
  have hput : s.put i (setSize (dinode s.img i) (v.file i).data.length) = s := by
    have hsame : setSize (dinode s.img i) (v.file i).data.length = dinode s.img i := by
      rw [← hsize]
      exact putLe_getLe ..
    rw [hsame, put_dinode hin h.len]
  rcases appendLoop_run hi (p := p) hwf hnext htop rfl ⟨hfits.free_le, hfits.data_le i⟩
      (hput.symm ▸ h) with ⟨hroom, din', s', hrun, hrep⟩ | ⟨hroom, e, hrun⟩
  · refine Or.inl ⟨hfits.append hroom, _, ?_, hrep⟩
    have hlen : max s'.len (i2b i + 1) = 1024 := hrep.len
    have hlt := i2b_lt hin
    rw [iappend, rinode_run hin h.len, ok_bind, hsize, hrun, ok_bind]
    exact winode_run hin (by omega)
  · refine Or.inr ⟨fun hf => hroom ⟨hf.free_le, hf.data_le i⟩, e, ?_⟩
    rw [iappend, rinode_run hin h.len, ok_bind, hsize, hrun, error_bind]

/-- `iappend` of one chunk after the other adds all their bytes. -/
theorem chunks_run (hi : 0 < i) : ∀ {cs : List (List UInt8)} {v : Volume} {s : State},
    Drafts s v → v.Wf usedBefore → i < v.next → v.next ≤ 216 → Fits v →
    Yields (cs.foldlM (fun s buf => iappend i buf s) s) (v.append i cs.flatten)
  | [], v, s, h, _, _, _, hfits => by
      rw [List.flatten_nil, Volume.append_nil]
      exact Or.inl ⟨hfits, s, rfl, h⟩
  | c :: cs, v, s, h, hwf, hnext, htop, hfits => by
      have hwf' := hwf.append hi hnext c
      rw [List.foldlM_cons, List.flatten_cons, Volume.append_append]
      exact (iappend_run h hwf hi hnext htop hfits c).bind (fun hf => hf.of_append hwf')
        fun s' hs' hfits' => chunks_run hi hs' hwf' hnext htop hfits'

end Iappend

end Xv6Arm.Mkfs
