import Xv6Arm.Blocks.Files

/-!
# Inodes on the disk

`iupdate` writes an inode to the disk so that `ilock` reads the same inode back
(`inodeAt_setInode`), and leaves the other inodes.  With it `writei` and `readi`
do to a file what `writeAt` and `readAt` do to its bytes (`writei_ends`,
`readi_run`), and the inode on the disk is that in memory when they return.
`itrunc` gives all blocks of the file back and never frees a free block
(`itrunc_returns`).
-/

namespace Xv6Arm.Blocks

open Bytes Fs Mkfs Fallible Splice

variable {Z : Zone} {v w : Vol} {disk : Image} {f g : File}
  {ip : Inode} {i j x : Nat}

/-! ## The inode in its block -/

/-- The inode has the values that its fields can hold. -/
structure Inode.Fits (ip : Inode) : Prop where
  type : ip.type < 256 ^ 2
  major : ip.major < 256 ^ 2
  minor : ip.minor < 256 ^ 2
  nlink : ip.nlink < 256 ^ 2
  size : ip.size < 256 ^ 4
  addrs : ∀ k, ip.addrs k < 256 ^ 4
  rest : ∀ k, NDIRECT < k → ip.addrs k = 0

theorem load_fits (i : Nat) (d : Dinode) : (Inode.load i d).Fits where
  type := getLe_lt ..
  major := getLe_lt ..
  minor := getLe_lt ..
  nlink := getLe_lt ..
  size := getLe_lt ..
  addrs _ := getLe_lt ..
  rest k hk := by
    have hk : 12 < k := hk
    rw [← getLe_zeroBuf (N := 64) (12 + 4 * k) 4]
    refine getLe_congr fun o hlow _ => ?_
    rw [byteAt_zeroBuf, byteAt, dif_neg (by omega)]

/-- The fields before `addrs` are not written with it. -/
theorem getLe_memmove (a : Nat → Nat) (d : Dinode) {off c n : Nat} (h : off + c ≤ 12) :
    getLe ((List.range n).foldl (fun d k => putLe d (12 + 4 * k) 4 (a k)) d) off c =
      getLe d off c := by
  induction n with
  | zero => rfl
  | succ n ih =>
    rw [List.range_succ, List.foldl_append]
    show getLe (putLe _ (12 + 4 * n) 4 (a n)) off c = _
    rw [getLe_putLe_of_disjoint _ (by omega) (by omega), ih]

theorem addr_memmove (a : Nat → Nat) (d : Dinode) {n k : Nat} (hn : n ≤ 13) (hk : k < 13)
    (ha : a k < 256 ^ 4) :
    Dinode.addr ((List.range n).foldl (fun d k => putLe d (12 + 4 * k) 4 (a k)) d) k =
      if k < n then a k else Dinode.addr d k := by
  induction n with
  | zero => rfl
  | succ n ih =>
    rw [List.range_succ, List.foldl_append]
    show getLe (putLe _ (12 + 4 * n) 4 (a n)) (12 + 4 * k) 4 = _
    by_cases heq : k = n
    · subst heq
      rw [getLe_putLe_of_lt _ (by omega) ha, if_pos (Nat.lt_succ_self k)]
    · rw [getLe_putLe_of_disjoint _ (by omega) (by omega)]
      refine (ih (by omega)).trans ?_
      by_cases hlt : k < n
      · rw [if_pos hlt, if_pos (by omega)]
      · rw [if_neg hlt, if_neg (by omega)]

/-- What `iupdate` writes reads back. -/
theorem load_store (h : ip.Fits) (d : Dinode) : Inode.load ip.inum (ip.store d) = ip := by
  have hfields : ∀ {off c}, off + c ≤ 12 → getLe (ip.store d) off c = getLe
      (putLe (putLe (putLe (putLe (putLe d 0 2 ip.type) 2 2 ip.major) 4 2 ip.minor) 6 2 ip.nlink)
        8 4 ip.size) off c := fun hoff => getLe_memmove _ _ hoff
  have htype : Dinode.type (ip.store d) = ip.type := by
    rw [Dinode.type, hfields (by omega)]
    iterate 4 rw [getLe_putLe_of_disjoint _ (by omega) (by omega)]
    exact getLe_putLe_of_lt _ (by omega) h.type
  have hmajor : Dinode.major (ip.store d) = ip.major := by
    rw [Dinode.major, hfields (by omega)]
    iterate 3 rw [getLe_putLe_of_disjoint _ (by omega) (by omega)]
    exact getLe_putLe_of_lt _ (by omega) h.major
  have hminor : Dinode.minor (ip.store d) = ip.minor := by
    rw [Dinode.minor, hfields (by omega)]
    iterate 2 rw [getLe_putLe_of_disjoint _ (by omega) (by omega)]
    exact getLe_putLe_of_lt _ (by omega) h.minor
  have hnlink : Dinode.nlink (ip.store d) = ip.nlink := by
    rw [Dinode.nlink, hfields (by omega), getLe_putLe_of_disjoint _ (by omega) (by omega)]
    exact getLe_putLe_of_lt _ (by omega) h.nlink
  have hsize : Dinode.size (ip.store d) = ip.size := by
    rw [Dinode.size, hfields (by omega)]
    exact getLe_putLe_of_lt _ (by omega) h.size
  have haddrs : Dinode.addr (ip.store d) = ip.addrs := by
    funext k
    rcases Nat.lt_or_ge k 13 with hk | hk
    · exact (addr_memmove _ _ (Nat.le_refl 13) hk (h.addrs k)).trans (if_pos hk)
    · rw [h.rest k hk]
      exact (load_fits 0 (ip.store d)).rest k hk
  rw [Inode.load, htype, hmajor, hminor, hnlink, hsize, haddrs]

/-- The inode `i` as `ilock` reads it. -/
def inodeAt (disk : Image) (i : Nat) : Inode := Inode.load i (dinode disk i)

/-- The blocks after a `struct dinode` was written. -/
def Vol.putDinode (i : Nat) (d : Dinode) (v : Vol) : Vol :=
  v.write (IBLOCK i) (paste (v.disk (IBLOCK i)) (i % IPB * 64) d)

theorem dinode_putDinode_self {d : Dinode} : dinode (v.putDinode i d).disk i = d := by
  have hoff : i % IPB * 64 + 64 ≤ 512 := by
    unfold IPB
    omega
  show slice (Function.update v.disk (IBLOCK i) _ (IBLOCK i)) _ _ = _
  rw [Function.update_self]
  exact slice_paste_self _ hoff

theorem dinode_putDinode_ne {d : Dinode} (hj : j ≠ i) :
    dinode (v.putDinode i d).disk j = dinode v.disk j := by
  by_cases hb : IBLOCK j = IBLOCK i
  · have hoff : j % IPB * 64 + 64 ≤ i % IPB * 64 ∨ i % IPB * 64 + 64 ≤ j % IPB * 64 := by
      unfold IBLOCK IPB at *
      omega
    have hin : j % IPB * 64 + 64 ≤ 512 := by
      unfold IPB
      omega
    show slice (Function.update v.disk (IBLOCK i) _ (IBLOCK j)) _ _ = slice (v.disk (IBLOCK j)) _ _
    rw [hb, Function.update_self]
    exact slice_paste_of_disjoint _ hin hoff
  · show slice (Function.update v.disk (IBLOCK i) _ (IBLOCK j)) _ _ = _
    rw [Function.update_of_ne hb]
    rfl

/-- The blocks after `iupdate`. -/
def Vol.setInode (ip : Inode) (v : Vol) : Vol :=
  v.putDinode ip.inum (ip.store (dinode v.disk ip.inum))

theorem iupdate_run : (iupdate ip).run v = .ok ((), v.setInode ip) := rfl

theorem inodeAt_setInode (h : ip.Fits) : inodeAt (v.setInode ip).disk ip.inum = ip := by
  rw [inodeAt, Vol.setInode, dinode_putDinode_self, load_store h]

theorem iblock_ne_one : IBLOCK i ≠ 1 :=
  Nat.ne_of_gt (Nat.lt_of_lt_of_le (by decide) (Nat.le_add_left 2 _))

/-- The inodes lie before the bitmap. -/
theorem not_bitmap_iblock (hi : i < Z.sb.ninodes) : ¬ Bitmap Z.sb (IBLOCK i) := by
  rintro ⟨b, -, h⟩
  have hle : i / IPB ≤ Z.sb.ninodes / IPB := Nat.div_le_div_right (Nat.le_of_lt hi)
  have h : i / IPB + 2 = b / BPB + Z.sb.ninodes / IPB + 3 := h
  generalize b / BPB = q at h
  omega

/-- The blocks of files are not those of inodes. -/
theorem Owns.putDinode (hZ : Z.Fixed) (h : Owns Z v.disk f) (hi : i < Z.sb.ninodes) (d : Dinode) :
    Owns Z (v.putDinode i d).disk f where
  uses := h.uses.update hZ iblock_ne_one (not_bitmap_iblock hi) _
  ind_ne_zero := h.ind_ne_zero
  filled := filled_congr h.filled fun x hx => Function.update_of_ne
    (fun heq : x = IBLOCK i => (h.uses.own x hx).2 (heq ▸ hZ.inodes _ hi)) _ _

/-! ## Reading and writing -/

/-- What `readi` does on the bytes of a file. -/
def readAt (d : List UInt8) (off n : Nat) : Int × List UInt8 :=
  if d.length < off ∨ 2 ^ 32 ≤ off + n then (-1, [])
  else (((d.drop off).take n).length, (d.drop off).take n)

/-- What `writei` does on the bytes of a file. -/
def writeAt (d : List UInt8) (off : Nat) (src : List UInt8) : Int × List UInt8 :=
  if d.length < off ∨ MAXFILE * BSIZE < off + src.length then (-1, d)
  else (src.length, splice d off src)

/-- The inode in memory and on the disk is that of the file. -/
structure Current (disk : Image) (ip : Inode) (f : File) : Prop where
  inode : inodeAt disk ip.inum = ip
  addrs : ip.addrs = addrsOf f
  size : ip.size = f.data.length

theorem Current.fits (h : Current disk ip f) : ip.Fits := by
  rw [← h.inode]
  exact load_fits ..

variable {off n : Nat} {src : List UInt8}

/-- `readi` of a file that is not a device. -/
theorem readi_run (devsw : Devsw) (hZ : Z.Fixed) (h : Owns Z v.disk f) (hf : f.Wf)
    (hc : Current v.disk ip f) (hmax : f.data.length ≤ MAXFILE * BSIZE) (hdev : ip.type ≠ T_DEV)
    (hoff : off < 2 ^ 32) (hn : n < 2 ^ 32) :
    (readi devsw ip off n).run v =
      .ok (((readAt f.data off n).1, (readAt f.data off n).2, ip), v) := by
  have hmax' : f.data.length ≤ 140 * 512 := hmax
  rw [readi, if_neg hdev, hc.size, readAt]
  by_cases hbad : f.data.length < off ∨ 2 ^ 32 ≤ off + n
  · rw [if_pos (by omega), if_pos hbad]
    rfl
  · rw [if_neg (by omega), if_neg hbad, Nat.mod_eq_of_lt (by omega)]
    have hloop := readLoop_run hZ h hf hc.addrs hmax
      (if off + n > f.data.length then f.data.length - off else n)
      (show off + _ ≤ f.data.length by split <;> omega)
    simp only [StateT.run_bind, hloop, ok_bind]
    have htake : (f.data.drop off).take
        (if off + n > f.data.length then f.data.length - off else n) =
        (f.data.drop off).take n := by
      split
      · rw [List.take_of_length_le (by rw [List.length_drop]),
          List.take_of_length_le (by rw [List.length_drop]; omega)]
      · rfl
    have hlen : ((f.data.drop off).take n).length =
        if off + n > f.data.length then f.data.length - off else n := by
      rw [List.length_take, List.length_drop]
      split <;> omega
    rw [htake, hlen]
    rfl

/-- A block that a write logs is one of the bitmap or of the file. -/
theorem TouchedIn.of_uses (h : Owns Z disk f) (hx : TouchedIn Z.sb f off n x) :
    Bitmap Z.sb x ∨ x < Z.lim ∧ ¬ Z.taken x := by
  rcases hx with hx | ⟨rfl, hne⟩ | ⟨k, -, -, hx⟩
  · exact .inl hx
  · exact .inr (h.uses.own _ (mem_refs.mpr (.inr ⟨rfl, hne⟩)))
  · exact .inr (h.uses.own _ (mem_refs.mpr (.inl (List.mem_of_getElem? hx))))

theorem dinode_congr {disk' : Image} (h : disk' (IBLOCK j) = disk (IBLOCK j)) :
    dinode disk' j = dinode disk j := by
  rw [dinode, dinode, h]

/-- The inodes of the disk after a write to files. -/
theorem Writes.dinode_eq {S : Nat → Prop} (hZ : Z.Fixed) (h : Writes S v w)
    (hS : ∀ x, S x → Bitmap Z.sb x ∨ x < Z.lim ∧ ¬ Z.taken x) (hj : j < Z.sb.ninodes) :
    dinode w.disk j = dinode v.disk j := by
  refine dinode_congr (h.frame fun hx => ?_)
  rcases hS _ hx with hx | hx
  · exact not_bitmap_iblock hj hx
  · exact hx.2 (hZ.inodes j hj)

/-- Every address of a file fits into its field. -/
theorem Owns.addrsOf_lt (hZ : Z.Fixed) (h : Owns Z disk f) (k : Nat) : addrsOf f k < 256 ^ 4 := by
  have hlt : ∀ b ∈ f.refs, b < 256 ^ 4 := fun b hb =>
    Nat.lt_trans (h.uses.own b hb).1 (h.uses.lim_lt hZ)
  unfold addrsOf
  split
  · rcases Nat.lt_or_ge k f.blocks.length with hk | hk
    · rw [List.getD_eq_getElem _ _ hk]
      exact hlt _ (mem_refs.mpr (.inl (List.getElem_mem hk)))
    · rw [List.getD_eq_default _ _ hk]
      decide
  · split
    · by_cases hne : f.ind = 0
      · rw [hne]
        decide
      · exact hlt _ (mem_refs.mpr (.inr ⟨rfl, hne⟩))
    · decide

theorem addrsOf_rest {k : Nat} (hk : NDIRECT < k) : addrsOf f k = 0 := by
  rw [addrsOf, if_neg (by omega), if_neg (by omega)]

/-- The file `g` has the bytes `d`, and its inode is up to date. -/
structure Stored (Z : Zone) (ip : Inode) (d : List UInt8) (ip' : Inode)
    (w : Vol) (g : File) : Prop where
  data : g.data = d
  wf : g.Wf
  owns : Owns Z w.disk g
  current : Current w.disk ip' g
  inode : ip' = { ip with size := g.data.length, addrs := addrsOf g }

/-- The inode stays as it is where the file does not grow. -/
theorem Written.addrs_eq {ip' : Inode} (hf : f.Wf) (h : Written Z ip f off src v ip' w g)
    (hlen : g.data.length = f.data.length) : addrsOf g = addrsOf f := by
  have hblocks : g.blocks.length = f.blocks.length := by
    rw [h.wf.blocks_length, hf.blocks_length, hlen]
  have heq : f.blocks = g.blocks := h.extends_.blocks.eq_of_length hblocks.symm
  funext k
  rw [addrsOf, addrsOf, heq, h.extends_.same hblocks]

/-- The file does not grow. -/
theorem Written.stored {ip' : Inode} (hZ : Z.Fixed) (hf : f.Wf) (hc : Current v.disk ip f)
    (hi : ip.inum < Z.sb.ninodes) (h : Written Z ip f off src v ip' w g)
    (hlen : g.data.length = f.data.length) :
    Stored Z ip (splice f.data off src) ip' w g := by
  have hinode : ip' = ip := by rw [h.inode, h.addrs_eq hf hlen, ← hc.addrs]
  subst hinode
  have hdinode := h.writes.dinode_eq hZ (fun _ hx => hx.of_uses h.owns) hi
  refine ⟨h.data, h.wf, h.owns, ⟨?_, ?_, ?_⟩, ?_⟩
  · rw [inodeAt, hdinode]
    exact hc.inode
  · rw [hc.addrs, h.addrs_eq hf hlen]
  · rw [hc.size, hlen]
  · rw [hlen, ← hc.size, h.addrs_eq hf hlen, ← hc.addrs]

/-- The file grows, and `iupdate` writes its inode. -/
theorem Written.stored_setInode {ip' : Inode} (hZ : Z.Fixed) (hc : Current v.disk ip f)
    (hi : ip.inum < Z.sb.ninodes) (h : Written Z ip f off src v ip' w g)
    (hmax : g.data.length < 256 ^ 4) :
    Stored Z ip (splice f.data off src) { ip' with size := g.data.length }
      (w.setInode { ip' with size := g.data.length }) g := by
  rw [h.inode]
  have hfits : Inode.Fits { ip with addrs := addrsOf g, size := g.data.length } :=
    { hc.fits with
      size := hmax
      addrs := h.owns.addrsOf_lt hZ
      rest := fun _ hk => addrsOf_rest hk }
  exact ⟨h.data, h.wf, h.owns.putDinode hZ hi _, ⟨inodeAt_setInode hfits, rfl, rfl⟩, rfl⟩

/-- `writei` to a file that is not a device. -/
theorem writei_ends (devsw : Devsw) (hZ : Z.Fixed) (h : Owns Z v.disk f) (hf : f.Wf)
    (hc : Current v.disk ip f) (hmax : f.data.length ≤ MAXFILE * BSIZE) (hdev : ip.type ≠ T_DEV)
    (hi : ip.inum < Z.sb.ninodes) (hoff : off < 2 ^ 32) (hn : src.length < 2 ^ 32) :
    Allocates Z (writei devsw ip src off) v
      (fun r w => r.1 = (writeAt f.data off src).1 ∧
        ∃ g, Stored Z ip (writeAt f.data off src).2 r.2 w g ∧
          Writes (fun x => TouchedIn Z.sb g off src.length x ∨ x = IBLOCK ip.inum) v w ∧
          ∀ j, j < Z.sb.ninodes → j ≠ ip.inum → dinode w.disk j = dinode v.disk j)
      (off ≤ f.data.length ∧ off + src.length ≤ MAXFILE * BSIZE ∧ NoRoom Z (off + src.length)) := by
  have hmax' : f.data.length ≤ 140 * 512 := hmax
  have hMAX : MAXFILE * BSIZE = 140 * 512 := rfl
  rw [writei, if_neg hdev, hc.size, writeAt]
  -- what the checks leave of the file as it was
  have hsame : ∃ g, Stored Z ip f.data ip v g ∧
      Writes (fun x => TouchedIn Z.sb g off src.length x ∨ x = IBLOCK ip.inum) v v ∧
      ∀ j, j < Z.sb.ninodes → j ≠ ip.inum → dinode v.disk j = dinode v.disk j :=
    ⟨f, ⟨rfl, hf, h, hc, by rw [← hc.size, ← hc.addrs]⟩, .refl .., fun _ _ _ => rfl⟩
  by_cases hbad : f.data.length < off ∨ MAXFILE * BSIZE < off + src.length
  · rw [if_pos hbad]
    by_cases hfirst : off > f.data.length ∨ (off + src.length) % 2 ^ 32 < off
    · rw [if_pos hfirst]
      exact returnsOr_pure ⟨rfl, hsame⟩
    · rw [if_neg hfirst, if_pos (by omega)]
      exact returnsOr_pure ⟨rfl, hsame⟩
  · rw [if_neg (by omega), if_neg (by omega), if_neg hbad]
    refine ReturnsOr.bind ((writeLoop_ends hZ src h hf hc.addrs (by omega) (by omega)).imp
      (fun _ _ hq => hq) fun he => ⟨by omega, by omega, he⟩) ?_
    rintro ⟨ip₁, off₁⟩ w ⟨hoff₁, g, hg⟩
    have hoff₁ : off₁ = off + src.length := hoff₁
    have hinode : ip₁ = { ip with addrs := addrsOf g } := hg.inode
    have hlen : g.data.length = max f.data.length (off + src.length) := by
      rw [hg.data, length_splice (by omega)]
    have hsize : ip₁.size = f.data.length := by rw [hinode, ← hc.size]
    have hother : ∀ j, j < Z.sb.ninodes → dinode w.disk j = dinode v.disk j :=
      fun j hj => hg.writes.dinode_eq hZ (fun _ hx => hx.of_uses hg.owns) hj
    by_cases hgrow : 0 < src.length ∧ off₁ > ip₁.size
    · simp only [if_pos hgrow]
      have hoff₁ : off₁ = g.data.length := by omega
      have hinum : ip₁.inum = ip.inum := by rw [hinode]
      subst hoff₁
      refine .inl ⟨_, w.setInode { ip₁ with size := g.data.length }, rfl, rfl, g, ?_, ?_, ?_⟩
      · exact hg.stored_setInode hZ hc hi (by omega)
      · exact (hg.writes.mono fun _ hx => .inl hx).trans (writes_write (.inr (by rw [← hinum])))
      · intro j hj hne
        rw [Vol.setInode, dinode_putDinode_ne (by rwa [← hinum] at hne), hother j hj]
    · simp only [if_neg hgrow]
      refine returnsOr_pure ⟨rfl, g, ?_, hg.writes.mono fun _ hx => .inl hx,
        fun j hj _ => hother j hj⟩
      exact hg.stored hZ hf hc hi (by omega)

/-! ## Truncating -/

/-- The blocks of a file that are left after the first `n` were freed. -/
def leftOf (f : File) (n : Nat) : List Nat := f.blocks.drop n ++ [f.ind].filter (· ≠ 0)

theorem leftOf_of_lt (hn : n < f.blocks.length) :
    leftOf f n = f.blocks[n] :: leftOf f (n + 1) := by
  rw [leftOf, List.drop_eq_getElem_cons hn]
  rfl

theorem leftOf_of_le (hn : f.blocks.length ≤ n) : leftOf f (n + 1) = leftOf f n := by
  rw [leftOf, leftOf, List.drop_of_length_le hn, List.drop_of_length_le (by omega)]

/-- `bfree` of a block in the list. -/
theorem bfree_returns {b : Nat} {l : List Nat} (hZ : Z.Fixed) (h : Uses Z (b :: l) v.disk) :
    Returns (bfree b) v (fun _ w => Uses Z l w.disk ∧ Writes (Bitmap Z.sb) v w) := by
  have hb := (h.own b List.mem_cons_self).1
  have hbit : bit Z.sb v.disk b = true := (h.bits b hb).mpr (.inr List.mem_cons_self)
  exact ⟨(), _, bfree_run h.super hbit, h.release,
    writes_write ⟨b, Nat.lt_of_lt_of_le hb hZ.lim_le, rfl⟩⟩

/-- A block of the file is freed where it has one.  Both loops of `itrunc` go so. -/
theorem free_returns (hZ : Z.Fixed) (h : Uses Z (leftOf f n) v.disk) {α : Type} {a : α}
    {x : FsM α}
    (hfree : f.blocks.getD n 0 ≠ 0 → x = bfree (f.blocks.getD n 0) >>= fun _ => pure a)
    (hskip : f.blocks.getD n 0 = 0 → x = pure a) :
    Returns x v (fun c w => c = a ∧ Uses Z (leftOf f (n + 1)) w.disk ∧
      Writes (Bitmap Z.sb) v w) := by
  rcases Nat.lt_or_ge n f.blocks.length with hn | hn
  · rw [leftOf_of_lt hn] at h
    have hget : f.blocks.getD n 0 = f.blocks[n] := List.getD_eq_getElem _ _ hn
    have hne := (h.outside hZ List.mem_cons_self).1
    rw [hget] at hfree
    rw [hfree hne]
    refine (bfree_returns hZ h).bind fun _ w hw => returns_pure ⟨rfl, hw⟩
  · rw [hskip (List.getD_eq_default _ _ hn)]
    exact returns_pure ⟨rfl, by rwa [leftOf_of_le hn], .refl ..⟩

/-- The addresses of a file after the first `n` were set to 0. -/
def clearedTo (f : File) (n k : Nat) : Nat := if k < n then 0 else addrsOf f k

theorem update_clearedTo : Function.update (clearedTo f n) n 0 = clearedTo f (n + 1) := by
  funext k
  unfold clearedTo
  by_cases hk : k = n
  · subst hk
    simp
  · have hiff : k < n ↔ k < n + 1 := by omega
    rw [Function.update_of_ne hk]
    simp only [hiff]

/-- The first loop of `itrunc`. -/
theorem freeDirect_loop (hZ : Z.Fixed) (h : Uses Z f.refs v.disk)
    (hip : ip.addrs = addrsOf f) (hn : n ≤ NDIRECT) :
    Returns ((List.range n).foldlM freeDirect ip) v (fun ip' w =>
      ip' = { ip with addrs := clearedTo f n } ∧ Uses Z (leftOf f n) w.disk ∧
      Writes (Bitmap Z.sb) v w) := by
  induction n with
  | zero =>
    have hzero : clearedTo f 0 = ip.addrs := by
      rw [hip]
      rfl
    exact returns_pure ⟨by rw [hzero], h, .refl ..⟩
  | succ n ih =>
    rw [List.range_succ, List.foldlM_append]
    refine (ih (by omega)).bind ?_
    rintro ip' w ⟨rfl, hw, hwrites⟩
    have hget : clearedTo f n n = f.blocks.getD n 0 := by
      rw [clearedTo, if_neg (Nat.lt_irrefl n), addrsOf, if_pos (by omega)]
    rw [List.foldlM_cons]
    simp only [List.foldlM_nil, bind_pure]
    refine (free_returns (a := { ip with addrs := clearedTo f (n + 1) }) hZ hw ?_ ?_).mono ?_
    · intro hne
      simp only [freeDirect, hget, if_pos hne, Inode.setAddr, update_clearedTo]
    · intro hzero
      have hsame : clearedTo f (n + 1) = clearedTo f n := by
        rw [← update_clearedTo, ← hzero, ← hget, Function.update_eq_self]
      simp only [freeDirect, hget, hzero, ne_eq, not_true_eq_false, if_false, hsame]
    · rintro ip'' w' ⟨rfl, hw', hwrites'⟩
      exact ⟨rfl, hw', hwrites.trans hwrites'⟩

/-- The second loop of `itrunc`. -/
theorem freeEntry_loop (hZ : Z.Fixed) (h : Uses Z (leftOf f NDIRECT) v.disk) {data : Block}
    (hdata : ∀ j, j < NINDIRECT → getLe data (4 * j) 4 = f.blocks.getD (NDIRECT + j) 0)
    (hn : n ≤ NINDIRECT) :
    Returns (forM (List.range n) (freeEntry data)) v (fun _ w =>
      Uses Z (leftOf f (NDIRECT + n)) w.disk ∧ Writes (Bitmap Z.sb) v w) := by
  induction n with
  | zero => exact returns_pure ⟨h, .refl ..⟩
  | succ n ih =>
    have hget := hdata n (by omega)
    rw [List.range_succ, List.forM_append]
    refine (ih (by omega)).bind ?_
    rintro ⟨⟩ w ⟨hw, hwrites⟩
    rw [List.forM_cons]
    simp only [List.forM_nil, bind_pure_unit]
    refine (free_returns (a := ()) hZ hw ?_ ?_).mono ?_
    · intro hne
      rw [freeEntry, if_pos (by rwa [hget]), hget]
      exact (bind_pure _).symm
    · intro hzero
      rw [freeEntry, if_neg (by rw [hget, hzero]; simp)]
    · rintro ⟨⟩ w' ⟨-, hw', hwrites'⟩
      exact ⟨hw', hwrites.trans hwrites'⟩

/-- The second part of `itrunc` frees the blocks that the first left. -/
theorem freeIndirect_returns (hZ : Z.Fixed) (h : Uses Z (leftOf f NDIRECT) v.disk)
    (hf : f.Wf) (hdata : f.ind ≠ 0 → ∀ j, j < NINDIRECT →
      getLe (v.disk f.ind) (4 * j) 4 = f.blocks.getD (NDIRECT + j) 0)
    (hmax : f.blocks.length ≤ NDIRECT + NINDIRECT) (hip : ip.addrs = clearedTo f NDIRECT) :
    Returns (freeIndirect ip) v (fun ip' w => ip' = { ip with addrs := fun _ => 0 } ∧
      Uses Z [] w.disk ∧ Writes (Bitmap Z.sb) v w) := by
  have haddr : ip.addrs NDIRECT = f.ind := by
    rw [hip, clearedTo, if_neg (by decide), addrsOf, if_neg (by decide), if_pos rfl]
  have hclear : Function.update ip.addrs NDIRECT 0 = fun _ => 0 := by
    rw [hip, update_clearedTo]
    funext k
    unfold clearedTo
    split
    · rfl
    · exact addrsOf_rest (by omega)
  rw [freeIndirect, haddr]
  by_cases hzero : f.ind = 0
  · have hlen : f.blocks.length ≤ NDIRECT :=
      Nat.le_of_not_lt fun hlt => hf.ind_ne_zero.mpr hlt hzero
    have hleft : leftOf f NDIRECT = [] := by
      rw [leftOf, List.drop_of_length_le hlen, hzero]
      rfl
    rw [if_neg (by simpa using hzero)]
    refine returns_pure ⟨?_, by rwa [hleft] at h, .refl ..⟩
    rw [← hclear, ← hzero, ← haddr, Function.update_eq_self]
  · have hleft : leftOf f (NDIRECT + NINDIRECT) = [f.ind] := by
      rw [leftOf, List.drop_of_length_le hmax, List.filter_cons_of_pos (by simpa using hzero)]
      rfl
    rw [if_pos hzero]
    refine returns_get ((freeEntry_loop hZ h (hdata hzero) (Nat.le_refl _)).bind ?_)
    rintro ⟨⟩ w ⟨hw, hwrites⟩
    rw [hleft] at hw
    refine (bfree_returns hZ hw).bind ?_
    rintro ⟨⟩ w' ⟨hw', hwrites'⟩
    exact returns_pure ⟨by rw [Inode.setAddr, hclear], hw', hwrites.trans hwrites'⟩

/-- The inode of an empty file. -/
def Inode.emptied (ip : Inode) : Inode := { ip with size := 0, addrs := fun _ => 0 }

theorem Inode.Fits.emptied (h : ip.Fits) : ip.emptied.Fits :=
  { h with
    size := Nat.pow_pos (by decide)
    addrs := fun _ => Nat.pow_pos (by decide)
    rest := fun _ _ => rfl }

/-- `itrunc` gives all blocks of the file back. -/
theorem itrunc_returns (hZ : Z.Fixed) (h : Owns Z v.disk f) (hf : f.Wf)
    (hc : Current v.disk ip f) (hmax : f.data.length ≤ MAXFILE * BSIZE)
    (hi : ip.inum < Z.sb.ninodes) :
    Returns (itrunc ip) v (fun ip' w => ip' = ip.emptied ∧ inodeAt w.disk ip.inum = ip.emptied ∧
      Uses Z [] w.disk ∧ Writes (fun x => Bitmap Z.sb x ∨ x = IBLOCK ip.inum) v w ∧
      ∀ j, j < Z.sb.ninodes → j ≠ ip.inum → dinode w.disk j = dinode v.disk j) := by
  have hmax : f.data.length ≤ 140 * 512 := hmax
  have hlen : f.blocks.length ≤ NDIRECT + NINDIRECT := by
    show f.blocks.length ≤ 140
    rw [hf.blocks_length]
    omega
  refine (freeDirect_loop hZ h.uses hc.addrs (Nat.le_refl _)).bind ?_
  rintro ip₁ v₁ ⟨rfl, h₁, hw₁⟩
  have hdata : f.ind ≠ 0 → ∀ j, j < NINDIRECT →
      getLe (v₁.disk f.ind) (4 * j) 4 = f.blocks.getD (NDIRECT + j) 0 := by
    intro hne j hj
    have hind := h.uses.outside hZ (mem_refs.mpr (.inr ⟨rfl, hne⟩))
    rw [hw₁.frame hind.2.2]
    exact h.filled.ind hne j hj
  refine (freeIndirect_returns hZ h₁ hf hdata hlen rfl).bind ?_
  rintro ip₂ v₂ ⟨rfl, h₂, hw₂⟩
  have hwrites := hw₁.trans hw₂
  refine ⟨_, v₂.setInode ip.emptied, rfl, rfl, ?_, ?_, ?_, ?_⟩
  · exact inodeAt_setInode hc.fits.emptied
  · exact h₂.update hZ iblock_ne_one (not_bitmap_iblock hi) _
  · exact (hwrites.mono fun _ hx => .inl hx).trans (writes_write (.inr rfl))
  · intro j hj hne
    rw [Vol.setInode, dinode_putDinode_ne (i := ip.emptied.inum) hne]
    exact hwrites.dinode_eq hZ (fun _ hx => .inl hx) hj

end Xv6Arm.Blocks
