import Mathlib.Algebra.BigOperators.Group.Finset.Basic
import Mathlib.Data.List.Find
import Xv6Arm.Blocks.Inodes

/-!
# The volume

`Files` is what the inode layer of `fs.c` is for: inodes with their bytes.
`Op.spec` says what an operation does to them.  Reading and writing are those of
lists of bytes, and the only limit besides the number of inodes is the number of
blocks in use.

`Holds Z s A fs` says that the blocks and the inode cache hold the inodes `A`: each
file has its blocks to itself, the bitmap marks the blocks of files and those that
are not for files, and no others, and the copies in the inode cache are those on
the disk.  Every operation keeps it and does what `Op.spec` says
(`Holds.step`).
-/

namespace Xv6Arm.Blocks

open Bytes Fs Mkfs Fallible Splice

/-! ## The specification -/

/-- An inode and its bytes. -/
structure Node where
  type : Nat
  major : Nat
  minor : Nat
  nlink : Nat
  data : List UInt8

/-- The inodes by number. -/
abbrev Files := Nat → Node

/-- The number of blocks that the files have. -/
def usedBlocks (ninodes : Nat) (A : Files) : Nat :=
  ∑ i ∈ Finset.range ninodes, blocksFor (A i).data.length

/-- The inode that `ialloc` finds. -/
def freeInode (ninodes : Nat) (A : Files) : Option Nat :=
  (List.range' 1 (ninodes - 1)).find? fun i => (A i).type = 0

/-- What an operation does to the inodes, of which there are `ninodes`, with room for
`cap` blocks. -/
def Op.spec (ninodes cap : Nat) : Op → Files → Except String (Result × Files)
  | .read inum off n, A => .ok (readAt (A inum).data off n, A)
  | .write inum src off, A =>
    if usedBlocks ninodes
        (Function.update A inum { A inum with data := (writeAt (A inum).data off src).2 }) ≤ cap then
      .ok (((writeAt (A inum).data off src).1, []),
        Function.update A inum { A inum with data := (writeAt (A inum).data off src).2 })
    else .error "balloc: out of blocks"
  | .alloc type, A =>
    match freeInode ninodes A with
    | some inum => .ok ((inum, []),
        Function.update A inum { type := type, major := 0, minor := 0, nlink := 0, data := [] })
    | none => .error "ialloc: no inodes"
  | .update inum major minor nlink, A => .ok ((0, []),
      Function.update A inum { A inum with major := major, minor := minor, nlink := nlink })
  | .put inum, A =>
    if (A inum).nlink = 0 then
      .ok ((0, []), Function.update A inum { A inum with type := 0, data := [] })
    else .ok ((0, []), A)
  | .recycle _, A => .ok ((0, []), A)

/-- The operations that the kernel does: on inodes in use, and with arguments that
fit their types.  The bytes of a device are not on the disk. -/
def Op.Allowed (ninodes : Nat) (A : Files) : Op → Prop
  | .read inum off n =>
    inum < ninodes ∧ (A inum).type ≠ 0 ∧ (A inum).type ≠ T_DEV ∧ off < 2 ^ 32 ∧ n < 2 ^ 32
  | .write inum src off =>
    inum < ninodes ∧ (A inum).type ≠ 0 ∧ (A inum).type ≠ T_DEV ∧ off < 2 ^ 32 ∧
      src.length < 2 ^ 32
  | .alloc type => type < 2 ^ 16
  | .update inum major minor nlink =>
    inum < ninodes ∧ (A inum).type ≠ 0 ∧ major < 2 ^ 16 ∧ minor < 2 ^ 16 ∧ nlink < 2 ^ 16
  | .put inum => inum < ninodes ∧ (A inum).type ≠ 0
  | .recycle inum => inum < ninodes

/-! ## The relation -/

/-- The inode of a file. -/
def Node.inode (e : Node) (inum : Nat) (f : File) : Inode where
  inum := inum
  type := e.type
  major := e.major
  minor := e.minor
  nlink := e.nlink
  size := f.data.length
  addrs := addrsOf f

/-- The zone of file `i`, for which the blocks of the other files are taken. -/
def Zone.others (Z : Zone) (fs : Nat → File) (i : Nat) : Zone :=
  { Z with taken := fun b => Z.taken b ∨ ∃ j, j < Z.sb.ninodes ∧ j ≠ i ∧ b ∈ (fs j).refs }

/-- A node lies in the blocks of the file `f`. -/
structure Lies (disk : Image) (i : Nat) (e : Node) (f : File) : Prop where
  wf : f.Wf
  data : f.data = e.data
  short : e.data.length ≤ MAXFILE * BSIZE
  inode : inodeAt disk i = e.inode i f
  unused : e.type = 0 → e.data = []

/-- The volume holds the inodes `A`, in the blocks of the files `fs`. -/
structure Holds (Z : Zone) (s : Core) (A : Files) (fs : Nat → File) : Prop where
  fixed : Z.Fixed
  super : superblock s.vol.disk = Z.sb
  owns : ∀ i, i < Z.sb.ninodes → Owns (Z.others fs i) s.vol.disk (fs i)
  lies : ∀ i, i < Z.sb.ninodes → Lies s.vol.disk i (A i) (fs i)
  cache : ∀ i ip, s.icache i = some ip →
    i < Z.sb.ninodes ∧ ip.type ≠ 0 ∧ ip = inodeAt s.vol.disk i

variable {Z : Zone} {s : Core} {A : Files} {fs : Nat → File} {v w : Vol} {i j : Nat} {g : File}
  {e : Node}

theorem Zone.Fixed.others (h : Z.Fixed) (fs : Nat → File) (i : Nat) : (Z.others fs i).Fixed where
  lim_le := h.lim_le
  boot := .inl h.boot
  super := .inl h.super
  inodes i hi := .inl (h.inodes i hi)
  bitmap x hx := .inl (h.bitmap x hx)

theorem others_update (g : File) : Z.others (Function.update fs i g) i = Z.others fs i := by
  unfold Zone.others
  congr 1
  funext b
  refine propext (or_congr_right (exists_congr fun j => and_congr_right fun _ =>
    and_congr_right fun hj => ?_))
  rw [Function.update_of_ne hj]

/-- What an operation did on inode `i`: its file is now `g`, with the node `e`. -/
structure Effect (Z : Zone) (fs : Nat → File) (i : Nat) (v w : Vol) (e : Node) (g : File) :
    Prop where
  owns : Owns (Z.others fs i) w.disk g
  lies : Lies w.disk i e g
  dinode : ∀ j, j < Z.sb.ninodes → j ≠ i → dinode w.disk j = dinode v.disk j
  frame : ∀ x, (Z.others fs i).taken x → ¬ Bitmap Z.sb x → x ≠ IBLOCK i → w.disk x = v.disk x

/-- The blocks of the other files are as they were. -/
theorem Effect.owns_other (hZ : Z.Fixed) (h : Effect Z fs i v w e g) (hi : i < Z.sb.ninodes)
    (hj : j < Z.sb.ninodes) (hne : j ≠ i) (howns : Owns (Z.others fs j) v.disk (fs j)) :
    Owns (Z.others (Function.update fs i g) j) w.disk (fs j) := by
  have htaken : ∀ b ∈ (fs j).refs, (Z.others fs i).taken b := fun b hb => .inr ⟨j, hj, hne, hb⟩
  have hin : ∀ b, (Z.others fs i).taken b ∨ b ∈ g.refs ↔
      (Z.others (Function.update fs i g) j).taken b ∨ b ∈ (fs j).refs := by
    intro b
    show (Z.taken b ∨ _) ∨ _ ↔ (Z.taken b ∨ _) ∨ _
    constructor
    · rintro ((hb | ⟨k, hk, hki, hb⟩) | hb)
      · exact .inl (.inl hb)
      · by_cases hkj : k = j
        · exact .inr (hkj ▸ hb)
        · exact .inl (.inr ⟨k, hk, hkj, by rwa [Function.update_of_ne hki]⟩)
      · exact .inl (.inr ⟨i, hi, hne.symm, by rwa [Function.update_self]⟩)
    · rintro ((hb | ⟨k, hk, hkj, hb⟩) | hb)
      · exact .inl (.inl hb)
      · by_cases hki : k = i
        · subst hki
          rw [Function.update_self] at hb
          exact .inr hb
        · rw [Function.update_of_ne hki] at hb
          exact .inl (.inr ⟨k, hk, hki, hb⟩)
      · exact .inl (htaken b hb)
  refine ⟨⟨h.owns.uses.super, fun b hb => ?_, fun b hb => ?_, howns.uses.nodup⟩,
    howns.ind_ne_zero, filled_congr howns.filled fun x hx => ?_⟩
  · rw [← hin b]
    exact h.owns.uses.bits b hb
  · obtain ⟨hlt, hnot⟩ := howns.uses.own b hb
    refine ⟨hlt, ?_⟩
    rintro (hR | ⟨k, hk, hkj, hmem⟩)
    · exact hnot (.inl hR)
    · by_cases hki : k = i
      · subst hki
        rw [Function.update_self] at hmem
        exact (h.owns.uses.own b hmem).2 (htaken b hb)
      · rw [Function.update_of_ne hki] at hmem
        exact hnot (.inr ⟨k, hk, hkj, hmem⟩)
  · refine h.frame x (htaken x hx) (howns.uses.outside (hZ.others fs j) hx).2.2 ?_
    rintro rfl
    exact (howns.uses.own _ hx).2 (.inl (hZ.inodes i hi))

/-- The core with a copy of the inode in the cache. -/
def Core.copy (s : Core) (i : Nat) (ip : Option Inode) : Core :=
  { s with icache := Function.update s.icache i ip }

@[simp] theorem Core.copy_self (ip : Option Inode) : (s.copy i ip).icache i = ip :=
  Function.update_self ..

theorem Core.copy_ne (ip : Option Inode) (hj : j ≠ i) : (s.copy i ip).icache j = s.icache j :=
  Function.update_of_ne hj ..

@[simp] theorem Core.copy_copy (ip ip' : Option Inode) : (s.copy i ip).copy i ip' = s.copy i ip' := by
  rw [Core.copy, Core.copy, Function.update_idem]
  rfl

/-- The core with other blocks. -/
def Core.with (s : Core) (w : Vol) : Core := { s with vol := w }

@[simp] theorem Core.with_vol : s.with s.vol = s := rfl

@[simp] theorem Core.copy_with (ip : Option Inode) : (s.copy i ip).with w = (s.with w).copy i ip := rfl

@[simp] theorem setCopy_run (ip : Option Inode) : (setCopy i ip).run s = .ok ((), s.copy i ip) := rfl

/-- The volume after an operation on inode `i`. -/
theorem Holds.replace (h : Holds Z s A fs) (hi : i < Z.sb.ninodes) (he : Effect Z fs i s.vol w e g)
    (ip : Option Inode) (hip : ∀ ip', ip = some ip' → ip'.type ≠ 0 ∧ ip' = inodeAt w.disk i) :
    Holds Z ((s.with w).copy i ip) (Function.update A i e) (Function.update fs i g) where
  fixed := h.fixed
  super := he.owns.uses.super
  owns j hj := by
    by_cases hji : j = i
    · subst hji
      rw [Function.update_self, others_update]
      exact he.owns
    · rw [Function.update_of_ne hji]
      exact he.owns_other h.fixed hi hj hji (h.owns j hj)
  lies j hj := by
    by_cases hji : j = i
    · subst hji
      rw [Function.update_self, Function.update_self]
      exact he.lies
    · rw [Function.update_of_ne hji, Function.update_of_ne hji]
      have hold := h.lies j hj
      exact ⟨hold.wf, hold.data, hold.short, by
        rw [← hold.inode]
        exact congrArg (Inode.load j) (he.dinode j hj hji), hold.unused⟩
  cache j ip' hj := by
    by_cases hji : j = i
    · subst hji
      exact ⟨hi, hip ip' (by rwa [Core.copy_self] at hj)⟩
    · obtain ⟨hlt, htype, heq⟩ := h.cache j ip' (by rwa [Core.copy_ne ip hji] at hj)
      exact ⟨hlt, htype, heq.trans (congrArg (Inode.load j) (he.dinode j hlt hji)).symm⟩

/-! ## Room -/

theorem wf_refs_length {f : File} (hf : f.Wf) : f.refs.length = blocksFor f.data.length := by
  have hlen := hf.blocks_length
  have hind := hf.ind_ne_zero
  rw [refs_length, blocksFor, hlen]
  congr 1
  by_cases hne : f.ind = 0
  · have hle : ¬ 12 < f.blocks.length := fun hlt => hind.mpr hlt hne
    rw [if_neg (by simpa using hne), if_neg (by omega)]
  · have hlt := hind.mp hne
    rw [if_pos hne, if_pos (by omega)]

/-- What the other files leave of the room. -/
theorem Holds.room_others (h : Holds Z s A fs) (i : Nat) :
    room (Z.others fs i) +
      ∑ j ∈ (Finset.range Z.sb.ninodes).erase i, blocksFor (A j).data.length = room Z := by
  classical
  have hblocks : ∑ j ∈ (Finset.range Z.sb.ninodes).erase i, blocksFor (A j).data.length =
      ∑ j ∈ (Finset.range Z.sb.ninodes).erase i, (fs j).refs.toFinset.card := by
    refine Finset.sum_congr rfl fun j hj => ?_
    have hj := Finset.mem_range.mp (Finset.mem_of_mem_erase hj)
    rw [List.toFinset_card_of_nodup (h.owns j hj).uses.nodup, wf_refs_length (h.lies j hj).wf,
      (h.lies j hj).data]
  rw [hblocks, ← Finset.card_biUnion, room, ← Finset.card_union_of_disjoint, room]
  · congr 1
    ext b
    simp only [Finset.mem_union, Finset.mem_filter, Finset.mem_range, Finset.mem_biUnion,
      Finset.mem_erase, List.mem_toFinset]
    constructor
    · rintro (⟨hlt, hnot⟩ | ⟨j, ⟨hne, hj⟩, hb⟩)
      · exact ⟨hlt, fun hR => hnot (.inl hR)⟩
      · obtain ⟨hlt, hnot⟩ := (h.owns j hj).uses.own b hb
        exact ⟨hlt, fun hR => hnot (.inl hR)⟩
    · rintro ⟨hlt, hnot⟩
      by_cases hb : ∃ j, j < Z.sb.ninodes ∧ j ≠ i ∧ b ∈ (fs j).refs
      · obtain ⟨j, hj, hne, hb⟩ := hb
        exact .inr ⟨j, ⟨hne, hj⟩, hb⟩
      · exact .inl ⟨hlt, not_or.mpr ⟨hnot, hb⟩⟩
  · rw [Finset.disjoint_left]
    intro b hb hmem
    obtain ⟨j, hj, hb'⟩ := Finset.mem_biUnion.mp hmem
    obtain ⟨hne, hj⟩ := Finset.mem_erase.mp hj
    exact (Finset.mem_filter.mp hb).2
      (.inr ⟨j, Finset.mem_range.mp hj, hne, List.mem_toFinset.mp hb'⟩)
  · intro j hj k hk hjk
    obtain ⟨-, hj⟩ := Finset.mem_erase.mp hj
    obtain ⟨-, hk⟩ := Finset.mem_erase.mp hk
    refine Finset.disjoint_left.mpr fun b hbj hbk => ?_
    exact ((h.owns j (Finset.mem_range.mp hj)).uses.own b (List.mem_toFinset.mp hbj)).2
      (.inr ⟨k, Finset.mem_range.mp hk, hjk.symm, List.mem_toFinset.mp hbk⟩)

/-- The blocks in use are few enough if the file fits into what the others leave. -/
theorem Holds.usedBlocks_le_iff (h : Holds Z s A fs) (hi : i < Z.sb.ninodes) (e : Node) :
    usedBlocks Z.sb.ninodes (Function.update A i e) ≤ room Z ↔
      blocksFor e.data.length ≤ room (Z.others fs i) := by
  have hsum : usedBlocks Z.sb.ninodes (Function.update A i e) = blocksFor e.data.length +
      ∑ j ∈ (Finset.range Z.sb.ninodes).erase i, blocksFor (A j).data.length := by
    rw [usedBlocks, ← Finset.add_sum_erase _ _ (Finset.mem_range.mpr hi), Function.update_self]
    congr 1
    refine Finset.sum_congr rfl fun j hj => ?_
    rw [Function.update_of_ne (Finset.ne_of_mem_erase hj)]
  have hroom := h.room_others i
  omega

/-! ## Steps -/

/-- The blocks that an operation may log. -/
def Loggable (Z : Zone) (x : Nat) : Prop :=
  Bitmap Z.sb x ∨ (∃ i, i < Z.sb.ninodes ∧ x = IBLOCK i) ∨ x < Z.lim ∧ ¬ Z.taken x

/-- The number of bytes that an operation writes. -/
def Op.bytes : Op → Nat
  | .write _ src _ => src.length
  | _ => 0

/-- The volume `w` is `v` after the blocks in `l` were logged. -/
structure Logged (Z : Zone) (v w : Vol) (l : List (Nat × Block)) : Prop where
  logged : w.logged = v.logged ++ l
  disk : w.disk = RedoLog.replay l v.disk
  home : ∀ b ∈ l, Loggable Z b.1

theorem logged_nil (Z : Zone) (v : Vol) : Logged Z v v [] := ⟨by simp, rfl, nofun⟩

theorem Logged.trans {u : Vol} {l l' : List (Nat × Block)} (h : Logged Z v w l)
    (h' : Logged Z w u l') : Logged Z v u (l ++ l') where
  logged := by rw [h'.logged, h.logged, List.append_assoc]
  disk := by rw [h'.disk, h.disk, RedoLog.replay_append]
  home b hb := (List.mem_append.mp hb).elim (h.home b) (h'.home b)

/-- The operation logs the blocks in `l`.  They are few if the bitmap is one block
and the operation writes no more than `filewrite` writes at once. -/
structure Logs (Z : Zone) (op : Op) (v w : Vol) (l : List (Nat × Block)) : Prop
    extends Logged Z v w l where
  few : Z.sb.size ≤ BPB → op.bytes ≤ 3 * 512 → (l.map Prod.fst).toFinset.card ≤ 7

theorem Writes.logs {S : Nat → Prop} (h : Writes S v w) (op : Op) (hS : ∀ x, S x → Loggable Z x)
    (hfew : Z.sb.size ≤ BPB → op.bytes ≤ 3 * 512 →
      ∃ t : Finset Nat, (∀ x, S x → x ∈ t) ∧ t.card ≤ 7) : ∃ l, Logs Z op v w l := by
  obtain ⟨l, hl, hd, hSl⟩ := h
  refine ⟨l, ⟨hl, hd, fun b hb => hS _ (hSl b hb)⟩, fun hsize hbytes => ?_⟩
  obtain ⟨t, ht, hcard⟩ := hfew hsize hbytes
  refine Nat.le_trans (Finset.card_le_card fun x hx => ?_) hcard
  obtain ⟨b, hb, rfl⟩ := List.mem_map.mp (List.mem_toFinset.mp hx)
  exact ht _ (hSl b hb)

/-- Where the bitmap is one block. -/
theorem Bitmap.eq_zero {sb : Superblock} (hsize : sb.size ≤ BPB) {x : Nat} (hx : Bitmap sb x) :
    x = BBLOCK 0 sb.ninodes := by
  obtain ⟨b, hb, rfl⟩ := hx
  rw [BBLOCK, BBLOCK, Nat.div_eq_of_lt (Nat.lt_of_lt_of_le hb hsize), Nat.zero_div]

section Run

variable {α : Type} {x : FsM α} {a : α}

theorem onVol_run (h : x.run s.vol = .ok (a, v)) : (onVol x).run s = .ok (a, s.with v) := by
  show x.run s.vol >>= _ = _
  rw [h]
  rfl

theorem onVol_error {msg : String} (h : x.run s.vol = .error msg) :
    (onVol x).run s = .error msg := by
  show x.run s.vol >>= _ = _
  rw [h]
  rfl

end Run

theorem Holds.inode_eq (h : Holds Z s A fs) (hi : i < Z.sb.ninodes) :
    inodeAt s.vol.disk i = (A i).inode i (fs i) := (h.lies i hi).inode

/-- `ilock` gives the inode on the disk, from the cache or not. -/
theorem Holds.ilock_run (h : Holds Z s A fs) (hi : i < Z.sb.ninodes) (htype : (A i).type ≠ 0) :
    (ilock i).run s = .ok ((A i).inode i (fs i), s.copy i (some ((A i).inode i (fs i)))) := by
  unfold ilock
  cases hc : s.icache i with
  | some ip =>
    obtain ⟨-, -, heq⟩ := h.cache i ip hc
    rw [h.inode_eq hi] at heq
    have hsame : s.copy i (some ip) = s := by
      rw [Core.copy, ← hc, Function.update_eq_self]
    rw [← heq, hsame]
    simp only [StateT.run_bind, StateT.run_get, pure_bind, hc]
    rfl
  | none =>
    have hread : (readInode i).run s.vol = .ok ((A i).inode i (fs i), s.vol) := by
      rw [← h.inode_eq hi]
      rfl
    have htype' : ((A i).inode i (fs i)).type ≠ 0 := htype
    simp only [StateT.run_bind, StateT.run_get, pure_bind, hc, onVol_run hread, ok_bind,
      if_neg htype']
    rfl

/-- Copies of inodes in use may come and go. -/
theorem Holds.copy (h : Holds Z s A fs) {ip : Option Inode}
    (hip : ∀ ip', ip = some ip' → i < Z.sb.ninodes ∧ ip'.type ≠ 0 ∧ ip' = inodeAt s.vol.disk i) :
    Holds Z (s.copy i ip) A fs where
  fixed := h.fixed
  super := h.super
  owns := h.owns
  lies := h.lies
  cache j ip' hj := by
    by_cases hji : j = i
    · subst hji
      exact hip ip' (by rwa [Core.copy_self] at hj)
    · exact h.cache j ip' (by rwa [Core.copy_ne ip hji] at hj)

/-- The inode in memory after `ilock`. -/
theorem Holds.current (h : Holds Z s A fs) (hi : i < Z.sb.ninodes) :
    Current s.vol.disk ((A i).inode i (fs i)) (fs i) := ⟨h.inode_eq hi, rfl, rfl⟩

/-- The operation returns `r` and makes the inodes `A'`. -/
def Does (Z : Zone) (devsw : Devsw) (op : Op) (s : Core) (r : Result) (A' : Files) : Prop :=
  ∃ s' fs' l, (op.run devsw).run s = .ok (r, s') ∧ Holds Z s' A' fs' ∧ Logs Z op s.vol s'.vol l

/-- The operation does what its specification says.  A panic that this names is
certain where the limit is the end of the disk. -/
structure Meets (Z : Zone) (devsw : Devsw) (op : Op) (s : Core) (A : Files) : Prop where
  ok : ∀ r A', op.spec Z.sb.ninodes (room Z) A = .ok (r, A') → Does Z devsw op s r A'
  error : ∀ msg, op.spec Z.sb.ninodes (room Z) A = .error msg → Z.lim = Z.sb.size →
    (op.run devsw).run s = .error msg

theorem logs_nil (Z : Zone) (op : Op) (v : Vol) : Logs Z op v v [] :=
  ⟨logged_nil Z v, fun _ _ => Nat.zero_le 7⟩

variable {devsw : Devsw}

/-- `readi` of the inode that `ilock` gives. -/
theorem Holds.readi_run (devsw : Devsw) (h : Holds Z s A fs) {off n : Nat} (hi : i < Z.sb.ninodes)
    (hdev : (A i).type ≠ T_DEV) (hoff : off < 2 ^ 32) (hn : n < 2 ^ 32) :
    (readi devsw ((A i).inode i (fs i)) off n).run s.vol =
      .ok (((readAt (A i).data off n).1, (readAt (A i).data off n).2, (A i).inode i (fs i)),
        s.vol) := by
  have hlie := h.lies i hi
  have hrun := Blocks.readi_run devsw (h.fixed.others fs i) (h.owns i hi) hlie.wf
    (h.current hi) (by rw [hlie.data]; exact hlie.short) hdev hoff hn
  rwa [hlie.data] at hrun

/-- Reading changes no block. -/
theorem Holds.read_run (devsw : Devsw) (h : Holds Z s A fs) {off n : Nat} (hi : i < Z.sb.ninodes)
    (htype : (A i).type ≠ 0) (hdev : (A i).type ≠ T_DEV) (hoff : off < 2 ^ 32) (hn : n < 2 ^ 32) :
    ((Op.read i off n).run devsw).run s = .ok (readAt (A i).data off n,
      s.copy i (some ((A i).inode i (fs i)))) := by
  have hrun := h.readi_run devsw hi hdev hoff hn
  rw [Op.run]
  simp only [StateT.run_bind, h.ilock_run hi htype, ok_bind,
    onVol_run (s := s.copy i (some ((A i).inode i (fs i)))) hrun, Core.copy_with, Core.with_vol,
    setCopy_run, Core.copy_copy]
  rfl

/-- The copy that an operation leaves in the cache. -/
theorem Holds.copy_inode (h : Holds Z s A fs) (hi : i < Z.sb.ninodes) (htype : (A i).type ≠ 0) :
    Holds Z (s.copy i (some ((A i).inode i (fs i)))) A fs := by
  refine h.copy fun ip' heq => ?_
  cases heq
  exact ⟨hi, htype, (h.inode_eq hi).symm⟩

theorem Holds.read (h : Holds Z s A fs) {off n : Nat} (hi : i < Z.sb.ninodes)
    (htype : (A i).type ≠ 0) (hdev : (A i).type ≠ T_DEV) (hoff : off < 2 ^ 32) (hn : n < 2 ^ 32) :
    Meets Z devsw (.read i off n) s A where
  ok r A' hspec := by
    cases hspec
    exact ⟨_, fs, [], h.read_run devsw hi htype hdev hoff hn, h.copy_inode hi htype, logs_nil ..⟩
  error msg hspec := by cases hspec

/-- The blocks that an operation on inode `i` may log. -/
def LoggableAt (Z : Zone) (i x : Nat) : Prop :=
  (Bitmap Z.sb x ∨ x < Z.lim ∧ ¬ Z.taken x) ∨ x = IBLOCK i

theorem LoggableAt.loggable (hi : i < Z.sb.ninodes) {x : Nat}
    (h : LoggableAt (Z.others fs i) i x) : Loggable Z x := by
  rcases h with (hx | ⟨hlt, hnot⟩) | hx
  · exact .inl hx
  · exact .inr (.inr ⟨hlt, fun hR => hnot (.inl hR)⟩)
  · exact .inr (.inl ⟨i, hi, hx⟩)

/-- What an operation on inode `i` did on the volume. -/
theorem effect_of_writes {S : Nat → Prop} (howns : Owns (Z.others fs i) w.disk g)
    (hlies : Lies w.disk i e g) (hwrites : Writes S v w)
    (hS : ∀ x, S x → LoggableAt (Z.others fs i) i x)
    (hdinode : ∀ j, j < Z.sb.ninodes → j ≠ i → dinode w.disk j = dinode v.disk j) :
    Effect Z fs i v w e g where
  owns := howns
  lies := hlies
  dinode := hdinode
  frame x htaken hbit hne := hwrites.frame fun hx => by
    rcases hS x hx with (hx | hx) | hx
    · exact hbit hx
    · exact hx.2 htaken
    · exact hne hx

/-- The blocks that a write logs: one of the bitmap, the indirect block, the inode and
at most four of data. -/
theorem touched_few {sb : Superblock} (hsize : sb.size ≤ BPB) {f : File} {off n : Nat}
    (hn : n ≤ 3 * 512) : ∃ t : Finset Nat,
      (∀ x, TouchedIn sb f off n x ∨ x = IBLOCK i → x ∈ t) ∧ t.card ≤ 7 := by
  refine ⟨{BBLOCK 0 sb.ninodes, f.ind, IBLOCK i} ∪
    (Finset.range 4).image fun k => f.blocks.getD (off / 512 + k) 0, ?_, ?_⟩
  · rintro x ((hx | ⟨rfl, -⟩ | ⟨k, hlow, hhigh, hx⟩) | rfl)
    · simp [hx.eq_zero hsize]
    · simp
    · refine Finset.mem_union_right _ (Finset.mem_image.mpr ⟨k - off / 512, ?_, ?_⟩)
      · exact Finset.mem_range.mpr (by omega)
      · rw [Nat.add_sub_cancel' hlow, List.getD_eq_getElem?_getD, hx, Option.getD_some]
    · simp
  · refine Nat.le_trans (Finset.card_union_le _ _) ?_
    have h₁ := Finset.card_le_three (a := BBLOCK 0 sb.ninodes) (b := f.ind) (c := IBLOCK i)
    have h₂ : ((Finset.range 4).image fun k => f.blocks.getD (off / 512 + k) 0).card ≤ 4 :=
      Finset.card_image_le
    omega

theorem writeAt_short {d : List UInt8} (hd : d.length ≤ MAXFILE * BSIZE) (off : Nat)
    (src : List UInt8) : (writeAt d off src).2.length ≤ MAXFILE * BSIZE := by
  unfold writeAt
  split
  · exact hd
  · next hok =>
    show (splice d off src).length ≤ _
    rw [length_splice (by omega)]
    omega

theorem Holds.write (h : Holds Z s A fs) {off : Nat} {src : List UInt8} (hi : i < Z.sb.ninodes)
    (htype : (A i).type ≠ 0) (hdev : (A i).type ≠ T_DEV) (hoff : off < 2 ^ 32)
    (hn : src.length < 2 ^ 32) : Meets Z devsw (.write i src off) s A := by
  have hlie := h.lies i hi
  have hlock := h.ilock_run hi htype
  have hZ := h.fixed.others fs i
  have hfits := h.usedBlocks_le_iff hi
    { A i with data := (writeAt (A i).data off src).2 }
  have hends := writei_ends devsw hZ (h.owns i hi) hlie.wf (h.current hi)
    (by rw [hlie.data]; exact hlie.short) hdev hi hoff hn
  rw [hlie.data] at hends
  rcases hends with ⟨⟨r, ip⟩, w, hrun, hr, g, hg, hwrites, hdinode⟩ | ⟨⟨hle, hmax, hroom⟩, hfail⟩
  · have hspec := hfits.mpr (by
      rw [← hg.data, ← wf_refs_length hg.wf]
      exact hg.owns.uses.length_le)
    refine ⟨fun r' A' heq => ?_, fun msg heq => ?_⟩
    · rw [Op.spec, if_pos hspec] at heq
      cases heq
      have hip : ip = Node.inode { A i with data := (writeAt (A i).data off src).2 } i g := hg.inode
      have hlies : Lies w.disk i { A i with data := (writeAt (A i).data off src).2 } g :=
        ⟨hg.wf, hg.data, writeAt_short hlie.short off src,
          by rw [← hip]; exact hip ▸ hg.current.inode, fun hzero => absurd hzero htype⟩
      have hS : ∀ x, TouchedIn Z.sb g off src.length x ∨ x = IBLOCK i →
          LoggableAt (Z.others fs i) i x := fun x hx => hx.imp (·.of_uses hg.owns) id
      obtain ⟨l, hl⟩ := hwrites.logs (Z := Z) (.write i src off)
        (fun x hx => (hS x hx).loggable hi) fun hsize hbytes => touched_few hsize hbytes
      refine ⟨(s.with w).copy i (some ip), _, l, ?_,
        h.replace hi (effect_of_writes hg.owns hlies hwrites hS hdinode) _ ?_, hl⟩
      · rw [Op.run]
        simp only [StateT.run_bind, hlock, ok_bind,
          onVol_run (s := s.copy i (some ((A i).inode i (fs i)))) hrun, Core.copy_with, setCopy_run,
          Core.copy_copy]
        rw [← hr]
        rfl
      · rintro ip' hip'
        cases hip'
        exact ⟨by rw [hip]; exact htype, by rw [hlies.inode, ← hip]⟩
    · rw [Op.spec, if_pos hspec] at heq
      cases heq
  · have hlong : (writeAt (A i).data off src).2 = splice (A i).data off src := by
      rw [writeAt, if_neg (by omega)]
    have hspec : ¬ usedBlocks Z.sb.ninodes (Function.update A i
        { A i with data := (writeAt (A i).data off src).2 }) ≤ room Z := by
      rw [hfits, hlong, length_splice hle]
      exact Nat.not_le_of_lt (hroom.mono (Nat.le_max_right _ _))
    refine ⟨fun r' A' heq => ?_, fun msg heq hlim => ?_⟩
    · rw [Op.spec, if_neg hspec] at heq
      cases heq
    · rw [Op.spec, if_neg hspec] at heq
      cases heq
      rw [Op.run]
      simp only [StateT.run_bind, hlock, ok_bind, error_bind,
        onVol_error (s := s.copy i (some ((A i).inode i (fs i)))) (hfail hlim)]

/-- A `struct dinode` was written. -/
theorem Holds.putDinode (h : Holds Z s A fs) (hi : i < Z.sb.ninodes) {d : Dinode} (op : Op)
    (hdata : e.data = (A i).data) (hinode : Inode.load i d = e.inode i (fs i))
    (hunused : e.type = 0 → e.data = []) :
    Effect Z fs i s.vol (s.vol.putDinode i d) e (fs i) ∧
      ∃ l, Logs Z op s.vol (s.vol.putDinode i d) l := by
  have hlie := h.lies i hi
  have hwrites : Writes (fun x => x = IBLOCK i) s.vol (s.vol.putDinode i d) := writes_write rfl
  refine ⟨effect_of_writes ((h.owns i hi).putDinode (h.fixed.others fs i) hi d) ?_ hwrites
    (fun x hx => .inr hx) fun j _ hne => dinode_putDinode_ne hne, hwrites.logs op ?_ ?_⟩
  · exact ⟨hlie.wf, by rw [hlie.data, hdata], by rw [hdata]; exact hlie.short,
      by rw [inodeAt, dinode_putDinode_self]; exact hinode, hunused⟩
  · rintro x rfl
    exact .inr (.inl ⟨i, hi, rfl⟩)
  · exact fun _ _ => ⟨{IBLOCK i}, fun x hx => Finset.mem_singleton.mpr hx, by simp⟩

theorem Holds.update (h : Holds Z s A fs) {major minor nlink : Nat} (hi : i < Z.sb.ninodes)
    (htype : (A i).type ≠ 0) (hmajor : major < 2 ^ 16) (hminor : minor < 2 ^ 16)
    (hnlink : nlink < 2 ^ 16) : Meets Z devsw (.update i major minor nlink) s A where
  ok r A' hspec := by
    cases hspec
    generalize he : { A i with major := major, minor := minor, nlink := nlink : Node } = e
    have hfits : (e.inode i (fs i)).Fits := by
      rw [← he]
      exact { (h.current hi).fits with major := hmajor, minor := hminor, nlink := hnlink }
    have htype' : (e.inode i (fs i)).type ≠ 0 := by rwa [← he]
    have hload := load_store hfits (dinode s.vol.disk i)
    obtain ⟨heffect, l, hl⟩ := h.putDinode hi (.update i major minor nlink) (e := e)
      (by rw [← he]) hload fun hzero => absurd hzero htype'
    refine ⟨(s.with _).copy i (some (e.inode i (fs i))), _, l, ?_, h.replace hi heffect _ ?_, hl⟩
    · rw [Op.run]
      simp only [StateT.run_bind, h.ilock_run hi htype, ok_bind,
        onVol_run (s := s.copy i (some ((A i).inode i (fs i)))) iupdate_run, Core.copy_with,
        setCopy_run, Core.copy_copy]
      rw [← he]
      rfl
    · rintro ip' ⟨⟩
      exact ⟨htype', heffect.lies.inode.symm⟩
  error msg hspec := by cases hspec

/-- A file without blocks. -/
def noBlocks (f : File) : File := { f with data := [], blocks := [], ind := 0 }

theorem addrsOf_noBlocks (f : File) : addrsOf (noBlocks f) = fun _ => 0 := by
  funext k
  unfold addrsOf noBlocks
  split
  · rfl
  · split <;> rfl

theorem noBlocks_wf (f : File) : (noBlocks f).Wf := ⟨by simp [noBlocks], by simp [noBlocks]⟩

theorem owns_noBlocks {disk : Image} (h : Uses Z [] disk) (f : File) : Owns Z disk (noBlocks f) where
  uses := h
  ind_ne_zero hlt := absurd hlt (Nat.not_lt_zero 12)
  filled := ⟨nofun, fun hne => absurd rfl hne⟩

/-- `iput` of the last reference to an inode without links. -/
theorem Holds.ifree (h : Holds Z s A fs) (hi : i < Z.sb.ninodes) :
    ∃ w, (ifree ((A i).inode i (fs i))).run s.vol = .ok ((), w) ∧
      Effect Z fs i s.vol w { A i with type := 0, data := [] } (noBlocks (fs i)) ∧
      Writes (fun x => Bitmap Z.sb x ∨ x = IBLOCK i) s.vol w := by
  have hlie := h.lies i hi
  have hZ := h.fixed.others fs i
  obtain ⟨ip', w, hrun, rfl, hinode, huses, hwrites, hdinode⟩ := itrunc_returns hZ (h.owns i hi)
    hlie.wf (h.current hi) (by rw [hlie.data]; exact hlie.short) hi
  generalize he : { A i with type := 0, data := [] : Node } = e
  have hip : { ((A i).inode i (fs i)).emptied with type := 0 } = e.inode i (noBlocks (fs i)) := by
    subst he
    simp only [Node.inode, addrsOf_noBlocks]
    rfl
  have hfits : (e.inode i (noBlocks (fs i))).Fits := by
    rw [← hip]
    exact { (h.current hi).fits.emptied with type := Nat.pow_pos (by decide) }
  have hwrites' : Writes (fun x => Bitmap Z.sb x ∨ x = IBLOCK i) s.vol
      (w.setInode (e.inode i (noBlocks (fs i)))) := hwrites.trans (writes_write (.inr rfl))
  refine ⟨w.setInode (e.inode i (noBlocks (fs i))), ?_, ?_, hwrites'⟩
  · rw [Blocks.ifree, StateT.run_bind, hrun, ← hip]
    rfl
  · refine effect_of_writes ((owns_noBlocks huses (fs i)).putDinode hZ hi _) ?_ hwrites'
      (fun x hx => hx.imp .inl id) fun j hj hne => ?_
    · exact ⟨noBlocks_wf _, by rw [← he]; rfl, by rw [← he]; exact Nat.zero_le _,
        inodeAt_setInode hfits, fun _ => by rw [← he]⟩
    · rw [Vol.setInode]
      exact (dinode_putDinode_ne hne).trans (hdinode j hj hne)

theorem Holds.put (h : Holds Z s A fs) (hi : i < Z.sb.ninodes) (htype : (A i).type ≠ 0) :
    Meets Z devsw (.put i) s A where
  ok r A' hspec := by
    by_cases hnlink : (A i).nlink = 0
    · obtain ⟨w, hrun, heffect, hwrites⟩ := h.ifree hi
      rw [Op.spec, if_pos hnlink] at hspec
      cases hspec
      obtain ⟨l, hl⟩ := hwrites.logs (Z := Z) (.put i)
        (fun x hx =>
          (show LoggableAt (Z.others fs i) i x from hx.imp .inl id).loggable hi)
        fun hsize _ => ⟨{BBLOCK 0 Z.sb.ninodes, IBLOCK i}, fun x hx => by
          rcases hx with hx | rfl
          · simp [hx.eq_zero hsize]
          · simp, Nat.le_trans Finset.card_le_two (by decide)⟩
      refine ⟨(s.with w).copy i none, _, l, ?_, h.replace hi heffect none nofun, hl⟩
      rw [Op.run, iput]
      simp only [StateT.run_bind, h.ilock_run hi htype, ok_bind, StateT.run_get, pure_bind,
        Core.copy_self]
      have hlink : ((A i).inode i (fs i)).nlink = 0 := hnlink
      simp only [if_pos hlink, StateT.run_bind, ok_bind,
        onVol_run (s := s.copy i (some ((A i).inode i (fs i)))) hrun, Core.copy_with, setCopy_run,
        Core.copy_copy]
      rfl
    · rw [Op.spec, if_neg hnlink] at hspec
      cases hspec
      refine ⟨s.copy i none, fs, [], ?_, h.copy nofun, logs_nil ..⟩
      rw [Op.run, iput]
      simp only [StateT.run_bind, h.ilock_run hi htype, ok_bind, StateT.run_get, pure_bind,
        Core.copy_self]
      have hlink : ((A i).inode i (fs i)).nlink ≠ 0 := hnlink
      rw [if_neg hlink]
      simp only [setCopy_run, Core.copy_copy]
      rfl
  error msg hspec := by
    rw [Op.spec] at hspec
    split at hspec <;> cases hspec

theorem Holds.recycle (h : Holds Z s A fs) : Meets Z devsw (.recycle i) s A where
  ok r A' hspec := by
    cases hspec
    exact ⟨s.copy i none, fs, [], rfl, h.copy nofun, logs_nil ..⟩
  error msg hspec := by cases hspec

/-- The loop of `ialloc` finds the first inode whose type is 0. -/
theorem iallocLoop_run (type : Nat) (l : List Nat) : ∀ v : Vol,
    (∀ i, l.find? (fun i => Dinode.type (dinode v.disk i) = 0) = some i →
      (iallocLoop type l).run v = .ok (i, v.putDinode i (putLe (zeroBuf 64) 0 2 type))) ∧
    (l.find? (fun i => Dinode.type (dinode v.disk i) = 0) = none →
      (iallocLoop type l).run v = .error "ialloc: no inodes") := by
  intro v
  induction l with
  | nil => exact ⟨fun i hi => (by cases hi), fun _ => rfl⟩
  | cons i l ih =>
    by_cases hzero : Dinode.type (dinode v.disk i) = 0
    · have hfound : (i :: l).find? (fun i => Dinode.type (dinode v.disk i) = 0) = some i := by
        rw [List.find?_cons_of_pos (by simpa using hzero)]
      have hrun : (iallocLoop type (i :: l)).run v =
          .ok (i, v.putDinode i (putLe (zeroBuf 64) 0 2 type)) := by
        have hzero' : Dinode.type (slice (v.disk (IBLOCK i)) (i % IPB * 64) 64) = 0 := hzero
        rw [iallocLoop]
        simp only [bread, bind_assoc, StateT.run_bind, StateT.run_get, pure_bind, hzero', if_true]
        rfl
      rw [hfound]
      exact ⟨fun j hj => by cases hj; exact hrun, fun hnone => by cases hnone⟩
    · have hnext : (i :: l).find? (fun i => Dinode.type (dinode v.disk i) = 0) =
          l.find? (fun i => Dinode.type (dinode v.disk i) = 0) := by
        rw [List.find?_cons_of_neg (by simpa using hzero)]
      have hrun : (iallocLoop type (i :: l)).run v = (iallocLoop type l).run v := by
        have hzero' : ¬ Dinode.type (slice (v.disk (IBLOCK i)) (i % IPB * 64) 64) = 0 := hzero
        rw [iallocLoop]
        simp only [bread, bind_assoc, StateT.run_bind, StateT.run_get, pure_bind, hzero', if_false]
      rw [hnext, hrun]
      exact ih

/-- The inode that `ialloc` finds on the disk. -/
theorem Holds.freeInode_eq (h : Holds Z s A fs) :
    (List.range' 1 (Z.sb.ninodes - 1)).find? (fun i => Dinode.type (dinode s.vol.disk i) = 0) =
      freeInode Z.sb.ninodes A := by
  refine List.find?_congr fun i hi => ?_
  obtain ⟨hlow, hhigh⟩ := List.mem_range'_1.mp hi
  have htype : Dinode.type (dinode s.vol.disk i) = (A i).type :=
    congrArg Inode.type (h.inode_eq (show i < Z.sb.ninodes by omega))
  rw [htype]

theorem freeInode_lt {n : Nat} (h : freeInode n A = some i) : i < n ∧ (A i).type = 0 := by
  have hmem := List.mem_range'_1.mp (List.mem_of_find?_eq_some h)
  exact ⟨by omega, by simpa using List.find?_some h⟩

/-- The inode of a file without bytes. -/
theorem load_new {f : File} (hf : f.Wf) (hdata : f.data = []) {type : Nat} (hlt : type < 2 ^ 16) :
    Inode.load i (putLe (zeroBuf 64) 0 2 type) =
      Node.inode { type := type, major := 0, minor := 0, nlink := 0, data := [] } i f := by
  have hblocks : f.blocks = [] := by
    have hlen := hf.blocks_length
    rw [hdata] at hlen
    exact List.length_eq_zero_iff.mp hlen
  have hind : f.ind = 0 := by
    by_contra hne
    have hlt := hf.ind_ne_zero.mp hne
    rw [hblocks] at hlt
    exact absurd hlt (Nat.not_lt_zero 12)
  have haddrs : addrsOf f = fun _ => 0 := by
    rw [← addrsOf_noBlocks f]
    unfold addrsOf noBlocks
    rw [hblocks, hind]
  have hfield : ∀ {off c}, off + c ≤ 64 → 2 ≤ off →
      getLe (putLe (zeroBuf 64) 0 2 type) off c = 0 := fun hin hoff => by
    rw [getLe_putLe_of_disjoint _ hin (.inr (by omega)), getLe_zeroBuf]
  have htype : Dinode.type (putLe (zeroBuf 64) 0 2 type) = type :=
    getLe_putLe_of_lt _ (by decide) hlt
  rw [Inode.load, Node.inode, haddrs, hdata, htype, Dinode.major, Dinode.minor, Dinode.nlink,
    Dinode.size, hfield (by decide) (by decide), hfield (by decide) (by decide),
    hfield (by decide) (by decide), hfield (by decide) (by decide)]
  congr 1
  funext k
  rcases Nat.lt_or_ge k 13 with hk | hk
  · exact hfield (by omega) (by omega)
  · exact (load_fits 0 _).rest k hk

theorem Holds.alloc (h : Holds Z s A fs) {type : Nat} (hlt : type < 2 ^ 16) :
    Meets Z devsw (.alloc type) s A := by
  have hialloc : (ialloc type).run s.vol =
      (iallocLoop type (List.range' 1 (Z.sb.ninodes - 1))).run s.vol := by
    rw [← h.super]
    rfl
  obtain ⟨hsome, hnone⟩ := iallocLoop_run type (List.range' 1 (Z.sb.ninodes - 1)) s.vol
  rw [h.freeInode_eq] at hsome hnone
  refine ⟨fun r A' hspec => ?_, fun msg hspec _ => ?_⟩
  · rw [Op.spec] at hspec
    cases hfree : freeInode Z.sb.ninodes A with
    | none =>
      rw [hfree] at hspec
      cases hspec
    | some i =>
      rw [hfree] at hspec
      cases hspec
      obtain ⟨hi, hzero⟩ := freeInode_lt hfree
      have hlie := h.lies i hi
      have hdata := hlie.unused hzero
      obtain ⟨heffect, l, hl⟩ := h.putDinode hi (.alloc type) hdata.symm
        (load_new hlie.wf (hlie.data.trans hdata) hlt) fun _ => rfl
      have huncached : s.icache i = none := by
        cases hc : s.icache i with
        | none => rfl
        | some ip =>
          obtain ⟨-, htype, rfl⟩ := h.cache i ip hc
          rw [h.inode_eq hi] at htype
          exact absurd hzero htype
      have hcopy : ∀ w, (s.with w).copy i none = s.with w := fun w => by
        rw [Core.copy, ← huncached]
        exact congrArg (Core.mk w) (Function.update_eq_self i s.icache)
      refine ⟨s.with _, _, l, ?_, hcopy _ ▸ h.replace hi heffect none nofun, hl⟩
      rw [Op.run, StateT.run_bind, onVol_run (hialloc.trans (hsome i hfree))]
      rfl
  · rw [Op.spec] at hspec
    cases hfree : freeInode Z.sb.ninodes A with
    | some i =>
      rw [hfree] at hspec
      cases hspec
    | none =>
      rw [hfree] at hspec
      cases hspec
      rw [Op.run, StateT.run_bind, onVol_error (hialloc.trans (hnone hfree))]
      rfl

/-- Every operation does what its specification says. -/
theorem Holds.step (devsw : Devsw) (h : Holds Z s A fs) {op : Op} (hop : op.Allowed Z.sb.ninodes A) :
    Meets Z devsw op s A := by
  cases op with
  | read inum off n =>
    obtain ⟨hi, htype, hdev, hoff, hn⟩ := hop
    exact h.read hi htype hdev hoff hn
  | write inum src off =>
    obtain ⟨hi, htype, hdev, hoff, hn⟩ := hop
    exact h.write hi htype hdev hoff hn
  | alloc type => exact h.alloc hop
  | update inum major minor nlink =>
    obtain ⟨hi, htype, hmajor, hminor, hnlink⟩ := hop
    exact h.update hi htype hmajor hminor hnlink
  | put inum => exact h.put hop.1 hop.2
  | recycle inum => exact h.recycle

/-! ## Runs -/

/-- Operations one after the other. -/
def runOps (devsw : Devsw) : List Op → CoreM (List Result)
  | [] => return []
  | op :: ops => do
    let r ← op.run devsw
    let rs ← runOps devsw ops
    return r :: rs

/-- What operations one after the other do to the inodes. -/
def specOps (ninodes cap : Nat) : List Op → Files → Except String (List Result × Files)
  | [], A => .ok ([], A)
  | op :: ops, A => do
    let (r, A) ← op.spec ninodes cap A
    let (rs, A) ← specOps ninodes cap ops A
    return (r :: rs, A)

/-- Each operation is allowed when it comes. -/
def AllowedOps (ninodes cap : Nat) : List Op → Files → Prop
  | [], _ => True
  | op :: ops, A => op.Allowed ninodes A ∧
    ∀ r A', op.spec ninodes cap A = .ok (r, A') → AllowedOps ninodes cap ops A'

theorem specOps_cons {ninodes cap : Nat} {op : Op} {ops : List Op} {rs : List Result} {A' : Files}
    (h : specOps ninodes cap (op :: ops) A = .ok (rs, A')) :
    ∃ r A₁ rs', op.spec ninodes cap A = .ok (r, A₁) ∧
      specOps ninodes cap ops A₁ = .ok (rs', A') ∧ rs = r :: rs' := by
  rw [specOps] at h
  obtain ⟨⟨r, A₁⟩, hspec, h⟩ := bind_eq_ok.mp h
  obtain ⟨⟨rs', A₂⟩, hrest, h⟩ := bind_eq_ok.mp h
  cases h
  exact ⟨r, A₁, rs', hspec, hrest, rfl⟩

theorem specOps_cons_error {ninodes cap : Nat} {op : Op} {ops : List Op} {msg : String}
    (h : specOps ninodes cap (op :: ops) A = .error msg) :
    op.spec ninodes cap A = .error msg ∨
      ∃ r A₁, op.spec ninodes cap A = .ok (r, A₁) ∧ specOps ninodes cap ops A₁ = .error msg := by
  rw [specOps] at h
  cases hspec : op.spec ninodes cap A with
  | error msg' =>
    rw [hspec] at h
    cases h
    exact .inl rfl
  | ok x =>
    obtain ⟨r, A₁⟩ := x
    rw [hspec, ok_bind] at h
    refine .inr ⟨r, A₁, rfl, ?_⟩
    cases hrest : specOps ninodes cap ops A₁ with
    | error msg' =>
      simp only [hrest, error_bind] at h
      cases h
      rfl
    | ok y =>
      simp only [hrest, ok_bind] at h
      cases h

theorem runOps_cons {op : Op} {ops : List Op} {r : Result} {rs : List Result} {s₁ s₂ : Core}
    (hop : (op.run devsw).run s = .ok (r, s₁)) (hops : (runOps devsw ops).run s₁ = .ok (rs, s₂)) :
    (runOps devsw (op :: ops)).run s = .ok (r :: rs, s₂) := by
  rw [runOps, StateT.run_bind, hop, ok_bind, StateT.run_bind, hops]
  rfl

/-- The volume after a run of operations is the one that the specification says,
and the operations return what it says.  Where the limit is the end of the disk, the
run panics where the specification does. -/
theorem Holds.run (devsw : Devsw) (ops : List Op) :
    ∀ {s : Core} {A : Files} {fs : Nat → File}, Holds Z s A fs →
    AllowedOps Z.sb.ninodes (room Z) ops A →
    (∀ rs A', specOps Z.sb.ninodes (room Z) ops A = .ok (rs, A') →
      ∃ s' fs' l, (runOps devsw ops).run s = .ok (rs, s') ∧ Holds Z s' A' fs' ∧
        Logged Z s.vol s'.vol l) ∧
    (∀ msg, specOps Z.sb.ninodes (room Z) ops A = .error msg → Z.lim = Z.sb.size →
      (runOps devsw ops).run s = .error msg) := by
  induction ops with
  | nil =>
    intro s A fs h _
    refine ⟨fun rs A' hspec => ?_, nofun⟩
    cases hspec
    exact ⟨s, fs, [], rfl, h, logged_nil Z s.vol⟩
  | cons op ops ih =>
    intro s A fs h hops
    obtain ⟨hop, hrest⟩ := hops
    have hmeets := h.step devsw hop
    refine ⟨fun rs A' hspec => ?_, fun msg hspec hlim => ?_⟩
    · obtain ⟨r, A₁, rs', hfirst, hspec', rfl⟩ := specOps_cons hspec
      obtain ⟨s₁, fs₁, l, hrun, h₁, hl⟩ := hmeets.ok r A₁ hfirst
      obtain ⟨s', fs', l', hrun', h', hl'⟩ := (ih h₁ (hrest r A₁ hfirst)).1 rs' A' hspec'
      exact ⟨s', fs', l ++ l', runOps_cons hrun hrun', h', hl.toLogged.trans hl'⟩
    · rw [runOps, StateT.run_bind]
      rcases specOps_cons_error hspec with hfirst | ⟨r, A₁, hfirst, hspec'⟩
      · rw [hmeets.error msg hfirst hlim, error_bind]
      · obtain ⟨s₁, fs₁, -, hrun, h₁, -⟩ := hmeets.ok r A₁ hfirst
        rw [hrun, ok_bind, StateT.run_bind, (ih h₁ (hrest r A₁ hfirst)).2 msg hspec' hlim,
          error_bind]

end Xv6Arm.Blocks
