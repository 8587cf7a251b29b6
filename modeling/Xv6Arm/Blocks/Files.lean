import Xv6Arm.Blocks.Bitmap
import Xv6Arm.Lib.Splice

/-!
# Files and their blocks

What `bmap`, `readi` and `writei` do to one file.  A file is given by its bytes,
its data blocks in order and its indirect block, as in the images that `mkfs`
makes; `addrsOf f` are the addresses in its inode.  `Owns Z disk f` says that
the file has its blocks to itself: the bitmap marks them besides the blocks of
others, and they hold its bytes.

`bmap` gives the next block of the file or a block it has (`bmap_ends`).  A write
of bytes at an offset up to the end of the file is `splice` on its bytes
(`writeLoop_ends`), and a read gives the bytes there (`readLoop_run`).  The only
panic is that of `balloc`, and it happens only when the blocks which are not those
of others are fewer than the file needs.
-/

namespace Xv6Arm.Blocks

open Bytes Fs Mkfs Fallible Splice

variable {Z : Zone} {v w : Vol} {disk disk' : Image} {f g : File}
  {ip : Inode} {b k : Nat}

/-! ## Files -/

/-- The addresses in the inode of a file. -/
def addrsOf (f : File) (k : Nat) : Nat :=
  if k < NDIRECT then f.blocks.getD k 0 else if k = NDIRECT then f.ind else 0

/-- The file has its blocks to itself, and they hold its bytes. -/
structure Owns (Z : Zone) (disk : Image) (f : File) : Prop where
  uses : Uses Z f.refs disk
  ind_ne_zero : 12 < f.blocks.length → f.ind ≠ 0
  filled : Mkfs.Filled disk f

/-- A file with one more block. -/
def push (f : File) (b : Nat) : File := { f with blocks := f.blocks ++ [b] }

/-- The blocks of `f` are the first of `g`, and the indirect block stays. -/
structure Extends (f g : File) : Prop where
  blocks : f.blocks <+: g.blocks
  ind : f.ind ≠ 0 → g.ind = f.ind
  same : g.blocks.length = f.blocks.length → g.ind = f.ind

theorem Extends.refl (f : File) : Extends f f := ⟨List.prefix_rfl, fun _ => rfl, fun _ => rfl⟩

theorem Extends.trans {h : File} (h₁ : Extends f g) (h₂ : Extends g h) : Extends f h where
  blocks := h₁.blocks.trans h₂.blocks
  ind hne := by
    have hg := h₁.ind hne
    rw [h₂.ind (hg ▸ hne), hg]
  same hlen := by
    have hle := h₁.blocks.length_le
    have hle' := h₂.blocks.length_le
    rw [h₂.same (by omega), h₁.same (by omega)]

theorem Extends.getElem? (h : Extends f g) {x : Nat} (hx : f.blocks[k]? = some x) :
    g.blocks[k]? = some x := by
  obtain ⟨l, hl⟩ := h.blocks
  obtain ⟨hk, -⟩ := List.getElem?_eq_some_iff.mp hx
  rw [← hl, List.getElem?_append_left hk, hx]

theorem refs_length : f.refs.length = f.blocks.length + if f.ind ≠ 0 then 1 else 0 := by
  unfold File.refs
  by_cases h : f.ind = 0 <;> simp [h]

theorem refs_push : (b :: f.refs).Perm (push f b).refs := by
  unfold push File.refs
  rw [List.append_assoc]
  exact List.perm_middle.symm

theorem refs_ind (hf : f.ind = 0) (hb : b ≠ 0) :
    (b :: f.refs).Perm { f with ind := b : File }.refs := by
  unfold File.refs
  simp only [hf, ne_eq, not_true_eq_false, decide_false, Bool.false_eq_true, not_false_eq_true,
    List.filter_cons_of_neg, List.filter_nil, List.append_nil, hb, decide_true,
    List.filter_cons_of_pos]
  exact (List.perm_append_singleton b f.blocks).symm

/-- The list of the blocks of a file, with one more. -/
theorem getD_push (i : Nat) : (f.blocks ++ [b]).getD i 0 =
    if i = f.blocks.length then b else f.blocks.getD i 0 := by
  split
  · next h =>
    subst h
    simp
  · next h =>
    rcases Nat.lt_or_ge i f.blocks.length with hi | hi
    · rw [List.getD_append _ _ _ _ hi]
    · have hge : (f.blocks ++ [b]).length ≤ i := by
        rw [List.length_append, List.length_singleton]
        omega
      rw [List.getD_eq_default _ _ hge, List.getD_eq_default _ _ hi]

theorem addrsOf_push (hk : f.blocks.length < NDIRECT) :
    Function.update (addrsOf f) f.blocks.length b = addrsOf (push f b) := by
  funext k
  unfold addrsOf push
  rw [getD_push]
  by_cases hb : k = f.blocks.length
  · subst hb
    rw [Function.update_self, if_pos hk, if_pos rfl]
  · rw [Function.update_of_ne hb, if_neg hb]

theorem addrsOf_push_indirect (hk : NDIRECT ≤ f.blocks.length) :
    addrsOf (push f b) = addrsOf f := by
  funext k
  unfold addrsOf push
  split
  · next hlt => rw [List.getD_append _ _ _ _ (by omega)]
  · rfl

theorem addrsOf_ind : Function.update (addrsOf f) NDIRECT b = addrsOf { f with ind := b } := by
  funext k
  unfold addrsOf
  by_cases hb : k = NDIRECT
  · subst hb
    simp
  · rw [Function.update_of_ne hb, if_neg hb, if_neg hb]

/-! ## New blocks -/

theorem writes_take (hZ : Z.Fixed) (hb : b < Z.lim) :
    Writes (fun x => Bitmap Z.sb x ∨ x = b) v (v.take Z.sb b) :=
  .trans (writes_write (.inl ⟨b, Nat.lt_of_lt_of_le hb hZ.lim_le, rfl⟩)) (writes_write (.inr rfl))

theorem take_disk_self : (v.take Z.sb b).disk b = zeroBuf 512 := Function.update_self ..

/-- A file lies on another disk if that has the same blocks. -/
theorem filled_congr (h : Mkfs.Filled disk f) (hsame : ∀ x ∈ f.refs, disk' x = disk x) :
    Mkfs.Filled disk' f where
  data k x hx o ho := by
    rw [hsame x (mem_refs.mpr (.inl (List.mem_of_getElem? hx))), h.data k x hx o ho]
  ind hne j hj := by rw [hsame _ (mem_refs.mpr (.inr ⟨rfl, hne⟩)), h.ind hne j hj]

/-- Another file than that of the new block. -/
theorem Owns.filled_take (hZ : Z.Fixed) (h : Owns Z v.disk f) (hb : b < Z.lim)
    (hmem : b ∉ f.refs) : Mkfs.Filled (v.take Z.sb b).disk f := by
  refine filled_congr h.filled fun x hx => (writes_take hZ hb).frame ?_
  rintro (hbit | rfl)
  · exact (h.uses.outside hZ hx).2.2 hbit
  · exact hmem hx

/-- A block of zeros behind the blocks of a file. -/
theorem filled_push
    (hdata : ∀ k x, f.blocks[k]? = some x → ∀ o, o < 512 →
      byteAt (disk x) o = f.data.getD (512 * k + o) 0)
    (hzero : disk b = zeroBuf 512)
    (hlen : f.data.length ≤ 512 * f.blocks.length)
    (hind : f.ind ≠ 0 → ∀ j, j < 128 →
      getLe (disk f.ind) (4 * j) 4 = (f.blocks ++ [b]).getD (12 + j) 0) :
    Mkfs.Filled disk (push f b) where
  data k x hx o ho := by
    rcases Nat.lt_or_ge k f.blocks.length with hk | hk
    · exact hdata k x (by rwa [push, List.getElem?_append_left hk] at hx) o ho
    · rw [push, List.getElem?_append_right hk, List.getElem?_singleton] at hx
      split at hx
      · cases hx
        show _ = f.data.getD _ 0
        rw [hzero, byteAt_zeroBuf, List.getD_eq_default _ _ (by omega)]
      · cases hx
  ind := hind

/-- The inode names the new block. -/
theorem Owns.push_direct (hZ : Z.Fixed) (h : Owns Z v.disk f) (hb : b < Z.lim)
    (hmem : b ∉ f.refs) (huses : Uses Z (b :: f.refs) (v.take Z.sb b).disk)
    (hlen : f.data.length ≤ 512 * f.blocks.length) (hk : f.blocks.length < NDIRECT)
    (hind : f.ind = 0) : Owns Z (v.take Z.sb b).disk (push f b) where
  uses := huses.perm refs_push
  ind_ne_zero hlt := by
    have hk : f.blocks.length < 12 := hk
    simp only [push, List.length_append, List.length_singleton] at hlt
    omega
  filled := filled_push (h.filled_take hZ hb hmem).data take_disk_self hlen
    fun hne => absurd hind hne

/-- The file gets an indirect block. -/
theorem Owns.reserve (hZ : Z.Fixed) (h : Owns Z v.disk f) (hb : b < Z.lim)
    (hmem : b ∉ f.refs) (huses : Uses Z (b :: f.refs) (v.take Z.sb b).disk)
    (hk : f.blocks.length = NDIRECT) (hind : f.ind = 0) :
    Owns Z (v.take Z.sb b).disk { f with ind := b } where
  uses := huses.perm (refs_ind hind (huses.outside hZ List.mem_cons_self).1)
  ind_ne_zero _ := (huses.outside hZ List.mem_cons_self).1
  filled :=
    { data := (h.filled_take hZ hb hmem).data
      ind := fun _ j _ => by
        have hge : f.blocks.length ≤ 12 + j := by
          rw [hk]
          exact Nat.le_add_right 12 j
        show getLe ((v.take Z.sb b).disk b) _ _ = f.blocks.getD (12 + j) 0
        rw [take_disk_self, getLe_zeroBuf, List.getD_eq_default _ _ hge] }

theorem Uses.lim_lt {l : List Nat} (hZ : Z.Fixed) (h : Uses Z l disk) : Z.lim < 256 ^ 4 := by
  refine Nat.lt_of_le_of_lt hZ.lim_le ?_
  rw [← h.super]
  exact getLe_lt ..

/-- The indirect block names the new block. -/
theorem Owns.push_indirect (hZ : Z.Fixed) (h : Owns Z v.disk f) (hb : b < Z.lim)
    (hmem : b ∉ f.refs) (huses : Uses Z (b :: f.refs) (v.take Z.sb b).disk)
    (hlen : f.data.length ≤ 512 * f.blocks.length) (hk : 12 ≤ f.blocks.length)
    (hmax : f.blocks.length < 140) (hne : f.ind ≠ 0) :
    Owns Z (Function.update (v.take Z.sb b).disk f.ind
      (putLe (v.disk f.ind) (4 * (f.blocks.length - NDIRECT)) 4 b)) (push f b) := by
  have hind : f.ind ∈ f.refs := mem_refs.mpr (.inr ⟨rfl, hne⟩)
  obtain ⟨-, hone, hbits⟩ := huses.outside hZ (List.mem_cons_of_mem b hind)
  have hbind : b ≠ f.ind := fun heq => hmem (heq ▸ hind)
  have hnodup := (refs_nodup_iff.mp h.uses.nodup).2 hne
  refine ⟨(huses.perm refs_push).update hZ hone hbits _, fun _ => hne, filled_push ?_ ?_ hlen ?_⟩
  · intro k x hx
    have hxind : x ≠ f.ind := fun heq => hnodup (heq ▸ List.mem_of_getElem? hx)
    rw [Function.update_of_ne hxind]
    exact (h.filled_take hZ hb hmem).data k x hx
  · rw [Function.update_of_ne hbind, take_disk_self]
  · intro _ j hj
    have hold := h.filled.ind hne j hj
    have hlt := huses.lim_lt hZ
    rw [Function.update_self, getD_push]
    show getLe (putLe _ (4 * (f.blocks.length - 12)) 4 b) (4 * j) 4 = _
    split
    · next heq =>
      rw [show 4 * (f.blocks.length - 12) = 4 * j by omega,
        getLe_putLe_of_lt _ (by omega) (by omega)]
    · next hdiff => rw [getLe_putLe_of_disjoint _ (by omega) (by omega), hold]

/-! ## The blocks of a file -/

/-- The blocks that a write of block `k` of a file may log. -/
def Touched (sb : Superblock) (f : File) (k x : Nat) : Prop :=
  Bitmap sb x ∨ (x = f.ind ∧ x ≠ 0) ∨ f.blocks[k]? = some x

/-- What `bmap` made of the file `f` when it was asked for block `k`: the file `g`
has this block at the address `x`. -/
structure Mapped (Z : Zone) (ip : Inode) (f : File) (k : Nat) (v : Vol)
    (x : Nat) (ip' : Inode) (w : Vol) (g : File) : Prop where
  extends_ : Extends f g
  data : g.data = f.data
  ind : g.ind ≠ 0 ↔ 12 < g.blocks.length
  length : g.blocks.length = max f.blocks.length (k + 1)
  block : g.blocks[k]? = some x
  inode : ip' = { ip with addrs := addrsOf g }
  owns : Owns Z w.disk g
  writes : Writes (Touched Z.sb g k) v w

/-- A block that the file has. -/
theorem bmap_run (hZ : Z.Fixed) (h : Owns Z v.disk f) (hip : ip.addrs = addrsOf f) {x : Nat}
    (hx : f.blocks[k]? = some x) (hk : k < 140) : (bmap ip k).run v = .ok ((x, ip), v) := by
  have hmem : x ∈ f.refs := mem_refs.mpr (.inl (List.mem_of_getElem? hx))
  have hzero := (h.uses.outside hZ hmem).1
  obtain ⟨hlt, -⟩ := List.getElem?_eq_some_iff.mp hx
  have hgetD : f.blocks.getD k 0 = x := by rw [List.getD_eq_getElem?_getD, hx, Option.getD_some]
  by_cases hdirect : k < NDIRECT
  · have haddr : ip.addrs k = x := by rw [hip, addrsOf, if_pos hdirect, hgetD]
    rw [bmap, if_pos hdirect, if_neg (by rwa [haddr]), haddr]
    rfl
  · have hdirect' : ¬ k < 12 := hdirect
    have hne : f.ind ≠ 0 := h.ind_ne_zero (by omega)
    have haddr : ip.addrs NDIRECT = f.ind := by
      rw [hip, addrsOf, if_neg (by decide), if_pos rfl]
    have hentry : getLe (v.disk f.ind) (4 * (k - NDIRECT)) 4 = x := by
      rw [h.filled.ind hne (k - NDIRECT) (show k - 12 < 128 by omega),
        show 12 + (k - NDIRECT) = k by show 12 + (k - 12) = k; omega, hgetD]
    have hin : k - NDIRECT < NINDIRECT := show k - 12 < 128 by omega
    rw [bmap, if_neg hdirect, if_pos hin, indirect, if_neg (by rwa [haddr])]
    simp only [bread, haddr, bind_assoc, StateT.run_bind, StateT.run_get, pure_bind, hentry, hzero]
    rfl

/-- There is no room for a file of `n` bytes. -/
def NoRoom (Z : Zone) (n : Nat) : Prop := room Z < blocksFor n

/-- The file has an indirect block after the first part of `bmap`. -/
theorem indirect_ends (hZ : Z.Fixed) (h : Owns Z v.disk f) (hip : ip.addrs = addrsOf f)
    (hk : 12 ≤ f.blocks.length) (hind : f.ind ≠ 0 ↔ 12 < f.blocks.length) :
    Allocates Z (indirect ip) v
      (fun ip' w => ∃ b, b ≠ 0 ∧ (f.ind ≠ 0 → b = f.ind) ∧
        ip' = { ip with addrs := addrsOf { f with ind := b } } ∧
        Owns Z w.disk { f with ind := b } ∧ Writes (fun x => Bitmap Z.sb x ∨ x = b) v w)
      (NoRoom Z (512 * f.blocks.length + 1)) := by
  have haddr : ip.addrs NDIRECT = f.ind := by
    rw [hip, addrsOf, if_neg (by decide), if_pos rfl]
  unfold indirect
  by_cases hzero : f.ind = 0
  · have hlen : f.blocks.length = NDIRECT := by
      have : ¬ 12 < f.blocks.length := fun hlt => hind.mpr hlt hzero
      show f.blocks.length = 12
      omega
    rw [if_pos (by rw [haddr, hzero])]
    refine ReturnsOr.bind ((balloc_ends hZ h.uses).imp (fun _ _ hq => hq) ?_) ?_
    · intro hroom
      have hlen : f.blocks.length = 12 := hlen
      rw [refs_length, if_neg (by simpa using hzero), hlen] at hroom
      rw [NoRoom, hroom, hlen]
      decide
    · rintro b w ⟨rfl, hb, hmem, huses⟩
      have hbne := (huses.outside hZ List.mem_cons_self).1
      refine returnsOr_pure ⟨b, hbne, fun hne => absurd hzero hne, ?_,
        h.reserve hZ hb hmem huses hlen hzero, writes_take hZ hb⟩
      rw [Inode.setAddr, hip, addrsOf_ind]
  · rw [if_neg (by rwa [haddr])]
    refine returnsOr_pure ⟨f.ind, hzero, fun _ => rfl, ?_, h, .refl ..⟩
    rw [← hip]

section Rules

variable {α : Type} {Q : α → Vol → Prop} {F : Prop}

theorem ends_bread {g : Block → FsM α} (h : Allocates Z (g (v.disk b)) v Q F) :
    Allocates Z (bread b >>= g) v Q F := h

theorem ends_logWrite {g : Unit → FsM α} {data : Block}
    (h : Allocates Z (g ()) (v.write b data) Q F) : Allocates Z (logWrite b data >>= g) v Q F := h

end Rules

/-- The file with the new block `b`, and with the indirect block `i`. -/
theorem Mapped.push {i : Nat} (hi : f.ind ≠ 0 → i = f.ind) (hind : i ≠ 0 ↔ 12 ≤ f.blocks.length)
    (howns : Owns Z w.disk (push { f with ind := i } b))
    (hw : Writes (Touched Z.sb (Blocks.push { f with ind := i } b) f.blocks.length) v w) :
    Mapped Z ip f f.blocks.length v b
      { ip with addrs := addrsOf (Blocks.push { f with ind := i } b) } w
      (Blocks.push { f with ind := i } b) where
  extends_ :=
    { blocks := List.prefix_append ..
      ind := hi
      same := fun hlen => by
        simp only [Blocks.push, List.length_append, List.length_singleton] at hlen
        omega }
  data := rfl
  ind := by
    rw [Blocks.push, List.length_append, List.length_singleton, Nat.lt_succ_iff]
    exact hind
  length := by
    rw [Blocks.push, List.length_append, List.length_singleton]
    exact (Nat.max_eq_right (Nat.le_succ _)).symm
  block := by simp [Blocks.push]
  inode := rfl
  owns := howns
  writes := hw

/-- A new block of the file. -/
theorem bmap_new (hZ : Z.Fixed) (h : Owns Z v.disk f) (hip : ip.addrs = addrsOf f)
    (hlen : f.data.length ≤ 512 * f.blocks.length) (hind : f.ind ≠ 0 ↔ 12 < f.blocks.length)
    (hmax : f.blocks.length < 140) :
    Allocates Z (bmap ip f.blocks.length) v
      (fun r w => ∃ g, Mapped Z ip f f.blocks.length v r.1 r.2 w g)
      (NoRoom Z (512 * f.blocks.length + 1)) := by
  have hgetD : f.blocks.getD f.blocks.length 0 = 0 := List.getD_eq_default _ _ (Nat.le_refl _)
  unfold bmap
  by_cases hdirect : f.blocks.length < NDIRECT
  · have hlt : f.blocks.length < 12 := hdirect
    have hzero : f.ind = 0 := by
      by_contra hne
      exact absurd (hind.mp hne) (by omega)
    have haddr : ip.addrs f.blocks.length = 0 := by rw [hip, addrsOf, if_pos hdirect, hgetD]
    rw [if_pos hdirect, if_pos haddr]
    refine ReturnsOr.bind ((balloc_ends hZ h.uses).imp (fun _ _ hq => hq) ?_) ?_
    · intro hroom
      rw [NoRoom, hroom, refs_length, if_neg (by simpa using hzero), blocksFor]
      omega
    · rintro b w ⟨rfl, hb, hmem, huses⟩
      have howns := h.push_direct hZ hb hmem huses hlen hdirect hzero
      refine returnsOr_pure ⟨push f b, ?_⟩
      rw [Inode.setAddr, hip, addrsOf_push hdirect]
      refine Mapped.push (f := f) (i := f.ind) (fun _ => rfl) (hind.trans (by omega)) howns ?_
      refine (writes_take hZ hb).mono ?_
      rintro x (hx | rfl)
      · exact .inl hx
      · exact .inr (.inr (by simp [push]))
  · have hge : 12 ≤ f.blocks.length := Nat.le_of_not_lt hdirect
    have hin : f.blocks.length - NDIRECT < NINDIRECT := show f.blocks.length - 12 < 128 by omega
    rw [if_neg hdirect, if_pos hin]
    refine ReturnsOr.bind (indirect_ends hZ h hip hge hind) ?_
    rintro ip₁ v₁ ⟨i, hi, hi', rfl, h₁, hw₁⟩
    have haddr : addrsOf { f with ind := i } NDIRECT = i := by
      rw [addrsOf, if_neg (by decide), if_pos rfl]
    have hentry : getLe (v₁.disk i) (4 * (f.blocks.length - NDIRECT)) 4 = 0 := by
      rw [h₁.filled.ind hi (f.blocks.length - NDIRECT) hin,
        show 12 + (f.blocks.length - NDIRECT) = f.blocks.length by
          show 12 + (f.blocks.length - 12) = _; omega]
      exact hgetD
    apply ends_bread
    simp only [haddr]
    rw [if_pos hentry]
    refine ReturnsOr.bind ((balloc_ends hZ h₁.uses).imp (fun _ _ hq => hq) ?_) ?_
    · intro hroom
      rw [NoRoom, hroom, refs_length, if_pos hi, blocksFor, if_pos (by omega)]
      show f.blocks.length + 1 < _
      omega
    · rintro b w ⟨rfl, hb, hmem, huses⟩
      have howns := h₁.push_indirect hZ hb hmem huses hlen hge hmax hi
      apply ends_logWrite
      refine returnsOr_pure ⟨push { f with ind := i } b, ?_⟩
      rw [← addrsOf_push_indirect (b := b) (f := { f with ind := i }) hge]
      refine Mapped.push hi' (by simp [hi, hge]) howns ?_
      have htouch : ∀ x, Bitmap Z.sb x ∨ x = i ∨ x = b →
          Touched Z.sb (push { f with ind := i } b) f.blocks.length x := by
        rintro x (hx | rfl | rfl)
        · exact .inl hx
        · exact .inr (.inl ⟨rfl, hi⟩)
        · exact .inr (.inr (by simp [push]))
      refine ((hw₁.mono fun x hx => htouch x ?_).trans
        ((writes_take hZ hb).mono fun x hx => htouch x ?_)).trans (writes_write (htouch i ?_))
      · exact hx.imp id .inl
      · exact hx.imp id .inr
      · exact .inr (.inl rfl)

/-- `bmap` gives a block that the file has, or the next one. -/
theorem bmap_ends (hZ : Z.Fixed) (h : Owns Z v.disk f) (hip : ip.addrs = addrsOf f)
    (hlen : f.data.length ≤ 512 * f.blocks.length) (hind : f.ind ≠ 0 ↔ 12 < f.blocks.length)
    (hk : k ≤ f.blocks.length) (hmax : k < 140) :
    Allocates Z (bmap ip k) v (fun r w => ∃ g, Mapped Z ip f k v r.1 r.2 w g)
      (NoRoom Z (512 * k + 1)) := by
  rcases Nat.lt_or_eq_of_le hk with hlt | rfl
  · refine .inl ⟨_, v, bmap_run hZ h hip (List.getElem?_eq_getElem hlt) hmax, f, ?_⟩
    exact
      { extends_ := .refl f
        data := rfl
        ind := hind
        length := by omega
        block := List.getElem?_eq_getElem hlt
        inode := by rw [← hip]
        owns := h
        writes := .refl .. }
  · exact bmap_new hZ h hip hlen hind hmax

/-! ## Writing -/

theorem blocksFor_mono {m n : Nat} (h : m ≤ n) : blocksFor m ≤ blocksFor n := by
  unfold blocksFor
  split <;> split <;> omega

theorem NoRoom.mono {m n : Nat} (h : NoRoom Z m) (hle : m ≤ n) : NoRoom Z n :=
  Nat.lt_of_lt_of_le h (blocksFor_mono hle)

section Write

variable {off x : Nat} {q : List UInt8}

/-- The bytes `q` are written into one block of the file. -/
theorem Owns.blit (hZ : Z.Fixed) (h : Owns Z disk f) (hx : f.blocks[off / 512]? = some x)
    (hq : off % 512 + q.length ≤ 512) (hoff : off ≤ f.data.length) :
    Owns Z (Function.update disk x (blit (disk x) (off % 512) q))
      { f with data := splice f.data off q } := by
  have hmem : x ∈ f.blocks := List.mem_of_getElem? hx
  have hrefs : x ∈ f.refs := mem_refs.mpr (.inl hmem)
  obtain ⟨-, hone, hbits⟩ := h.uses.outside hZ hrefs
  obtain ⟨hnodup, hind⟩ := refs_nodup_iff.mp h.uses.nodup
  refine ⟨h.uses.update hZ hone hbits _, h.ind_ne_zero, ?_, fun hne j hj => ?_⟩
  · intro k y hy o ho
    show _ = (splice f.data off q).getD _ 0
    rw [getD_splice hoff]
    by_cases hxy : y = x
    · subst hxy
      have hk : k = off / 512 :=
        (List.getElem?_inj (List.getElem?_eq_some_iff.mp hy).1 hnodup).mp (hy.trans hx.symm)
      rw [Function.update_self, byteAt_blit _ ho, h.filled.data k y hy o ho]
      have hdiv := Nat.div_add_mod off 512
      by_cases hlow : off % 512 ≤ o
      · rw [if_pos hlow, if_neg (by omega)]
        by_cases hhigh : o - off % 512 < q.length
        · have hsub : 512 * k + o - off = o - off % 512 := by omega
          rw [if_pos (by omega), hsub, List.getD_eq_getElem _ _ hhigh,
            List.getElem?_eq_getElem hhigh, Option.getD_some]
        · rw [if_neg (by omega), List.getElem?_eq_none (by omega)]
          rfl
      · rw [if_neg hlow, if_pos (by omega)]
    · have hk : k ≠ off / 512 := fun hk => hxy (Option.some.inj (hy.symm.trans (hk ▸ hx)))
      rw [Function.update_of_ne hxy, h.filled.data k y hy o ho]
      have hdiv := Nat.div_add_mod off 512
      split
      · rfl
      · rw [if_neg (by omega)]
  · have hne' : f.ind ≠ x := fun heq => hind hne (heq ▸ hmem)
    rw [Function.update_of_ne hne']
    exact h.filled.ind hne j hj

/-- The blocks of the file are still those its bytes need. -/
theorem Mapped.wf_splice {ip' : Inode} (hf : f.Wf) (h : Mapped Z ip f (off / 512) v x ip' w g)
    (hoff : off ≤ f.data.length) (hq : off % 512 + q.length ≤ 512) (hpos : 0 < q.length) :
    File.Wf { g with data := splice g.data off q } where
  blocks_length := by
    have hlen := hf.blocks_length
    show g.blocks.length = ((splice g.data off q).length + 511) / 512
    rw [h.data, length_splice hoff, h.length]
    omega
  ind_ne_zero := h.ind

/-- The blocks that a write of `n` bytes at `off` may log. -/
def TouchedIn (sb : Superblock) (f : File) (off n x : Nat) : Prop :=
  Bitmap sb x ∨ (x = f.ind ∧ x ≠ 0) ∨
    ∃ k, off / 512 ≤ k ∧ 512 * k < off + n ∧ f.blocks[k]? = some x

/-- The file `g` is `f` after `src` was written at `off`. -/
structure Written (Z : Zone) (ip : Inode) (f : File) (off : Nat)
    (src : List UInt8) (v : Vol) (ip' : Inode) (w : Vol) (g : File) : Prop where
  extends_ : Extends f g
  data : g.data = splice f.data off src
  wf : g.Wf
  inode : ip' = { ip with addrs := addrsOf g }
  owns : Owns Z w.disk g
  writes : Writes (TouchedIn Z.sb g off src.length) v w

/-- A write inside one block, and the rest of the write. -/
theorem Written.cons {ip₁ ip₂ : Inode} {v₁ v₂ : Vol} {p : List UInt8} {f' : File}
    (h : Mapped Z ip f (off / 512) v x ip₁ v₁ f') (hoff : off ≤ f.data.length)
    (hpos : 0 < p.length) {data : Block}
    (hrest : Written Z ip₁ { f' with data := splice f'.data off p } (off + p.length) q
      (v₁.write x data) ip₂ v₂ g) :
    Written Z ip f off (p ++ q) v ip₂ v₂ g := by
  have hext : Extends f' g := ⟨hrest.extends_.blocks, hrest.extends_.ind, hrest.extends_.same⟩
  have htouch : ∀ y, Touched Z.sb f' (off / 512) y → TouchedIn Z.sb g off (p ++ q).length y := by
    rintro y (hy | ⟨rfl, hne⟩ | hy)
    · exact .inl hy
    · exact .inr (.inl ⟨(hext.ind hne).symm, hne⟩)
    · refine .inr (.inr ⟨off / 512, Nat.le_refl _, ?_, hext.getElem? hy⟩)
      rw [List.length_append]
      omega
  refine ⟨h.extends_.trans hext, ?_, hrest.wf, ?_, hrest.owns, ?_⟩
  · rw [hrest.data, splice_append hoff, h.data]
  · rw [hrest.inode, h.inode]
  · refine ((h.writes.mono htouch).trans (writes_write (htouch x (.inr (.inr h.block))))).trans
      (hrest.writes.mono ?_)
    rintro y (hy | hy | ⟨k, hk, hlt, hy⟩)
    · exact .inl hy
    · exact .inr (.inl hy)
    · refine .inr (.inr ⟨k, ?_, ?_, hy⟩)
      · omega
      · rw [List.length_append]
        omega

/-- The loop of `writei`. -/
theorem writeLoop_ends (hZ : Z.Fixed) (src : List UInt8) :
    ∀ {off : Nat} {ip : Inode} {f : File} {v : Vol}, Owns Z v.disk f → f.Wf →
      ip.addrs = addrsOf f → off ≤ f.data.length → off + src.length ≤ MAXFILE * BSIZE →
      Allocates Z (writeLoop ip off src) v
        (fun r w => r.2 = off + src.length ∧ ∃ g, Written Z ip f off src v r.1 w g)
        (NoRoom Z (off + src.length)) := by
  induction hn : src.length using Nat.strong_induction_on generalizing src with
  | _ n ih =>
    intro off ip f v h hf hip hoff hmax
    have hmax : off + n ≤ 140 * 512 := hmax
    rw [writeLoop]
    split
    · next hnil =>
      subst hnil
      subst hn
      refine returnsOr_pure ⟨rfl, f, .refl f, splice_nil.symm, hf, by rw [← hip], h, .refl ..⟩
    · next hnil =>
      have hpos := List.length_pos_of_ne_nil hnil
      have hlen := hf.blocks_length
      generalize hm : min src.length (BSIZE - off % BSIZE) = m
      have hm : min src.length (512 - off % 512) = m := hm
      have htake : (src.take m).length = m := List.length_take_of_le (by omega)
      have hmod : off % 512 < 512 := Nat.mod_lt _ (by decide)
      refine ReturnsOr.bind ((bmap_ends (k := off / 512) hZ h hip (by omega) hf.ind_ne_zero
        (by omega) (by omega)).imp (fun _ _ hq => hq) fun he => he.mono (by omega)) ?_
      rintro ⟨x, ip₁⟩ v₁ ⟨g, hg⟩
      apply ends_bread
      apply ends_logWrite
      have howns := hg.owns.blit hZ hg.block (q := src.take m) (by omega) (by rwa [hg.data])
      have hwf := hg.wf_splice hf hoff (q := src.take m) (by omega) (by omega)
      refine (ih (n - m) (by omega) (src.drop m) (by rw [List.length_drop, hn])
        howns hwf (congrArg Inode.addrs hg.inode) ?_ ?_).imp ?_ ?_
      · show off + m ≤ (splice g.data off (src.take m)).length
        rw [hg.data, length_splice hoff, htake]
        omega
      · show off + m + (n - m) ≤ 140 * 512
        omega
      · rintro ⟨ip₂, off'⟩ v₂ ⟨hoff', g', hg'⟩
        have hsrc : src.take m ++ src.drop m = src := List.take_append_drop m src
        refine ⟨by rw [hoff']; omega, g', ?_⟩
        rw [← hsrc]
        apply Written.cons hg hoff (by omega)
        rw [htake]
        exact hg'
      · intro he
        exact he.mono (by omega)

end Write

/-! ## Reading -/

/-- The bytes of a file in one of its blocks. -/
theorem Owns.block_bytes {off m x : Nat} (h : Owns Z disk f)
    (hx : f.blocks[off / 512]? = some x) (hm : off % 512 + m ≤ 512) (hlen : off + m ≤ f.data.length) :
    ((List.range m).map fun i => byteAt (disk x) (off % 512 + i)) = (f.data.drop off).take m := by
  apply List.ext_getElem?
  intro i
  by_cases hi : i < m
  · have hdiv := Nat.div_add_mod off 512
    have hsum : 512 * (off / 512) + (off % 512 + i) = off + i := by omega
    rw [List.getElem?_map, List.getElem?_range hi, List.getElem?_take_of_lt hi, List.getElem?_drop,
      Option.map_some, h.filled.data _ x hx _ (by omega), hsum,
      List.getD_eq_getElem _ _ (by omega), List.getElem?_eq_getElem (by omega)]
  · rw [List.getElem?_eq_none (by simpa using hi), List.getElem?_eq_none]
    rw [List.length_take]
    omega

/-- The loop of `readi`. -/
theorem readLoop_run (hZ : Z.Fixed) (h : Owns Z v.disk f) (hf : f.Wf)
    (hip : ip.addrs = addrsOf f) (hmax : f.data.length ≤ MAXFILE * BSIZE) (n : Nat) :
    ∀ {off : Nat}, off + n ≤ f.data.length →
      (readLoop ip off n).run v = .ok (((f.data.drop off).take n, ip), v) := by
  have hmax : f.data.length ≤ 140 * 512 := hmax
  have hlen := hf.blocks_length
  induction n using Nat.strong_induction_on with
  | _ n ih =>
    intro off hoff
    rw [readLoop]
    split
    · next hn =>
      subst hn
      rfl
    · next hn =>
      have hmod : off % 512 < 512 := Nat.mod_lt _ (by decide)
      have hk : off / 512 < f.blocks.length := by omega
      have hblock := List.getElem?_eq_getElem hk
      generalize hm : min n (BSIZE - off % BSIZE) = m
      have hm : min n (512 - off % 512) = m := hm
      have hbytes := h.block_bytes (m := m) hblock (by omega) (by omega)
      have hrest := @ih (n - m) (by omega) (off + m) (by omega)
      have hk' : off / 512 < 140 := by omega
      have hbmap : (bmap ip (off / BSIZE)).run v = _ := bmap_run hZ h hip hblock hk'
      have hsplit : (f.data.drop off).take n =
          (f.data.drop off).take m ++ (f.data.drop (off + m)).take (n - m) := by
        rw [← List.drop_drop, ← List.take_add, Nat.add_sub_cancel' (by omega)]
      rw [hsplit, ← hbytes]
      simp only [StateT.run_bind, hbmap, bread, bind_assoc, StateT.run_get, pure_bind, ok_bind,
        hrest]
      rfl

end Xv6Arm.Blocks
