import Mathlib.Data.Finset.Card
import Xv6Arm.Blocks.Model
import Xv6Arm.Lib.RedoLog

/-!
# The block allocator

`bit sb disk b` is the bit of block `b` in the bitmap of a disk.  `balloc` finds
a block whose bit is 0, sets the bit and clears the block (`balloc_cases`), and
`bfree` resets a bit that is set (`bfree_run`).

`Uses Z l disk` says what the bitmap means to the code that works on one file: the
blocks whose bits are set are those of others and those in the list `l`.  This is
said of the blocks below a limit.  `mkfs` leaves the bits of the log at the end of
the disk 0, but `balloc` finds the first free block, and so it finds none of the
log as long as one below is free (`balloc_ends`).
-/

namespace Xv6Arm.Blocks

open Bytes Fs Mkfs Fallible RedoLog

variable {sb : Superblock} {v : Vol} {disk : Image} {b c : Nat}

/-! ## Bits -/

/-- The bit of block `b`. -/
def bit (sb : Superblock) (disk : Image) (b : Nat) : Bool :=
  bitAt (disk (BBLOCK b sb.ninodes)) (b % BPB)

/-- The byte after one of its bits was reset. -/
theorem testBit_reset {x : UInt8} {m j : Nat} (hj : j < 8) :
    (leByte (x.toNat &&& (255 ^^^ 1 <<< m)) 0).toNat.testBit j =
      (x.toNat.testBit j && decide (m ≠ j)) := by
  have hbyte : Nat.testBit 255 j = true := by
    have : j = 0 ∨ j = 1 ∨ j = 2 ∨ j = 3 ∨ j = 4 ∨ j = 5 ∨ j = 6 ∨ j = 7 := by omega
    rcases this with rfl | rfl | rfl | rfl | rfl | rfl | rfl | rfl <;> rfl
  rw [leByte, UInt8.toNat_ofNat', Nat.pow_zero, Nat.div_one, Nat.testBit_mod_two_pow,
    Nat.testBit_and, Nat.testBit_xor, hbyte, Nat.one_shiftLeft, Nat.testBit_two_pow,
    decide_eq_true hj, Bool.true_and, Bool.true_xor, decide_not]

theorem bitAt_setBit {data : Block} {i j : Nat} (hj : j < BPB) :
    bitAt (setBit data i) j = (bitAt data j || decide (j = i)) := by
  have hlt : j / 8 < 512 := by
    unfold BPB BSIZE at hj
    omega
  rw [bitAt, setBit, byteAt_putLe _ hlt]
  split
  · next hbyte =>
    have hdiv : j / 8 = i / 8 := by omega
    have hsub : j / 8 - i / 8 = 0 := by omega
    have hiff : i % 8 = j % 8 ↔ j = i := by omega
    rw [hsub, testBit_round (Nat.mod_lt _ (by decide)), bitAt, hdiv, decide_eq_decide.mpr hiff]
  · next hbyte =>
    have hne : j ≠ i := by omega
    rw [bitAt, decide_eq_false hne, Bool.or_false]

theorem bitAt_clearBit {data : Block} {i j : Nat} (hj : j < BPB) :
    bitAt (clearBit data i) j = (bitAt data j && decide (j ≠ i)) := by
  have hlt : j / 8 < 512 := by
    unfold BPB BSIZE at hj
    omega
  rw [bitAt, clearBit, byteAt_putLe _ hlt]
  split
  · next hbyte =>
    have hdiv : j / 8 = i / 8 := by omega
    have hsub : j / 8 - i / 8 = 0 := by omega
    have hiff : i % 8 ≠ j % 8 ↔ j ≠ i := by omega
    rw [hsub, testBit_reset (Nat.mod_lt _ (by decide)), bitAt, hdiv, decide_eq_decide.mpr hiff]
  · next hbyte =>
    have hne : j ≠ i := by omega
    rw [bitAt, decide_eq_true hne, Bool.and_true]

/-- Two blocks with the same bit are the same. -/
theorem eq_of_bblock (h : BBLOCK b sb.ninodes = BBLOCK c sb.ninodes) (hmod : b % BPB = c % BPB) :
    b = c := by
  have hdiv : b / BPB = c / BPB := by
    unfold BBLOCK at h
    omega
  rw [← Nat.div_add_mod b BPB, ← Nat.div_add_mod c BPB, hdiv, hmod]

theorem mod_BPB_lt (b : Nat) : b % BPB < BPB := Nat.mod_lt _ (by decide)

/-- The bitmap after the bit of `b` was set. -/
theorem bit_set : bit sb (Function.update disk (BBLOCK b sb.ninodes)
      (setBit (disk (BBLOCK b sb.ninodes)) (b % BPB))) c =
    (bit sb disk c || decide (c = b)) := by
  unfold bit
  by_cases h : BBLOCK c sb.ninodes = BBLOCK b sb.ninodes
  · rw [h, Function.update_self, bitAt_setBit (mod_BPB_lt c)]
    congr 1
    rw [decide_eq_decide]
    exact ⟨eq_of_bblock h, fun heq => by rw [heq]⟩
  · have hne : c ≠ b := fun heq => h (by rw [heq])
    rw [Function.update_of_ne h, decide_eq_false hne, Bool.or_false]

/-- The bitmap after the bit of `b` was reset. -/
theorem bit_clear : bit sb (Function.update disk (BBLOCK b sb.ninodes)
      (clearBit (disk (BBLOCK b sb.ninodes)) (b % BPB))) c =
    (bit sb disk c && decide (c ≠ b)) := by
  unfold bit
  by_cases h : BBLOCK c sb.ninodes = BBLOCK b sb.ninodes
  · rw [h, Function.update_self, bitAt_clearBit (mod_BPB_lt c)]
    congr 1
    rw [decide_eq_decide]
    exact not_congr ⟨eq_of_bblock h, fun heq => by rw [heq]⟩
  · have hne : c ≠ b := fun heq => h (by rw [heq])
    rw [Function.update_of_ne h, decide_eq_true hne, Bool.and_true]

/-! ## The allocator -/

/-- The blocks after `balloc` has taken block `b`. -/
def Vol.take (sb : Superblock) (b : Nat) (v : Vol) : Vol :=
  (v.write (BBLOCK b sb.ninodes) (setBit (v.disk (BBLOCK b sb.ninodes)) (b % BPB))).write b
    (zeroBuf 512)

/-- The blocks after `bfree` of block `b`. -/
def Vol.release (sb : Superblock) (b : Nat) (v : Vol) : Vol :=
  v.write (BBLOCK b sb.ninodes) (clearBit (v.disk (BBLOCK b sb.ninodes)) (b % BPB))

/-- The blocks from `j * BPB` on share a block of the bitmap. -/
theorem bit_of_multiple (sb : Superblock) {j i : Nat} (hi : i < BPB) :
    BBLOCK (j * BPB + i) sb.ninodes = BBLOCK (j * BPB) sb.ninodes ∧ (j * BPB + i) % BPB = i := by
  have hdiv : (j * BPB + i) / BPB = j * BPB / BPB := by
    rw [Nat.mul_comm, Nat.mul_add_div (by decide), Nat.div_eq_of_lt hi,
      Nat.mul_div_cancel_left _ (by decide), Nat.add_zero]
  exact ⟨by rw [BBLOCK, BBLOCK, hdiv], by rw [Nat.mul_add_mod', Nat.mod_eq_of_lt hi]⟩

/-- The loop of `balloc` finds the first free block from `j * BPB` on, or the blocks
it looks at are all taken. -/
theorem ballocLoop_cases (sb : Superblock) (n : Nat) : ∀ j,
    (∃ b, b < sb.size ∧ bit sb v.disk b = false ∧
      (∀ c, j * BPB ≤ c → c < b → bit sb v.disk c = true) ∧
      (ballocLoop sb ((List.range' j n).map (· * BPB))).run v = .ok (b, v.take sb b)) ∨
    ((∀ c, j * BPB ≤ c → c < (j + n) * BPB → c < sb.size → bit sb v.disk c = true) ∧
      (ballocLoop sb ((List.range' j n).map (· * BPB))).run v =
        .error "balloc: out of blocks") := by
  induction n with
  | zero => exact fun j => .inr ⟨fun c hlow hhigh => absurd hlow (Nat.not_le_of_lt hhigh), rfl⟩
  | succ n ih =>
    intro j
    rw [List.range'_succ, List.map_cons]
    have hround : ∀ c, j * BPB ≤ c → c < (j + 1) * BPB →
        bit sb v.disk c = bitAt (v.disk (BBLOCK (j * BPB) sb.ninodes)) (c - j * BPB) := by
      intro c hlow hhigh
      rw [Nat.add_one_mul] at hhigh
      obtain ⟨hblock, hmod⟩ := bit_of_multiple sb (j := j)
        (show c - j * BPB < BPB by omega)
      rw [Nat.add_sub_cancel' hlow] at hblock hmod
      rw [bit, hblock, hmod]
    cases hf : (List.range (min BPB (sb.size - j * BPB))).find? fun bi =>
        !bitAt (v.disk (BBLOCK (j * BPB) sb.ninodes)) bi with
    | some i =>
      obtain ⟨hclear, hi, hfirst⟩ := List.find?_range_eq_some.mp hf
      have hi := List.mem_range.mp hi
      obtain ⟨hblock, hmod⟩ := bit_of_multiple sb (j := j) (show i < BPB by omega)
      refine .inl ⟨j * BPB + i, by omega, ?_, fun c hlow hlt => ?_, ?_⟩
      · rw [bit, hblock, hmod]
        simpa using hclear
      · rw [hround c hlow (by rw [Nat.add_one_mul]; omega)]
        simpa using hfirst (c - j * BPB) (by omega)
      · simp only [ballocLoop, bread, bind_assoc, StateT.run_bind, StateT.run_get, pure_bind, hf]
        rw [Vol.take, hblock, hmod]
        rfl
    | none =>
      have hset : ∀ c, j * BPB ≤ c → c < (j + 1) * BPB → c < sb.size →
          bit sb v.disk c = true := by
        intro c hlow hhigh hlt
        rw [hround c hlow hhigh]
        rw [Nat.add_one_mul] at hhigh
        simpa using List.find?_eq_none.mp hf (c - j * BPB) (List.mem_range.mpr (by omega))
      have hrun : (ballocLoop sb (j * BPB :: (List.range' (j + 1) n).map (· * BPB))).run v =
          (ballocLoop sb ((List.range' (j + 1) n).map (· * BPB))).run v := by
        simp only [ballocLoop, bread, bind_assoc, StateT.run_bind, StateT.run_get, pure_bind, hf]
      rw [hrun]
      rcases ih (j + 1) with ⟨b, hb, hbit, hfirst, hend⟩ | ⟨hall, hend⟩
      · refine .inl ⟨b, hb, hbit, fun c hlow hlt => ?_, hend⟩
        rcases Nat.lt_or_ge c ((j + 1) * BPB) with hc | hc
        · exact hset c hlow hc (by omega)
        · exact hfirst c hc hlt
      · refine .inr ⟨fun c hlow hhigh hlt => ?_, hend⟩
        rcases Nat.lt_or_ge c ((j + 1) * BPB) with hc | hc
        · exact hset c hlow hc hlt
        · exact hall c hc (by rwa [Nat.add_right_comm]) hlt

/-- `balloc` takes the first free block, or there is none. -/
theorem balloc_cases (hsb : superblock v.disk = sb) :
    (∃ b, b < sb.size ∧ bit sb v.disk b = false ∧ (∀ c, c < b → bit sb v.disk c = true) ∧
      balloc.run v = .ok (b, v.take sb b)) ∨
    ((∀ b, b < sb.size → bit sb v.disk b = true) ∧
      balloc.run v = .error "balloc: out of blocks") := by
  have hrun : balloc.run v =
      (ballocLoop sb ((List.range' 0 ((sb.size + BPB - 1) / BPB)).map (· * BPB))).run v := by
    rw [← hsb, ← List.range_eq_range']
    rfl
  rw [hrun]
  rcases ballocLoop_cases sb (v := v) ((sb.size + BPB - 1) / BPB) 0 with
    ⟨b, hb, hbit, hfirst, hend⟩ | ⟨hall, hend⟩
  · exact .inl ⟨b, hb, hbit, fun c hc => hfirst c (by omega) hc, hend⟩
  · refine .inr ⟨fun b hb => hall b (by omega) ?_ hb, hend⟩
    have hdiv := Nat.div_add_mod (sb.size + BPB - 1) BPB
    have hmod := mod_BPB_lt (sb.size + BPB - 1)
    rw [Nat.zero_add, Nat.mul_comm]
    omega

/-- `bfree` of a block that is taken. -/
theorem bfree_run (hsb : superblock v.disk = sb) (hb : bit sb v.disk b = true) :
    (bfree b).run v = .ok ((), v.release sb b) := by
  subst hsb
  have hset : bitAt (v.disk (BBLOCK b (superblock v.disk).ninodes)) (b % BPB) = true := hb
  simp only [bfree, readsb, bread, logWrite, bind_assoc, StateT.run_bind, StateT.run_get,
    pure_bind, hset]
  rfl

/-! ## Writes -/

/-- From `v` to `w` only blocks in `S` were logged, and what was logged is what
changed. -/
def Writes (S : Nat → Prop) (v w : Vol) : Prop :=
  ∃ l, w.logged = v.logged ++ l ∧ w.disk = replay l v.disk ∧ ∀ e ∈ l, S e.1

section Writes

variable {S T : Nat → Prop} {w : Vol}

theorem Writes.refl (S : Nat → Prop) (v : Vol) : Writes S v v := ⟨[], by simp⟩

theorem Writes.trans {u : Vol} (h₁ : Writes S v w) (h₂ : Writes S w u) : Writes S v u := by
  obtain ⟨l₁, hl₁, hd₁, hS₁⟩ := h₁
  obtain ⟨l₂, hl₂, hd₂, hS₂⟩ := h₂
  refine ⟨l₁ ++ l₂, by rw [hl₂, hl₁, List.append_assoc], by rw [hd₂, hd₁, replay_append], ?_⟩
  exact List.forall_mem_append.mpr ⟨hS₁, hS₂⟩

theorem Writes.mono (h : Writes S v w) (hST : ∀ x, S x → T x) : Writes T v w := by
  obtain ⟨l, hl, hd, hS⟩ := h
  exact ⟨l, hl, hd, fun e he => hST _ (hS e he)⟩

/-- Other blocks are unchanged. -/
theorem Writes.frame (h : Writes S v w) {x : Nat} (hx : ¬ S x) : w.disk x = v.disk x := by
  obtain ⟨l, -, hd, hS⟩ := h
  rw [hd]
  apply replay_of_notMem
  intro hmem
  obtain ⟨e, he, rfl⟩ := List.mem_map.mp hmem
  exact hx (hS e he)

theorem writes_write {data : Block} (hb : S b) : Writes S v (v.write b data) :=
  ⟨[(b, data)], rfl, rfl, by simpa using hb⟩

end Writes

/-! ## The blocks in use -/

/-- The blocks of the bitmap. -/
def Bitmap (sb : Superblock) (x : Nat) : Prop := ∃ b, b < sb.size ∧ x = BBLOCK b sb.ninodes

/-- Where the code that works on one file may find blocks. -/
structure Zone where
  sb : Superblock
  /-- Files have blocks below this one. -/
  lim : Nat
  /-- The blocks of others. -/
  taken : Nat → Prop

/-- The boot block, the super block, the inodes and the bitmap are not for files. -/
structure Zone.Fixed (Z : Zone) : Prop where
  lim_le : Z.lim ≤ Z.sb.size
  boot : Z.taken 0
  super : Z.taken 1
  inodes : ∀ i, i < Z.sb.ninodes → Z.taken (IBLOCK i)
  bitmap : ∀ x, Bitmap Z.sb x → Z.taken x

/-- Below the limit the bits that are set are those of the blocks of others and of
the blocks in `l`. -/
structure Uses (Z : Zone) (l : List Nat) (disk : Image) : Prop where
  super : superblock disk = Z.sb
  bits : ∀ b, b < Z.lim → (bit Z.sb disk b = true ↔ Z.taken b ∨ b ∈ l)
  own : ∀ b ∈ l, b < Z.lim ∧ ¬ Z.taken b
  nodup : l.Nodup

section Uses

variable {Z : Zone} {l l' : List Nat}

theorem bblock_ne_one : BBLOCK b sb.ninodes ≠ 1 :=
  Nat.ne_of_gt (Nat.lt_of_lt_of_le (by decide) (Nat.le_add_left 3 _))

theorem superblock_congr {disk' : Image} (h : disk' 1 = disk 1) :
    superblock disk' = superblock disk := by
  rw [superblock, superblock, h]

theorem Uses.perm (h : Uses Z l disk) (hp : l.Perm l') : Uses Z l' disk where
  super := h.super
  bits b hb := by rw [h.bits b hb, hp.mem_iff]
  own b hb := h.own b (hp.mem_iff.mpr hb)
  nodup := hp.nodup_iff.mp h.nodup

/-- What does not write the super block and the bitmap. -/
theorem Uses.congr {disk' : Image} (hZ : Z.Fixed) (h : Uses Z l disk) (hone : disk' 1 = disk 1)
    (hbits : ∀ x, Bitmap Z.sb x → disk' x = disk x) : Uses Z l disk' where
  super := (superblock_congr hone).trans h.super
  bits b hb := by
    rw [← h.bits b hb, bit, bit, hbits _ ⟨b, Nat.lt_of_lt_of_le hb hZ.lim_le, rfl⟩]
  own := h.own
  nodup := h.nodup

theorem Uses.update (hZ : Z.Fixed) (h : Uses Z l disk) (hone : b ≠ 1) (hb : ¬ Bitmap Z.sb b)
    (data : Block) : Uses Z l (Function.update disk b data) :=
  h.congr hZ (Function.update_of_ne hone.symm _ _) fun x hx =>
    Function.update_of_ne (fun heq : x = b => hb (heq ▸ hx)) _ _

/-- A block in the list is not one of others. -/
theorem Uses.outside (hZ : Z.Fixed) (h : Uses Z l disk) (hb : b ∈ l) :
    b ≠ 0 ∧ b ≠ 1 ∧ ¬ Bitmap Z.sb b := by
  have hnot := (h.own b hb).2
  exact ⟨fun heq => hnot (heq ▸ hZ.boot), fun heq => hnot (heq ▸ hZ.super),
    fun hx => hnot (hZ.bitmap b hx)⟩

/-- After `balloc` the block is one of the list. -/
theorem Uses.take (hZ : Z.Fixed) (h : Uses Z l v.disk) (hb : b < Z.lim)
    (hbit : bit Z.sb v.disk b = false) :
    b ∉ l ∧ Uses Z (b :: l) (v.take Z.sb b).disk := by
  have hfree : ¬ (Z.taken b ∨ b ∈ l) := fun hor => by
    rw [(h.bits b hb).mpr hor] at hbit
    cases hbit
  have hnot : ¬ Bitmap Z.sb b := fun hx => hfree (.inl (hZ.bitmap b hx))
  have hone : b ≠ 1 := fun heq => hfree (.inl (heq ▸ hZ.super))
  have hset : Uses Z (b :: l) (Function.update v.disk (BBLOCK b Z.sb.ninodes)
      (setBit (v.disk (BBLOCK b Z.sb.ninodes)) (b % BPB))) :=
    { super := (superblock_congr (Function.update_of_ne bblock_ne_one.symm _ _)).trans h.super
      bits := fun c hc => by
        rw [bit_set, Bool.or_eq_true, h.bits c hc, decide_eq_true_eq, List.mem_cons, or_assoc,
          or_comm (a := c ∈ l)]
      own := List.forall_mem_cons.mpr ⟨⟨hb, fun hx => hfree (.inl hx)⟩, h.own⟩
      nodup := List.nodup_cons.mpr ⟨fun hx => hfree (.inr hx), h.nodup⟩ }
  exact ⟨fun hx => hfree (.inr hx), hset.update hZ hone hnot _⟩

/-- After `bfree` the block is in the list no more. -/
theorem Uses.release (h : Uses Z (b :: l) v.disk) : Uses Z l (v.release Z.sb b).disk where
  super := (superblock_congr (Function.update_of_ne bblock_ne_one.symm _ _)).trans h.super
  bits c hc := by
    have hnodup := List.nodup_cons.mp h.nodup
    have hnot : ¬ Z.taken b := (h.own b List.mem_cons_self).2
    rw [Vol.release, Vol.write, bit_clear, Bool.and_eq_true, h.bits c hc, decide_eq_true_eq,
      List.mem_cons]
    grind
  own c hc := h.own c (List.mem_cons_of_mem b hc)
  nodup := (List.nodup_cons.mp h.nodup).2

open Classical in
/-- The number of blocks for one who finds the blocks of others taken. -/
noncomputable def room (Z : Zone) : Nat :=
  ((Finset.range Z.lim).filter fun b => ¬ Z.taken b).card

/-- The blocks in the list fit into the room. -/
theorem Uses.length_le (h : Uses Z l disk) : l.length ≤ room Z := by
  classical
  rw [← List.toFinset_card_of_nodup h.nodup]
  refine Finset.card_le_card fun b hb => ?_
  exact Finset.mem_filter.mpr (by simpa using h.own b (List.mem_toFinset.mp hb))

/-- The blocks in the list fill the room if no other block is free. -/
theorem Uses.length_eq (h : Uses Z l disk) (hall : ∀ b, b < Z.lim → bit Z.sb disk b = true) :
    room Z = l.length := by
  classical
  refine Nat.le_antisymm ?_ h.length_le
  rw [← List.toFinset_card_of_nodup h.nodup]
  refine Finset.card_le_card fun b hb => ?_
  obtain ⟨hlt, hnot⟩ := Finset.mem_filter.mp hb
  have hlt := Finset.mem_range.mp hlt
  exact List.mem_toFinset.mpr (((h.bits b hlt).mp (hall b hlt)).resolve_left hnot)

/-- The code returns with `Q`, or the room is too small.  Then it panics, where the
limit is the end of the disk. -/
abbrev Allocates {α : Type} (Z : Zone) (x : FsM α) (v : Vol) (Q : α → Vol → Prop) (F : Prop) :
    Prop :=
  ReturnsOr x v Q F (Z.lim = Z.sb.size) "balloc: out of blocks"

/-- `balloc` takes a block that is free, or the list fills the room. -/
theorem balloc_ends (hZ : Z.Fixed) (h : Uses Z l v.disk) :
    Allocates Z balloc v
      (fun b w => w = v.take Z.sb b ∧ b < Z.lim ∧ b ∉ l ∧ Uses Z (b :: l) w.disk)
      (room Z = l.length) := by
  rcases balloc_cases h.super with ⟨b, hb, hbit, hfirst, hrun⟩ | ⟨hall, hrun⟩
  · rcases Nat.lt_or_ge b Z.lim with hlt | hge
    · obtain ⟨hmem, huses⟩ := h.take hZ hlt hbit
      exact .inl ⟨b, _, hrun, rfl, hlt, hmem, huses⟩
    · exact .inr ⟨h.length_eq fun c hc => hfirst c (by omega), fun hlim => absurd hb (by omega)⟩
  · exact .inr ⟨h.length_eq fun c hc => hall c (Nat.lt_of_lt_of_le hc hZ.lim_le), fun _ => hrun⟩

end Uses

end Xv6Arm.Blocks
