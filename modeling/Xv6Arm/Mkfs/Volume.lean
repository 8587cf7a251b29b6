import Mathlib.Data.List.Induction
import Xv6Arm.Mkfs.Model

/-!
# Volumes

A volume says what an image holds: the files by inode number, and the first block
that is free.  A file is extended one byte at a time, so what a volume holds after
an append cannot depend on how the bytes were split.
-/

namespace Xv6Arm.Mkfs

open Fs

/-! ## Files -/

/-- A file: its inode, its bytes, its data blocks in order, and its indirect block or
0. -/
structure File where
  type : Nat
  nlink : Nat
  data : List UInt8
  blocks : List Nat
  ind : Nat

/-- An inode that is not in use. -/
def File.none : File := { type := 0, nlink := 0, data := [], blocks := [], ind := 0 }

/-- The blocks a file refers to. -/
def File.refs (f : File) : List Nat := f.blocks ++ [f.ind].filter (· ≠ 0)

/-- A file with one more block, from the block `n` on, and the next free block.  The
first block that does not fit the inode comes after an indirect block. -/
def File.grow (f : File) (n : Nat) : File × Nat :=
  if f.blocks.length = NDIRECT then ({ f with ind := n, blocks := f.blocks ++ [n + 1] }, n + 2)
  else ({ f with blocks := f.blocks ++ [n] }, n + 1)

/-- A file with room for one more byte. -/
def File.reserve (f : File) (n : Nat) : File × Nat :=
  if f.data.length % 512 = 0 then f.grow n else (f, n)

/-- A file with more bytes, which all lie in one block. -/
def File.extend (f : File) (n : Nat) (q : List UInt8) : File × Nat :=
  ({ (f.reserve n).1 with data := f.data ++ q }, (f.reserve n).2)

/-- A file with more bytes. -/
def File.append (f : File) (n : Nat) (p : List UInt8) : File × Nat :=
  p.foldl (fun (r : File × Nat) b => r.1.extend r.2 [b]) (f, n)

/-- The blocks that a number of bytes needs, with the indirect block. -/
def blocksFor (n : Nat) : Nat := (n + 511) / 512 + if 12 * 512 < n then 1 else 0

/-- A file has the blocks that its bytes need. -/
structure File.Wf (f : File) : Prop where
  blocks_length : f.blocks.length = (f.data.length + 511) / 512
  ind_ne_zero : f.ind ≠ 0 ↔ 12 < f.blocks.length

section File

variable {f : File} {n : Nat}

@[simp] theorem grow_data : (f.grow n).1.data = f.data := by
  unfold File.grow
  split <;> rfl

@[simp] theorem reserve_data : (f.reserve n).1.data = f.data := by
  unfold File.reserve
  split <;> simp

theorem reserve_inode :
    (f.reserve n).1.type = f.type ∧ (f.reserve n).1.nlink = f.nlink := by
  unfold File.reserve File.grow
  split
  · split <;> exact ⟨rfl, rfl⟩
  · exact ⟨rfl, rfl⟩

@[simp] theorem extend_data (q : List UInt8) : (f.extend n q).1.data = f.data ++ q := rfl

theorem append_nil : f.append n [] = (f, n) := rfl

theorem append_append (p q : List UInt8) :
    f.append n (p ++ q) = (f.append n p).1.append (f.append n p).2 q := by
  unfold File.append
  rw [List.foldl_append]

/-- The bytes of one block are added by one extension. -/
theorem append_eq_extend {q : List UInt8} (hq : q ≠ [])
    (hfit : f.data.length % 512 + q.length ≤ 512) : f.append n q = f.extend n q := by
  induction q using List.reverseRecOn with
  | nil => exact absurd rfl hq
  | append_singleton q b ih =>
      rw [append_append]
      by_cases hnil : q = []
      · subst hnil
        rfl
      · rw [List.length_append, List.length_singleton] at hfit
        have hpos : 0 < q.length := List.length_pos_of_ne_nil hnil
        rw [ih hnil (by omega)]
        have hmod : ¬ (f.extend n q).1.data.length % 512 = 0 := by
          rw [extend_data, List.length_append]
          omega
        show (f.extend n q).1.extend (f.extend n q).2 [b] = _
        rw [File.extend, File.reserve, if_neg hmod]
        simp [File.extend]

/-- A reserved block comes after the blocks of the file. -/
theorem reserve_blocks (hf : f.Wf) :
    (f.reserve n).1.blocks.length = f.data.length / 512 + 1 ∧
      ((f.reserve n).1.blocks = f.blocks ∨
        f.data.length % 512 = 0 ∧ ∃ x, n ≤ x ∧ (f.reserve n).1.blocks = f.blocks ++ [x]) := by
  have hlen := hf.blocks_length
  unfold File.reserve
  split
  · next hmod =>
    obtain ⟨x, hx, hblocks⟩ : ∃ x, n ≤ x ∧ (f.grow n).1.blocks = f.blocks ++ [x] := by
      unfold File.grow
      split
      · exact ⟨n + 1, Nat.le_succ n, rfl⟩
      · exact ⟨n, Nat.le_refl n, rfl⟩
    refine ⟨?_, Or.inr ⟨hmod, x, hx, hblocks⟩⟩
    rw [hblocks, List.length_append, List.length_singleton]
    omega
  · next hmod => exact ⟨show f.blocks.length = _ by omega, Or.inl rfl⟩

/-- The blocks from `n` to `m` were added to those of a file. -/
structure Grows (f : File) (n : Nat) (g : File) (m : Nat) : Prop where
  le : n ≤ m
  mem_refs : ∀ x, x ∈ g.refs ↔ x ∈ f.refs ∨ (n ≤ x ∧ x < m)
  nodup : f.refs.Nodup → (∀ x ∈ f.refs, x < n) → g.refs.Nodup

theorem Grows.refl (f : File) (n : Nat) : Grows f n f n where
  le := Nat.le_refl n
  mem_refs x := by
    have hnone : ¬ (n ≤ x ∧ x < n) := by omega
    simp [hnone]
  nodup h _ := h

theorem Grows.trans {g h : File} {m k : Nat} (h₁ : Grows f n g m) (h₂ : Grows g m h k) :
    Grows f n h k where
  le := Nat.le_trans h₁.le h₂.le
  mem_refs x := by
    have hle := h₁.le
    have hle' := h₂.le
    rw [h₂.mem_refs, h₁.mem_refs, or_assoc]
    apply or_congr_right
    omega
  nodup hnd hlt := by
    apply h₂.nodup (h₁.nodup hnd hlt)
    intro x hx
    rcases (h₁.mem_refs x).mp hx with hx | hx
    · exact Nat.lt_of_lt_of_le (hlt x hx) h₁.le
    · exact hx.2

theorem mem_refs {x : Nat} : x ∈ f.refs ↔ x ∈ f.blocks ∨ (x = f.ind ∧ x ≠ 0) := by
  unfold File.refs
  rw [List.mem_append, List.mem_filter, List.mem_singleton, decide_eq_true_iff]

theorem refs_nodup_iff : f.refs.Nodup ↔ f.blocks.Nodup ∧ (f.ind ≠ 0 → f.ind ∉ f.blocks) := by
  unfold File.refs
  by_cases h : f.ind = 0
  · simp [h]
  · simp [h, List.nodup_append]
    exact fun _ => ⟨fun h hm => h _ hm rfl, fun h a hm he => h (he ▸ hm)⟩

/-- A new block is the first free one. -/
theorem grow_grows (hf : f.Wf) (hn : 0 < n) : Grows f n (f.grow n).1 (f.grow n).2 := by
  unfold File.grow
  split
  · next hlen =>
    have hlen : f.blocks.length = 12 := hlen
    have hind : f.ind = 0 := by
      by_contra hne
      exact absurd (hf.ind_ne_zero.mp hne) (by omega)
    refine ⟨by omega, fun x => ?_, fun hnd hlt => ?_⟩
    · simp only [mem_refs, List.mem_append, List.mem_singleton, hind]
      grind
    · have hold : ∀ x ∈ f.blocks, x < n := fun x hx => hlt x (mem_refs.mpr (Or.inl hx))
      simp only [refs_nodup_iff, List.nodup_append, List.mem_append, List.mem_singleton] at hnd ⊢
      grind
  · next hlen =>
    refine ⟨by omega, fun x => ?_, fun hnd hlt => ?_⟩
    · simp only [mem_refs, List.mem_append, List.mem_singleton]
      grind
    · have hold : ∀ x ∈ f.blocks, x < n := fun x hx => hlt x (mem_refs.mpr (Or.inl hx))
      have hind : f.ind ≠ 0 → f.ind < n := fun h => hlt _ (mem_refs.mpr (Or.inr ⟨rfl, h⟩))
      simp only [refs_nodup_iff, List.nodup_append, List.mem_append, List.mem_singleton] at hnd ⊢
      grind

theorem reserve_grows (hf : f.Wf) (hn : 0 < n) : Grows f n (f.reserve n).1 (f.reserve n).2 := by
  unfold File.reserve
  split
  · exact grow_grows hf hn
  · exact .refl f n

theorem extend_grows (hf : f.Wf) (hn : 0 < n) (q : List UInt8) :
    Grows f n (f.extend n q).1 (f.extend n q).2 := by
  obtain ⟨hle, hmem, hnd⟩ := reserve_grows hf hn
  exact ⟨hle, hmem, hnd⟩

/-- One more byte needs a block at the end of a block, and the indirect block after
the blocks of the inode. -/
theorem extend_one (hf : f.Wf) (hn : 0 < n) (b : UInt8) :
    (f.extend n [b]).1.Wf ∧
      (f.extend n [b]).2 + blocksFor f.data.length = n + blocksFor (f.data.length + 1) := by
  obtain ⟨hlen, hind⟩ := hf
  unfold File.extend File.reserve
  split
  · next hmod =>
    unfold File.grow
    split
    · next hdir =>
      have hdir : f.blocks.length = 12 := hdir
      refine ⟨⟨?_, ?_⟩, ?_⟩
      · simp only [List.length_append, List.length_singleton]
        omega
      · simp only [List.length_append, List.length_singleton]
        omega
      · simp only [blocksFor]
        split <;> split <;> omega
    · next hdir =>
      have hdir : f.blocks.length ≠ 12 := hdir
      refine ⟨⟨?_, ?_⟩, ?_⟩
      · simp only [List.length_append, List.length_singleton]
        omega
      · simp only [List.length_append, List.length_singleton, hind]
        omega
      · simp only [blocksFor]
        split <;> split <;> omega
  · next hmod =>
    refine ⟨⟨?_, hind⟩, ?_⟩
    · simp only [List.length_append, List.length_singleton]
      omega
    · simp only [blocksFor]
      split <;> split <;> omega

/-- What an append does to a file. -/
theorem append_spec (p : List UInt8) (hf : f.Wf) (hn : 0 < n) :
    (f.append n p).1.Wf ∧ Grows f n (f.append n p).1 (f.append n p).2 ∧
      (f.append n p).1.data = f.data ++ p ∧
      ((f.append n p).1.type = f.type ∧ (f.append n p).1.nlink = f.nlink) ∧
      (f.append n p).2 + blocksFor f.data.length = n + blocksFor (f.data.length + p.length) := by
  induction p using List.reverseRecOn with
  | nil => exact ⟨hf, .refl f n, (List.append_nil _).symm, ⟨rfl, rfl⟩, rfl⟩
  | append_singleton p b ih =>
      obtain ⟨hwf, hgrow, hdata, htype, hcount⟩ := ih
      have hpos : 0 < (f.append n p).2 := Nat.lt_of_lt_of_le hn hgrow.le
      obtain ⟨hwf', hcount'⟩ := extend_one hwf hpos b
      rw [append_append]
      refine ⟨hwf', hgrow.trans (extend_grows hwf hpos [b]), ?_, ?_, ?_⟩
      · show (f.append n p).1.data ++ [b] = _
        rw [hdata, List.append_assoc]
      · obtain ⟨ht, hl⟩ := reserve_inode (f := (f.append n p).1) (n := (f.append n p).2)
        exact ⟨ht.trans htype.1, hl.trans htype.2⟩
      · show ((f.append n p).1.extend (f.append n p).2 [b]).2 + _ = _
        rw [hdata, List.length_append] at hcount'
        rw [List.length_append, List.length_singleton, ← Nat.add_assoc]
        omega

end File

/-! ## Volumes -/

/-- What an image holds. -/
structure Volume where
  /-- The files by inode number. -/
  file : Nat → File
  /-- The next inode number. -/
  next : Nat
  /-- The first block that is free. -/
  free : Nat
  /-- The bitmap block. -/
  bits : Block

/-- Another file for an inode number. -/
def Volume.set (v : Volume) (i : Nat) (r : File × Nat) : Volume :=
  { v with file := Function.update v.file i r.1, free := r.2 }

/-- More bytes for a file. -/
def Volume.append (v : Volume) (i : Nat) (p : List UInt8) : Volume :=
  v.set i ((v.file i).append v.free p)

/-- A new empty file. -/
def Volume.ialloc (v : Volume) (type : Nat) : Volume :=
  { v with
    file := Function.update v.file v.next
      { type := type, nlink := 1, data := [], blocks := [], ind := 0 }
    next := v.next + 1 }

/-- The blocks from the first data block to the first free one belong to the files, each
to one file.  `low` is the first data block. -/
structure Volume.Wf (low : Nat) (v : Volume) : Prop where
  low_pos : 0 < low
  low_le : low ≤ v.free
  file_none : ∀ i, i = 0 ∨ v.next ≤ i → v.file i = File.none
  file_wf : ∀ i, (v.file i).Wf
  ref_bounds : ∀ i, ∀ x ∈ (v.file i).refs, low ≤ x ∧ x < v.free
  ref_nodup : ∀ i, (v.file i).refs.Nodup
  ref_inj : ∀ i j x, x ∈ (v.file i).refs → x ∈ (v.file j).refs → i = j
  ref_cover : ∀ x, low ≤ x → x < v.free → ∃ i, x ∈ (v.file i).refs

section Volume

variable {low : Nat} {v : Volume} {i : Nat}

theorem Volume.append_append (p q : List UInt8) :
    v.append i (p ++ q) = (v.append i p).append i q := by
  unfold Volume.append Volume.set
  rw [Mkfs.append_append]
  simp

theorem Volume.append_nil : v.append i [] = v := by
  unfold Volume.append Volume.set
  rw [Mkfs.append_nil, Function.update_eq_self]

/-- A file that grows by the first free blocks. -/
theorem Volume.Wf.set (h : v.Wf low) (hi : 0 < i) (hnext : i < v.next) {g : File} {m : Nat}
    (hg : g.Wf) (hgrow : Grows (v.file i) v.free g m) : (v.set i (g, m)).Wf low := by
  have hfile : ∀ j, j ≠ i → (v.set i (g, m)).file j = v.file j :=
    fun j hj => Function.update_of_ne hj ..
  have hself : (v.set i (g, m)).file i = g := Function.update_self ..
  have hmem : ∀ j x, x ∈ ((v.set i (g, m)).file j).refs →
      x ∈ (v.file j).refs ∨ (j = i ∧ v.free ≤ x ∧ x < m) := by
    intro j x hx
    by_cases hj : j = i
    · subst hj
      rw [hself, hgrow.mem_refs] at hx
      exact hx.imp_right fun hx => ⟨rfl, hx⟩
    · rw [hfile j hj] at hx
      exact Or.inl hx
  refine ⟨h.low_pos, Nat.le_trans h.low_le hgrow.le, ?_, ?_, ?_, ?_, ?_, ?_⟩
  · intro j hj
    have hne : j ≠ i := by
      rintro rfl
      rcases hj with hj | hj
      · omega
      · exact absurd (show v.next ≤ j from hj) (by omega)
    rw [hfile j hne]
    exact h.file_none j hj
  · intro j
    by_cases hj : j = i
    · subst hj
      rwa [hself]
    · rw [hfile j hj]
      exact h.file_wf j
  · intro j x hx
    have hlow := h.low_le
    have hle := hgrow.le
    show low ≤ x ∧ x < m
    rcases hmem j x hx with hx | ⟨-, hx⟩
    · have hb := h.ref_bounds j x hx
      omega
    · omega
  · intro j
    by_cases hj : j = i
    · subst hj
      rw [hself]
      exact hgrow.nodup (h.ref_nodup j) fun x hx => (h.ref_bounds j x hx).2
    · rw [hfile j hj]
      exact h.ref_nodup j
  · intro j k x hx hx'
    rcases hmem j x hx with hj | ⟨hj, hfree⟩ <;> rcases hmem k x hx' with hk | ⟨hk, hfree'⟩
    · exact h.ref_inj j k x hj hk
    · have hb := h.ref_bounds j x hj
      omega
    · have hb := h.ref_bounds k x hk
      omega
    · exact hj.trans hk.symm
  · intro x hlow hlt
    by_cases hx : x < v.free
    · obtain ⟨j, hj⟩ := h.ref_cover x hlow hx
      by_cases hji : j = i
      · subst hji
        refine ⟨j, ?_⟩
        rw [hself, hgrow.mem_refs]
        exact Or.inl hj
      · exact ⟨j, by rwa [hfile j hji]⟩
    · refine ⟨i, ?_⟩
      rw [hself, hgrow.mem_refs]
      exact Or.inr ⟨by omega, hlt⟩

theorem Volume.Wf.free_pos (h : v.Wf low) : 0 < v.free := Nat.lt_of_lt_of_le h.low_pos h.low_le

theorem Volume.Wf.append (h : v.Wf low) (hi : 0 < i) (hnext : i < v.next) (p : List UInt8) :
    (v.append i p).Wf low := by
  obtain ⟨hwf, hgrow, -⟩ := append_spec p (h.file_wf i) h.free_pos
  exact h.set hi hnext hwf hgrow

theorem Volume.Wf.ialloc (h : v.Wf low) (hnext : 0 < v.next) (type : Nat) :
    (v.ialloc type).Wf low := by
  have hold : (v.file v.next).refs = [] := by
    rw [h.file_none v.next (Or.inr (Nat.le_refl _))]
    rfl
  have hrefs : ∀ j, ((v.ialloc type).file j).refs = (v.file j).refs := by
    intro j
    by_cases hj : j = v.next
    · rw [hj, hold]
      show (Function.update v.file v.next _ v.next).refs = []
      rw [Function.update_self]
      rfl
    · show (Function.update v.file v.next _ j).refs = _
      rw [Function.update_of_ne hj]
  refine ⟨h.low_pos, h.low_le, ?_, ?_, ?_, ?_, ?_, ?_⟩
  · intro j hj
    have hlt : j = 0 ∨ v.next + 1 ≤ j := hj
    show Function.update v.file v.next _ j = _
    rw [Function.update_of_ne (by omega)]
    exact h.file_none j (hlt.imp_right Nat.le_of_succ_le)
  · intro j
    show (Function.update v.file v.next _ j).Wf
    by_cases hj : j = v.next
    · rw [hj, Function.update_self]
      exact ⟨by simp, by simp⟩
    · rw [Function.update_of_ne hj]
      exact h.file_wf j
  · intro j
    rw [hrefs]
    exact h.ref_bounds j
  · intro j
    rw [hrefs]
    exact h.ref_nodup j
  · intro j k x
    rw [hrefs, hrefs]
    exact h.ref_inj j k x
  · intro x hlow hlt
    obtain ⟨j, hj⟩ := h.ref_cover x hlow hlt
    exact ⟨j, by rwa [hrefs]⟩

end Volume

end Xv6Arm.Mkfs
