import Xv6Arm.Lib.NameTree
import Xv6Arm.Sys.Inode

/-!
# The directories of a disk as a tree of names

`LinkCounts` says that the stored link counts of a disk are the numbers of entries in
the directories that can be reached from the root.  `Represents` relates a disk to a tree
of names: the directories of the tree are those that have not been removed.  In the middle
of a call the stored counts are ahead of the tree, or behind it, and `debt` says by how
much.  Each change that a call makes to the disk is a change of the tree and of the debt.
-/

namespace Xv6Arm.Sys

open Fs NameTree

/-! ## Link counts -/

/-- A path leads from the root to the inode. -/
inductive Reachable (D : Disk) : Nat → Prop
  | root : Reachable D ROOTINO
  | entry {d : Nat} {e : Entry} : Reachable D d → (D.inode d).type = T_DIR → e ∈ D.entries d →
      e.inum ≠ 0 → Reachable D e.inum

open Classical in
/-- The entries other than `.` that name an inode in directories that can be reached. -/
noncomputable def links (D : Disk) (i : Nat) : Nat :=
  ∑ d ∈ Finset.range D.room, if Reachable D d ∧ (D.inode d).type = T_DIR then
    (D.entries d).countP fun e => e.inum = i ∧ e.name ≠ dot else 0

/-- The link counts agree with the directories. -/
structure LinkCounts (D : Disk) : Prop where
  nlink : ∀ i, (D.inode i).type ≠ 0 → (D.inode i).nlink = links D i
  reachable : ∀ i, (D.inode i).type ≠ 0 → 0 < (D.inode i).nlink → Reachable D i
  no_free : ∀ d, Reachable D d → (D.inode d).type = T_DIR → ∀ e ∈ D.entries d, e.inum ≠ 0 →
    (D.inode e.inum).type ≠ 0

/-! ## Changes of a disk -/

namespace Disk

/-- Adds `c` to a link count. -/
def adjust (D : Disk) (i : Nat) (c : Int) : Disk :=
  D.setInode i { D.inode i with nlink := (D.inode i).nlink + c }

/-- Puts an entry into the first empty slot of a directory. -/
def addEntry (D : Disk) (d : Nat) (e : Entry) : Disk :=
  D.setEntries d (Kernel.putEntry (D.entries d) ((D.entries d).findIdx fun e => e.inum = 0) e)

/-- Clears a slot of a directory. -/
def clearEntry (D : Disk) (d off : Nat) : Disk :=
  D.setEntries d (Kernel.putEntry (D.entries d) off ⟨0, []⟩)

/-- Writes an inode without content. -/
def newInode (D : Disk) (i : Nat) (n : Inode) : Disk := (D.setEntries i []).setInode i n

@[simp] theorem setInode_entries (D : Disk) (i : Nat) (n : Inode) :
    (D.setInode i n).entries = D.entries := rfl

@[simp] theorem setInode_ninodes (D : Disk) (i : Nat) (n : Inode) :
    (D.setInode i n).ninodes = D.ninodes := rfl

@[simp] theorem setInode_self (D : Disk) (i : Nat) (n : Inode) : (D.setInode i n).inode i = n :=
  Function.update_self ..

theorem setInode_ne (D : Disk) {i j : Nat} (n : Inode) (h : j ≠ i) :
    (D.setInode i n).inode j = D.inode j :=
  Function.update_of_ne h ..

@[simp] theorem setEntries_inode (D : Disk) (i : Nat) (es : List Entry) :
    (D.setEntries i es).inode = D.inode := rfl

@[simp] theorem setEntries_ninodes (D : Disk) (i : Nat) (es : List Entry) :
    (D.setEntries i es).ninodes = D.ninodes := rfl

@[simp] theorem setEntries_self (D : Disk) (i : Nat) (es : List Entry) :
    (D.setEntries i es).entries i = es :=
  Function.update_self ..

theorem setEntries_ne (D : Disk) {i j : Nat} (es : List Entry) (h : j ≠ i) :
    (D.setEntries i es).entries j = D.entries j :=
  Function.update_of_ne h ..

@[simp] theorem adjust_type (D : Disk) (i : Nat) (c : Int) (j : Nat) :
    ((D.adjust i c).inode j).type = (D.inode j).type := by
  rcases eq_or_ne j i with rfl | h
  · rw [adjust, setInode_self]
  · rw [adjust, setInode_ne _ _ h]

@[simp] theorem adjust_entries (D : Disk) (i : Nat) (c : Int) :
    (D.adjust i c).entries = D.entries := rfl

/-- Two changes of a link count that cancel. -/
theorem adjust_adjust (D : Disk) (i : Nat) : (D.adjust i 1).adjust i (-1) = D := by
  have hnode : { (D.adjust i 1).inode i with nlink := ((D.adjust i 1).inode i).nlink + -1 } =
      D.inode i := by
    simp only [adjust, setInode_self]
    rw [Int.add_neg_cancel_right]
  unfold adjust at hnode ⊢
  rw [hnode]
  simp only [setInode, Function.update_idem, Function.update_eq_self]

end Disk

/-! ## Slots -/

/-- The inodes that the slots of a directory name. -/
def namesOf : List Entry → Multiset Nat
  | [] => 0
  | e :: es => if e.inum = 0 then namesOf es else e.inum ::ₘ namesOf es

section Slots

variable {es : List Entry} {e : Entry} {i k : Nat}

theorem mem_namesOf : i ∈ namesOf es ↔ i ≠ 0 ∧ ∃ e ∈ es, e.inum = i := by
  induction es with
  | nil => simp [namesOf]
  | cons x xs ih =>
      by_cases hx : x.inum = 0
      · rw [namesOf, if_pos hx, ih, List.exists_mem_cons_iff, hx]
        constructor
        · rintro ⟨hi, h⟩
          exact ⟨hi, .inr h⟩
        · rintro ⟨hi, h | h⟩
          · exact absurd h.symm hi
          · exact ⟨hi, h⟩
      · simp only [namesOf, if_neg hx, Multiset.mem_cons, ih, List.exists_mem_cons_iff]
        constructor
        · rintro (rfl | ⟨hi, h⟩)
          · exact ⟨hx, .inl rfl⟩
          · exact ⟨hi, .inr h⟩
        · rintro ⟨hi, rfl | h⟩
          · exact .inl rfl
          · exact .inr ⟨hi, h⟩

theorem count_namesOf (hi : i ≠ 0) : (namesOf es).count i = es.countP fun e => e.inum = i := by
  induction es with
  | nil => rfl
  | cons x xs ih =>
      rw [List.countP_cons, ← ih]
      by_cases hx : x.inum = 0
      · rw [namesOf, if_pos hx, hx]
        simp [Ne.symm hi]
      · have hiff : i = x.inum ↔ decide (x.inum = i) = true := by rw [decide_eq_true_eq, eq_comm]
        rw [namesOf, if_neg hx, Multiset.count_cons, if_congr hiff rfl rfl]

theorem namesOf_eq_zero : namesOf es = 0 ↔ ∀ e ∈ es, e.inum = 0 := by
  rw [Multiset.eq_zero_iff_forall_notMem]
  constructor
  · intro h e he
    by_contra hne
    exact h e.inum (mem_namesOf.mpr ⟨hne, e, he, rfl⟩)
  · intro h i hi
    obtain ⟨hne, e, he, rfl⟩ := mem_namesOf.mp hi
    exact hne (h e he)

theorem putEntry_succ (x e : Entry) (es : List Entry) (k : Nat) :
    Kernel.putEntry (x :: es) (k + 1) e = x :: Kernel.putEntry es k e := by
  unfold Kernel.putEntry
  simp only [List.length_cons, Nat.add_lt_add_iff_right, List.set_cons_succ, List.cons_append]
  split <;> rfl

theorem mem_putEntry {x : Entry} (h : x ∈ Kernel.putEntry es k e) : x = e ∨ x ∈ es := by
  unfold Kernel.putEntry at h
  split at h
  · exact (List.mem_or_eq_of_mem_set h).symm
  · rcases List.mem_append.mp h with h | h
    · exact .inr h
    · exact .inl (List.mem_singleton.mp h)

/-- An entry in the first empty slot. -/
theorem namesOf_fill (he : e.inum ≠ 0) :
    namesOf (Kernel.putEntry es (es.findIdx fun e => e.inum = 0) e) = e.inum ::ₘ namesOf es := by
  induction es with
  | nil => simp [Kernel.putEntry, namesOf, he]
  | cons x xs ih =>
      by_cases hx : x.inum = 0
      · simp [List.findIdx_cons, hx, Kernel.putEntry, namesOf, he]
      · simp only [List.findIdx_cons, hx, decide_false, cond_false, putEntry_succ, namesOf, if_false,
          ih]
        rw [Multiset.cons_swap]

/-- An entry whose slot is cleared. -/
theorem namesOf_clear (hk : es[k]? = some e) (he : e.inum ≠ 0) :
    namesOf (Kernel.putEntry es k ⟨0, []⟩) = (namesOf es).erase e.inum := by
  induction es generalizing k with
  | nil => simp at hk
  | cons x xs ih =>
      cases k with
      | zero =>
          rw [List.getElem?_cons_zero, Option.some.injEq] at hk
          subst hk
          simp [Kernel.putEntry, namesOf, he]
      | succ k =>
          rw [List.getElem?_cons_succ] at hk
          rw [putEntry_succ, namesOf, namesOf, ih hk]
          have hmem : e.inum ∈ namesOf xs :=
            mem_namesOf.mpr ⟨he, e, List.mem_of_getElem? hk, rfl⟩
          split
          · rfl
          · rw [Multiset.erase_cons_tail_of_mem hmem]

end Slots

/-! ## Disks and trees -/

/-- The disk holds the tree, and the stored link count of each inode is the number of its links
and its debt. -/
structure Represents (D : Disk) (t : Hierarchy Nat) (debt : Nat → Int) : Prop where
  root : t.root = ROOTINO
  dir : ∀ d ∈ t.dirs, (D.inode d).type = T_DIR
  slots : ∀ d ∈ t.dirs, ∃ rest, D.entries d = ⟨d, dot⟩ :: ⟨t.parent d, dotdot⟩ :: rest ∧
    namesOf rest = t.names d ∧ ∀ e ∈ rest, e.inum ≠ 0 → e.name ≠ dot
  /-- A directory that is not in the tree has no entries left. -/
  removed : ∀ d, (D.inode d).type = T_DIR → d ∉ t.dirs → ∀ e ∈ D.entries d, e.inum ≠ 0 →
    e.name = dot ∨ e.name = dotdot
  named : ∀ d ∈ t.dirs, ∀ i ∈ t.names d,
    (D.inode i).type ≠ 0 ∧ ((D.inode i).type = T_DIR → i ∈ t.dirs)
  nlink : ∀ i, (D.inode i).type ≠ 0 → (D.inode i).nlink = t.links i + debt i
  range : ∀ i, (D.inode i).type ≠ 0 → 0 < i ∧ i < D.room

section Represents

variable {D : Disk} {t : Hierarchy Nat} {debt : Nat → Int} {d i : Nat}

theorem Represents.pos (h : Represents D t debt) (hd : d ∈ t.dirs) : d ≠ 0 := by
  have htype : (D.inode d).type ≠ 0 := by
    rw [h.dir d hd]
    decide
  exact Nat.pos_iff_ne_zero.mp (h.range d htype).1

/-- A removed directory has no links. -/
theorem Represents.links_removed (h : Represents D t debt) (hwf : t.Wf)
    (htype : (D.inode i).type = T_DIR) (hi : i ∉ t.dirs) : t.links i = 0 := by
  apply Finset.sum_eq_zero
  intro d hd
  rw [Multiset.count_eq_zero, Hierarchy.refs, Multiset.mem_cons, not_or]
  exact ⟨fun heq => hi (heq ▸ hwf.parent_mem d hd), fun hmem => hi ((h.named d hd i hmem).2 htype)⟩

/-- A free inode has no links. -/
theorem Represents.links_free (h : Represents D t debt) (hwf : t.Wf)
    (hfree : (D.inode i).type = 0) : t.links i = 0 := by
  apply Finset.sum_eq_zero
  intro d hd
  rw [Multiset.count_eq_zero, Hierarchy.refs, Multiset.mem_cons, not_or]
  refine ⟨?_, fun hmem => (h.named d hd i hmem).1 hfree⟩
  rintro rfl
  rw [h.dir _ (hwf.parent_mem d hd)] at hfree
  exact absurd hfree (by decide)

/-- The directories of the tree are those that have links. -/
theorem Represents.mem_dirs_iff (h : Represents D t 0) (hwf : t.Wf) :
    d ∈ t.dirs ↔ (D.inode d).type = T_DIR ∧ 0 < (D.inode d).nlink := by
  constructor
  · intro hd
    have htype := h.dir d hd
    have hlinks := h.nlink d (by rw [htype]; decide)
    have hpos := hwf.links_pos hd
    refine ⟨htype, ?_⟩
    rw [hlinks]
    simpa using hpos
  · rintro ⟨htype, hpos⟩
    by_contra hd
    have hlinks := h.nlink d (by rw [htype]; decide)
    rw [h.links_removed hwf htype hd] at hlinks
    simp only [Nat.cast_zero, Pi.zero_apply, Int.add_zero] at hlinks
    omega

/-- What a directory of the tree names. -/
theorem Represents.mem_entries (h : Represents D t debt) (hd : d ∈ t.dirs) {e : Entry}
    (he : e ∈ D.entries d) (hinum : e.inum ≠ 0) :
    (e = ⟨d, dot⟩ ∨ e = ⟨t.parent d, dotdot⟩) ∨ e.inum ∈ t.names d ∧ e.name ≠ dot := by
  obtain ⟨rest, hes, hnames, hdots⟩ := h.slots d hd
  rw [hes, List.mem_cons, List.mem_cons] at he
  rcases he with rfl | rfl | he
  · exact .inl (.inl rfl)
  · exact .inl (.inr rfl)
  · exact .inr ⟨hnames ▸ mem_namesOf.mpr ⟨hinum, e, he, rfl⟩, hdots e he hinum⟩

/-- Every directory of the tree can be reached. -/
theorem Represents.reachable_of_mem (h : Represents D t debt) (hwf : t.Wf) (hd : d ∈ t.dirs) :
    Reachable D d := by
  induction hwf.below d hd with
  | root => exact h.root ▸ Reachable.root
  | @child x hx _ ih =>
      have hparent := hwf.parent_mem x hx
      rcases eq_or_ne x t.root with rfl | hroot
      · exact h.root ▸ Reachable.root
      · have hmem := (hwf.mem_names_iff hx hparent).mpr ⟨hroot, rfl⟩
        obtain ⟨rest, hes, hnames, -⟩ := h.slots _ hparent
        rw [← hnames] at hmem
        obtain ⟨hne, e, he, rfl⟩ := mem_namesOf.mp hmem
        refine .entry (ih hparent) (h.dir _ hparent) ?_ hne
        rw [hes]
        exact List.mem_cons_of_mem _ (List.mem_cons_of_mem _ he)

/-- An inode that can be reached is named by a directory of the tree. -/
theorem Represents.of_reachable (h : Represents D t debt) (hwf : t.Wf) (hr : Reachable D i) :
    (D.inode i).type ≠ 0 ∧ ((D.inode i).type = T_DIR → i ∈ t.dirs) := by
  have hdir : ∀ d ∈ t.dirs, (D.inode d).type ≠ 0 ∧ ((D.inode d).type = T_DIR → d ∈ t.dirs) := by
    intro d hd
    refine ⟨?_, fun _ => hd⟩
    rw [h.dir d hd]
    decide
  induction hr with
  | root => exact hdir _ (h.root ▸ hwf.root_mem)
  | @entry d e _ htype he hinum ih =>
      have hd := ih.2 htype
      rcases h.mem_entries hd he hinum with (rfl | rfl) | ⟨hmem, -⟩
      · exact hdir d hd
      · exact hdir _ (hwf.parent_mem d hd)
      · exact h.named d hd _ hmem

/-- The entries that count, in a directory of the tree. -/
theorem Represents.countP_entries (h : Represents D t debt) (hd : d ∈ t.dirs) (hi : i ≠ 0) :
    (D.entries d).countP (fun e => e.inum = i ∧ e.name ≠ dot) = (t.refs d).count i := by
  obtain ⟨rest, hes, hnames, hdots⟩ := h.slots d hd
  have hrest : rest.countP (fun e => e.inum = i ∧ e.name ≠ dot) = rest.countP fun e => e.inum = i := by
    apply List.countP_congr
    intro e he
    simp only [decide_eq_true_eq, and_iff_left_iff_imp]
    rintro rfl
    exact hdots e he hi
  have hdd : dotdot ≠ dot := by decide
  have hparent : (t.parent d = i ↔ i = t.parent d) := eq_comm
  rw [hes, List.countP_cons, List.countP_cons, hrest, ← count_namesOf hi, hnames, Hierarchy.refs,
    Multiset.count_cons]
  simp [hdd, hparent]

open Classical in
/-- The links of an inode are those of the tree. -/
theorem Represents.links_eq (h : Represents D t debt) (hwf : t.Wf) (hi : i ≠ 0) :
    links D i = t.links i := by
  have hfilter : (Finset.range D.room).filter
      (fun d => Reachable D d ∧ (D.inode d).type = T_DIR) = t.dirs := by
    ext d
    rw [Finset.mem_filter, Finset.mem_range]
    constructor
    · rintro ⟨-, hr, htype⟩
      exact (h.of_reachable hwf hr).2 htype
    · intro hd
      have htype := h.dir d hd
      exact ⟨(h.range d (by rw [htype]; decide)).2, h.reachable_of_mem hwf hd, htype⟩
  rw [links, ← Finset.sum_filter, hfilter, Hierarchy.links]
  exact Finset.sum_congr rfl fun d hd => h.countP_entries hd hi

/-- The link counts of a disk without debt. -/
theorem Represents.linkCounts (h : Represents D t 0) (hwf : t.Wf) : LinkCounts D where
  nlink i hi := by
    rw [h.nlink i hi, h.links_eq hwf (Nat.pos_iff_ne_zero.mp (h.range i hi).1)]
    simp
  reachable i hi hpos := by
    have hlinks : 0 < t.links i := by
      rw [h.nlink i hi] at hpos
      simpa using hpos
    obtain ⟨d, hd, hcount⟩ := Finset.exists_ne_zero_of_sum_ne_zero (Nat.pos_iff_ne_zero.mp hlinks)
    have hmem := Multiset.count_ne_zero.mp hcount
    rw [Hierarchy.refs, Multiset.mem_cons] at hmem
    rcases hmem with rfl | hmem
    · exact h.reachable_of_mem hwf (hwf.parent_mem d hd)
    · obtain ⟨rest, hes, hnames, -⟩ := h.slots d hd
      rw [← hnames] at hmem
      obtain ⟨hne, e, he, rfl⟩ := mem_namesOf.mp hmem
      refine .entry (h.reachable_of_mem hwf hd) (h.dir d hd) ?_ hne
      rw [hes]
      exact List.mem_cons_of_mem _ (List.mem_cons_of_mem _ he)
  no_free d hr htype e he hinum :=
    (h.of_reachable hwf (.entry hr htype he hinum)).1

end Represents

end Xv6Arm.Sys
