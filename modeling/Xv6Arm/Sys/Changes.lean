import Xv6Arm.Sys.Tree

/-!
# Changes of the directories

What each change of a disk does to the tree of names that it represents.  A call is a
sequence of such changes: the debts that it makes on the way are settled at its end.
-/

namespace Xv6Arm.Sys

open Fs NameTree

namespace Disk

/-- The directory `d` with a new inode `i`, before the inode gets a name.  A directory has the
entries `.` and `..`. -/
def allocated (D : Disk) (d i : Nat) (n : Inode) : Disk :=
  if n.type = T_DIR then
    (((D.newInode i n).adjust d 1).addEntry i ⟨i, dot⟩).addEntry i ⟨d, dotdot⟩
  else D.newInode i n

/-- The disk after `create` has made inode `i` with a name in the directory `d`. -/
def created (D : Disk) (d : Nat) (name : Name) (i : Nat) (n : Inode) : Disk :=
  (D.allocated d i n).addEntry d ⟨i, name⟩

/-- The disk after `sys_unlink` has removed the name of `i` in slot `off` of the directory `d`. -/
def unlinked (D : Disk) (d off i : Nat) : Disk :=
  (if (D.inode i).type = T_DIR then (D.clearEntry d off).adjust d (-1)
    else D.clearEntry d off).adjust i (-1)

theorem addEntry_self (D : Disk) (d : Nat) (e : Entry) : (D.addEntry d e).entries d =
    Kernel.putEntry (D.entries d) ((D.entries d).findIdx fun e => e.inum = 0) e :=
  setEntries_self ..

theorem addEntry_ne (D : Disk) {d x : Nat} (e : Entry) (h : x ≠ d) :
    (D.addEntry d e).entries x = D.entries x :=
  setEntries_ne _ _ h

theorem newInode_self (D : Disk) (i : Nat) (n : Inode) : (D.newInode i n).inode i = n :=
  setInode_self ..

theorem newInode_ne (D : Disk) {i j : Nat} (n : Inode) (h : j ≠ i) :
    (D.newInode i n).inode j = D.inode j :=
  setInode_ne _ _ h

theorem newInode_entries_self (D : Disk) (i : Nat) (n : Inode) : (D.newInode i n).entries i = [] :=
  setEntries_self ..

theorem newInode_entries_ne (D : Disk) {i j : Nat} (n : Inode) (h : j ≠ i) :
    (D.newInode i n).entries j = D.entries j :=
  setEntries_ne _ _ h

/-- The first entry of an empty directory. -/
theorem addEntry_nil {D : Disk} {i : Nat} {e : Entry} (h : D.entries i = []) :
    (D.addEntry i e).entries i = [e] := by
  rw [addEntry_self, h]
  rfl

/-- The second entry. -/
theorem addEntry_singleton {D : Disk} {i : Nat} {e x : Entry} (h : D.entries i = [x])
    (hx : x.inum ≠ 0) : (D.addEntry i e).entries i = [x, e] := by
  rw [addEntry_self, h]
  simp [List.findIdx_cons, hx, Kernel.putEntry]

/-- The entries `.` and `..` of a new directory. -/
theorem allocated_dots (D : Disk) {d i : Nat} {n : Inode} (hi : i ≠ 0) (htype : n.type = T_DIR) :
    (D.allocated d i n).entries i = [⟨i, dot⟩, ⟨d, dotdot⟩] := by
  rw [allocated, if_pos htype]
  exact addEntry_singleton (addEntry_nil (D.newInode_entries_self i n)) hi

theorem allocated_entries_ne (D : Disk) {d i x : Nat} (n : Inode) (h : x ≠ i) :
    (D.allocated d i n).entries x = D.entries x := by
  unfold allocated
  split
  · rw [addEntry_ne _ _ h, addEntry_ne _ _ h]
    exact D.newInode_entries_ne n h
  · exact D.newInode_entries_ne n h

theorem allocated_type (D : Disk) (d i : Nat) (n : Inode) (j : Nat) :
    ((D.allocated d i n).inode j).type = ((D.newInode i n).inode j).type := by
  unfold allocated
  split
  · exact adjust_type ..
  · rfl

theorem created_self (D : Disk) {d i : Nat} (name : Name) (n : Inode) (h : i ≠ d) :
    (D.created d name i n).inode i = n := by
  show (D.allocated d i n).inode i = n
  unfold allocated
  split
  · show ((D.newInode i n).adjust d 1).inode i = n
    rw [adjust, setInode_ne _ _ h]
    exact D.newInode_self i n
  · exact D.newInode_self i n

theorem created_room (D : Disk) (d : Nat) (name : Name) (i : Nat) (n : Inode) :
    (D.created d name i n).room = D.room := by
  show (D.allocated d i n).room = D.room
  unfold allocated
  split <;> rfl

end Disk

namespace Represents

variable {D : Disk} {t : Hierarchy Nat} {debt : Nat → Int} {d i : Nat}

theorem congr_debt (h : Represents D t debt) {debt' : Nat → Int} (heq : ∀ j, debt j = debt' j) :
    Represents D t debt' := by
  have : debt = debt' := funext heq
  rwa [← this]

/-! ## Inodes -/

/-- A change of a link count. -/
theorem adjust (h : Represents D t debt) (i : Nat) (c : Int) :
    Represents (D.adjust i c) t fun j => debt j + if j = i then c else 0 where
  root := h.root
  dir := by
    intro d hd
    rw [Disk.adjust_type]
    exact h.dir d hd
  slots := h.slots
  removed := by
    intro d htype
    rw [Disk.adjust_type] at htype
    exact h.removed d htype
  named := by
    intro d hd j hj
    rw [Disk.adjust_type]
    exact h.named d hd j hj
  nlink := by
    intro j hj
    rw [Disk.adjust_type] at hj
    rcases eq_or_ne j i with rfl | hne
    · rw [Disk.adjust, Disk.setInode_self, if_pos rfl]
      simp only [h.nlink j hj]
      omega
    · rw [Disk.adjust, Disk.setInode_ne _ _ hne, if_neg hne, h.nlink j hj]
      omega
  range := by
    intro j hj
    rw [Disk.adjust_type] at hj
    exact h.range j hj

/-- A new inode. -/
theorem newInode (h : Represents D t debt) (hwf : t.Wf) {n : Inode} (hfree : (D.inode i).type = 0)
    (hpos : 0 < i) (hlt : i < D.room) :
    Represents (D.newInode i n) t fun j => if j = i then n.nlink else debt j := by
  have hne : ∀ j, (D.inode j).type ≠ 0 → j ≠ i := fun j hj heq => hj (heq ▸ hfree)
  have hdir : ∀ d ∈ t.dirs, d ≠ i := by
    intro d hd
    apply hne
    rw [h.dir d hd]
    decide
  have hold : ∀ j, j ≠ i → (D.newInode i n).inode j = D.inode j := fun j hj => D.newInode_ne n hj
  refine ⟨h.root, ?_, ?_, ?_, ?_, ?_, ?_⟩
  · intro d hd
    rw [hold d (hdir d hd)]
    exact h.dir d hd
  · intro d hd
    obtain ⟨rest, hes, hrest⟩ := h.slots d hd
    exact ⟨rest, (D.newInode_entries_ne n (hdir d hd)).trans hes, hrest⟩
  · intro d htype hd e he
    rcases eq_or_ne d i with rfl | hdi
    · rw [D.newInode_entries_self] at he
      cases he
    · rw [D.newInode_entries_ne n hdi] at he
      rw [hold d hdi] at htype
      exact h.removed d htype hd e he
  · intro d hd j hj
    have hjtype := h.named d hd j hj
    rw [hold j (hne j hjtype.1)]
    exact hjtype
  · intro j hj
    rcases eq_or_ne j i with rfl | hji
    · rw [D.newInode_self, if_pos rfl, h.links_free hwf hfree, Nat.cast_zero, Int.zero_add]
    · rw [hold j hji] at hj ⊢
      rw [if_neg hji]
      exact h.nlink j hj
  · intro j hj
    rcases eq_or_ne j i with rfl | hji
    · exact ⟨hpos, hlt⟩
    · rw [hold j hji] at hj
      exact h.range j hj

/-- An inode that is freed. -/
theorem free (h : Represents D t debt) {n : Inode} (hlinks : t.links i = 0) (hdirs : i ∉ t.dirs)
    (htype : n.type = 0) : Represents (D.newInode i n) t debt := by
  have hdir : ∀ d ∈ t.dirs, d ≠ i := fun d hd heq => hdirs (heq ▸ hd)
  have hold : ∀ j, j ≠ i → (D.newInode i n).inode j = D.inode j := fun j hj => D.newInode_ne n hj
  have halloc : ∀ j, ((D.newInode i n).inode j).type ≠ 0 → j ≠ i := by
    rintro j hj rfl
    rw [D.newInode_self] at hj
    exact hj htype
  refine ⟨h.root, ?_, ?_, ?_, ?_, ?_, ?_⟩
  · intro d hd
    rw [hold d (hdir d hd)]
    exact h.dir d hd
  · intro d hd
    obtain ⟨rest, hes, hrest⟩ := h.slots d hd
    exact ⟨rest, (D.newInode_entries_ne n (hdir d hd)).trans hes, hrest⟩
  · intro d hd hnot e he
    have hdi : d ≠ i := by
      apply halloc
      rw [hd]
      decide
    rw [D.newInode_entries_ne n hdi] at he
    rw [hold d hdi] at hd
    exact h.removed d hd hnot e he
  · intro d hd j hj
    have hji : j ≠ i := by
      rintro rfl
      exact Nat.pos_iff_ne_zero.mp (Hierarchy.links_pos hd (Multiset.mem_cons_of_mem hj)) hlinks
    rw [hold j hji]
    exact h.named d hd j hj
  · intro j hj
    have hji := halloc j hj
    rw [hold j hji] at hj ⊢
    exact h.nlink j hj
  · intro j hj
    rw [hold j (halloc j hj)] at hj
    exact h.range j hj

/-! ## Entries -/

/-- The slots of a directory of the tree after a new entry. -/
theorem addEntry_slots (h : Represents D t debt) (hwf : t.Wf) (hd : d ∈ t.dirs) {e : Entry}
    (he : e.inum ≠ 0) (hname : e.name ≠ dot) :
    ∃ rest, (D.addEntry d e).entries d = ⟨d, dot⟩ :: ⟨t.parent d, dotdot⟩ :: rest ∧
      namesOf rest = e.inum ::ₘ t.names d ∧ ∀ x ∈ rest, x.inum ≠ 0 → x.name ≠ dot := by
  obtain ⟨rest, hes, hnames, hdots⟩ := h.slots d hd
  have hd0 : ¬ d = 0 := h.pos hd
  have hp0 : ¬ t.parent d = 0 := h.pos (hwf.parent_mem d hd)
  refine ⟨Kernel.putEntry rest (rest.findIdx fun x => x.inum = 0) e, ?_, ?_, ?_⟩
  · rw [D.addEntry_self, hes, List.findIdx_cons, List.findIdx_cons]
    simp only [hd0, hp0, decide_false, cond_false, putEntry_succ]
  · rw [namesOf_fill he, hnames]
  · intro x hx hinum
    rcases mem_putEntry hx with rfl | hx
    · exact hname
    · exact hdots x hx hinum

/-- A new name for an inode that is not a directory. -/
theorem addName (h : Represents D t debt) (hwf : t.Wf) (hd : d ∈ t.dirs) {name : Name}
    (hi : (D.inode i).type ≠ 0) (hfile : (D.inode i).type ≠ T_DIR) (hname : name ≠ dot) :
    Represents (D.addEntry d ⟨i, name⟩) (t.addName d i)
      fun j => debt j - if j = i then 1 else 0 where
  root := h.root
  dir := h.dir
  slots := by
    intro x hx
    rcases eq_or_ne x d with rfl | hxd
    · obtain ⟨rest, hes, hnames, hdots⟩ := h.addEntry_slots (e := ⟨i, name⟩) hwf hd
        (Nat.pos_iff_ne_zero.mp (h.range i hi).1) hname
      exact ⟨rest, hes, hnames.trans Hierarchy.addName_self.symm, hdots⟩
    · obtain ⟨rest, hes, hnames, hdots⟩ := h.slots x hx
      exact ⟨rest, (D.addEntry_ne _ hxd).trans hes,
        hnames.trans (Hierarchy.addName_ne hxd).symm, hdots⟩
  removed := by
    intro x htype hx e he
    have hxd : x ≠ d := fun heq => hx (heq ▸ hd)
    rw [D.addEntry_ne _ hxd] at he
    exact h.removed x htype hx e he
  named := by
    intro x hx j hj
    rcases eq_or_ne x d with rfl | hxd
    · rw [Hierarchy.addName_self, Multiset.mem_cons] at hj
      rcases hj with rfl | hj
      · exact ⟨hi, fun htype => absurd htype hfile⟩
      · exact h.named x hx j hj
    · rw [Hierarchy.addName_ne hxd] at hj
      exact h.named x hx j hj
  nlink := by
    intro j hj
    have hold := h.nlink j hj
    show (D.inode j).nlink = _
    rw [hold, Hierarchy.links_addName hd, Nat.cast_add]
    split <;> simp
  range := h.range

/-- A name for a new directory. -/
theorem addDir (h : Represents D t debt) (hwf : t.Wf) (hd : d ∈ t.dirs) {name : Name}
    (hi : (D.inode i).type = T_DIR) (hnew : i ∉ t.dirs)
    (hes : D.entries i = [⟨i, dot⟩, ⟨d, dotdot⟩]) (hname : name ≠ dot) :
    Represents (D.addEntry d ⟨i, name⟩) (t.addDir d i)
      fun j => debt j - (if j = i then 1 else 0) - if j = d then 1 else 0 := by
  have hi0 : (D.inode i).type ≠ 0 := by
    rw [hi]
    decide
  have hdi : ∀ x ∈ t.dirs, x ≠ i := fun x hx heq => hnew (heq ▸ hx)
  have hother : ∀ x, x ≠ d → (D.addEntry d ⟨i, name⟩).entries x = D.entries x := fun x hx =>
    D.addEntry_ne _ hx
  refine ⟨h.root, ?_, ?_, ?_, ?_, ?_, h.range⟩
  · intro x hx
    rcases Finset.mem_insert.mp hx with rfl | hx
    · exact hi
    · exact h.dir x hx
  · intro x hx
    rcases Finset.mem_insert.mp hx with rfl | hx
    · refine ⟨[], ?_, ?_, ?_⟩
      · rw [hother x (hdi d hd).symm, hes, Hierarchy.addDir_parent_new]
      · rw [Hierarchy.addDir_names_new]
        rfl
      · intro e he
        cases he
    · have hxi := hdi x hx
      rw [Hierarchy.addDir_parent_ne hxi]
      rcases eq_or_ne x d with rfl | hxd
      · obtain ⟨rest, hrest, hnames, hdots⟩ := h.addEntry_slots (e := ⟨i, name⟩) hwf hd
          (Nat.pos_iff_ne_zero.mp (h.range i hi0).1) hname
        exact ⟨rest, hrest, hnames.trans (Hierarchy.addDir_names_self hxi).symm, hdots⟩
      · obtain ⟨rest, hrest, hnames, hdots⟩ := h.slots x hx
        exact ⟨rest, (hother x hxd).trans hrest, hnames.trans (Hierarchy.addDir_names_ne hxi hxd).symm,
          hdots⟩
  · intro x htype hx e he
    have hx : x ∉ t.dirs := fun hmem => hx (Finset.mem_insert_of_mem hmem)
    rw [hother x fun heq => hx (heq ▸ hd)] at he
    exact h.removed x htype hx e he
  · intro x hx j hj
    rcases Finset.mem_insert.mp hx with rfl | hx
    · rw [Hierarchy.addDir_names_new] at hj
      exact absurd hj (Multiset.notMem_zero j)
    · have hold : ∀ j ∈ t.names x, (D.inode j).type ≠ 0 ∧
          ((D.inode j).type = T_DIR → j ∈ (t.addDir d i).dirs) := by
        intro j hj
        obtain ⟨halloc, hdir⟩ := h.named x hx j hj
        exact ⟨halloc, fun htype => Finset.mem_insert_of_mem (hdir htype)⟩
      have hxi := hdi x hx
      rcases eq_or_ne x d with rfl | hxd
      · rw [Hierarchy.addDir_names_self hxi, Multiset.mem_cons] at hj
        rcases hj with rfl | hj
        · exact ⟨hi0, fun _ => Finset.mem_insert_self ..⟩
        · exact hold j hj
      · rw [Hierarchy.addDir_names_ne hxi hxd] at hj
        exact hold j hj
  · intro j hj
    have hold := h.nlink j hj
    show (D.inode j).nlink = _
    rw [hold, Hierarchy.links_addDir hd hnew]
    push_cast
    split <;> split <;> omega

/-- An entry `.` or `..` of a directory that is not in the tree yet. -/
theorem addDots (h : Represents D t debt) (hi : i ∉ t.dirs) {e : Entry}
    (hname : e.name = dot ∨ e.name = dotdot) : Represents (D.addEntry i e) t debt where
  root := h.root
  dir := h.dir
  slots := by
    intro x hx
    have hxi : x ≠ i := fun heq => hi (heq ▸ hx)
    obtain ⟨rest, hes, hrest⟩ := h.slots x hx
    exact ⟨rest, (D.addEntry_ne _ hxi).trans hes, hrest⟩
  removed := by
    intro x htype hx y hy hinum
    rcases eq_or_ne x i with rfl | hxi
    · rw [D.addEntry_self] at hy
      rcases mem_putEntry hy with rfl | hy
      · exact hname
      · exact h.removed x htype hx y hy hinum
    · rw [D.addEntry_ne _ hxi] at hy
      exact h.removed x htype hx y hy hinum
  named := h.named
  nlink := h.nlink
  range := h.range

/-- The slots of a directory of the tree after an entry was cleared. -/
theorem clearEntry_slots (h : Represents D t debt) (hd : d ∈ t.dirs) {off : Nat} {e : Entry}
    (hoff : (D.entries d)[off]? = some e) (he : e.inum ≠ 0) (hdot : e.name ≠ dot)
    (hdotdot : e.name ≠ dotdot) :
    e.inum ∈ t.names d ∧
    ∃ rest, (D.clearEntry d off).entries d = ⟨d, dot⟩ :: ⟨t.parent d, dotdot⟩ :: rest ∧
      namesOf rest = (t.names d).erase e.inum ∧ ∀ x ∈ rest, x.inum ≠ 0 → x.name ≠ dot := by
  obtain ⟨rest, hes, hnames, hdots⟩ := h.slots d hd
  rw [hes] at hoff
  -- the entry is neither of the first two
  match off, hoff with
  | 0, hoff =>
      cases hoff
      exact absurd rfl hdot
  | 1, hoff =>
      cases hoff
      exact absurd rfl hdotdot
  | k + 2, hoff =>
      have hk : rest[k]? = some e := hoff
      refine ⟨hnames ▸ mem_namesOf.mpr ⟨he, e, List.mem_of_getElem? hk, rfl⟩, ?_⟩
      refine ⟨Kernel.putEntry rest k ⟨0, []⟩, ?_, ?_, ?_⟩
      · rw [Disk.clearEntry, Disk.setEntries_self, hes, putEntry_succ, putEntry_succ]
      · rw [namesOf_clear hk he, hnames]
      · intro x hx hinum
        rcases mem_putEntry hx with rfl | hx
        · exact absurd rfl hinum
        · exact hdots x hx hinum

/-- The last name of an inode that is not a directory, or one of several, goes. -/
theorem removeName (h : Represents D t debt) (hd : d ∈ t.dirs) {off : Nat} {name : Name}
    (hoff : (D.entries d)[off]? = some ⟨i, name⟩) (hi : i ≠ 0) (hdot : name ≠ dot)
    (hdotdot : name ≠ dotdot) :
    Represents (D.clearEntry d off) (t.removeName d i)
      fun j => debt j + if j = i then 1 else 0 := by
  obtain ⟨hmem, rest, hrest, hnames, hdots⟩ := h.clearEntry_slots hd hoff hi hdot hdotdot
  refine ⟨h.root, h.dir, ?_, ?_, ?_, ?_, h.range⟩
  · intro x hx
    rcases eq_or_ne x d with rfl | hxd
    · exact ⟨rest, hrest, hnames.trans Hierarchy.removeName_self.symm, hdots⟩
    · obtain ⟨rest, hes, hnames, hdots⟩ := h.slots x hx
      exact ⟨rest, (Disk.setEntries_ne _ _ hxd).trans hes,
        hnames.trans (Hierarchy.removeName_ne hxd).symm, hdots⟩
  · intro x htype hx e he
    have hxd : x ≠ d := fun heq => hx (heq ▸ hd)
    have hes : (D.clearEntry d off).entries x = D.entries x := Disk.setEntries_ne _ _ hxd
    rw [hes] at he
    exact h.removed x htype hx e he
  · intro x hx j hj
    rcases eq_or_ne x d with rfl | hxd
    · rw [Hierarchy.removeName_self] at hj
      exact h.named x hx j (Multiset.mem_of_mem_erase hj)
    · rw [Hierarchy.removeName_ne hxd] at hj
      exact h.named x hx j hj
  · intro j hj
    show (D.inode j).nlink = _
    rw [h.nlink j hj, Hierarchy.links_removeName hd hmem]
    push_cast
    split <;> omega

/-- An empty directory is removed. -/
theorem removeDir (h : Represents D t debt) (hwf : t.Wf) (hd : d ∈ t.dirs) {off : Nat} {name : Name}
    (hoff : (D.entries d)[off]? = some ⟨i, name⟩) (hi : i ∈ t.dirs) (hempty : t.names i = 0)
    (hdot : name ≠ dot) (hdotdot : name ≠ dotdot) :
    Represents (D.clearEntry d off) (t.removeDir d i)
      fun j => debt j + (if j = i then 1 else 0) + if j = d then 1 else 0 := by
  obtain ⟨hmem, rest, hrest, hnames, hdots⟩ := h.clearEntry_slots hd hoff (h.pos hi) hdot hdotdot
  have hdi : d ≠ i := Hierarchy.ne_of_mem_of_empty hmem hempty
  have hother : ∀ x, x ≠ d → (D.clearEntry d off).entries x = D.entries x := fun x hx =>
    Disk.setEntries_ne _ _ hx
  refine ⟨h.root, fun x hx => h.dir x (Finset.mem_of_mem_erase hx), ?_, ?_, ?_, ?_, h.range⟩
  · intro x hx
    rcases eq_or_ne x d with rfl | hxd
    · exact ⟨rest, hrest, hnames.trans Hierarchy.removeDir_self.symm, hdots⟩
    · obtain ⟨rest, hes, hnames, hdots⟩ := h.slots x (Finset.mem_of_mem_erase hx)
      exact ⟨rest, (hother x hxd).trans hes, hnames.trans (Hierarchy.removeDir_ne hxd).symm, hdots⟩
  · intro x htype hx e he hinum
    rcases eq_or_ne x i with rfl | hxi
    · -- the directory that goes has no entries besides `.` and `..`
      rw [hother x hdi.symm] at he
      rcases h.mem_entries hi he hinum with (rfl | rfl) | ⟨hin, -⟩
      · exact .inl rfl
      · exact .inr rfl
      · rw [hempty] at hin
        exact absurd hin (Multiset.notMem_zero _)
    · have hx : x ∉ t.dirs := fun hin => hx (Finset.mem_erase.mpr ⟨hxi, hin⟩)
      rw [hother x fun heq => hx (heq ▸ hd)] at he
      exact h.removed x htype hx e he hinum
  · intro x hmem' j hj
    have hx : x ∈ t.dirs := Finset.mem_of_mem_erase hmem'
    have hold : j ∈ t.names x := by
      rcases eq_or_ne x d with rfl | hxd
      · rw [Hierarchy.removeDir_self] at hj
        exact Multiset.mem_of_mem_erase hj
      · rwa [Hierarchy.removeDir_ne hxd] at hj
    obtain ⟨halloc, hdir⟩ := h.named x hx j hold
    refine ⟨halloc, fun htype => Finset.mem_erase.mpr ⟨?_, hdir htype⟩⟩
    -- only `d` named it, and once
    rintro rfl
    obtain ⟨hroot, rfl⟩ := (hwf.mem_names_iff hi hd).mp hmem
    obtain ⟨-, rfl⟩ := (hwf.mem_names_iff hi hx).mp hold
    have hcount := hwf.count_dir j hi _ hx
    rw [if_pos ⟨hroot, rfl⟩] at hcount
    rw [Hierarchy.removeDir_self, ← Multiset.count_pos, Multiset.count_erase_self, hcount] at hj
    exact absurd hj (by decide)
  · intro j hj
    show (D.inode j).nlink = _
    rw [h.nlink j hj, hwf.links_removeDir hd hi hmem hempty]
    push_cast
    split <;> split <;> omega

/-! ## The changes of whole calls -/

/-- `sys_link` in a directory of the tree. -/
theorem linked (h : Represents D t 0) (hwf : t.Wf) (hd : d ∈ t.dirs) {name : Name}
    (hi : (D.inode i).type ≠ 0) (hfile : (D.inode i).type ≠ T_DIR) (hname : name ≠ dot) :
    Represents ((D.adjust i 1).addEntry d ⟨i, name⟩) (t.addName d i) 0 := by
  have hadd := (h.adjust i 1).addName (i := i) hwf hd (by rwa [Disk.adjust_type])
    (by rwa [Disk.adjust_type]) hname
  refine hadd.congr_debt fun j => ?_
  simp only [Pi.zero_apply]
  split <;> rfl

/-- `create` in a directory of the tree. -/
theorem created (h : Represents D t 0) (hwf : t.Wf) (hd : d ∈ t.dirs) {name : Name} {n : Inode}
    (hfree : (D.inode i).type = 0) (hpos : 0 < i) (hlt : i < D.ninodes) (htype : n.type ≠ 0)
    (hn : n.nlink = 1) (hname : name ≠ dot) :
    ∃ t' : Hierarchy Nat, t'.Wf ∧ Represents (D.created d name i n) t' 0 := by
  have hi : i ∉ t.dirs := by
    intro hmem
    rw [h.dir i hmem] at hfree
    exact absurd hfree (by decide)
  have hnew := h.newInode hwf (n := n) hfree hpos (Nat.lt_of_lt_of_le hlt D.ninodes_le_room)
  have hself : (D.newInode i n).inode i = n := D.newInode_self i n
  unfold Disk.created Disk.allocated
  by_cases hdir : n.type = T_DIR
  · rw [if_pos hdir]
    have hunnamed : ∀ e ∈ t.dirs, i ∉ t.names e := fun e he hmem => (h.named e he i hmem).1 hfree
    refine ⟨_, hwf.addDir hd hi hunnamed, ?_⟩
    have hdots := (((hnew.adjust d 1).addDots hi (e := ⟨i, dot⟩) (.inl rfl)).addDots hi
      (e := ⟨d, dotdot⟩) (.inr rfl)).addDir (i := i) hwf hd ?_ hi ?_ hname
    · refine hdots.congr_debt fun j => ?_
      have hdi : d ≠ i := fun heq => hi (heq ▸ hd)
      rcases eq_or_ne j i with rfl | hji
      · simp [hdi.symm, hn]
      · rcases eq_or_ne j d with rfl | hjd
        · simp [hji]
        · simp [hji, hjd]
    · show (((D.newInode i n).adjust d 1).inode i).type = T_DIR
      rw [Disk.adjust_type, hself]
      exact hdir
    · have hentries := D.allocated_dots (d := d) (Nat.pos_iff_ne_zero.mp hpos) hdir
      rwa [Disk.allocated, if_pos hdir] at hentries
  · rw [if_neg hdir]
    refine ⟨t.addName d i, hwf.addName hi, ?_⟩
    have hadd := hnew.addName (i := i) hwf hd (by rwa [hself]) (by rwa [hself]) hname
    refine hadd.congr_debt fun j => ?_
    rcases eq_or_ne j i with rfl | hji
    · simp [hn]
    · simp [hji]

/-- `sys_unlink` in a directory of the tree. -/
theorem unlinked (h : Represents D t 0) (hwf : t.Wf) (hd : d ∈ t.dirs) {off : Nat} {name : Name}
    (hoff : (D.entries d)[off]? = some ⟨i, name⟩) (hi : i ≠ 0) (hdot : name ≠ dot)
    (hdotdot : name ≠ dotdot)
    (hempty : (D.inode i).type = T_DIR → ∀ e ∈ (D.entries i).drop 2, e.inum = 0) :
    (∃ t' : Hierarchy Nat, t'.Wf ∧ d ∈ t'.dirs ∧ Represents (D.unlinked d off i) t' 0) ∧ d ≠ i := by
  obtain ⟨hmem, -⟩ := h.clearEntry_slots hd hoff hi hdot hdotdot
  have hmem : i ∈ t.names d := hmem
  unfold Disk.unlinked
  by_cases hdir : (D.inode i).type = T_DIR
  · have hdirs : i ∈ t.dirs := (h.named d hd i hmem).2 hdir
    have hnames : t.names i = 0 := by
      obtain ⟨rest, hes, hnames, -⟩ := h.slots i hdirs
      rw [← hnames, namesOf_eq_zero]
      have hrest := hempty hdir
      rw [hes] at hrest
      exact hrest
    have hdi : d ≠ i := Hierarchy.ne_of_mem_of_empty hmem hnames
    rw [if_pos hdir]
    refine ⟨⟨_, hwf.removeDir hd hdirs hmem hnames, Finset.mem_erase.mpr ⟨hdi, hd⟩, ?_⟩, hdi⟩
    have hremove := ((h.removeDir hwf hd hoff hdirs hnames hdot hdotdot).adjust d (-1)).adjust i (-1)
    refine hremove.congr_debt fun j => ?_
    simp only [Pi.zero_apply]
    split <;> split <;> rfl
  · have hdirs : i ∉ t.dirs := fun hin => hdir (h.dir i hin)
    rw [if_neg hdir]
    refine ⟨⟨t.removeName d i, hwf.removeName hdirs, hd, ?_⟩, fun heq => hdirs (heq ▸ hd)⟩
    have hremove := (h.removeName hd hoff hi hdot hdotdot).adjust i (-1)
    refine hremove.congr_debt fun j => ?_
    simp only [Pi.zero_apply]
    split <;> rfl

end Represents

end Xv6Arm.Sys
