import Mathlib.Algebra.BigOperators.Group.Finset.Piecewise
import Mathlib.Algebra.Order.BigOperators.Group.Finset

/-!
# Trees of names

A hierarchy of directories.  Every directory has a parent, which it links to, and
names things: other directories, and things that are not directories.  The *links*
of a thing are the names for it and the directories whose parent it is.

A tree is well-formed if the parents lead every directory to the root, and if a
directory other than the root is named exactly once, by its parent.  Names and
empty directories are added and removed.  Each change keeps a tree well-formed, and
its effect on the links is stated with it.
-/

namespace NameTree

/-- Directories with their parents and what they name. -/
structure Hierarchy (α : Type*) where
  root : α
  dirs : Finset α
  parent : α → α
  names : α → Multiset α

variable {α : Type*}

/-- The parents lead from a directory to the root. -/
inductive Hierarchy.Below (t : Hierarchy α) : α → Prop
  | root : t.Below t.root
  | child {d : α} : d ∈ t.dirs → t.Below (t.parent d) → t.Below d

theorem Hierarchy.Below.mono {t t' : Hierarchy α} {d : α} (hroot : t'.root = t.root)
    (hdirs : ∀ e ∈ t.dirs, e ∈ t'.dirs) (hparent : ∀ e ∈ t.dirs, t'.parent e = t.parent e)
    (h : t.Below d) : t'.Below d := by
  induction h with
  | root => exact hroot ▸ Below.root
  | child hd _ ih => exact .child (hdirs _ hd) (hparent _ hd ▸ ih)

theorem Hierarchy.ne_of_mem_of_empty {t : Hierarchy α} {d i : α} (hmem : i ∈ t.names d)
    (hempty : t.names i = 0) : d ≠ i := by
  rintro rfl
  rw [hempty] at hmem
  exact Multiset.notMem_zero d hmem

variable [DecidableEq α]

namespace Hierarchy

/-- What a directory refers to. -/
def refs (t : Hierarchy α) (d : α) : Multiset α := t.parent d ::ₘ t.names d

/-- The links of `i`. -/
def links (t : Hierarchy α) (i : α) : ℕ := ∑ d ∈ t.dirs, (t.refs d).count i

/-- Well-formed trees. -/
structure Wf (t : Hierarchy α) : Prop where
  root_mem : t.root ∈ t.dirs
  parent_root : t.parent t.root = t.root
  parent_mem : ∀ d ∈ t.dirs, t.parent d ∈ t.dirs
  count_dir : ∀ d ∈ t.dirs, ∀ e ∈ t.dirs,
    (t.names e).count d = if d ≠ t.root ∧ e = t.parent d then 1 else 0
  below : ∀ d ∈ t.dirs, t.Below d

/-- Directory `d` names `i`, which is not a directory. -/
def addName (t : Hierarchy α) (d i : α) : Hierarchy α :=
  { t with names := Function.update t.names d (i ::ₘ t.names d) }

/-- Directory `d` no longer names `i`, which is not a directory. -/
def removeName (t : Hierarchy α) (d i : α) : Hierarchy α :=
  { t with names := Function.update t.names d ((t.names d).erase i) }

/-- Directory `d` names a new directory `i`. -/
def addDir (t : Hierarchy α) (d i : α) : Hierarchy α where
  root := t.root
  dirs := insert i t.dirs
  parent := Function.update t.parent i d
  names := Function.update (Function.update t.names d (i ::ₘ t.names d)) i 0

/-- Directory `d` no longer names the directory `i`, which is gone. -/
def removeDir (t : Hierarchy α) (d i : α) : Hierarchy α :=
  { t with dirs := t.dirs.erase i, names := Function.update t.names d ((t.names d).erase i) }

variable {t : Hierarchy α} {d i : α}

theorem addName_self : (t.addName d i).names d = i ::ₘ t.names d := Function.update_self ..

theorem addName_ne {e : α} (h : e ≠ d) : (t.addName d i).names e = t.names e :=
  Function.update_of_ne h ..

theorem removeName_self : (t.removeName d i).names d = (t.names d).erase i :=
  Function.update_self ..

theorem removeName_ne {e : α} (h : e ≠ d) : (t.removeName d i).names e = t.names e :=
  Function.update_of_ne h ..

theorem addDir_names_new : (t.addDir d i).names i = 0 := Function.update_self ..

theorem addDir_names_self (h : d ≠ i) : (t.addDir d i).names d = i ::ₘ t.names d :=
  (Function.update_of_ne h ..).trans (Function.update_self ..)

theorem addDir_names_ne {e : α} (hi : e ≠ i) (hd : e ≠ d) : (t.addDir d i).names e = t.names e :=
  (Function.update_of_ne hi ..).trans (Function.update_of_ne hd ..)

theorem addDir_parent_new : (t.addDir d i).parent i = d := Function.update_self ..

theorem addDir_parent_ne {e : α} (h : e ≠ i) : (t.addDir d i).parent e = t.parent e :=
  Function.update_of_ne h ..

theorem removeDir_self : (t.removeDir d i).names d = (t.names d).erase i := Function.update_self ..

theorem removeDir_ne {e : α} (h : e ≠ d) : (t.removeDir d i).names e = t.names e :=
  Function.update_of_ne h ..

/-! ## Links -/

theorem links_pos (hd : d ∈ t.dirs) (hi : i ∈ t.refs d) : 0 < t.links i :=
  (Multiset.count_pos.mpr hi).trans_le
    (Finset.single_le_sum (f := fun d => (t.refs d).count i) (fun _ _ => Nat.zero_le _) hd)

theorem Wf.mem_names_iff (h : t.Wf) (hi : i ∈ t.dirs) (hd : d ∈ t.dirs) :
    i ∈ t.names d ↔ i ≠ t.root ∧ d = t.parent i := by
  rw [← Multiset.count_pos, h.count_dir i hi d hd]
  split <;> simp_all

/-- A directory has a link. -/
theorem Wf.links_pos (h : t.Wf) (hd : d ∈ t.dirs) : 0 < t.links d := by
  rcases eq_or_ne d t.root with rfl | hroot
  · exact Hierarchy.links_pos h.root_mem (Multiset.mem_cons.mpr (.inl h.parent_root.symm))
  · exact Hierarchy.links_pos (h.parent_mem d hd) (Multiset.mem_cons_of_mem
      ((h.mem_names_iff hd (h.parent_mem d hd)).mpr ⟨hroot, rfl⟩))

/-- An empty directory is nobody's parent. -/
theorem Wf.parent_ne_of_empty (h : t.Wf) (hroot : i ≠ t.root) (hempty : t.names i = 0)
    {e : α} (he : e ∈ t.dirs) : t.parent e ≠ i := by
  intro hparent
  rcases eq_or_ne e t.root with rfl | hne
  · exact hroot (hparent.symm.trans h.parent_root)
  · have hmem := (h.mem_names_iff he (h.parent_mem e he)).mpr ⟨hne, rfl⟩
    rw [hparent, hempty] at hmem
    exact Multiset.notMem_zero e hmem

/-! ## Changes -/

/-- A sum with one summand larger. -/
theorem sum_bump {s : Finset α} {f g : α → ℕ} {c : ℕ} (hd : d ∈ s)
    (h : ∀ e ∈ s, g e = f e + if e = d then c else 0) : ∑ e ∈ s, g e = ∑ e ∈ s, f e + c := by
  rw [Finset.sum_congr rfl h, Finset.sum_add_distrib, Finset.sum_ite_eq', if_pos hd]

/-- The links after a new name. -/
theorem links_addName (hd : d ∈ t.dirs) (j : α) :
    (t.addName d i).links j = t.links j + if j = i then 1 else 0 := by
  apply sum_bump hd
  intro e _
  rcases eq_or_ne e d with rfl | he
  · rw [refs, addName_self, if_pos rfl, Multiset.cons_swap, Multiset.count_cons]
    rfl
  · rw [refs, addName_ne he, if_neg he]
    rfl

theorem Wf.addName (h : t.Wf) (hi : i ∉ t.dirs) : (t.addName d i).Wf where
  root_mem := h.root_mem
  parent_root := h.parent_root
  parent_mem := h.parent_mem
  count_dir := by
    intro x hx e he
    have hxi : x ≠ i := fun heq => hi (heq ▸ hx)
    have hsame : ((t.addName d i).names e).count x = (t.names e).count x := by
      rcases eq_or_ne e d with rfl | hed
      · rw [addName_self, Multiset.count_cons_of_ne hxi]
      · rw [addName_ne hed]
    exact hsame.trans (h.count_dir x hx e he)
  below := fun x hx => Below.mono (t := t) rfl (fun _ h => h) (fun _ _ => rfl) (h.below x hx)

/-- To remove a name is to undo its addition. -/
theorem removeName_addName (hi : i ∈ t.names d) : (t.removeName d i).addName d i = t := by
  simp only [Hierarchy.addName, Hierarchy.removeName, Function.update_self, Multiset.cons_erase hi,
    Function.update_idem, Function.update_eq_self]

/-- The links before a name was removed. -/
theorem links_removeName (hd : d ∈ t.dirs) (hi : i ∈ t.names d) (j : α) :
    t.links j = (t.removeName d i).links j + if j = i then 1 else 0 := by
  have hadd := links_addName (t := t.removeName d i) (i := i) hd j
  rwa [removeName_addName hi] at hadd

theorem Wf.removeName (h : t.Wf) (hi : i ∉ t.dirs) : (t.removeName d i).Wf where
  root_mem := h.root_mem
  parent_root := h.parent_root
  parent_mem := h.parent_mem
  count_dir := by
    intro x hx e he
    have hxi : x ≠ i := fun heq => hi (heq ▸ hx)
    have hsame : ((t.removeName d i).names e).count x = (t.names e).count x := by
      rcases eq_or_ne e d with rfl | hed
      · rw [removeName_self, Multiset.count_erase_of_ne hxi]
      · rw [removeName_ne hed]
    exact hsame.trans (h.count_dir x hx e he)
  below := fun x hx => Below.mono (t := t) rfl (fun _ h => h) (fun _ _ => rfl) (h.below x hx)

/-- The links after a new directory: its name, and its link to its parent. -/
theorem links_addDir (hd : d ∈ t.dirs) (hi : i ∉ t.dirs) (j : α) :
    (t.addDir d i).links j =
      t.links j + (if j = i then 1 else 0) + if j = d then 1 else 0 := by
  have hnew : (t.addDir d i).refs i = {d} := by
    rw [refs, addDir_names_new, addDir_parent_new, Multiset.cons_zero]
  have hold : ∑ e ∈ t.dirs, ((t.addDir d i).refs e).count j =
      t.links j + if j = i then 1 else 0 := by
    apply sum_bump hd
    intro e he
    have hei : e ≠ i := fun heq => hi (heq ▸ he)
    rcases eq_or_ne e d with rfl | hed
    · rw [refs, addDir_names_self hei, addDir_parent_ne hei, if_pos rfl, Multiset.cons_swap,
        Multiset.count_cons]
      rfl
    · rw [refs, addDir_names_ne hei hed, addDir_parent_ne hei, if_neg hed]
      rfl
  rw [links, show (t.addDir d i).dirs = insert i t.dirs from rfl, Finset.sum_insert hi, hold, hnew,
    Multiset.count_singleton]
  omega

theorem Wf.addDir (h : t.Wf) (hd : d ∈ t.dirs) (hi : i ∉ t.dirs)
    (hnew : ∀ e ∈ t.dirs, i ∉ t.names e) : (t.addDir d i).Wf := by
  have hid : i ≠ d := fun heq => hi (heq ▸ hd)
  have hparent : ∀ e ∈ t.dirs, (t.addDir d i).parent e = t.parent e := by
    intro e he
    have hei : e ≠ i := fun heq => hi (heq ▸ he)
    exact addDir_parent_ne hei
  have hself : (t.addDir d i).parent i = d := addDir_parent_new
  have hbelow : ∀ e ∈ t.dirs, (t.addDir d i).Below e := fun e he =>
    Below.mono (t := t) rfl (fun _ h => Finset.mem_insert_of_mem h) hparent (h.below e he)
  refine ⟨Finset.mem_insert_of_mem h.root_mem, ?_, ?_, ?_, ?_⟩
  · exact (hparent _ h.root_mem).trans h.parent_root
  · intro e he
    rcases Finset.mem_insert.mp he with rfl | he
    · rw [hself]
      exact Finset.mem_insert_of_mem hd
    · rw [hparent e he]
      exact Finset.mem_insert_of_mem (h.parent_mem e he)
  · intro x hx e he
    rcases Finset.mem_insert.mp he with rfl | he
    · -- the new directory is empty, and it is nobody's parent
      have hne : ¬ (x ≠ t.root ∧ e = (t.addDir d e).parent x) := by
        rintro ⟨-, heq⟩
        rcases Finset.mem_insert.mp hx with rfl | hx
        · exact hid (heq.trans hself)
        · exact hi (heq.trans (hparent x hx) ▸ h.parent_mem x hx)
      rw [show (t.addDir d e).root = t.root from rfl, if_neg hne]
      rw [addDir_names_new, Multiset.count_zero]
    · have hei : e ≠ i := fun heq => hi (heq ▸ he)
      have hnames : ((t.addDir d i).names e).count x =
          (t.names e).count x + if e = d ∧ x = i then 1 else 0 := by
        rcases eq_or_ne e d with rfl | hed
        · rw [addDir_names_self hei, Multiset.count_cons]
          simp only [true_and]
        · rw [addDir_names_ne hei hed]
          simp only [hed, false_and, if_false, Nat.add_zero]
      rw [hnames, show (t.addDir d i).root = t.root from rfl]
      rcases Finset.mem_insert.mp hx with rfl | hx
      · have hroot : x ≠ t.root := fun heq => hi (heq ▸ h.root_mem)
        rw [Multiset.count_eq_zero.mpr (hnew e ‹e ∈ t.dirs›), hself]
        simp [hroot]
      · have hxi : x ≠ i := fun heq => hi (heq ▸ hx)
        rw [h.count_dir x hx e he, hparent x hx]
        simp [hxi]
  · intro e he
    rcases Finset.mem_insert.mp he with rfl | he
    · refine .child (Finset.mem_insert_self ..) ?_
      rw [hself]
      exact hbelow d hd
    · exact hbelow e he

/-- To remove an empty directory is to undo its addition. -/
theorem Wf.removeDir_addDir (h : t.Wf) (hd : d ∈ t.dirs) (hi : i ∈ t.dirs) (hmem : i ∈ t.names d)
    (hempty : t.names i = 0) : (t.removeDir d i).addDir d i = t := by
  obtain ⟨-, rfl⟩ := (h.mem_names_iff hi hd).mp hmem
  simp only [Hierarchy.addDir, Hierarchy.removeDir, Finset.insert_erase hi, Function.update_self,
    Multiset.cons_erase hmem, Function.update_idem, Function.update_eq_self]
  rw [← hempty, Function.update_eq_self]

/-- The links before an empty directory was removed. -/
theorem Wf.links_removeDir (h : t.Wf) (hd : d ∈ t.dirs) (hi : i ∈ t.dirs) (hmem : i ∈ t.names d)
    (hempty : t.names i = 0) (j : α) :
    t.links j = (t.removeDir d i).links j + (if j = i then 1 else 0) + if j = d then 1 else 0 := by
  have hadd := links_addDir (t := t.removeDir d i)
    (Finset.mem_erase.mpr ⟨ne_of_mem_of_empty hmem hempty, hd⟩) (Finset.notMem_erase i t.dirs) j
  rwa [h.removeDir_addDir hd hi hmem hempty] at hadd

theorem Wf.removeDir (h : t.Wf) (hd : d ∈ t.dirs) (hi : i ∈ t.dirs) (hmem : i ∈ t.names d)
    (hempty : t.names i = 0) : (t.removeDir d i).Wf := by
  obtain ⟨hroot, -⟩ := (h.mem_names_iff hi hd).mp hmem
  have hchild : ∀ e ∈ t.dirs, t.parent e ≠ i := fun e he => h.parent_ne_of_empty hroot hempty he
  have hbelow : ∀ e, t.Below e → e ≠ i → (t.removeDir d i).Below e := by
    intro e he hne
    induction he with
    | root => exact Below.root
    | child hmem' _ ih => exact .child (Finset.mem_erase.mpr ⟨hne, hmem'⟩) (ih (hchild _ hmem'))
  refine ⟨Finset.mem_erase.mpr ⟨Ne.symm hroot, h.root_mem⟩, h.parent_root, ?_, ?_, ?_⟩
  · intro e he
    have he := Finset.mem_of_mem_erase he
    exact Finset.mem_erase.mpr ⟨hchild e he, h.parent_mem e he⟩
  · intro x hx e he
    obtain ⟨hxi, hx⟩ := Finset.mem_erase.mp hx
    have he := Finset.mem_of_mem_erase he
    have hsame : ((t.removeDir d i).names e).count x = (t.names e).count x := by
      rcases eq_or_ne e d with rfl | hed
      · rw [removeDir_self, Multiset.count_erase_of_ne hxi]
      · rw [removeDir_ne hed]
    exact hsame.trans (h.count_dir x hx e he)
  · intro e he
    obtain ⟨hne, he⟩ := Finset.mem_erase.mp he
    exact hbelow e (h.below e he) hne

end Hierarchy

end NameTree
