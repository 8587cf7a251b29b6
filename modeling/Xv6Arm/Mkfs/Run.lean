import Xv6Arm.Mkfs.Append

/-!
# What mkfs does

The volume that `mkfs` makes from its input files, and what it holds.  As long as
the inodes fit before the data blocks, `mkfs` makes the image of that volume, or it
fails because there is no room for it.
-/

namespace Xv6Arm.Mkfs

open Bytes Fs Fallible

/-! ## The steps of main -/

/-- The volume with one more input file. -/
def Volume.addFile (v : Volume) (f : Input) : Volume :=
  ((v.ialloc T_FILE).append ROOTINO (dirent v.next f.target)).append v.next f.bytes

/-- A file with zeros up to the next multiple of `BSIZE`. -/
def File.pad (f : File) : File :=
  { f with data := f.data ++ List.replicate (BSIZE - f.data.length % BSIZE) 0 }

/-- The volume at the end of `main`. -/
def Volume.finish (v : Volume) : Volume :=
  { v with
    file := Function.update v.file ROOTINO (v.file ROOTINO).pad
    bits := bitmap v.free }

/-- The volume of zeros. -/
def emptyVolume : Volume :=
  { file := fun _ => File.none, next := 1, free := usedBefore, bits := zeroBuf 512 }

/-- The volume with an empty root directory. -/
def rootVolume : Volume :=
  ((emptyVolume.ialloc T_DIR).append ROOTINO (dirent ROOTINO [46])).append ROOTINO
    (dirent ROOTINO [46, 46])

/-- The volume that holds some input files. -/
def volume (files : List Input) : Volume := files.foldl Volume.addFile rootVolume

section Steps

variable {v : Volume} {s : State}

theorem emptyVolume_wf : emptyVolume.Wf usedBefore where
  low_pos := by decide
  low_le := Nat.le_refl _
  file_none _ _ := rfl
  file_wf _ := ⟨by simp [emptyVolume, File.none], by simp [emptyVolume, File.none]⟩
  ref_bounds i x hx := by cases hx
  ref_nodup _ := List.nodup_nil
  ref_inj i j x hx := by cases hx
  ref_cover x hlow hlt := by
    have hlt : x < usedBefore := hlt
    omega

theorem ialloc_file_self (t : Nat) :
    (v.ialloc t).file v.next = { type := t, nlink := 1, data := [], blocks := [], ind := 0 } :=
  Function.update_self ..

theorem ialloc_file_ne (t : Nat) {j : Nat} (hj : j ≠ v.next) : (v.ialloc t).file j = v.file j :=
  Function.update_of_ne hj ..

theorem fits_ialloc (hwf : v.Wf usedBefore) (t : Nat) : Fits (v.ialloc t) ↔ Fits v := by
  constructor
  · rintro ⟨hfree, hdata⟩
    refine ⟨hfree, fun j => ?_⟩
    by_cases hj : j = v.next
    · rw [hwf.file_none j (Or.inr (Nat.le_of_eq hj.symm))]
      exact Nat.zero_le _
    · rw [← ialloc_file_ne t hj]
      exact hdata j
  · rintro ⟨hfree, hdata⟩
    refine ⟨hfree, fun j => ?_⟩
    by_cases hj : j = v.next
    · rw [hj, ialloc_file_self]
      exact Nat.zero_le _
    · rw [ialloc_file_ne t hj]
      exact hdata j

/-- The inode that `ialloc` writes. -/
theorem stores_new {t : Nat} (ht : t < 2 ^ 16) :
    Stores { type := t, nlink := 1, data := [], blocks := [], ind := 0 }
      (setSize (setNlink (setType (zeroBuf 64) t) 1) 0) := by
  have hother : ∀ off w, 2 ≤ off → off + w ≤ 6 ∨ 12 ≤ off ∧ off + w ≤ 64 →
      getLe (setSize (setNlink (setType (zeroBuf 64) t) 1) 0) off w = 0 := by
    intro off w hlow hrange
    unfold setSize setNlink setType
    rw [getLe_putLe_of_disjoint _ (by omega) (by omega),
      getLe_putLe_of_disjoint _ (by omega) (by omega),
      getLe_putLe_of_disjoint _ (by omega) (by omega), getLe_zeroBuf]
  refine ⟨⟨?_, hother 2 2 (by decide) (by decide), hother 4 2 (by decide) (by decide), ?_, ?_,
    hother 60 4 (by decide) (by decide)⟩, size_setSize (by decide)⟩
  · unfold Dinode.type setSize setNlink setType
    rw [getLe_putLe_of_disjoint _ (by decide) (by decide),
      getLe_putLe_of_disjoint _ (by decide) (by decide), getLe_putLe_of_lt _ (by decide) ht]
  · unfold Dinode.nlink setSize setNlink
    rw [getLe_putLe_of_disjoint _ (by decide) (by decide),
      getLe_putLe_of_lt _ (by decide) (by decide)]
  · intro k hk
    rw [List.getD_nil]
    exact hother (12 + 4 * k) 4 (by omega) (by omega)

/-- `ialloc` makes a new empty file. -/
theorem ialloc_run (h : Drafts s v) (hwf : v.Wf usedBefore) (hnext : v.next < 216) {t : Nat}
    (ht : t < 2 ^ 16) :
    ∃ s', ialloc t s = .ok (v.next, s') ∧ Drafts s' (v.ialloc t) := by
  have hlt := i2b_lt hnext
  have hge := le_i2b v.next
  have hrun : ialloc t s = .ok (v.next, ({ s with freeinode := s.freeinode + 1 } : State).put v.next
      (setSize (setNlink (setType (zeroBuf 64) t) 1) 0)) := by
    have hw := winode_run (s := { s with freeinode := s.freeinode + 1 })
      (d := setSize (setNlink (setType (zeroBuf 64) t) 1) 0) (h.freeinode.symm ▸ hnext) h.len
    rw [← h.freeinode, ialloc, hw, ok_bind]
    rfl
  have hlow : 29 ≤ v.free := hwf.low_le
  refine ⟨_, hrun, put_len hnext h.len, h.freeblock, h.usedblocks, congrArg (· + 1) h.freeinode, ?_,
    ?_, ?_, ?_, ?_⟩
  · exact (put_img_ne (by omega)).trans h.boot
  · exact (put_img_ne (by omega)).trans h.super
  · intro j hj
    by_cases hjn : j = v.next
    · rw [hjn, dinode_put_self, ialloc_file_self]
      exact stores_new ht
    · rw [dinode_put_ne hjn, ialloc_file_ne t hjn]
      exact h.inode j hj
  · intro j hj
    by_cases hjn : j = v.next
    · rw [hjn, ialloc_file_self]
      exact ⟨fun k x hx => by simp at hx, fun hne => absurd rfl hne⟩
    · rw [ialloc_file_ne t hjn]
      apply (h.filled j hj).congr
      intro x hx
      have hb : 29 ≤ x := (hwf.ref_bounds j x hx).1
      exact put_img_ne (by omega)
  · intro x hx
    have hx : v.free ≤ x := hx
    exact (put_img_ne (by omega)).trans (h.free x hx)

/-- The volume with a new inode and its entry in the root directory. -/
theorem Volume.Wf.addName (hwf : v.Wf usedBefore) (hroot : 1 < v.next) (f : Input) :
    ((v.ialloc T_FILE).append ROOTINO (dirent v.next f.target)).Wf usedBefore :=
  (hwf.ialloc (by omega) T_FILE).append (by decide) (show 1 < v.next + 1 by omega) _

theorem Volume.Wf.addFile (hwf : v.Wf usedBefore) (hroot : 1 < v.next) (f : Input) :
    (v.addFile f).Wf usedBefore := by
  exact (hwf.addName hroot f).append (by omega) (show v.next < v.next + 1 by omega) f.bytes

theorem Fits.of_addFile (hwf : v.Wf usedBefore) (hroot : 1 < v.next) {f : Input}
    (h : Fits (v.addFile f)) : Fits v := by
  exact (fits_ialloc hwf T_FILE).mp
    ((h.of_append (hwf.addName hroot f)).of_append (hwf.ialloc (by omega) T_FILE))

/-- The round of `main` for an input file. -/
theorem addFile_run (h : Drafts s v) (hwf : v.Wf usedBefore) (hroot : 1 < v.next)
    (hnext : v.next < 216) (hfits : Fits v) {f : Input} (hname : 47 ∉ f.name) :
    Yields (addFile ROOTINO s f) (v.addFile f) := by
  obtain ⟨s₁, hrun, hs₁⟩ := ialloc_run h hwf hnext (t := T_FILE) (by decide)
  have h₁ := hwf.ialloc (by omega) T_FILE
  have h₂ := hwf.addName hroot f
  rw [addFile, if_neg hname, hrun, ok_bind]
  refine (iappend_run hs₁ h₁ (by decide) (show 1 < v.next + 1 by omega) hnext
    ((fits_ialloc hwf T_FILE).mpr hfits) _).bind (fun hf => hf.of_append h₂) fun s₂ hs₂ hfits₂ => ?_
  exact chunks_run (by omega) hs₂ h₂ (show v.next < v.next + 1 by omega) hnext hfits₂

theorem addFile_next (f : Input) : (v.addFile f).next = v.next + 1 := rfl

theorem Fits.of_foldl : ∀ (files : List Input) {v : Volume}, v.Wf usedBefore → 1 < v.next →
    Fits (files.foldl Volume.addFile v) → Fits v
  | [], _, _, _, h => h
  | f :: files, _, hwf, hroot, h =>
      (Fits.of_foldl files (hwf.addFile hroot f) (Nat.lt_succ_of_lt hroot) h).of_addFile hwf hroot

/-- The loop of `main` over the input files. -/
theorem addFiles_run : ∀ {files : List Input} {v : Volume} {s : State}, Drafts s v →
    v.Wf usedBefore → 1 < v.next → v.next + files.length ≤ 216 → Fits v →
    (∀ f ∈ files, 47 ∉ f.name) →
    Yields (files.foldlM (addFile ROOTINO) s) (files.foldl Volume.addFile v)
  | [], _, s, h, _, _, _, hfits, _ => Or.inl ⟨hfits, s, rfl, h⟩
  | f :: files, v, s, h, hwf, hroot, htop, hfits, hnames => by
      rw [List.length_cons] at htop
      have hwf' := hwf.addFile hroot f
      have hroot' : 1 < (v.addFile f).next := Nat.lt_succ_of_lt hroot
      have htop' : (v.addFile f).next + files.length ≤ 216 := by
        rw [addFile_next]
        omega
      rw [List.foldlM_cons, List.foldl_cons]
      exact (addFile_run h hwf hroot (by omega) hfits (hnames f (List.mem_cons_self ..))).bind
        (Fits.of_foldl files hwf' hroot') fun s' hs' hfits' =>
          addFiles_run hs' hwf' hroot' htop' hfits' fun g hg => hnames g (List.mem_cons_of_mem f hg)

theorem getD_append_zeros (l : List UInt8) (m n : Nat) :
    (l ++ List.replicate m 0).getD n 0 = l.getD n 0 := by
  rcases Nat.lt_or_ge n l.length with hn | hn
  · rw [List.getD_append _ _ _ _ hn]
  · rw [List.getD_append_right _ _ _ _ hn, List.getD_eq_default l _ hn]
    simp [List.getD, List.getElem?_replicate]
    split <;> rfl

theorem Filled.pad {img : Image} {f : File} (h : Filled img f) : Filled img f.pad where
  data k x hx o ho := by
    show _ = (f.data ++ List.replicate _ 0).getD (512 * k + o) 0
    rw [getD_append_zeros]
    exact h.data k x hx o ho
  ind := h.ind

/-- The inode of a directory with the rounded size. -/
theorem Stores.pad {f : File} {d : Dinode} (h : Stores f d) (hlen : f.data.length ≤ 71680) :
    Stores f.pad (setSize d ((f.data.length / BSIZE + 1) * BSIZE)) := by
  have hpadded : f.pad.data.length = (f.data.length / BSIZE + 1) * BSIZE := by
    show (f.data ++ List.replicate _ 0).length = _
    rw [List.length_append, List.length_replicate]
    unfold BSIZE
    omega
  obtain ⟨h₁, h₂, h₃, h₄, h₅, h₆⟩ := names_setSize.mpr h.toNames
  refine ⟨⟨h₁, h₂, h₃, h₄, h₅, h₆⟩, (size_setSize ?_).trans hpadded.symm⟩
  unfold BSIZE
  omega

/-- The end of `main`. -/
theorem finish_run (h : Drafts s v) (hwf : v.Wf usedBefore) (hfits : Fits v) :
    ∃ s', finish ROOTINO s = .ok s' ∧ Represents s' v.finish := by
  have hfree := hfits.free_le
  have hlow : 29 ≤ v.free := hwf.low_le
  have hroot : i2b ROOTINO = 2 := rfl
  have hsize : Dinode.size (dinode s.img ROOTINO) = (v.file ROOTINO).data.length :=
    (h.inode ROOTINO (by decide)).size
  obtain ⟨d, hd⟩ : ∃ d, d = setSize (dinode s.img ROOTINO)
      (((v.file ROOTINO).data.length / BSIZE + 1) * BSIZE) := ⟨_, rfl⟩
  have hlen := put_len (d := d) (show ROOTINO < 216 by decide) h.len
  refine ⟨wsect 28 (bitmap v.free) (s.put ROOTINO d), ?_, ?_⟩
  · have hused : (s.put ROOTINO d).usedblocks = v.free := h.usedblocks
    rw [finish, rinode_run (by decide) h.len, ok_bind, hsize, ← hd, winode_run (by decide) h.len,
      ok_bind, balloc, hused, if_pos (by omega)]
    rfl
  have himg : ∀ x, x ≠ 2 → x ≠ 28 → (wsect 28 (bitmap v.free) (s.put ROOTINO d)).img x = s.img x := by
    intro x h₂ h₂₈
    show Function.update _ 28 _ x = _
    rw [Function.update_of_ne h₂₈, put_img_ne (hroot ▸ h₂)]
  have hinode : ∀ j, j < 208 → dinode (wsect 28 (bitmap v.free) (s.put ROOTINO d)).img j =
      dinode (s.put ROOTINO d).img j := by
    intro j hj
    have hlt : IBLOCK j < 28 := by
      unfold IBLOCK IPB
      omega
    unfold dinode wsect
    simp only
    rw [Function.update_of_ne (by omega)]
  have hself : v.finish.file ROOTINO = (v.file ROOTINO).pad := by simp [Volume.finish]
  have hne : ∀ j, j ≠ ROOTINO → v.finish.file j = v.file j := fun j hj => Function.update_of_ne hj ..
  refine ⟨(wsect_len (by rw [hlen]; decide)).trans hlen, h.freeblock, h.usedblocks, h.freeinode, ?_, ?_,
    by simp [wsect, Volume.finish], ?_, ?_, ?_⟩
  · rw [himg 0 (by decide) (by decide), h.boot]
  · rw [himg 1 (by decide) (by decide), h.super]
  · intro j hj
    rw [hinode j hj]
    by_cases hjr : j = ROOTINO
    · rw [hjr, dinode_put_self, hself, hd]
      exact (h.inode ROOTINO (by decide)).pad (hfits.data_le ROOTINO)
    · rw [dinode_put_ne hjr, hne j hjr]
      exact h.inode j (by omega)
  · intro j hj
    have hold : Filled (wsect 28 (bitmap v.free) (s.put ROOTINO d)).img (v.file j) := by
      apply (h.filled j (by omega)).congr
      intro x hx
      have hb : 29 ≤ x := (hwf.ref_bounds j x hx).1
      exact himg x (by omega) (by omega)
    by_cases hjr : j = ROOTINO
    · rw [hjr, hself]
      exact (hjr ▸ hold).pad
    · rw [hne j hjr]
      exact hold
  · intro x hx
    have hx : v.free ≤ x := hx
    rw [himg x (by omega) (by omega), h.free x hx]

end Steps

/-! ## main -/

/-- Sectors of zeros, written into an image of zeros. -/
theorem zero_loop (s : State) (himg : s.img = fun _ => zeroBuf 512) : ∀ n,
    (List.range n).foldl (fun s i => wsect i (zeroBuf 512) s) s = { s with len := max s.len n }
  | 0 => by simp
  | n + 1 => by
      have hsame : Function.update s.img n (zeroBuf 512) = s.img := by
        rw [himg]
        exact Function.update_eq_self ..
      rw [List.range_succ, List.foldl_append, zero_loop s himg n]
      simp only [List.foldl_cons, List.foldl_nil, wsect, hsame, State.mk.injEq, true_and, and_true]
      omega

/-- The image before the first inode is written. -/
theorem drafts_empty : Drafts (wsect 1 superBlock zeroed) emptyVolume := by
  have hzero : zeroed = ⟨fun _ => zeroBuf 512, 1024, usedBefore, usedBefore, 1⟩ := by
    unfold zeroed
    rw [zero_loop _ rfl]
    rfl
  have himg : ∀ x, x ≠ 1 → (wsect 1 superBlock zeroed).img x = zeroBuf 512 := by
    intro x hx
    rw [hzero]
    exact Function.update_of_ne hx ..
  refine ⟨by rw [hzero]; rfl, by rw [hzero]; rfl, by rw [hzero]; rfl, by rw [hzero]; rfl,
    himg 0 (by decide), ?_, ?_, ?_, ?_⟩
  · simp [wsect]
  · intro i _
    have hge : 2 ≤ IBLOCK i := le_i2b i
    have hslice : dinode (wsect 1 superBlock zeroed).img i = zeroBuf 64 := by
      unfold dinode
      rw [himg _ (by omega)]
      funext j
      exact byteAt_zeroBuf _
    rw [hslice]
    exact ⟨⟨getLe_zeroBuf .., getLe_zeroBuf .., getLe_zeroBuf .., getLe_zeroBuf ..,
      fun k _ => (getLe_zeroBuf ..).trans (List.getD_nil ..).symm, getLe_zeroBuf ..⟩, getLe_zeroBuf ..⟩
  · intro i _
    exact ⟨fun k x hx => by simp [emptyVolume, File.none] at hx, fun hne => absurd rfl hne⟩
  · intro x hx
    have hx : 29 ≤ x := hx
    exact himg x (by omega)

theorem fits_emptyVolume : Fits emptyVolume := ⟨by decide, fun _ => Nat.zero_le _⟩

theorem rootVolume_wf : rootVolume.Wf usedBefore := by
  have h₁ := emptyVolume_wf.ialloc (by decide) T_DIR
  exact (h₁.append (i := ROOTINO) (by decide) (by decide) _).append (by decide) (by decide) _

theorem foldl_wf : ∀ (files : List Input) {v : Volume}, v.Wf usedBefore → 1 < v.next →
    (files.foldl Volume.addFile v).Wf usedBefore
  | [], _, hwf, _ => hwf
  | f :: files, _, hwf, hroot => foldl_wf files (hwf.addFile hroot f) (Nat.lt_succ_of_lt hroot)

theorem volume_wf (files : List Input) : (volume files).Wf usedBefore :=
  foldl_wf files rootVolume_wf (by decide)

/-- `main` up to its end: the root directory, and the input files. -/
def entered (files : List Input) : Except Failure State :=
  if nblocks + usedBefore + nlog ≠ size then .error .assert
  else do
    let (rootino, s) ← ialloc T_DIR (wsect 1 superBlock zeroed)
    if rootino ≠ ROOTINO then .error .assert
    else do
      let s ← iappend rootino (dirent rootino [46]) s
      let s ← iappend rootino (dirent rootino [46, 46]) s
      files.foldlM (addFile rootino) s

theorem mkfs_eq (files : List Input) : mkfs files = entered files >>= finish ROOTINO := by
  unfold mkfs entered
  rw [if_neg (by decide), if_neg (by decide)]
  cases ialloc T_DIR (wsect 1 superBlock zeroed) with
  | error e => rfl
  | ok r =>
      obtain ⟨i, s⟩ := r
      simp only [ok_bind]
      split
      · rfl
      · next hroot =>
        rw [Decidable.not_not.mp hroot]
        simp only [bind_assoc]

/-- `mkfs` with inodes that fit before the data blocks makes the image of its volume, or it fails
because there is no room. -/
theorem mkfs_run {files : List Input} (hlen : files.length ≤ 214)
    (hnames : ∀ f ∈ files, 47 ∉ f.name) :
    (Fits (volume files) ∧ ∃ s, mkfs files = .ok s ∧ Represents s (volume files).finish) ∨
    (¬ Fits (volume files) ∧ ∃ e, mkfs files = .error e) := by
  have h₁ := emptyVolume_wf.ialloc (by decide) T_DIR
  have h₂ := h₁.append (i := ROOTINO) (by decide) (by decide) (dirent ROOTINO [46])
  obtain ⟨s₁, hrun, hs₁⟩ := ialloc_run drafts_empty emptyVolume_wf (by decide) (t := T_DIR)
    (by decide)
  have hrun : ialloc T_DIR (wsect 1 superBlock zeroed) = .ok (ROOTINO, s₁) := hrun
  have hentered : entered files = (do
      let s ← iappend ROOTINO (dirent ROOTINO [46]) s₁
      let s ← iappend ROOTINO (dirent ROOTINO [46, 46]) s
      files.foldlM (addFile ROOTINO) s) := by
    rw [entered, if_neg (by decide), hrun, ok_bind]
    rfl
  have hall : Yields (entered files) (volume files) := by
    rw [hentered]
    have hmono : Fits (volume files) → Fits rootVolume := Fits.of_foldl files rootVolume_wf (by decide)
    refine (iappend_run hs₁ h₁ (by decide) (by decide) (by decide)
      ((fits_ialloc emptyVolume_wf T_DIR).mpr fits_emptyVolume) _).bind
      (fun hf => (hmono hf).of_append h₂) fun s₂ hs₂ hfits₂ => ?_
    refine (iappend_run hs₂ h₂ (by decide) (by decide) (by decide) hfits₂ _).bind hmono
      fun s₃ hs₃ hfits₃ => ?_
    exact addFiles_run hs₃ rootVolume_wf (by decide) (by show 2 + _ ≤ 216; omega) hfits₃ hnames
  rw [mkfs_eq]
  rcases hall with ⟨hfits, s, hok, hs⟩ | ⟨hfits, e, herr⟩
  · obtain ⟨s', hfin, hs'⟩ := finish_run hs (volume_wf files) hfits
    exact Or.inl ⟨hfits, s', by rw [hok, ok_bind, hfin], hs'⟩
  · exact Or.inr ⟨hfits, e, by rw [herr, error_bind]⟩

end Xv6Arm.Mkfs
