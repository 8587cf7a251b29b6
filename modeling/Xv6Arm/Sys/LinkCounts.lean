import Xv6Arm.Lib.Runs
import Xv6Arm.Sys.Boot
import Xv6Arm.Sys.Effects

/-!
# Link counts along a run

A run is a sequence of calls, each by some process.  The link counts agree with the
directories along a run that starts from an image, except that a call can add a name to a
directory that was removed while a process was in it.  No call looks at the link count of
the directory it adds a name to.
-/

namespace Xv6Arm.Sys

open Fs Programs Prog NameTree Runs

/-! ## Whole calls -/

/-- A name was added to the directory `d`. -/
inductive Added (D : Disk) (d : Nat) : Disk → Prop
  | linked {i : Nat} {name : Name} : (D.inode i).type ≠ 0 → (D.inode i).type ≠ T_DIR →
      D.lookup d name = none → Added D d ((D.adjust i 1).addEntry d ⟨i, name⟩)
  | created {i : Nat} {name : Name} {n : Inode} : (D.inode i).type = 0 → 0 < i → i < D.ninodes →
      n.type ≠ 0 → n.nlink = 1 → D.lookup d name = none → Added D d (D.created d name i n)

/-- What a call that returns has done, where `a` is the directory it adds a name to. -/
def Effect : Option Nat → Kernel → Kernel → Prop
  | none, _, k' => Inv k'
  | some d, k, k' => (k.disk.inode d).type = T_DIR ∧ Added k.disk d k'.disk ∧ Cached k'

section Calls

variable {p : Pid} {k k₁ : Kernel}

theorem sysLink_effect (h₀ : Inv k) (old new : Option (List UInt8)) :
    (sysLink old new).Ensures (handle p) k fun _ k' =>
      Effect ((Call.link old new).adds k.disk (k.cwd p)) k k' := by
  cases old with
  | none => exact ensures_pure h₀
  | some old =>
      cases new with
      | none => exact ensures_pure h₀
      | some new =>
          refine (link_spec h₀.1 old new).mono ?_
          rintro - k' (⟨hadds, h⟩ | ⟨i, x, d, name, hold, htype, hfile, hnew, hlookup, h⟩)
          · rw [hadds]
            exact h₀.of_holding h
          · simp only [Call.adds, hold, if_neg hfile]
            rw [creates_eq hnew hlookup]
            refine ⟨Disk.type_of_resolve hnew, ?_, ?_⟩
            · rw [h.disk]
              exact .linked htype hfile hlookup
            · refine h.cached h₀.1 fun j hj hn => .inr ?_
              exact Disk.Dead.of_adjust (i := i) ⟨hj, hn⟩

/-- What `create` leaves to the rest of its call. -/
structure Creation (k : Kernel) (a : Option Nat) (r : Option Nat) (D : Disk) (k' : Kernel) :
    Prop where
  held : ∃ V, (∀ x, r = some x → x ∈ V) ∧ Holding k D (taken r 0) V k'
  pinned : Pinned k D
  effect : ∀ {held k''}, Holding k D held [] k'' → Effect a k k''

theorem create_creation (h₀ : Inv k) (h : Holding k k.disk 0 [] k₁) {path : List UInt8}
    {type : Nat} {major minor : Int} (htype : type ≠ 0) :
    (create path type major minor).Ensures (handle p) k₁ fun r k' =>
      ∃ D, Creation k (k.disk.creates path (k.cwd p)) r D k' := by
  have hpin := h₀.1.pinned_disk
  refine (create_spec htype hpin h).mono ?_
  rintro r k' (⟨hnone, V, hV, h⟩ | ⟨x, d, name, rfl, hpath, hlookup, hfree, hpos, hlt, h⟩)
  · rw [hnone]
    exact ⟨k.disk, ⟨V, hV, h⟩, hpin, fun h => h₀.of_holding h⟩
  · have hdead : ∀ j, (k.disk.created d name x ⟨type, major, minor, 1⟩).Dead j → k.disk.Dead j :=
      fun j (hj : (k.disk.allocated d x ⟨type, major, minor, 1⟩).Dead j) =>
        hj.of_allocated Int.one_pos
    refine ⟨_, ⟨[x], ?_, h⟩, hpin.mono hdead, fun h => ?_⟩
    · rintro y ⟨⟩
      exact List.mem_cons_self
    · rw [creates_eq hpath hlookup]
      refine ⟨Disk.type_of_resolve hpath, ?_, ?_⟩
      · rw [h.disk]
        exact .created hfree hpos hlt htype rfl hlookup
      · exact h.cached h₀.1 fun j hj hn => .inr (hdead j ⟨hj, hn⟩)

/-- The end of `sys_mkdir` and `sys_mknod`. -/
theorem created_effect {a r : Option Nat} {D : Disk} (h : Creation k a r D k₁) :
    (created r).Ensures (handle p) k₁ fun _ k' => Effect a k k' := by
  obtain ⟨⟨V, hV, hold⟩, hpin, heffect⟩ := h
  cases r with
  | none =>
      refine (commitTrans_spec hold).bind fun _ k₂ h => ?_
      exact ensures_pure (heffect (h.mono fun j hj => absurd hj List.not_mem_nil))
  | some x =>
      have hold : Holding k D {x} V k₁ := hold
      refine (iunlockput_last hold hpin).bind fun _ k₂ h => ?_
      refine (commitTrans_spec h).bind fun _ k₃ h => ?_
      exact ensures_pure (heffect h)

theorem createCall_effect (h₀ : Inv k) (h : Holding k k.disk 0 [] k₁) {path : List UInt8}
    {type : Nat} {major minor : Int} (htype : type ≠ 0) :
    (create path type major minor >>= created).Ensures (handle p) k₁ fun _ k' =>
      Effect (k.disk.creates path (k.cwd p)) k k' := by
  refine (create_creation h₀ h htype).bind ?_
  rintro r k₂ ⟨D, hcreate⟩
  exact created_effect hcreate

/-- A call whose arguments cannot be fetched. -/
theorem created_none_effect (h₀ : Inv k) (h : Holding k k.disk 0 [] k₁) :
    (created none).Ensures (handle p) k₁ fun _ k' => Effect none k k' :=
  created_effect ⟨⟨[], fun _ hx => (Option.some_ne_none _ hx.symm).elim, h⟩, h₀.1.pinned_disk,
    fun h => h₀.of_holding h⟩

theorem sysMkdir_effect (h₀ : Inv k) (path : Option (List UInt8)) :
    (sysMkdir path).Ensures (handle p) k fun _ k' =>
      Effect ((Call.mkdir path).adds k.disk (k.cwd p)) k k' := by
  refine (beginTrans_spec h₀.1.holding).bind fun _ k₁ h => ?_
  cases path with
  | none => exact created_none_effect h₀ h
  | some path => exact createCall_effect h₀ h (by decide)

theorem sysMknod_effect (h₀ : Inv k) (path : Option (List UInt8)) (major minor : Option Int) :
    (sysMknod path major minor).Ensures (handle p) k fun _ k' =>
      Effect ((Call.mknod path major minor).adds k.disk (k.cwd p)) k k' := by
  refine (beginTrans_spec h₀.1.holding).bind fun _ k₁ h => ?_
  rcases path with _ | path
  · exact created_none_effect h₀ h
  rcases major with _ | major
  · exact created_none_effect h₀ h
  rcases minor with _ | minor
  · exact created_none_effect h₀ h
  · exact createCall_effect h₀ h (by decide)

theorem sysOpen_effect (h₀ : Inv k) (path : Option (List UInt8)) (omode : Option Nat) :
    (sysOpen path omode).Ensures (handle p) k fun _ k' =>
      Effect ((Call.openFile path omode).adds k.disk (k.cwd p)) k k' := by
  have hpin := h₀.1.pinned_disk
  rcases path with _ | path
  · exact ensures_pure h₀
  rcases omode with _ | omode
  · exact ensures_pure h₀
  unfold sysOpen Call.adds
  by_cases hcreate : omode &&& O_CREATE ≠ 0
  · simp only [if_pos hcreate]
    refine (beginTrans_spec h₀.1.holding).bind fun _ k₁ h => ?_
    refine (create_creation h₀ h (by decide)).bind ?_
    rintro r k₂ ⟨D, ⟨V, hV, hold⟩, hpin, heffect⟩
    refine (commitTrans_spec hold).bind fun _ k₃ h => ?_
    cases r with
    | none => exact ensures_pure (heffect (h.mono fun j hj => absurd hj List.not_mem_nil))
    | some x =>
        refine (openInode_spec h hpin omode).mono ?_
        rintro - k₄ ⟨held, h⟩
        exact heffect h
  · simp only [if_neg hcreate]
    refine (namei_spec h₀.1.holding hpin path).bind ?_
    rintro r k₁ ⟨rfl, h⟩
    cases hpath : k.disk.follow false path (k.cwd p) with
    | none =>
        rw [hpath] at h
        exact ensures_pure (h₀.of_holding h)
    | some found =>
        rw [hpath] at h
        have h : Holding k k.disk {found.1} [] k₁ := h
        refine (ilock_spec h (Multiset.mem_singleton_self found.1)).bind fun _ k₂ h => ?_
        refine (load_spec h List.mem_cons_self).bind ?_
        rintro n k₃ ⟨rfl, h⟩
        split
        · refine (iunlockput_last h hpin).bind fun _ k₄ h => ?_
          exact ensures_pure (h₀.of_holding h)
        · refine (openInode_spec h hpin omode).mono ?_
          rintro - k₄ ⟨held, h⟩
          exact h₀.of_holding h

/-- What a call that returns has done. -/
theorem Call.effect (h₀ : Inv k) (c : Call) :
    c.body.Ensures (handle p) k fun _ k' => Effect (c.adds k.disk (k.cwd p)) k k' := by
  cases c with
  | link old new => exact sysLink_effect h₀ old new
  | unlink path =>
      cases path with
      | none => exact ensures_pure h₀
      | some path => exact (unlink_inv h₀ path)
  | openFile path omode => exact sysOpen_effect h₀ path omode
  | mkdir path => exact sysMkdir_effect h₀ path
  | mknod path major minor => exact sysMknod_effect h₀ path major minor
  | chdir path => exact (sysChdir_inv h₀ path)

end Calls

/-! ## Adding a name -/

section Added

variable {D D' : Disk} {t : Hierarchy Nat} {d i : Nat}

/-- A name that a directory of the tree lacks is not `.`. -/
theorem Represents.name_ne_dot (h : Represents D t 0) (hd : d ∈ t.dirs) {name : Name}
    (hlookup : D.lookup d name = none) : name ≠ dot := by
  rintro rfl
  obtain ⟨rest, hes, -⟩ := h.slots d hd
  refine Disk.lookup_eq_none hlookup ⟨d, dot⟩ ?_ (h.pos hd) rfl
  rw [hes]
  exact List.mem_cons_self

/-- A name in a directory of the tree. -/
theorem Added.represents (hadd : Added D d D') (h : Represents D t 0) (hwf : t.Wf)
    (hd : d ∈ t.dirs) : ∃ t' : Hierarchy Nat, t'.Wf ∧ Represents D' t' 0 := by
  cases hadd with
  | @linked i name htype hfile hlookup =>
      have hi : i ∉ t.dirs := fun hi => hfile (h.dir i hi)
      exact ⟨t.addName d i, hwf.addName hi,
        h.linked hwf hd htype hfile (h.name_ne_dot hd hlookup)⟩
  | created hfree hpos hlt htype hn hlookup =>
      exact h.created hwf hd hfree hpos hlt htype hn (h.name_ne_dot hd hlookup)

open Classical in
/-- A disk on which the directories of the tree are as they were has no more links. -/
theorem Represents.links_le {E : Disk} (h : Represents D t 0) (hwf : t.Wf)
    (hsize : E.room = D.room)
    (htype : ∀ j, (D.inode j).type ≠ 0 → (E.inode j).type = (D.inode j).type)
    (hentries : ∀ e ∈ t.dirs, E.entries e = D.entries e) (hi : i ≠ 0) :
    links E i ≤ t.links i := by
  have hreach : ∀ {x}, Reachable E x → Reachable D x := by
    intro x hx
    induction hx with
    | root => exact .root
    | @entry x e _ hdir he hinum ih =>
        obtain ⟨hused, hmem⟩ := h.of_reachable hwf ih
        rw [htype x hused] at hdir
        rw [hentries x (hmem hdir)] at he
        exact .entry ih hdir he hinum
  rw [← h.links_eq hwf hi, links, links, hsize]
  apply Finset.sum_le_sum
  intro x _
  split
  · next hx =>
    obtain ⟨hused, hmem⟩ := h.of_reachable hwf (hreach hx.1)
    have hdir := hx.2
    rw [htype x hused] at hdir
    rw [if_pos ⟨hreach hx.1, hdir⟩, hentries x (hmem hdir)]
  · exact Nat.zero_le _

/-- A name in a directory that was removed is a link that no path leads to. -/
theorem Added.not_linkCounts (hadd : Added D d D') (h : Represents D t 0) (hwf : t.Wf)
    (hdir : (D.inode d).type = T_DIR) (hd : d ∉ t.dirs) : ¬ LinkCounts D' := by
  intro hcounts
  cases hadd with
  | @linked i name htype hfile hlookup =>
      have hle := h.links_le hwf (E := (D.adjust i 1).addEntry d ⟨i, name⟩) rfl
        (fun j _ => D.adjust_type i 1 j)
        (fun e he => Disk.addEntry_ne _ _ fun heq => hd (heq ▸ he))
        (Nat.pos_iff_ne_zero.mp (h.range i htype).1)
      have hnew := hcounts.nlink i (by
        show ((D.adjust i 1).inode i).type ≠ 0
        rwa [Disk.adjust_type])
      have hnode : ((D.adjust i 1).addEntry d ⟨i, name⟩).inode i =
          { D.inode i with nlink := (D.inode i).nlink + 1 } := Disk.setInode_self ..
      rw [hnode] at hnew
      have hold : (D.inode i).nlink = t.links i + 0 := h.nlink i htype
      simp only at hnew
      omega
  | @created i name n hfree hpos hlt htype hn hlookup =>
      have hdi : d ≠ i := by
        rintro rfl
        rw [hdir] at hfree
        exact absurd hfree (by decide)
      have hidirs : i ∉ t.dirs := by
        intro hi
        rw [h.dir i hi] at hfree
        exact absurd hfree (by decide)
      have hle := h.links_le hwf (E := D.created d name i n) (i := i) ?_ ?_ ?_
        (Nat.pos_iff_ne_zero.mp hpos)
      · rw [h.links_free hwf hfree] at hle
        have hnode := D.created_self name n hdi.symm
        have hnew := hcounts.nlink i (by rwa [hnode])
        rw [hnode] at hnew
        omega
      · exact D.created_room d name i n
      · intro j hj
        have hji : j ≠ i := fun heq => hj (heq ▸ hfree)
        show ((D.allocated d i n).inode j).type = _
        rw [Disk.allocated_type, Disk.newInode_ne _ _ hji]
      · intro e he
        have hed : e ≠ d := fun heq => hd (heq ▸ he)
        have hei : e ≠ i := fun heq => hidirs (heq ▸ he)
        rw [Disk.created, Disk.addEntry_ne _ _ hed, Disk.allocated_entries_ne _ _ hei]

end Added

/-! ## Runs of calls -/

/-- A call by a process, if it returns. -/
def step (l : Pid × Call) (k : Kernel) : Option Kernel :=
  match l.2.body.exec (handle l.1) k with
  | .ok (_, k') => some k'
  | .blocked => none
  | .panic _ => none

/-- The directory to which the call adds a name has links. -/
def Ok (k : Kernel) (l : Pid × Call) : Prop :=
  ∀ d ∈ l.2.adds k.disk (k.cwd l.1), 0 < (k.disk.inode d).nlink

instance (k : Kernel) (l : Pid × Call) : Decidable (Ok k l) :=
  inferInstanceAs (Decidable (∀ d ∈ l.2.adds k.disk (k.cwd l.1), 0 < (k.disk.inode d).nlink))

section Run

variable {k k' : Kernel} {l : Pid × Call}

theorem step_effect (hk : Inv k) (h : step l k = some k') :
    Effect (l.2.adds k.disk (k.cwd l.1)) k k' := by
  unfold step at h
  split at h
  · next r k'' hrun =>
    cases h
    exact Call.effect hk l.2 r k' hrun
  · cases h
  · cases h

/-- A call that adds no name, or adds it to a directory with links. -/
theorem Inv.step (hk : Inv k) (hok : Ok k l) (h : step l k = some k') : Inv k' := by
  have heffect := step_effect hk h
  cases hadds : l.2.adds k.disk (k.cwd l.1) with
  | none =>
      rw [hadds] at heffect
      exact heffect
  | some d =>
      rw [hadds] at heffect
      obtain ⟨hdir, hadd, hcached⟩ := heffect
      obtain ⟨-, t, hwf, hrep⟩ := hk
      have hd : d ∈ t.dirs := (hrep.mem_dirs_iff hwf).mpr ⟨hdir, hok d hadds⟩
      exact ⟨hcached, hadd.represents hrep hwf hd⟩

/-- A call that adds a name to a directory without links. -/
theorem Inv.not_linkCounts (hk : Inv k) (hok : ¬ Ok k l) (h : Sys.step l k = some k') :
    ¬ LinkCounts k'.disk := by
  have heffect := step_effect hk h
  obtain ⟨d, hadds, hn⟩ : ∃ d, l.2.adds k.disk (k.cwd l.1) = some d ∧
      ¬ 0 < (k.disk.inode d).nlink := by
    by_contra hnone
    exact hok fun d hd => not_not.mp fun hn => hnone ⟨d, hd, hn⟩
  rw [hadds] at heffect
  obtain ⟨hdir, hadd, -⟩ := heffect
  obtain ⟨-, t, hwf, hrep⟩ := hk
  refine hadd.not_linkCounts hrep hwf hdir fun hd => ?_
  exact hn ((hrep.mem_dirs_iff hwf).mp hd).2

theorem Inv.linkCounts (hk : Inv k) : LinkCounts k.disk := by
  obtain ⟨-, t, hwf, hrep⟩ := hk
  exact hrep.linkCounts hwf

/-- The link counts along a run from a state in which they are right. -/
theorem Inv.along_iff (hk : Inv k) {tr : List (Kernel × (Pid × Call))} {u : Kernel}
    (h : Run Sys.step k tr u) : Along (fun k => LinkCounts k.disk) tr u ↔ EveryStep Ok tr :=
  h.forall_iff (fun _ hk => hk.linkCounts) (fun _ _ _ hk hok h => hk.step hok h)
    (fun _ _ _ hk hok h => hk.not_linkCounts hok h) hk

end Run

/-! ## Runs from an image -/

section Boot

variable {files : List Mkfs.Input} {s : Mkfs.State}

/-- The disk of an image whose inodes fit before the bitmap. -/
theorem ofImage_of_mkfs (h : Mkfs.mkfs files = .ok s) (hlen : files.length ≤ 206) :
    Disk.ofImage s.img = imageDisk files := by
  obtain ⟨hfits, hs⟩ := Mkfs.represents_of_mkfs h (by omega)
  exact ofImage_eq hs hfits hlen

theorem boot_inv (hlen : files.length ≤ 206)
    (hdot : ∀ f ∈ files, f.target.take DIRSIZ ≠ dot) : Inv (boot (imageDisk files)) where
  left := {
    agree := fun _ h => absurd h Bool.false_ne_true
    live := fun _ h => absurd h Bool.false_ne_true
    pinned := fun i htype hn => by
      have hone := (imageDisk_used htype).2
      have hn : ((imageDisk files).inode i).nlink ≤ 0 := hn
      omega
    files := fun _ _ => rfl }
  right := ⟨imageTree files, imageTree_wf files, imageDisk_represents hlen hdot⟩

/-- The first inode in the bitmap has the bits of the first blocks for its fields. -/
theorem bitmap_miscounts (h : Mkfs.mkfs files = .ok s) (hmany : 206 < files.length)
    (hlen : files.length ≤ 214) (hdot : ∀ f ∈ files, f.target.take DIRSIZ ≠ dot)
    (hused : Mkfs.usedBefore + Mkfs.blocksNeeded files ≠ 49) :
    Dinode.type (dinode s.img 208) ≠ 0 ∧ Dinode.nlink (dinode s.img 208) ≠
      ((dirents (contents s.img ROOTINO)).map Entry.ofDirent).countP fun e =>
        e.inum = 208 ∧ e.name ≠ dot := by
  obtain ⟨hfits, hs⟩ := Mkfs.represents_of_mkfs h hlen
  have hfree : (Mkfs.volume files).free ≤ 4096 := Nat.le_trans hfits.free_le (by decide)
  have hbits : s.img 28 = Mkfs.bitmap (Mkfs.volume files).free := hs.bits
  have hlow : 29 ≤ (Mkfs.volume files).free := (Mkfs.volume_wf files).low_le
  rw [← (Mkfs.describes_volume files).free] at hused
  rw [root_slots hs hfits hlen, countP_root hdot (by decide) (by omega), Dinode.type, Dinode.nlink,
    Mkfs.field_of_bitmap hbits (by decide) (by decide) (by decide),
    Mkfs.field_of_bitmap hbits (by decide) (by decide) (by decide)]
  constructor
  · rw [Ne, Mkfs.getLe_bitmap_eq_zero hfree (by decide) (by decide)]
    omega
  · exact fun hone => hused (Mkfs.getLe_bitmap_eq_one hfree (by decide) hone)

end Boot

/-- Along a run of calls from an image the link counts agree with the directories if there are at
most 206 input files, whose inodes lie before the bitmap, no input file is called `.`, and no call adds
a name to a directory without links.  With at most 206 input files the other two are needed.  The inode
of the next file lies in the bitmap, and its stored link count is not the number of its entries, unless
the bits happen to be right. -/
theorem linkCounts_iff {files : List Mkfs.Input} {s : Mkfs.State} (h : Mkfs.mkfs files = .ok s)
    {tr : List (Kernel × (Pid × Call))} {u : Kernel}
    (hrun : Run step (boot (Disk.ofImage s.img)) tr u) :
    (files.length ≤ 206 ∧ (∀ f ∈ files, f.target.take DIRSIZ ≠ dot) ∧ EveryStep Ok tr →
      Along (fun k => LinkCounts k.disk) tr u) ∧
    (files.length ≤ 206 → Along (fun k => LinkCounts k.disk) tr u →
      (∀ f ∈ files, f.target.take DIRSIZ ≠ dot) ∧ EveryStep Ok tr) ∧
    (206 < files.length → files.length ≤ 214 → (∀ f ∈ files, f.target.take DIRSIZ ≠ dot) →
      Mkfs.usedBefore + Mkfs.blocksNeeded files ≠ 49 →
      Dinode.type (dinode s.img 208) ≠ 0 ∧ Dinode.nlink (dinode s.img 208) ≠
        ((dirents (contents s.img ROOTINO)).map Entry.ofDirent).countP fun e =>
          e.inum = 208 ∧ e.name ≠ dot) := by
  have hiff : files.length ≤ 206 → (Along (fun k => LinkCounts k.disk) tr u ↔
      (∀ f ∈ files, f.target.take DIRSIZ ≠ dot) ∧ EveryStep Ok tr) := by
    intro hlen
    rw [ofImage_of_mkfs h hlen] at hrun
    by_cases hdot : ∀ f ∈ files, f.target.take DIRSIZ ≠ dot
    · rw [(boot_inv hlen hdot).along_iff hrun]
      exact ⟨fun hok => ⟨hdot, hok⟩, fun hok => hok.2⟩
    · constructor
      · intro hall
        have hstart := Along.head hrun hall
        refine absurd (fun f hf hname => ?_) hdot
        exact imageDisk_not_linkCounts hf hname hstart
      · exact fun hok => absurd hok.1 hdot
  exact ⟨fun ⟨hlen, hok⟩ => (hiff hlen).mpr hok, fun hlen => (hiff hlen).mp,
    fun hmany hlen hdot hused => bitmap_miscounts h hmany hlen hdot hused⟩

/-- Two processes. -/
def procA : Pid := ⟨0, by decide⟩
def procB : Pid := ⟨1, by decide⟩

/-- The path `/a`. -/
def pathA : List UInt8 := [47, 97]

/-- Makes the directory `/a`, moves a process there, and removes the directory. -/
def removal : List (Pid × Call) :=
  [(procA, .mkdir (some pathA)), (procA, .chdir (some pathA)), (procB, .unlink (some pathA))]

/-- Creates the file `x` in the current directory. -/
def creation : Pid × Call := (procA, .openFile (some [120]) (some O_CREATE))

theorem removal_creation : ∃ k u, exec step removal (boot (imageDisk [])) = some k ∧
    step creation k = some u ∧ ¬ Ok k creation := by
  have htest : ((exec step removal (boot (imageDisk []))).any fun k =>
      !decide (Ok k creation) && (step creation k).isSome) = true := by decide +kernel
  cases hk : exec step removal (boot (imageDisk [])) with
  | none =>
      rw [hk] at htest
      cases htest
  | some k =>
      rw [hk, Option.any_some, Bool.and_eq_true, Bool.not_eq_true', decide_eq_false_iff_not]
        at htest
      obtain ⟨u, hu⟩ := Option.isSome_iff_exists.mp htest.2
      exact ⟨k, u, rfl, hu, htest.1⟩

theorem linkCounts_iff_removal : ∃ s tr k, Mkfs.mkfs [Mkfs.catFile] = .ok s ∧
    Run step (boot (Disk.ofImage s.img)) tr k ∧ tr.map Prod.snd = removal ∧
      Along (fun k => LinkCounts k.disk) tr k := by
  obtain ⟨s, hs⟩ := Mkfs.mkfs_cat
  have htest : (exec (fun l k => if Ok k l then step l k else none) removal
      (boot (imageDisk [Mkfs.catFile]))).isSome = true := by decide +kernel
  obtain ⟨k, hk⟩ := Option.isSome_iff_exists.mp htest
  obtain ⟨tr, hrun, hok, hcalls⟩ := run_of_exec_if hk
  rw [← ofImage_of_mkfs hs (by decide)] at hrun
  have hdot : ∀ f ∈ [Mkfs.catFile], f.target.take DIRSIZ ≠ dot := by decide
  exact ⟨s, tr, k, hs, hrun, hcalls, (linkCounts_iff hs hrun).1 ⟨by decide, hdot, hok⟩⟩

/-- A file in a directory that was removed has a link that no path leads to. -/
theorem removal_not_linkCounts : ∃ s tr u, Mkfs.mkfs [] = .ok s ∧
    Run step (boot (Disk.ofImage s.img)) tr u ∧ tr.map Prod.snd = removal ++ [creation] ∧
      ¬ Along (fun k => LinkCounts k.disk) tr u := by
  obtain ⟨s, hs⟩ := Mkfs.mkfs_empty
  obtain ⟨k, u, hk, hu, hbad⟩ := removal_creation
  obtain ⟨tr, hrun, hcalls⟩ := run_of_exec hk
  have hrun := hrun.snoc hu
  have hinv : Inv (boot (imageDisk [])) :=
    boot_inv (by decide) fun f hf => absurd hf List.not_mem_nil
  refine ⟨s, tr ++ [(k, creation)], u, hs, ?_, ?_, fun hall => hbad ?_⟩
  · rwa [ofImage_of_mkfs hs (by decide)]
  · rw [List.map_append, hcalls]
    rfl
  · exact (hinv.along_iff hrun).mp hall (k, creation) (List.mem_append_right _ List.mem_cons_self)

end Xv6Arm.Sys
