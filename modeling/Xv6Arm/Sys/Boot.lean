import Xv6Arm.Mkfs.Holes
import Xv6Arm.Sys.Tree

/-!
# The kernel that boots from an image

`Disk.ofImage` reads the inodes and the directories of an image.  The image that `mkfs`
makes of some input files is a root directory with a name for each of them.
-/

namespace Xv6Arm.Sys

open Fs NameTree

/-! ## Reading an image -/

/-- The entry that a `struct dirent` holds. -/
def Entry.ofDirent (e : Dirent) : Entry := ⟨Dirent.inum e, Dirent.name e⟩

/-- The fields of an inode of an image. -/
def Inode.ofDinode (d : Dinode) : Inode :=
  ⟨Dinode.type d, Dinode.major d, Dinode.minor d, Dinode.nlink d⟩

/-- An inode that is not in use. -/
def Inode.free : Inode := ⟨0, 0, 0, 0⟩

/-- The inodes and the directories of an image, up to the bitmap. -/
def Disk.ofImage (img : Image) : Disk where
  ninodes := (superblock img).ninodes
  inode i := if i < inodeRoom (superblock img).ninodes then .ofDinode (dinode img i) else .free
  entries i :=
    if i < inodeRoom (superblock img).ninodes ∧ Dinode.type (dinode img i) = T_DIR then
      (dirents (contents img i)).map .ofDirent
    else []

/-- The kernel after it has booted from a disk.  Every process is in the root directory. -/
def boot (D : Disk) : Kernel where
  disk := D
  core _ := .free
  ref i := if i = ROOTINO then NPROC else 0
  valid _ := false
  busy _ := false
  logBusy := false
  inTrans _ := false
  cwd _ := ROOTINO
  file _ := ⟨.none, 0, false, false, 0, 0⟩
  ofile _ _ := none

/-! ## The image of some input files -/

/-- The slots of the root directory that are in use, after `.` and `..`. -/
def rootEntries (files : List Mkfs.Input) : List Entry :=
  files.zipIdx.map fun p => ⟨p.2 + 2, p.1.target.take DIRSIZ⟩

/-- The slots that fill the last block of the root directory. -/
def rootSlack (files : List Mkfs.Input) : List Entry :=
  List.replicate ((BSIZE - 16 * (files.length + 2) % BSIZE) / 16) ⟨0, []⟩

/-- The disk of some input files. -/
def imageDisk (files : List Mkfs.Input) : Disk where
  ninodes := Mkfs.ninodes
  inode i :=
    if i = ROOTINO then ⟨T_DIR, 0, 0, 1⟩
    else if 0 < i ∧ i < files.length + 2 then ⟨T_FILE, 0, 0, 1⟩
    else .free
  entries i :=
    if i = ROOTINO then
      ⟨ROOTINO, dot⟩ :: ⟨ROOTINO, dotdot⟩ :: (rootEntries files ++ rootSlack files)
    else []

section Image

variable {files : List Mkfs.Input} {s : Mkfs.State}

theorem append_nlink {f : Mkfs.File} {n : Nat} (p : List UInt8) :
    (f.append n p).1.nlink = f.nlink := by
  induction p using List.reverseRecOn with
  | nil => rfl
  | append_singleton p b ih =>
      rw [Mkfs.append_append]
      show ((f.append n p).1.reserve (f.append n p).2).1.nlink = f.nlink
      rw [Mkfs.reserve_inode.2, ih]

theorem volume_append_nlink {v : Mkfs.Volume} (i : Nat) (p : List UInt8) (j : Nat) :
    ((v.append i p).file j).nlink = (v.file j).nlink := by
  rcases eq_or_ne j i with rfl | hji
  · rw [Mkfs.append_file]
    exact append_nlink p
  · rw [Mkfs.append_file_ne hji]

/-- Every inode of the volume has one link. -/
theorem volume_nlink (files : List Mkfs.Input) {i : Nat} (hpos : 0 < i)
    (hi : i < files.length + 2) : ((Mkfs.volume files).file i).nlink = 1 := by
  induction files using List.reverseRecOn with
  | nil =>
      obtain rfl : i = Mkfs.emptyVolume.next := by
        show i = 1
        simp only [List.length_nil] at hi
        omega
      show (((Mkfs.emptyVolume.ialloc T_DIR).append _ _).append _ _ |>.file _).nlink = 1
      rw [volume_append_nlink, volume_append_nlink, Mkfs.ialloc_file_self]
  | append_singleton files f ih =>
      have hfold : Mkfs.volume (files ++ [f]) = (Mkfs.volume files).addFile f := by
        rw [Mkfs.volume, List.foldl_append]
        rfl
      have hnext := (Mkfs.describes_volume files).next
      rw [hfold, Mkfs.Volume.addFile, volume_append_nlink, volume_append_nlink]
      rcases eq_or_ne i (Mkfs.volume files).next with rfl | hne
      · rw [Mkfs.ialloc_file_self]
      · rw [Mkfs.ialloc_file_ne _ hne]
        rw [List.length_append, List.length_singleton] at hi
        exact ih (by omega)

theorem finish_type (v : Mkfs.Volume) (i : Nat) : (v.finish.file i).type = (v.file i).type ∧
    (v.finish.file i).nlink = (v.file i).nlink := by
  unfold Mkfs.Volume.finish
  rcases eq_or_ne i ROOTINO with rfl | hi
  · simp only [Function.update_self]
    exact ⟨rfl, rfl⟩
  · simp only [Function.update_of_ne hi]
    exact ⟨trivial, trivial⟩

/-- The inodes of the volume. -/
theorem volume_inode (files : List Mkfs.Input) (i : Nat) :
    (imageDisk files).inode i =
      ⟨((Mkfs.volume files).file i).type, 0, 0, ((Mkfs.volume files).file i).nlink⟩ := by
  have hdesc := Mkfs.describes_volume files
  have hnext := hdesc.next
  unfold imageDisk
  dsimp only
  split
  · next hi =>
    rw [hi, hdesc.root_type, volume_nlink files (by decide) (Nat.lt_add_left _ (by decide))]
    rfl
  split
  · next hroot hi =>
    have hroot : i ≠ 1 := hroot
    obtain ⟨j, rfl⟩ : ∃ j, i = j + 2 := ⟨i - 2, by omega⟩
    rw [hdesc.file_type j (by omega), volume_nlink files hi.1 hi.2]
    rfl
  · next hi =>
    rw [(Mkfs.volume_wf files).file_none i (by omega)]
    rfl

theorem ofDirent_zeros (m : Nat) : (dirents (List.replicate m 0)).map Entry.ofDirent =
    List.replicate (m / 16) ⟨0, []⟩ := by
  apply List.eq_replicate_iff.mpr
  constructor
  · simp [dirents]
  · intro x hx
    obtain ⟨e, he, rfl⟩ := List.mem_map.mp hx
    obtain ⟨j, -, rfl⟩ := List.mem_map.mp he
    have hzero : (fun i : Fin 16 => (List.replicate m (0 : UInt8)).getD (16 * j + i.val) 0) =
        Bytes.zeroBuf 16 := by
      funext i
      exact (Mkfs.getD_append_zeros [] m _).trans (List.getD_nil ..)
    rw [hzero]
    rfl

/-- The slots of the root directory. -/
theorem ofDirent_root (hlen : files.length + 2 < 2 ^ 16) :
    (dirents (Mkfs.rootBytes files)).map Entry.ofDirent =
      ⟨ROOTINO, dot⟩ :: ⟨ROOTINO, dotdot⟩ :: rootEntries files := by
  have hpairs := congrArg (List.map fun e : Nat × List UInt8 => Entry.mk e.1 e.2)
    (Mkfs.dirents_rootBytes hlen)
  rw [List.map_map] at hpairs
  refine hpairs.trans ?_
  simp only [Mkfs.listing, List.map_cons, List.map_map, rootEntries]
  rfl

/-- The slots of the root directory of an image. -/
theorem root_slots (h : Mkfs.Represents s (Mkfs.volume files).finish)
    (hfits : Mkfs.Fits (Mkfs.volume files)) (hlen : files.length ≤ 214) :
    (dirents (contents s.img ROOTINO)).map Entry.ofDirent =
      ⟨ROOTINO, dot⟩ :: ⟨ROOTINO, dotdot⟩ :: (rootEntries files ++ rootSlack files) := by
  have hread := Mkfs.finish_readable hfits (Mkfs.volume_wf files)
  have hdata : ((Mkfs.volume files).finish.file ROOTINO).data = Mkfs.rootBytes files ++
      List.replicate (BSIZE - (Mkfs.rootBytes files).length % BSIZE) 0 := by
    rw [← (Mkfs.describes_volume files).root_data]
    simp [Mkfs.Volume.finish, Mkfs.File.pad]
  have hbytes := h.contents_eq (i := ROOTINO) (by decide) (hread ROOTINO) (by
    rw [hdata, List.length_append, List.length_replicate, Mkfs.length_rootBytes]
    unfold BSIZE
    omega)
  rw [hbytes, hdata, Mkfs.dirents_append (Mkfs.length_rootBytes files), List.map_append,
    ofDirent_root (by omega), ofDirent_zeros, Mkfs.length_rootBytes]
  rfl

/-- A reader of the image finds the disk of the input files. -/
theorem ofImage_eq (h : Mkfs.Represents s (Mkfs.volume files).finish)
    (hfits : Mkfs.Fits (Mkfs.volume files)) (hlen : files.length ≤ 206) :
    Disk.ofImage s.img = imageDisk files := by
  have hsuper : (superblock s.img).ninodes = 200 := by
    rw [Mkfs.superblock_eq h.super]
    rfl
  have hroom : inodeRoom 200 = 208 := rfl
  have hinode : ∀ i, i < 208 → Inode.ofDinode (dinode s.img i) = (imageDisk files).inode i := by
    intro i hi
    have hin := h.inode i hi
    have htype := finish_type (Mkfs.volume files) i
    rw [volume_inode, Inode.ofDinode, hin.type, hin.major, hin.minor, hin.nlink, htype.1, htype.2]
    rfl
  have hfree : ∀ i, 208 ≤ i → (imageDisk files).inode i = .free := by
    intro i hi
    have hroot : i ≠ ROOTINO := by
      unfold ROOTINO
      omega
    show (if _ then _ else if _ then _ else _) = _
    rw [if_neg hroot, if_neg (by omega)]
  unfold Disk.ofImage
  rw [hsuper, hroom]
  show (⟨200, _, _⟩ : Disk) = ⟨200, _, _⟩
  congr 1
  · funext i
    split
    · next hi => exact hinode i hi
    · next hi => exact (hfree i (Nat.not_lt.mp hi)).symm
  · funext i
    have htype : i < 208 → Dinode.type (dinode s.img i) = ((imageDisk files).inode i).type :=
      fun hi => congrArg Inode.type (hinode i hi)
    rcases eq_or_ne i ROOTINO with rfl | hi
    · rw [if_pos ⟨by decide, htype (by decide)⟩]
      exact root_slots h hfits (by omega)
    · rw [if_neg]
      · exact (if_neg hi).symm
      · rintro ⟨hlt, hdir⟩
        rw [htype hlt] at hdir
        have hnode : (imageDisk files).inode i =
            if 0 < i ∧ i < files.length + 2 then ⟨T_FILE, 0, 0, 1⟩ else .free := if_neg hi
        rw [hnode] at hdir
        split at hdir <;> exact absurd hdir (by decide)

/-! ## The tree of an image -/

/-- The root directory with the names of the input files. -/
def imageTree (files : List Mkfs.Input) : Hierarchy Nat where
  root := ROOTINO
  dirs := {ROOTINO}
  parent _ := ROOTINO
  names _ := (List.range' 2 files.length : List Nat)

theorem rootEntries_inum (files : List Mkfs.Input) :
    (rootEntries files).map Entry.inum = List.range' 2 files.length := by
  rw [rootEntries, List.map_map]
  apply List.ext_getElem
  · simp
  · intro j hj hj'
    simp
    omega

theorem namesOf_append (xs ys : List Entry) : namesOf (xs ++ ys) = namesOf xs + namesOf ys := by
  induction xs with
  | nil => exact (zero_add _).symm
  | cons x xs ih =>
      rw [List.cons_append, namesOf, namesOf, ih]
      split
      · rfl
      · rw [Multiset.cons_add]

theorem namesOf_eq_map {es : List Entry} (h : ∀ e ∈ es, e.inum ≠ 0) :
    namesOf es = (es.map Entry.inum : List Nat) := by
  induction es with
  | nil => rfl
  | cons e es ih =>
      rw [namesOf, if_neg (h e List.mem_cons_self), ih fun x hx => h x (List.mem_cons_of_mem e hx)]
      rfl

theorem mem_rootEntries {e : Entry} : e ∈ rootEntries files ↔
    ∃ j f, files[j]? = some f ∧ e = ⟨j + 2, f.target.take DIRSIZ⟩ := by
  simp only [rootEntries, List.mem_map, Prod.exists, List.mem_zipIdx_iff_getElem?]
  constructor
  · rintro ⟨f, j, hj, rfl⟩
    exact ⟨j, f, hj, rfl⟩
  · rintro ⟨j, f, hj, rfl⟩
    exact ⟨f, j, hj, rfl⟩

theorem namesOf_root (files : List Mkfs.Input) :
    namesOf (rootEntries files ++ rootSlack files) = (List.range' 2 files.length : List Nat) := by
  have hslack : namesOf (rootSlack files) = 0 := by
    rw [namesOf_eq_zero]
    intro e he
    rw [List.eq_of_mem_replicate he]
  have hused : ∀ e ∈ rootEntries files, e.inum ≠ 0 := by
    intro e he
    obtain ⟨j, f, -, rfl⟩ := mem_rootEntries.mp he
    exact Nat.succ_ne_zero (j + 1)
  rw [namesOf_append, hslack, add_zero, namesOf_eq_map hused, rootEntries_inum]

theorem mem_imageTree {i : Nat} : i ∈ (imageTree files).names ROOTINO ↔
    2 ≤ i ∧ i < files.length + 2 := by
  show i ∈ (List.range' 2 files.length : Multiset Nat) ↔ _
  rw [Multiset.mem_coe, List.mem_range'_1, Nat.add_comm]

theorem imageTree_wf (files : List Mkfs.Input) : (imageTree files).Wf where
  root_mem := Finset.mem_singleton_self _
  parent_root := rfl
  parent_mem _ _ := Finset.mem_singleton_self _
  count_dir d hd e he := by
    obtain rfl : d = ROOTINO := Finset.mem_singleton.mp hd
    obtain rfl : e = ROOTINO := Finset.mem_singleton.mp he
    have hnot : ROOTINO ∉ (imageTree files).names ROOTINO := by
      rw [mem_imageTree]
      unfold ROOTINO
      omega
    rw [Multiset.count_eq_zero.mpr hnot, if_neg]
    exact fun h => h.1 rfl
  below d hd := by
    obtain rfl : d = ROOTINO := Finset.mem_singleton.mp hd
    exact .root

theorem imageTree_links {i : Nat} (hpos : 0 < i) (hi : i < files.length + 2) :
    (imageTree files).links i = 1 := by
  show ∑ d ∈ {ROOTINO}, _ = 1
  rw [Finset.sum_singleton]
  show (ROOTINO ::ₘ (List.range' 2 files.length : Multiset Nat)).count i = 1
  rw [Multiset.count_cons, Multiset.coe_count]
  rcases eq_or_ne i ROOTINO with rfl | hne
  · rw [if_pos rfl, List.count_eq_zero.mpr]
    rw [List.mem_range'_1]
    unfold ROOTINO
    omega
  · have hne' : i ≠ 1 := hne
    rw [if_neg hne, List.count_eq_one_of_mem List.nodup_range']
    rw [List.mem_range'_1]
    omega

theorem imageDisk_file {i : Nat} (hi : 2 ≤ i) (hlt : i < files.length + 2) :
    (imageDisk files).inode i = ⟨T_FILE, 0, 0, 1⟩ := by
  have hroot : i ≠ ROOTINO := by
    unfold ROOTINO
    omega
  show (if _ then _ else if _ then _ else _) = _
  rw [if_neg hroot, if_pos ⟨by omega, hlt⟩]

/-- An inode of the image that is in use. -/
theorem imageDisk_used {i : Nat} (h : ((imageDisk files).inode i).type ≠ 0) :
    (0 < i ∧ i < files.length + 2) ∧ ((imageDisk files).inode i).nlink = 1 := by
  rcases eq_or_ne i ROOTINO with rfl | hroot
  · exact ⟨⟨by decide, Nat.lt_add_left _ (by decide)⟩, rfl⟩
  · have hroot' : i ≠ 1 := hroot
    have hnode : (imageDisk files).inode i =
        if 0 < i ∧ i < files.length + 2 then ⟨T_FILE, 0, 0, 1⟩ else .free := if_neg hroot
    rw [hnode] at h ⊢
    split at h
    · next hi =>
      rw [if_pos hi]
      exact ⟨hi, rfl⟩
    · exact absurd rfl h

/-- A directory of the image. -/
theorem imageDisk_dir {i : Nat} (h : ((imageDisk files).inode i).type = T_DIR) : i = ROOTINO := by
  by_contra hroot
  have hroot' : i ≠ 1 := hroot
  obtain ⟨⟨hpos, hlt⟩, -⟩ := @imageDisk_used files i (by rw [h]; decide)
  rw [imageDisk_file (by omega) hlt] at h
  exact absurd h (by decide)

/-- The image holds the tree if no file is called `.`. -/
theorem imageDisk_represents (hlen : files.length ≤ 206)
    (hdot : ∀ f ∈ files, f.target.take DIRSIZ ≠ dot) :
    Represents (imageDisk files) (imageTree files) 0 where
  root := rfl
  dir d hd := by
    obtain rfl : d = ROOTINO := Finset.mem_singleton.mp hd
    rfl
  slots d hd := by
    obtain rfl : d = ROOTINO := Finset.mem_singleton.mp hd
    refine ⟨rootEntries files ++ rootSlack files, rfl, namesOf_root files, ?_⟩
    intro e he hinum
    rcases List.mem_append.mp he with he | he
    · obtain ⟨j, f, hj, rfl⟩ := mem_rootEntries.mp he
      exact hdot f (List.mem_of_getElem? hj)
    · rw [List.eq_of_mem_replicate he] at hinum
      exact absurd rfl hinum
  removed d htype hd := absurd (Finset.mem_singleton.mpr (imageDisk_dir htype)) hd
  named d hd i hi := by
    obtain rfl : d = ROOTINO := Finset.mem_singleton.mp hd
    obtain ⟨hle, hlt⟩ := mem_imageTree.mp hi
    rw [imageDisk_file hle hlt]
    exact ⟨by decide, fun h => absurd h (by decide)⟩
  nlink i hi := by
    obtain ⟨⟨hpos, hlt⟩, hn⟩ := imageDisk_used hi
    rw [hn, imageTree_links hpos hlt]
    rfl
  range i hi := by
    obtain ⟨⟨hpos, hlt⟩, -⟩ := imageDisk_used hi
    have hroom : (imageDisk files).room = 208 := show inodeRoom Mkfs.ninodes = 208 from rfl
    exact ⟨hpos, by omega⟩

/-- The root directory has one entry for each input file. -/
theorem countP_root (hdot : ∀ f ∈ files, f.target.take DIRSIZ ≠ dot) {i : Nat} (hi : 2 ≤ i)
    (hlt : i < files.length + 2) :
    (Entry.mk ROOTINO dot :: ⟨ROOTINO, dotdot⟩ :: (rootEntries files ++ rootSlack files)).countP
      (fun e => e.inum = i ∧ e.name ≠ dot) = 1 := by
  have hroot : ROOTINO ≠ i := by
    unfold ROOTINO
    omega
  have hslack : (rootSlack files).countP (fun e => e.inum = i ∧ e.name ≠ dot) = 0 := by
    rw [List.countP_eq_zero]
    intro e he
    rw [List.eq_of_mem_replicate he, decide_eq_true_eq]
    rintro ⟨rfl, -⟩
    exact absurd hi (by decide)
  have hnames : (rootEntries files).countP (fun e => e.inum = i ∧ e.name ≠ dot) =
      ((rootEntries files).map Entry.inum).count i := by
    rw [List.count, List.countP_map]
    apply List.countP_congr
    intro e he
    obtain ⟨j, f, hj, rfl⟩ := mem_rootEntries.mp he
    simp [hdot f (List.mem_of_getElem? hj)]
  rw [List.countP_cons_of_neg (by simp [hroot]), List.countP_cons_of_neg (by simp [hroot]),
    List.countP_append, hslack, hnames, rootEntries_inum,
    List.count_eq_one_of_mem List.nodup_range' (by rw [List.mem_range'_1]; omega)]

/-- The entry of a file called `.` is not counted. -/
theorem imageDisk_not_linkCounts {f : Mkfs.Input} (hf : f ∈ files)
    (hdot : f.target.take DIRSIZ = dot) : ¬ LinkCounts (imageDisk files) := by
  intro h
  obtain ⟨j, hj⟩ := List.mem_iff_getElem?.mp hf
  have hlt := (List.getElem?_eq_some_iff.mp hj).1
  have hnode := @imageDisk_file files (j + 2) (by omega) (by omega)
  have hlinks := h.nlink (j + 2) (by rw [hnode]; decide)
  have hzero : links (imageDisk files) (j + 2) = 0 := by
    apply Finset.sum_eq_zero
    intro d _
    split
    · next hd =>
      obtain rfl := imageDisk_dir hd.2
      apply List.countP_eq_zero.mpr
      intro e he
      rw [decide_eq_true_eq]
      rintro ⟨hinum, hname⟩
      have he : e ∈ Entry.mk ROOTINO dot :: ⟨ROOTINO, dotdot⟩ ::
          (rootEntries files ++ rootSlack files) := he
      rw [List.mem_cons, List.mem_cons, List.mem_append] at he
      rcases he with rfl | rfl | he | he
      · exact hname rfl
      · have hinum : 1 = j + 2 := hinum
        omega
      · obtain ⟨j', f', hj', rfl⟩ := mem_rootEntries.mp he
        obtain rfl : j' = j := Nat.add_right_cancel hinum
        rw [hj] at hj'
        cases hj'
        exact hname hdot
      · rw [List.eq_of_mem_replicate he] at hinum
        exact Nat.succ_ne_zero _ hinum.symm
    · rfl
  rw [hzero, hnode] at hlinks
  exact absurd hlinks (by decide)

end Image

end Xv6Arm.Sys
