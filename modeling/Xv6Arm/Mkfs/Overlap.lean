import Mathlib.Data.List.Nodup
import Xv6Arm.Mkfs.RoundTrip

/-!
# When the parts of an image overlap

`mkfs` takes blocks and inodes from two counters that it does not compare with the
sizes in the super block.  The parts of its image are apart exactly when the input
files fit these sizes: otherwise file data lands in the log, or an inode has a
number that the super block does not provide for.
-/

namespace Xv6Arm.Mkfs

open Fs Fallible

/-! ## The inode numbers -/

section Freeinode

variable {s s' : State}

theorem winode_freeinode {i : Nat} {d : Dinode} (h : winode i d s = .ok s') :
    s'.freeinode = s.freeinode := by
  obtain ⟨buf, -, hw⟩ := bind_eq_ok.mp h
  cases hw
  rfl

theorem blockFor_freeinode {d d' : Dinode} {fbn x : Nat} (h : blockFor d fbn s = .ok (x, d', s')) :
    s'.freeinode = s.freeinode := by
  unfold blockFor at h
  split at h
  · split at h <;> cases h <;> rfl
  · by_cases haddr : Dinode.addr d NDIRECT = 0
    · simp only [if_pos haddr] at h
      obtain ⟨buf, -, h⟩ := bind_eq_ok.mp h
      split at h <;> cases h <;> rfl
    · simp only [if_neg haddr] at h
      obtain ⟨buf, -, h⟩ := bind_eq_ok.mp h
      split at h <;> cases h <;> rfl

theorem appendLoop_freeinode : ∀ {p : List UInt8} {d d' : Dinode} {off off' : Nat} {s s' : State},
    appendLoop d off p s = .ok (d', off', s') → s'.freeinode = s.freeinode := by
  intro p
  induction hp : p.length using Nat.strong_induction_on generalizing p with
  | _ len ih =>
    intro d d' off off' s s' h
    subst hp
    cases p with
    | nil =>
        rw [appendLoop] at h
        cases h
        rfl
    | cons b q =>
        rw [appendLoop] at h
        split at h
        · cases h
        · obtain ⟨⟨x, d₁, s₁⟩, hb, h⟩ := bind_eq_ok.mp h
          obtain ⟨buf, -, h⟩ := bind_eq_ok.mp h
          have hblock : s₁.freeinode = s.freeinode := blockFor_freeinode hb
          refine Eq.trans (ih _ ?_ rfl h) hblock
          simp only [List.length_drop, List.length_cons]
          omega

theorem iappend_freeinode {i : Nat} {p : List UInt8} (h : iappend i p s = .ok s') :
    s'.freeinode = s.freeinode := by
  obtain ⟨d, -, h⟩ := bind_eq_ok.mp h
  obtain ⟨⟨d', off, s₁⟩, hloop, h⟩ := bind_eq_ok.mp h
  exact (winode_freeinode h).trans (appendLoop_freeinode hloop)

theorem ialloc_freeinode {t i : Nat} (h : ialloc t s = .ok (i, s')) :
    s'.freeinode = s.freeinode + 1 := by
  obtain ⟨s₁, hw, h⟩ := bind_eq_ok.mp h
  cases h
  exact winode_freeinode hw

theorem addFile_ok {root : Nat} {f : Input} (h : addFile root s f = .ok s') :
    47 ∉ f.name ∧ s'.freeinode = s.freeinode + 1 := by
  unfold addFile at h
  split at h
  · cases h
  · next hname =>
    obtain ⟨⟨i, s₁⟩, hi, h⟩ := bind_eq_ok.mp h
    obtain ⟨s₂, ha, h⟩ := bind_eq_ok.mp h
    have hchunks := foldlM_invariant (fun _ s => s.freeinode = s₂.freeinode)
      (fun _ _ _ _ hs hc => (iappend_freeinode hc).trans hs) (r := []) rfl h
    exact ⟨hname, (hchunks.trans (iappend_freeinode ha)).trans (ialloc_freeinode hi)⟩

theorem finish_freeinode {root : Nat} (h : finish root s = .ok s') : s'.freeinode = s.freeinode := by
  obtain ⟨d, -, h⟩ := bind_eq_ok.mp h
  obtain ⟨s₁, hw, h⟩ := bind_eq_ok.mp h
  unfold balloc at h
  split at h
  · cases h
    show s₁.freeinode = s.freeinode
    exact winode_freeinode hw
  · cases h

/-- An `mkfs` that exits with 0 has checked the names, and has handed out an inode number for the
root directory and one for each input file. -/
theorem mkfs_ok {files : List Input} (h : mkfs files = .ok s) :
    (∀ f ∈ files, 47 ∉ f.name) ∧ s.freeinode = files.length + 2 := by
  rw [mkfs, if_neg (by decide)] at h
  obtain ⟨⟨i, s₁⟩, hi, h⟩ := bind_eq_ok.mp h
  change (if i ≠ ROOTINO then _ else _) = _ at h
  split at h
  · cases h
  · obtain ⟨s₂, h₂, h⟩ := bind_eq_ok.mp h
    obtain ⟨s₃, h₃, h⟩ := bind_eq_ok.mp h
    obtain ⟨s₄, h₄, h⟩ := bind_eq_ok.mp h
    have hstart : s₃.freeinode = 2 := by
      rw [iappend_freeinode h₃, iappend_freeinode h₂, ialloc_freeinode hi]
      exact congrArg (· + 1) drafts_empty.freeinode
    obtain ⟨hnames, hfree⟩ := foldlM_invariant
      (fun fs s => (∀ f ∈ fs, 47 ∉ f.name) ∧ s.freeinode = fs.length + 2)
      (by
        rintro fs f s s' ⟨hnames, hfree⟩ ha
        obtain ⟨hname, hnext⟩ := addFile_ok ha
        refine ⟨?_, by rw [hnext, hfree, List.length_append, List.length_singleton]⟩
        intro g hg
        rcases List.mem_append.mp hg with hg | hg
        · exact hnames g hg
        · rw [List.mem_singleton.mp hg]
          exact hname)
      (r := []) ⟨fun f hf => absurd hf List.not_mem_nil, hstart⟩ h₄
    exact ⟨hnames, (finish_freeinode h).trans hfree⟩

/-- An `mkfs` that exits with 0 has made the image of its volume, if the inodes fit before the data
blocks. -/
theorem represents_of_mkfs {files : List Input} (h : mkfs files = .ok s)
    (hlen : files.length ≤ 214) :
    Fits (volume files) ∧ Represents s (volume files).finish := by
  rcases mkfs_run hlen (mkfs_ok h).1 with ⟨hfits, s', hrun, hs⟩ | ⟨-, e, hrun⟩
  · cases h.symm.trans hrun
    exact ⟨hfits, hs⟩
  · cases h.symm.trans hrun

end Freeinode

/-! ## The parts of an image -/

/-- The parts of an image are apart: the inodes handed out are inodes of the super block, their
blocks are data blocks, and no block is referred to twice. -/
structure Apart (s : State) : Prop where
  inode : ∀ i, 0 < i → i < s.freeinode → i < ninodes
  data : ∀ i, 0 < i → i < s.freeinode → ∀ x ∈ references s.img i,
    usedBefore ≤ x ∧ x < size - nlog
  once : ((List.range' 1 (s.freeinode - 1)).flatMap (references s.img)).Nodup

section Apart

variable {files : List Input} {s : State}

theorem finish_references (h : Represents s (volume files).finish) (hfits : Fits (volume files))
    {i : Nat} (hi : i < 208) : references s.img i = ((volume files).file i).refs := by
  rw [h.references_eq hi (finish_readable hfits (volume_wf files) i), finish_refs]

/-- The image of a volume that fits its super block. -/
theorem Represents.apart (h : Represents s (volume files).finish) (hfits : Fits (volume files))
    (hinodes : files.length + 2 ≤ ninodes) (hblocks : blocksNeeded files ≤ nblocks) : Apart s := by
  have hinodes : files.length + 2 ≤ 200 := hinodes
  have hblocks : blocksNeeded files ≤ 985 := hblocks
  have hwf := volume_wf files
  have hnext : s.freeinode = files.length + 2 := h.freeinode.trans (describes_volume files).next
  have hfree : (volume files).free = 29 + blocksNeeded files := (describes_volume files).free
  refine ⟨?_, ?_, ?_⟩
  · intro i _ hi
    show i < 200
    omega
  · intro i _ hi x hx
    rw [finish_references h hfits (by omega)] at hx
    have hb : 29 ≤ x ∧ x < (volume files).free := hwf.ref_bounds i x hx
    show 29 ≤ x ∧ x < 1014
    omega
  · have hrefs : ∀ i ∈ List.range' 1 (s.freeinode - 1),
        references s.img i = ((volume files).file i).refs := by
      intro i hi
      rw [List.mem_range'_1] at hi
      exact finish_references h hfits (by omega)
    rw [List.flatMap_congr hrefs, List.nodup_flatMap]
    refine ⟨fun i _ => hwf.ref_nodup i, ?_⟩
    apply (List.nodup_range' ..).imp
    intro i j hij x hx hx'
    exact hij (hwf.ref_inj i j x hx hx')

/-- Every block that was taken belongs to an inode that was handed out. -/
theorem Represents.exists_reference (h : Represents s (volume files).finish)
    (hfits : Fits (volume files)) (hlen : files.length ≤ 206) {x : Nat} (hlow : usedBefore ≤ x)
    (hx : x < usedBefore + blocksNeeded files) :
    ∃ i, 0 < i ∧ i < s.freeinode ∧ x ∈ references s.img i := by
  have hwf := volume_wf files
  have hnext : (volume files).next = files.length + 2 := (describes_volume files).next
  obtain ⟨i, hi⟩ := hwf.ref_cover x hlow ((describes_volume files).free ▸ hx)
  have hin : 0 < i ∧ i < (volume files).next := by
    by_contra hout
    rw [hwf.file_none i (by omega)] at hi
    cases hi
  have hfi : s.freeinode = (volume files).next := h.freeinode
  refine ⟨i, hin.1, by omega, ?_⟩
  rwa [finish_references h hfits (by omega)]

end Apart

/-- The parts of the image are apart exactly when the input files fit the inodes and the data
blocks of the super block. -/
theorem apart_iff {files : List Input} {s : State} (h : mkfs files = .ok s) :
    Apart s ↔ files.length + 2 ≤ ninodes ∧ blocksNeeded files ≤ nblocks := by
  have hfree := (mkfs_ok h).2
  constructor
  · intro hap
    have hlast : files.length + 1 < 200 := hap.inode (files.length + 1) (by omega) (by omega)
    obtain ⟨hfits, hs⟩ := represents_of_mkfs h (by omega)
    refine ⟨show _ ≤ 200 by omega, ?_⟩
    by_contra hmany
    have hmany : 985 < blocksNeeded files := Nat.not_le.mp hmany
    obtain ⟨i, hpos, hi, hx⟩ := hs.exists_reference hfits (by omega) (x := 1014) (by decide)
      (show 1014 < 29 + _ by omega)
    have hlt : 1014 < 1014 := (hap.data i hpos hi 1014 hx).2
    omega
  · rintro ⟨hinodes, hblocks⟩
    have hlen : files.length + 2 ≤ 200 := hinodes
    obtain ⟨hfits, hs⟩ := represents_of_mkfs h (by omega)
    exact hs.apart hfits hinodes hblocks

theorem mkfs_cat : ∃ s, mkfs [catFile] = .ok s := by
  have hfits : Fits (volume [catFile]) :=
    ((describes_volume _).fits (volume_wf _)).mpr ⟨by decide, by decide, by decide⟩
  obtain ⟨s, hrun, -⟩ := mkfs_of_fits (by decide) (by decide) hfits
  exact ⟨s, hrun⟩

theorem apart_iff_cat : ∃ s, mkfs [catFile] = .ok s ∧ Apart s := by
  obtain ⟨s, hrun⟩ := mkfs_cat
  exact ⟨s, hrun, (apart_iff hrun).mpr ⟨by decide, by decide⟩⟩

/-- A file of 140 blocks. -/
def largeFile (c : UInt8) (hc : c ≠ 0) : Input where
  name := [c]
  chunks := List.replicate 140 (List.replicate 512 7)
  name_ne_zero := by simpa using hc
  chunk_length := by
    intro b hb
    rw [List.eq_of_mem_replicate hb, List.length_replicate]
    decide

/-- Seven files of 140 blocks, which need 988 blocks. -/
def largeFiles : List Input :=
  [largeFile 97 (by decide), largeFile 98 (by decide), largeFile 99 (by decide),
    largeFile 100 (by decide), largeFile 101 (by decide), largeFile 102 (by decide),
    largeFile 103 (by decide)]

theorem length_largeFile (c : UInt8) (hc : c ≠ 0) : (largeFile c hc).bytes.length = 71680 := by
  show (List.replicate 140 (List.replicate 512 7)).flatten.length = 71680
  rw [List.length_flatten, List.map_replicate, List.sum_replicate_nat, List.length_replicate]

/-- The data of `largeFiles` lands in the log. -/
theorem largeFiles_not_apart :
    ∃ s, mkfs largeFiles = .ok s ∧ ¬ Apart s ∧
      ∃ i, 0 < i ∧ i < s.freeinode ∧ size - nlog ∈ references s.img i := by
  have hneed : blocksNeeded largeFiles = 988 := by
    rw [blocksNeeded, largeFiles]
    simp only [List.map_cons, List.map_nil, length_largeFile]
    rfl
  have hdesc := describes_volume largeFiles
  have hfits : Fits (volume largeFiles) := by
    refine (hdesc.fits (volume_wf largeFiles)).mpr ⟨by omega, ?_, by decide⟩
    intro f hf
    simp only [largeFiles, List.mem_cons, List.not_mem_nil, or_false] at hf
    rcases hf with rfl | rfl | rfl | rfl | rfl | rfl | rfl <;> rw [length_largeFile] <;> decide
  obtain ⟨s, hrun, hs⟩ := mkfs_of_fits (by decide) (by decide) hfits
  obtain ⟨i, hpos, hi, hx⟩ := hs.exists_reference hfits (by decide) (x := size - nlog) (by decide)
    (by rw [hneed]; decide)
  exact ⟨s, hrun, fun hap => Nat.lt_irrefl _ (hap.data i hpos hi _ hx).2, i, hpos, hi, hx⟩

end Xv6Arm.Mkfs
