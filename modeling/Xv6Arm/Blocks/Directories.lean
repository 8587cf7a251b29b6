import Xv6Arm.Blocks.Start
import Xv6Arm.Sys.Boot
import Xv6Arm.Sys.Calls

/-!
# Directories

The model of `dirlookup` and `dirlink` of `fs.c`, which stand in comments there.  They go
through the bytes of a directory, 16 for each entry, and compare and copy names with
`strncmp` and `strncpy` of `string.c`.  The references to inodes that `iget` and `iput`
count are left out.

`Xv6Arm.Sys` has directories as lists of entries.  On the bytes, the functions find and
change the entries that they find and change there, and a name that is linked is added to
the names of the directory (`Holds.lookupIn_run`, `Holds.linkIn_adds`).
-/

namespace Xv6Arm.Blocks

open Bytes Fs Mkfs Fallible Splice

/-! ## Strings -/

/-- `strncmp`. -/
def strncmp : Nat → (Nat → UInt8) → (Nat → UInt8) → Int
  | 0, _, _ => 0
  | n + 1, p, q =>
    if p 0 ≠ 0 ∧ p 0 = q 0 then strncmp n (fun i => p (i + 1)) fun i => q (i + 1)
    else (p 0).toNat - (q 0).toNat

/-- `strncpy`: the bytes that it writes. -/
def strncpy : Nat → (Nat → UInt8) → List UInt8
  | 0, _ => []
  | n + 1, t =>
    if t 0 = 0 then List.replicate (n + 1) 0 else t 0 :: strncpy n fun i => t (i + 1)

/-- The string at an address, of at most `n` bytes. -/
def stringAt (n : Nat) (p : Nat → UInt8) : List UInt8 :=
  ((List.range n).map p).takeWhile (· ≠ 0)

theorem stringAt_succ (n : Nat) (p : Nat → UInt8) :
    stringAt (n + 1) p = if p 0 = 0 then [] else p 0 :: stringAt n fun i => p (i + 1) := by
  unfold stringAt
  rw [List.range_succ_eq_map, List.map_cons, List.map_map]
  by_cases hp : p 0 = 0
  · rw [if_pos hp, List.takeWhile_cons_of_neg (by simpa using hp)]
  · rw [if_neg hp, List.takeWhile_cons_of_pos (by simpa using hp)]
    rfl

/-- `strncmp` compares the strings up to their ends. -/
theorem strncmp_eq_zero (n : Nat) :
    ∀ p q, strncmp n p q = 0 ↔ stringAt n p = stringAt n q := by
  induction n with
  | zero => exact fun p q => iff_of_true rfl rfl
  | succ n ih =>
    intro p q
    have htoNat : ((p 0).toNat : Int) - (q 0).toNat = 0 ↔ p 0 = q 0 := by
      rw [← UInt8.toNat_inj]
      omega
    rw [strncmp, stringAt_succ, stringAt_succ]
    by_cases hp : p 0 = 0
    · rw [if_neg (by simp [hp]), if_pos hp, htoNat, hp]
      by_cases hq : q 0 = 0
      · simp [hq]
      · simp [hq, Ne.symm hq]
    · by_cases hpq : p 0 = q 0
      · rw [if_pos ⟨hp, hpq⟩, ih, if_neg hp, if_neg (hpq ▸ hp), hpq]
        simp
      · rw [if_neg (fun h => hpq h.2), htoNat, if_neg hp]
        by_cases hq : q 0 = 0
        · simp [hq, hp]
        · simp [hq, hpq]

theorem length_strncpy (n : Nat) : ∀ t, (strncpy n t).length = n := by
  induction n with
  | zero => exact fun t => rfl
  | succ n ih =>
    intro t
    rw [strncpy]
    split
    · rw [List.length_replicate]
    · rw [List.length_cons, ih]

/-- `strncpy` copies the string and fills up with zeros. -/
theorem takeWhile_strncpy (n : Nat) : ∀ t, (strncpy n t).takeWhile (· ≠ 0) = stringAt n t := by
  induction n with
  | zero => exact fun t => rfl
  | succ n ih =>
    intro t
    rw [strncpy, stringAt_succ]
    by_cases ht : t 0 = 0
    · rw [if_pos ht, if_pos ht, List.replicate_succ, List.takeWhile_cons_of_neg (by simp)]
    · rw [if_neg ht, if_neg ht, List.takeWhile_cons_of_pos (by simpa using ht), ih]

/-- A name in a buffer of `DIRSIZ` bytes, as `skipelem` leaves it. -/
def nameBuf (name : List UInt8) : Nat → UInt8 := fun i => name.getD i 0

/-- A name: at most `DIRSIZ` bytes, none of them 0. -/
structure ValidName (name : List UInt8) : Prop where
  short : name.length ≤ DIRSIZ
  ne_zero : ∀ c ∈ name, c ≠ 0

theorem ValidName.stringAt_nameBuf {name : List UInt8} (h : ValidName name) :
    stringAt DIRSIZ (nameBuf name) = name := by
  have hshort := h.short
  have hbytes : (List.range DIRSIZ).map (nameBuf name) =
      name ++ List.replicate (DIRSIZ - name.length) 0 := by
    apply List.ext_getElem
    · simp only [List.length_map, List.length_range, List.length_append, List.length_replicate]
      omega
    · intro i hi hi'
      rw [List.getElem_map, List.getElem_range, nameBuf]
      rcases Nat.lt_or_ge i name.length with hlt | hge
      · rw [List.getElem_append_left hlt, List.getD_eq_getElem _ _ hlt]
      · rw [List.getElem_append_right hge, List.getElem_replicate, List.getD_eq_default _ _ hge]
  unfold stringAt
  rw [hbytes, List.takeWhile_append_of_pos fun c hc => by simpa using h.ne_zero c hc]
  cases DIRSIZ - name.length with
  | zero => simp
  | succ m => simp [List.replicate_succ]

/-! ## Entries -/

/-- `namecmp`. -/
def namecmp (s t : Nat → UInt8) : Int := strncmp DIRSIZ s t

/-- `de.name`. -/
def entryName (de : Dirent) : Nat → UInt8 := fun i => byteAt de (2 + i)

theorem stringAt_entryName (de : Dirent) : stringAt DIRSIZ (entryName de) = Dirent.name de := rfl

/-- The `struct dirent` in 16 bytes. -/
def direntOf (bs : List UInt8) : Dirent := fun i => bs.getD i.val 0

/-- The `struct dirent` that `dirlink` fills in.  It assigns all 16 bytes. -/
def newEntry (inum : Nat) (name : Nat → UInt8) : Dirent :=
  blit (putLe (zeroBuf 16) 0 2 inum) 2 (strncpy DIRSIZ name)

/-- The entry of a name is the one that the model of the system calls puts. -/
theorem ofDirent_newEntry {inum : Nat} {name : List UInt8} (hinum : inum < 2 ^ 16)
    (hname : ValidName name) :
    Sys.Entry.ofDirent (newEntry inum (nameBuf name)) = ⟨inum, name⟩ := by
  have hbytes : (List.range DIRSIZ).map (entryName (newEntry inum (nameBuf name))) =
      strncpy DIRSIZ (nameBuf name) := by
    have hlen := length_strncpy DIRSIZ (nameBuf name)
    apply List.ext_getElem
    · rw [List.length_map, List.length_range, hlen]
    · intro i hi hi'
      have hi14 : i < 14 := by rwa [hlen] at hi'
      rw [List.getElem_map, List.getElem_range, entryName, newEntry, byteAt_blit _ (by omega),
        if_pos (by omega), Nat.add_sub_cancel_left, List.getElem?_eq_getElem hi', Option.getD_some]
  have hstring : Dirent.name (newEntry inum (nameBuf name)) = name := by
    rw [← stringAt_entryName, stringAt, hbytes, takeWhile_strncpy, hname.stringAt_nameBuf]
  rw [Sys.Entry.ofDirent, hstring, newEntry, inum_dirent hinum]

/-- The entries in the bytes of a directory, as the model of the system calls has them. -/
def entriesOf (d : List UInt8) : List Sys.Entry := (dirents d).map .ofDirent

/-! ## The functions -/

/-- The loops of `dirlookup` and `dirlink`: the first entry that `p` holds of, with its
offset. -/
def scanDir (devsw : Devsw) (p : Dirent → Bool) :
    List Nat → Inode → FsM (Option (Nat × Dirent) × Inode)
  | [], dp => return (none, dp)
  | off :: offs, dp => do
    let (r, bytes, dp) ← readi devsw dp off 16
    if r ≠ 16 then throw "dirlink read"
    else if p (direntOf bytes) then return (some (off, direntOf bytes), dp)
    else scanDir devsw p offs dp

/-- The values of `off` in these loops. -/
def offsets (dp : Inode) : List Nat := (List.range ((dp.size + 15) / 16)).map (16 * ·)

/-- `dirlookup`: the inode number of the entry and its offset. -/
def dirlookup (devsw : Devsw) (dp : Inode) (name : Nat → UInt8) :
    FsM (Option (Nat × Nat) × Inode) :=
  if dp.type ≠ T_DIR then throw "dirlookup not DIR"
  else do
    let (found, dp) ← scanDir devsw
      (fun de => Dirent.inum de ≠ 0 ∧ namecmp name (entryName de) = 0) (offsets dp) dp
    return (found.map fun x => (Dirent.inum x.2, x.1), dp)

/-- `dirlink`. -/
def dirlink (devsw : Devsw) (dp : Inode) (name : Nat → UInt8) (inum : Nat) :
    FsM (Int × Inode) := do
  let (found, dp) ← dirlookup devsw dp name
  if found.isSome then return (-1, dp)
  else do
    let (empty, dp) ← scanDir devsw (fun de => Dirent.inum de = 0) (offsets dp) dp
    let off := (empty.map Prod.fst).getD (16 * ((dp.size + 15) / 16))
    let (r, dp) ← writei devsw dp (List.ofFn (newEntry inum name)) off
    if r ≠ 16 then throw "dirlink"
    else return (0, dp)

/-- A function on an inode that the caller locks. -/
def locked {α : Type} (i : Nat) (f : Inode → FsM (α × Inode)) : CoreM α := do
  let ip ← ilock i
  let (a, ip) ← onVol (f ip)
  setCopy i (some ip)
  return a

/-- `dirlookup` in a directory that the caller locks. -/
def lookupIn (devsw : Devsw) (i : Nat) (name : Nat → UInt8) : CoreM (Option (Nat × Nat)) :=
  locked i fun dp => dirlookup devsw dp name

/-- `dirlink` in a directory that the caller locks. -/
def linkIn (devsw : Devsw) (i : Nat) (name : Nat → UInt8) (inum : Nat) : CoreM Int :=
  locked i fun dp => dirlink devsw dp name inum

/-! ## Scanning -/

/-- Entry `j` in the bytes of a directory. -/
def entryAt (d : List UInt8) (j : Nat) : Dirent := fun i => d.getD (16 * j + i.val) 0

theorem entriesOf_eq (d : List UInt8) :
    entriesOf d = (List.range (d.length / 16)).map fun j => .ofDirent (entryAt d j) :=
  List.map_map

theorem length_entriesOf (d : List UInt8) : (entriesOf d).length = d.length / 16 := by
  rw [entriesOf_eq, List.length_map, List.length_range]

theorem getElem?_entriesOf {d : List UInt8} {j : Nat} (hj : j < (entriesOf d).length) :
    (entriesOf d)[j]? = some (.ofDirent (entryAt d j)) := by
  rw [length_entriesOf] at hj
  rw [entriesOf_eq, List.getElem?_map, List.getElem?_range hj, Option.map_some]

/-- The read of an entry. -/
theorem readAt_slot {d : List UInt8} {j : Nat} (hj : 16 * j + 16 ≤ d.length)
    (hmax : d.length ≤ MAXFILE * BSIZE) :
    readAt d (16 * j) 16 = (16, (d.drop (16 * j)).take 16) := by
  have hmax' : d.length ≤ 140 * 512 := hmax
  have hlen : ((d.drop (16 * j)).take 16).length = 16 := by
    rw [List.length_take, List.length_drop]
    omega
  rw [readAt, if_neg (by omega), hlen]
  rfl

theorem direntOf_slice (d : List UInt8) (j : Nat) :
    direntOf ((d.drop (16 * j)).take 16) = entryAt d j := by
  funext i
  rw [direntOf, entryAt, List.getD_eq_getElem?_getD, List.getElem?_take_of_lt i.isLt,
    List.getElem?_drop, List.getD_eq_getElem?_getD]

/-- The first number that a predicate holds of, by the place of its image. -/
theorem find?_range_eq_findIdx {α : Type*} (g : Nat → α) (q : α → Bool) (n : Nat) :
    (List.range n).find? (fun j => q (g j)) =
      if ((List.range n).map g).findIdx q < n then some (((List.range n).map g).findIdx q)
      else none := by
  have hlen : ((List.range n).map g).length = n := by rw [List.length_map, List.length_range]
  split
  · next hlt =>
    have hidx := (List.findIdx_eq (p := q) (by rwa [hlen])).mp
      (rfl : ((List.range n).map g).findIdx q = _)
    simp only [List.getElem_map, List.getElem_range] at hidx
    rw [List.find?_range_eq_some]
    exact ⟨hidx.1, List.mem_range.mpr hlt, fun j hj => by rw [hidx.2 j hj]; rfl⟩
  · next hge =>
    have hall := List.findIdx_eq_length.mp
      (Nat.le_antisymm List.findIdx_le_length (by rw [hlen]; exact Nat.le_of_not_lt hge))
    rw [List.find?_eq_none]
    intro j hj
    rw [hall (g j) (List.mem_map_of_mem hj)]
    exact Bool.false_ne_true

variable {Z : Zone} {s : Core} {A : Files} {fs : Nat → File} {i : Nat}

/-- A directory of a volume: its bytes are whole entries. -/
structure IsDir (Z : Zone) (A : Files) (i : Nat) : Prop where
  lt : i < Z.sb.ninodes
  type : (A i).type = T_DIR
  whole : 16 ∣ (A i).data.length

theorem IsDir.type_ne_zero (hd : IsDir Z A i) : (A i).type ≠ 0 := by
  rw [hd.type]
  decide

theorem IsDir.type_ne_dev (hd : IsDir Z A i) : (A i).type ≠ T_DEV := by
  rw [hd.type]
  decide

section Locked

variable {α : Type} {f : Inode → FsM (α × Inode)} {a : α} {ip : Inode} {w : Vol}

theorem Holds.locked_run (h : Holds Z s A fs) (hd : IsDir Z A i)
    (hrun : (f ((A i).inode i (fs i))).run s.vol = .ok ((a, ip), w)) :
    (locked i f).run s = .ok (a, (s.with w).copy i (some ip)) := by
  rw [locked]
  simp only [StateT.run_bind, h.ilock_run hd.lt hd.type_ne_zero, ok_bind,
    onVol_run (s := s.copy i (some ((A i).inode i (fs i)))) hrun, Core.copy_with, setCopy_run,
    Core.copy_copy]
  rfl

theorem Holds.locked_error (h : Holds Z s A fs) (hd : IsDir Z A i) {msg : String}
    (hrun : (f ((A i).inode i (fs i))).run s.vol = .error msg) :
    (locked i f).run s = .error msg := by
  rw [locked]
  simp only [StateT.run_bind, h.ilock_run hd.lt hd.type_ne_zero, ok_bind,
    onVol_error (s := s.copy i (some ((A i).inode i (fs i)))) hrun]
  rfl

end Locked

/-- A loop stops at the first entry that `p` holds of. -/
theorem Holds.scanDir_run (devsw : Devsw) (h : Holds Z s A fs) (hd : IsDir Z A i)
    (p : Dirent → Bool) (js : List Nat) (hjs : ∀ j ∈ js, 16 * j + 16 ≤ (A i).data.length) :
    (scanDir devsw p (js.map (16 * ·)) ((A i).inode i (fs i))).run s.vol =
      .ok (((js.find? fun j => p (entryAt (A i).data j)).map fun j =>
        (16 * j, entryAt (A i).data j), (A i).inode i (fs i)), s.vol) := by
  induction js with
  | nil => rfl
  | cons j js ih =>
    obtain ⟨hj, hrest⟩ := List.forall_mem_cons.mp hjs
    have hshort : (A i).data.length ≤ 140 * 512 := (h.lies i hd.lt).short
    have hread := h.readi_run devsw hd.lt hd.type_ne_dev (show 16 * j < 2 ^ 32 by omega)
      (show 16 < 2 ^ 32 by decide)
    rw [readAt_slot hj hshort] at hread
    rw [List.map_cons, scanDir]
    simp only [StateT.run_bind, hread, ok_bind, ne_eq, not_true_eq_false, if_false,
      direntOf_slice]
    cases hp : p (entryAt (A i).data j) with
    | true =>
      rw [List.find?_cons, hp]
      rfl
    | false =>
      rw [List.find?_cons, hp]
      exact ih hrest

/-- A loop over the whole directory stops at the entry where the model of the system calls
does. -/
theorem Holds.scanDir_offsets (devsw : Devsw) (h : Holds Z s A fs) (hd : IsDir Z A i)
    {p : Dirent → Bool} {q : Sys.Entry → Bool} (hpq : ∀ de, p de = q (.ofDirent de)) :
    (scanDir devsw p (offsets ((A i).inode i (fs i))) ((A i).inode i (fs i))).run s.vol =
      .ok ((if (entriesOf (A i).data).findIdx q < (entriesOf (A i).data).length then
          some (16 * (entriesOf (A i).data).findIdx q,
            entryAt (A i).data ((entriesOf (A i).data).findIdx q))
        else none, (A i).inode i (fs i)), s.vol) := by
  have hsize : ((A i).inode i (fs i)).size = (A i).data.length := by
    rw [← (h.lies i hd.lt).data]
    rfl
  have hwhole := hd.whole
  have hcount : (((A i).inode i (fs i)).size + 15) / 16 = (A i).data.length / 16 := by
    rw [hsize]
    omega
  have hfind := find?_range_eq_findIdx
    (fun j => Sys.Entry.ofDirent (entryAt (A i).data j)) q ((A i).data.length / 16)
  rw [← entriesOf_eq, ← length_entriesOf] at hfind
  rw [offsets, hcount, h.scanDir_run devsw hd p _ fun j hj => by
    have := List.mem_range.mp hj
    omega]
  simp only [hpq, ← length_entriesOf, hfind]
  split <;> rfl

/-! ## Looking up and linking -/

theorem namecmp_eq_zero {name : List UInt8} (hname : ValidName name) (de : Dirent) :
    namecmp (nameBuf name) (entryName de) = 0 ↔ (Sys.Entry.ofDirent de).name = name := by
  rw [namecmp, strncmp_eq_zero, hname.stringAt_nameBuf, stringAt_entryName]
  exact eq_comm

/-- What `dirlookup` gives on the entries of a directory. -/
def lookupSpec (es : List Sys.Entry) (name : List UInt8) : Option (Nat × Nat) :=
  es[Sys.slotOf es name]?.map fun e => (e.inum, 16 * Sys.slotOf es name)

theorem Holds.dirlookup_run (devsw : Devsw) (h : Holds Z s A fs) (hd : IsDir Z A i)
    {name : List UInt8} (hname : ValidName name) :
    (dirlookup devsw ((A i).inode i (fs i)) (nameBuf name)).run s.vol =
      .ok ((lookupSpec (entriesOf (A i).data) name, (A i).inode i (fs i)), s.vol) := by
  have hscan := h.scanDir_offsets devsw hd
    (p := fun de => Dirent.inum de ≠ 0 ∧ namecmp (nameBuf name) (entryName de) = 0)
    (q := fun e => e.inum ≠ 0 ∧ e.name = name)
    fun de => by simp only [namecmp_eq_zero hname]; rfl
  have htype : ¬ ((A i).inode i (fs i)).type ≠ T_DIR := not_not.mpr hd.type
  rw [dirlookup, if_neg htype]
  simp only [StateT.run_bind, hscan, ok_bind]
  rw [lookupSpec, Sys.slotOf]
  split
  · next hlt =>
    rw [getElem?_entriesOf hlt]
    rfl
  · next hge =>
    rw [List.getElem?_eq_none (Nat.le_of_not_lt hge)]
    rfl

/-- The `dirlookup` of a locked directory changes no block. -/
theorem Holds.lookupIn_run (devsw : Devsw) (h : Holds Z s A fs) (hd : IsDir Z A i)
    {name : List UInt8} (hname : ValidName name) :
    ∃ s', (lookupIn devsw i (nameBuf name)).run s =
        .ok (lookupSpec (entriesOf (A i).data) name, s') ∧
      Holds Z s' A fs ∧ s'.vol = s.vol := by
  exact ⟨s.copy i (some ((A i).inode i (fs i))), h.locked_run hd (h.dirlookup_run devsw hd hname),
    h.copy_inode hd.lt hd.type_ne_zero, rfl⟩

theorem entriesOf_append {a : List UInt8} {n : Nat} (ha : a.length = 16 * n) (b : List UInt8) :
    entriesOf (a ++ b) = entriesOf a ++ entriesOf b := by
  rw [entriesOf, dirents_append ha, List.map_append]
  rfl

/-- The bytes of one entry. -/
theorem entriesOf_slot {d : List UInt8} (hd : d.length = 16) :
    entriesOf d = [.ofDirent (direntOf d)] := by
  rw [entriesOf_eq, hd]
  show [Sys.Entry.ofDirent (entryAt d 0)] = _
  congr 2
  funext i
  rw [entryAt, direntOf, Nat.mul_zero, Nat.zero_add]

theorem direntOf_ofFn (de : Dirent) : direntOf (List.ofFn de) = de := by
  funext i
  rw [direntOf, List.getD_eq_getElem _ _ (by rw [List.length_ofFn]; exact i.isLt),
    List.getElem_ofFn]

/-- The entries of a directory after one of them was written. -/
theorem entriesOf_splice {d : List UInt8} (hd : 16 ∣ d.length) {k : Nat}
    (hk : k ≤ (entriesOf d).length) (de : Dirent) :
    entriesOf (splice d (16 * k) (List.ofFn de)) =
      Sys.Kernel.putEntry (entriesOf d) k (.ofDirent de) := by
  rw [length_entriesOf] at hk
  have hlen : (List.ofFn de).length = 16 := List.length_ofFn
  have htake : (d.take (16 * k)).length = 16 * k := by
    rw [List.length_take]
    omega
  have hfirst : (entriesOf (d.take (16 * k))).length = k := by
    rw [length_entriesOf, htake]
    omega
  have hsplit : entriesOf d = entriesOf (d.take (16 * k)) ++ entriesOf (d.drop (16 * k)) := by
    rw [← entriesOf_append htake, List.take_append_drop]
  have hparts : entriesOf (splice d (16 * k) (List.ofFn de)) =
      entriesOf (d.take (16 * k)) ++ .ofDirent de :: entriesOf (d.drop (16 * k + 16)) := by
    rw [splice, List.append_assoc, entriesOf_append htake, entriesOf_append (n := 1) hlen,
      entriesOf_slot hlen, direntOf_ofFn, hlen]
    rfl
  rw [hparts, Sys.Kernel.putEntry, length_entriesOf]
  split
  · -- The entry replaces the one that was there.
    have hslot : ((d.drop (16 * k)).take 16).length = 16 := by
      rw [List.length_take, List.length_drop]
      omega
    have hdrop : d.drop (16 * k) = (d.drop (16 * k)).take 16 ++ d.drop (16 * k + 16) := by
      rw [← List.drop_drop, List.take_append_drop]
    have hrest : entriesOf (d.drop (16 * k)) =
        .ofDirent (direntOf ((d.drop (16 * k)).take 16)) :: entriesOf (d.drop (16 * k + 16)) := by
      calc entriesOf (d.drop (16 * k))
          = entriesOf ((d.drop (16 * k)).take 16 ++ d.drop (16 * k + 16)) := congrArg _ hdrop
        _ = _ := by
          rw [entriesOf_append (n := 1) hslot, entriesOf_slot hslot]
          rfl
    rw [hsplit, hrest, List.set_append_right _ _ (by omega), hfirst, Nat.sub_self]
    rfl
  · -- The entry comes after all others.
    have hend : d.length ≤ 16 * k := by omega
    rw [List.take_of_length_le hend, List.drop_eq_nil_of_le (by omega)]
    rfl

/-- The slot that `dirlink` writes. -/
def freeSlot (es : List Sys.Entry) : Nat := es.findIdx fun e => e.inum = 0

theorem freeSlot_le (es : List Sys.Entry) : freeSlot es ≤ es.length := List.findIdx_le_length

/-- The inode that a name of a directory stands for. -/
def target (es : List Sys.Entry) (name : List UInt8) : Option Nat :=
  (es.find? fun e => e.inum ≠ 0 ∧ e.name = name).map (·.inum)

theorem map_lookupSpec (es : List Sys.Entry) (name : List UInt8) :
    (lookupSpec es name).map Prod.fst = target es name := by
  rw [lookupSpec, target, Option.map_map, Sys.slotOf, List.find?_eq_getElem?_findIdx]
  rfl

/-- `putEntry` at the free slot puts an entry among those in use. -/
theorem putEntry_freeSlot (es : List Sys.Entry) (e : Sys.Entry) :
    ∃ before after, Sys.Kernel.putEntry es (freeSlot es) e = before ++ e :: after ∧
      ∀ name, target es name = target (before ++ after) name := by
  rw [Sys.Kernel.putEntry]
  split
  · next hlt =>
    refine ⟨es.take (freeSlot es), es.drop (freeSlot es + 1), ?_, fun name => ?_⟩
    · rw [List.set_eq_take_append_cons_drop, if_pos hlt]
    · have hfree : decide (es[freeSlot es].inum = 0) = true := List.findIdx_getElem (w := hlt)
      have hsplit : es.take (freeSlot es) ++ es[freeSlot es] :: es.drop (freeSlot es + 1) = es := by
        rw [List.getElem_cons_drop, List.take_append_drop]
      calc target es name
          = target (es.take (freeSlot es) ++ es[freeSlot es] :: es.drop (freeSlot es + 1)) name := by
            rw [hsplit]
        _ = _ := by
          rw [target, target, List.find?_append, List.find?_append,
            List.find?_cons_of_neg (by simp [of_decide_eq_true hfree])]
  · exact ⟨es, [], rfl, fun name => by rw [List.append_nil]⟩

/-- An entry in the free slot adds its name to the directory. -/
theorem target_putEntry {es : List Sys.Entry} {name : List UInt8} {inum : Nat} (hinum : inum ≠ 0)
    (hnone : target es name = none) :
    target (Sys.Kernel.putEntry es (freeSlot es) ⟨inum, name⟩) =
      Function.update (target es) name (some inum) := by
  obtain ⟨before, after, hput, htarget⟩ := putEntry_freeSlot es ⟨inum, name⟩
  funext name'
  rw [hput]
  by_cases hname : name' = name
  · subst hname
    rw [htarget, target, Option.map_eq_none_iff, List.find?_append, Option.or_eq_none_iff] at hnone
    rw [Function.update_self, target, List.find?_append, hnone.1, List.find?_cons_of_pos (by simpa)]
    rfl
  · rw [Function.update_of_ne hname, htarget, target, target, List.find?_append, List.find?_append,
      List.find?_cons_of_neg (by simp [Ne.symm hname])]

theorem Holds.dirlink_run (devsw : Devsw) (h : Holds Z s A fs) (hd : IsDir Z A i)
    {name : List UInt8} (hname : ValidName name) (inum : Nat) :
    (dirlink devsw ((A i).inode i (fs i)) (nameBuf name) inum).run s.vol =
      if (target (entriesOf (A i).data) name).isSome then
        .ok ((-1, (A i).inode i (fs i)), s.vol)
      else (writei devsw ((A i).inode i (fs i)) (List.ofFn (newEntry inum (nameBuf name)))
          (16 * freeSlot (entriesOf (A i).data))).run s.vol >>= fun x =>
        if x.1.1 ≠ 16 then .error "dirlink" else .ok ((0, x.1.2), x.2) := by
  have hscan := h.scanDir_offsets devsw hd (p := fun de => Dirent.inum de = 0)
    (q := fun e => e.inum = 0) fun de => rfl
  have hsize : ((A i).inode i (fs i)).size = (A i).data.length := by
    rw [← (h.lies i hd.lt).data]
    rfl
  rw [dirlink]
  simp only [StateT.run_bind, h.dirlookup_run devsw hd hname, ok_bind, ← map_lookupSpec,
    Option.isSome_map]
  cases hfound : (lookupSpec (entriesOf (A i).data) name).isSome with
  | true => rfl
  | false =>
    have hoff : ((if freeSlot (entriesOf (A i).data) < (entriesOf (A i).data).length then
          some (16 * freeSlot (entriesOf (A i).data),
            entryAt (A i).data (freeSlot (entriesOf (A i).data)))
        else none).map Prod.fst).getD (16 * ((((A i).inode i (fs i)).size + 15) / 16)) =
        16 * freeSlot (entriesOf (A i).data) := by
      have hle := freeSlot_le (entriesOf (A i).data)
      have hwhole := hd.whole
      split
      · rfl
      · rw [length_entriesOf] at *
        show 16 * ((((A i).inode i (fs i)).size + 15) / 16) = _
        omega
    rw [freeSlot] at hoff ⊢
    simp only [Bool.false_eq_true, if_false, StateT.run_bind, hscan, ok_bind, hoff]
    congr 1
    funext x
    split <;> rfl

theorem length_newEntry (inum : Nat) (name : Nat → UInt8) :
    (List.ofFn (newEntry inum name)).length = 16 := List.length_ofFn

/-- The inodes after a name was linked. -/
def linked (i : Nat) (name : List UInt8) (inum : Nat) (A : Files) : Files :=
  Function.update A i { A i with
    data := splice (A i).data (16 * freeSlot (entriesOf (A i).data))
      (List.ofFn (newEntry inum (nameBuf name))) }

/-- The write of `dirlink`, on the bytes of the directory. -/
theorem writeAt_slot (hd : IsDir Z A i) (name : List UInt8) (inum : Nat) :
    writeAt (A i).data (16 * freeSlot (entriesOf (A i).data))
        (List.ofFn (newEntry inum (nameBuf name))) =
      if Sys.Kernel.writable (entriesOf (A i).data) (freeSlot (entriesOf (A i).data)) then
        (16, (linked i name inum A i).data)
      else (-1, (A i).data) := by
  have hle := freeSlot_le (entriesOf (A i).data)
  have hwhole := hd.whole
  have hmax : MAXFILE * BSIZE = 71680 := rfl
  have hentries : Sys.MAXENTRIES = 4480 := rfl
  have hbad : ((A i).data.length < 16 * freeSlot (entriesOf (A i).data) ∨
      MAXFILE * BSIZE < 16 * freeSlot (entriesOf (A i).data) + 16) ↔
      ¬ Sys.Kernel.writable (entriesOf (A i).data) (freeSlot (entriesOf (A i).data)) = true := by
    rw [Sys.Kernel.writable, decide_eq_true_iff, hmax, hentries]
    rw [length_entriesOf] at hle ⊢
    omega
  rw [writeAt, length_newEntry]
  by_cases hw : Sys.Kernel.writable (entriesOf (A i).data) (freeSlot (entriesOf (A i).data)) = true
  · rw [if_neg (by rw [hbad]; exact not_not.mpr hw), if_pos hw, linked, Function.update_self]
    rfl
  · rw [if_pos (hbad.mpr hw), if_neg hw]

/-- The directory after a name was linked. -/
theorem entriesOf_linked (hd : IsDir Z A i) {name : List UInt8} (hname : ValidName name)
    {inum : Nat} (hinum : inum < 2 ^ 16) :
    entriesOf (linked i name inum A i).data =
      Sys.Kernel.putEntry (entriesOf (A i).data) (freeSlot (entriesOf (A i).data))
        ⟨inum, name⟩ := by
  rw [linked, Function.update_self, entriesOf_splice hd.whole (freeSlot_le _),
    ofDirent_newEntry hinum hname]

theorem IsDir.linked (hd : IsDir Z A i) (name : List UInt8) (inum : Nat) :
    IsDir Z (linked i name inum A) i := by
  have hle := freeSlot_le (entriesOf (A i).data)
  have hwhole := hd.whole
  refine ⟨hd.lt, by rw [Blocks.linked, Function.update_self]; exact hd.type, ?_⟩
  rw [length_entriesOf] at hle
  rw [Blocks.linked, Function.update_self]
  show 16 ∣ (splice _ _ _).length
  rw [length_splice (by omega), length_newEntry]
  omega

/-- A `dirlink` that finds no entry of the name is a write to the directory. -/
theorem Holds.linkIn_run (devsw : Devsw) (h : Holds Z s A fs) (hd : IsDir Z A i)
    {name : List UInt8} (hname : ValidName name) (inum : Nat)
    (hnone : target (entriesOf (A i).data) name = none) :
    (linkIn devsw i (nameBuf name) inum).run s =
      ((Op.write i (List.ofFn (newEntry inum (nameBuf name)))
        (16 * freeSlot (entriesOf (A i).data))).run devsw).run s >>= fun x =>
          if x.1.1 ≠ 16 then .error "dirlink" else .ok (0, x.2) := by
  have hrun := h.dirlink_run devsw hd hname inum
  rw [hnone] at hrun
  simp only [Option.isSome_none, Bool.false_eq_true, if_false] at hrun
  have hop : (Op.write i (List.ofFn (newEntry inum (nameBuf name)))
      (16 * freeSlot (entriesOf (A i).data))).run devsw =
      (locked i fun dp => writei devsw dp (List.ofFn (newEntry inum (nameBuf name)))
        (16 * freeSlot (entriesOf (A i).data))) >>= fun r => return (r, []) := by
    simp only [Op.run, locked, bind_assoc, pure_bind]
  rw [linkIn, hop, StateT.run_bind]
  cases hw : (writei devsw ((A i).inode i (fs i)) (List.ofFn (newEntry inum (nameBuf name)))
      (16 * freeSlot (entriesOf (A i).data))).run s.vol with
  | error msg =>
    rw [hw] at hrun
    rw [h.locked_error hd hrun, h.locked_error hd hw]
    rfl
  | ok x =>
    obtain ⟨⟨r, ip⟩, w⟩ := x
    rw [hw, ok_bind] at hrun
    by_cases hr : r ≠ 16
    · rw [if_pos hr] at hrun
      rw [h.locked_error hd hrun, h.locked_run hd hw]
      exact (if_pos hr).symm
    · rw [if_neg hr] at hrun
      rw [h.locked_run hd hrun, h.locked_run hd hw]
      exact (if_neg hr).symm

/-- What the write of `dirlink` comes to. -/
theorem Holds.spec_write_slot (h : Holds Z s A fs) (hd : IsDir Z A i) (name : List UInt8)
    (inum : Nat) :
    Op.spec Z.sb.ninodes (room Z) (.write i (List.ofFn (newEntry inum (nameBuf name)))
        (16 * freeSlot (entriesOf (A i).data))) A =
      if Sys.Kernel.writable (entriesOf (A i).data) (freeSlot (entriesOf (A i).data)) then
        if usedBlocks Z.sb.ninodes (linked i name inum A) ≤ room Z then
          .ok ((16, []), linked i name inum A)
        else .error "balloc: out of blocks"
      else .ok ((-1, []), A) := by
  have hlinked : Function.update A i { A i with data := (linked i name inum A i).data } =
      linked i name inum A := by
    rw [linked, Function.update_self]
  rw [Op.spec, writeAt_slot hd]
  split
  · rw [hlinked]
  · have hsame : Function.update A i { A i with data := (A i).data } = A :=
      Function.update_eq_self i A
    rw [hsame, if_pos (h.usedBlocks_le hd.lt)]

/-- The `dirlink` of a locked directory adds the name, unless it is there. -/
theorem Holds.linkIn_adds (devsw : Devsw) (h : Holds Z s A fs) (hd : IsDir Z A i)
    {name : List UInt8} (hname : ValidName name) {inum : Nat} (hne : inum ≠ 0)
    (hinum : inum < 2 ^ 16) :
    (target (entriesOf (A i).data) name ≠ none →
      ∃ s', (linkIn devsw i (nameBuf name) inum).run s = .ok (-1, s') ∧ Holds Z s' A fs ∧
        s'.vol = s.vol) ∧
    (target (entriesOf (A i).data) name = none →
      if Sys.Kernel.writable (entriesOf (A i).data) (freeSlot (entriesOf (A i).data)) then
        if usedBlocks Z.sb.ninodes (linked i name inum A) ≤ room Z then
          (∃ s' fs', (linkIn devsw i (nameBuf name) inum).run s = .ok (0, s') ∧
            Holds Z s' (linked i name inum A) fs') ∧
          IsDir Z (linked i name inum A) i ∧
          target (entriesOf (linked i name inum A i).data) =
            Function.update (target (entriesOf (A i).data)) name (some inum)
        else Z.lim = Z.sb.size →
          (linkIn devsw i (nameBuf name) inum).run s = .error "balloc: out of blocks"
      else (linkIn devsw i (nameBuf name) inum).run s = .error "dirlink") := by
  have hle := freeSlot_le (entriesOf (A i).data)
  have hshort : (A i).data.length ≤ 140 * 512 := (h.lies i hd.lt).short
  rw [length_entriesOf] at hle
  have hmeets : Meets Z devsw (.write i (List.ofFn (newEntry inum (nameBuf name)))
      (16 * freeSlot (entriesOf (A i).data))) s A :=
    h.write hd.lt hd.type_ne_zero hd.type_ne_dev (by omega) (by rw [length_newEntry]; decide)
  have hspec := h.spec_write_slot hd name inum
  refine ⟨fun hsome => ?_, fun hnone => ?_⟩
  · have hrun := h.dirlink_run devsw hd hname inum
    rw [if_pos (Option.isSome_iff_ne_none.mpr hsome)] at hrun
    exact ⟨s.copy i (some ((A i).inode i (fs i))), h.locked_run hd hrun,
      h.copy_inode hd.lt hd.type_ne_zero, rfl⟩
  · rw [h.linkIn_run devsw hd hname inum hnone]
    split
    · next hw =>
      rw [if_pos hw] at hspec
      split
      · next hroom =>
        rw [if_pos hroom] at hspec
        obtain ⟨s', fs', l, hrun, hholds, -⟩ := hmeets.ok _ _ hspec
        refine ⟨⟨s', fs', by rw [hrun]; rfl, hholds⟩, hd.linked name inum, ?_⟩
        rw [entriesOf_linked hd hname hinum, target_putEntry hne hnone]
      · next hroom =>
        rw [if_neg hroom] at hspec
        intro hlim
        rw [hmeets.error _ hspec hlim]
        rfl
    · next hw =>
      rw [if_neg hw] at hspec
      obtain ⟨s', fs', l, hrun, -, -⟩ := hmeets.ok _ _ hspec
      rw [hrun]
      rfl

end Xv6Arm.Blocks
