import Xv6Arm.Sys.LinkCounts

/-!
# An open that fails

`sys_open` returns -1 for a path that is not there, for a directory that it cannot
write, and where the file table or the descriptors of the process are used up.  It
drops what it holds on each of these ways out.  But a file that `create` has made is
committed before `filealloc` and `fdalloc` are tried, and nothing takes it back.
-/

namespace Xv6Arm.Sys

open Fs Programs Prog

/-! ## Steps that leave the files alone -/

/-- The step changes neither the file table nor the descriptors. -/
def Op.keepsFiles : Op → Prop
  | .filealloc => False
  | .fdalloc _ => False
  | .fileput _ => False
  | .setFile .. => False
  | _ => True

/-- The file table and the descriptors. -/
def Kernel.tables (k : Kernel) : (Nat → File) × (Pid → Nat → Option Nat) := (k.file, k.ofile)

section Frame

variable {p : Pid} {k k' : Kernel}

theorem handle_tables (o : Op) (k : Kernel) (r : o.Resp) (k' : Kernel) (ho : o.keepsFiles)
    (hk : handle p o k = .ok (r, k')) : k'.tables = k.tables := by
  have hpart : o.part ≠ .files := by
    cases o with
    | filealloc | fdalloc | fileput | setFile => exact ho.elim
    | _ => exact nofun
  obtain ⟨hfile, hofile⟩ := (handle_part hk).files_eq hpart
  unfold Kernel.tables
  rw [hfile, hofile]

theorem iunlockput_only (i : Nat) : (iunlockput i).Only Op.keepsFiles :=
  Only.bind (only_call trivial) fun _ => only_call trivial

theorem assign_only (i : Nat) (n : Inode) : (assign i n).Only Op.keepsFiles :=
  Only.bind (only_call trivial) fun _ => only_call trivial

theorem dirlookup_only (dp : Nat) (name : Name) : (dirlookup dp name).Only Op.keepsFiles := by
  refine Only.bind (only_call trivial) fun d => ?_
  split
  · exact only_panic _
  · refine Only.bind (only_call trivial) fun es => ?_
    split
    · exact only_pure _
    · exact Only.bind (only_call trivial) fun _ => only_pure _

theorem dirlink_only (dp : Nat) (name : Name) (inum : Nat) :
    (dirlink dp name inum).Only Op.keepsFiles := by
  refine Only.bind (dirlookup_only dp name) fun r => ?_
  split
  · exact Only.bind (only_call trivial) fun _ => only_pure _
  · refine Only.bind (only_call trivial) fun es => ?_
    refine Only.bind (only_call trivial) fun written => ?_
    split
    · exact only_pure _
    · exact only_panic _

theorem namexLoop_only (parent : Bool) (names : List Name) : ∀ (name : Name) (ip : Nat),
    (namexLoop parent names name ip).Only Op.keepsFiles := by
  induction names with
  | nil =>
      intro name ip
      unfold namexLoop
      split
      · exact Only.bind (only_call trivial) fun _ => only_pure _
      · exact only_pure _
  | cons x rest ih =>
      intro name ip
      unfold namexLoop
      refine Only.bind (only_call trivial) fun _ => ?_
      refine Only.bind (only_call trivial) fun n => ?_
      split
      · exact Only.bind (iunlockput_only ip) fun _ => only_pure _
      split
      · exact Only.bind (only_call trivial) fun _ => only_pure _
      · refine Only.bind (dirlookup_only ip x) fun r => ?_
        split
        · exact Only.bind (iunlockput_only ip) fun _ => only_pure _
        · exact Only.bind (iunlockput_only ip) fun _ => ih _ _

theorem namex_only (parent : Bool) (path : List UInt8) :
    (namex parent path).Only Op.keepsFiles := by
  unfold namex
  split
  · exact Only.bind (only_call trivial) fun _ => namexLoop_only parent _ _ _
  · refine Only.bind (only_call trivial) fun cwd => ?_
    exact Only.bind (only_call trivial) fun _ => namexLoop_only parent _ _ _

theorem namei_only (path : List UInt8) : (namei path).Only Op.keepsFiles :=
  Only.bind (namex_only false path) fun _ => only_pure _

theorem createDots_only (ip dp type : Nat) : (createDots ip dp type).Only Op.keepsFiles := by
  unfold createDots
  split
  · refine Only.bind (only_call trivial) fun d => ?_
    refine Only.bind (assign_only dp _) fun _ => ?_
    refine Only.bind (dirlink_only ip dot ip) fun dotted => ?_
    split
    · refine Only.bind (dirlink_only ip dotdot dp) fun dotted => ?_
      split
      · exact only_pure _
      · exact only_panic _
    · exact only_panic _
  · exact only_pure _

theorem create_only (path : List UInt8) (type : Nat) (major minor : Int) :
    (create path type major minor).Only Op.keepsFiles := by
  refine Only.bind (namex_only true path) fun r => ?_
  split
  · exact only_pure _
  · refine Only.bind (only_call trivial) fun _ => ?_
    refine Only.bind (dirlookup_only _ _) fun found => ?_
    split
    · refine Only.bind (iunlockput_only _) fun _ => ?_
      refine Only.bind (only_call trivial) fun _ => ?_
      refine Only.bind (only_call trivial) fun n => ?_
      split
      · exact only_pure _
      · exact Only.bind (iunlockput_only _) fun _ => only_pure _
    · refine Only.bind (only_call trivial) fun ip => ?_
      refine Only.bind (only_call trivial) fun _ => ?_
      refine Only.bind (only_call trivial) fun n => ?_
      refine Only.bind (assign_only ip _) fun _ => ?_
      refine Only.bind (createDots_only ip _ type) fun _ => ?_
      refine Only.bind (dirlink_only _ _ ip) fun linked => ?_
      split
      · exact Only.bind (iunlockput_only _) fun _ => only_pure _
      · exact only_panic _

/-- A part of a call that leaves the files alone. -/
theorem keeps_tables {α : Type} {c : Code α} {Q : α → Kernel → Prop}
    (hQ : c.Ensures (handle p) k Q) (h : c.Only Op.keepsFiles) :
    c.Ensures (handle p) k fun a k' => Q a k' ∧ k'.tables = k.tables :=
  hQ.and (h.frame handle_tables k)

end Frame

/-! ## The two tables -/

section Tables

variable {p : Pid} {k₀ k k' : Kernel} {D : Disk} {held : Multiset Nat} {V : List Nat} {f ip : Nat}

/-- A file and a descriptor of the process are free. -/
def Room (p : Pid) (k : Kernel) : Prop :=
  (∃ f, f < NFILE ∧ (k.file f).ref = 0) ∧ ∃ fd, fd < NOFILE ∧ k.ofile p fd = none

/-- The descriptors and the reference counts of the files are the same. -/
def SameFiles (k k' : Kernel) : Prop :=
  (∀ f, (k'.file f).ref = (k.file f).ref) ∧ k'.ofile = k.ofile

theorem sameFiles_of_tables (h : k'.tables = k.tables) : SameFiles k k' := by
  obtain ⟨hfile, hofile⟩ := Prod.mk.inj h
  exact ⟨fun f => by rw [hfile], hofile⟩

theorem filealloc_tables : filealloc.Ensures (handle p) k fun r k' =>
    k'.ofile = k.ofile ∧ match r with
    | none => k'.file = k.file ∧ ∀ f, f < NFILE → (k.file f).ref ≠ 0
    | some f => f < NFILE ∧ (k.file f).ref = 0 ∧
        k'.file = Function.update k.file f { k.file f with ref := 1 } := by
  apply ensures_call
  intro r k' hk
  change k.filealloc = _ at hk
  unfold Kernel.filealloc at hk
  split at hk
  · next hnone =>
    cases hk
    refine ⟨rfl, rfl, fun f hf => ?_⟩
    simpa using List.find?_eq_none.mp hnone f (List.mem_range.mpr hf)
  · next f hf =>
    cases hk
    refine ⟨rfl, List.mem_range.mp (List.mem_of_find?_eq_some hf), ?_, rfl⟩
    simpa using List.find?_some hf

theorem fdalloc_tables : (fdalloc f).Ensures (handle p) k fun r k' =>
    match r with
    | none => k'.tables = k.tables ∧ ∀ fd, fd < NOFILE → k.ofile p fd ≠ none
    | some fd => fd < NOFILE ∧ k.ofile p fd = none := by
  apply ensures_call
  intro r k' hk
  change k.fdalloc p f = _ at hk
  unfold Kernel.fdalloc at hk
  split at hk
  · next hnone =>
    cases hk
    refine ⟨rfl, fun fd hfd => ?_⟩
    simpa using List.find?_eq_none.mp hnone fd (List.mem_range.mpr hfd)
  · next fd hfd =>
    cases hk
    refine ⟨List.mem_range.mp (List.mem_of_find?_eq_some hfd), ?_⟩
    simpa using List.find?_some hfd

/-- `fileclose` of a file that has not been opened yet. -/
theorem fileclose_tables (href : (k.file f).ref = 1) (htype : (k.file f).type = .none) :
    (fileclose f).Ensures (handle p) k fun _ k' => k'.ofile = k.ofile ∧
      k'.file = Function.update k.file f { k.file f with ref := 0, type := .none } := by
  have hput : (fileput f).Ensures (handle p) k fun r k' => r = some (k.file f) ∧
      k'.ofile = k.ofile ∧
      k'.file = Function.update k.file f { k.file f with ref := 0, type := .none } := by
    apply ensures_call
    intro r k' hk
    change k.fileput f = _ at hk
    unfold Kernel.fileput at hk
    rw [if_neg (by omega), if_neg (by omega)] at hk
    cases hk
    exact ⟨rfl, rfl, rfl⟩
  refine hput.bind ?_
  rintro r k₁ ⟨rfl, hsame⟩
  simp only [htype, reduceCtorEq, if_false]
  exact ensures_pure hsame

/-- The end of `sys_open` returns a descriptor exactly if there is one and a file for it.
Otherwise it drops the inode, and the file too if it has one. -/
theorem openInode_result (h : Holding k₀ D {ip} V k) (hpin : Pinned k₀ D)
    (htables : k.tables = k₀.tables) (omode : Nat) :
    (openInode ip omode).Ensures (handle p) k fun r k' =>
      (Room p k₀ ∧ 0 ≤ r) ∨
        (¬ Room p k₀ ∧ r = -1 ∧ Holding k₀ D 0 [] k' ∧ SameFiles k₀ k') := by
  obtain ⟨hfile, hofile⟩ := Prod.mk.inj htables
  refine ((filealloc_spec h).and filealloc_tables).bind ?_
  rintro r k₁ ⟨⟨h, hnew⟩, hofile₁, hfile₁⟩
  cases r with
  | none =>
      obtain ⟨hfile₁, hfull⟩ := hfile₁
      refine (keeps_tables (iunlockput_last h hpin) (iunlockput_only ip)).bind ?_
      rintro - k₂ ⟨h, hsame⟩
      refine ensures_pure (.inr ⟨?_, rfl, h, sameFiles_of_tables ?_⟩)
      · rintro ⟨⟨f, hf, hzero⟩, -⟩
        rw [hfile] at hfull
        exact hfull f hf hzero
      · rw [hsame, ← htables, Kernel.tables, hfile₁, hofile₁, Kernel.tables]
  | some f =>
      obtain ⟨hf, hzero, hfile₁⟩ := hfile₁
      obtain ⟨href, htype⟩ := hnew f rfl
      refine ((fdalloc_spec h).and fdalloc_tables).bind ?_
      rintro r k₂ ⟨⟨h, hsame₂⟩, hfd⟩
      cases r with
      | none =>
          obtain ⟨htables₂, hfull⟩ := hfd
          rw [← hsame₂] at href htype
          refine ((fileclose_spec h href htype).and (fileclose_tables href htype)).bind ?_
          rintro - k₃ ⟨h, hofile₃, hfile₃⟩
          refine (keeps_tables (iunlockput_last h hpin) (iunlockput_only ip)).bind ?_
          rintro - k₄ ⟨h, hsame⟩
          obtain ⟨hfile₄, hofile₄⟩ := Prod.mk.inj hsame
          refine ensures_pure (.inr ⟨?_, rfl, h, ?_, ?_⟩)
          · rintro ⟨-, fd, hfd, hfree⟩
            rw [hofile₁, hofile] at hfull
            exact hfull fd hfd hfree
          · -- the file is free again
            intro g
            rw [hfile₄, hfile₃, hsame₂, hfile₁, hfile]
            rw [hfile] at hzero
            rcases eq_or_ne g f with rfl | hg
            · simp only [Function.update_self, hzero]
            · simp only [Function.update_of_ne hg]
          · rw [hofile₄, hofile₃, ← hofile, ← hofile₁]
            exact (Prod.mk.inj htables₂).2
      | some fd =>
          have hroom : Room p k₀ := by
            rw [hfile] at hzero
            rw [hofile₁, hofile] at hfd
            exact ⟨⟨f, hf, hzero⟩, fd, hfd⟩
          refine (iunlock_spec h).bind fun _ k₃ _ => ?_
          refine Ensures.bind (Q := fun _ _ => True) (fun _ _ _ => trivial) fun _ k₄ _ => ?_
          exact ensures_pure (.inl ⟨hroom, Int.natCast_nonneg fd⟩)

end Tables

/-! ## Failed calls -/

/-- Nothing was created or freed on the disk, and the descriptors, the reference counts of
the files and those of the inodes are as before. -/
structure Unchanged (k k' : Kernel) : Prop where
  disk : k'.disk = k.disk
  files : SameFiles k k'
  ref : ∀ i, k'.ref i = k.ref i

section Open

variable {p : Pid} {k k' : Kernel}

theorem Holding.unchanged {V : List Nat} (h : Holding k k.disk 0 V k') (hfiles : SameFiles k k') :
    Unchanged k k' :=
  ⟨h.disk, hfiles, fun i => by rw [h.ref, Multiset.count_zero, Nat.add_zero]⟩

/-- An open that is not to create the file leaves no trace if it fails. -/
theorem openExisting_result (h₀ : Cached k) (path : List UInt8) (omode : Nat)
    (hcreate : omode &&& O_CREATE = 0) :
    (sysOpen (some path) (some omode)).Ensures (handle p) k fun r k' =>
      r = -1 → Unchanged k k' := by
  have hpin := h₀.pinned_disk
  unfold sysOpen
  simp only [if_neg (not_not.mpr hcreate)]
  refine (keeps_tables (namei_spec h₀.holding hpin path) (namei_only path)).bind ?_
  rintro r k₁ ⟨⟨rfl, h⟩, htables⟩
  cases hpath : k.disk.follow false path (k.cwd p) with
  | none =>
      rw [hpath] at h
      exact ensures_pure fun _ => Holding.unchanged h (sameFiles_of_tables htables)
  | some found =>
      rw [hpath] at h
      have h : Holding k k.disk {found.1} [] k₁ := h
      refine (keeps_tables (ilock_spec h (Multiset.mem_singleton_self found.1))
        (only_call trivial)).bind ?_
      rintro - k₂ ⟨h, htables₂⟩
      refine (keeps_tables (load_spec h List.mem_cons_self) (only_call trivial)).bind ?_
      rintro n k₃ ⟨⟨rfl, h⟩, htables₃⟩
      have hsame := htables₃.trans (htables₂.trans htables)
      split
      · refine (keeps_tables (iunlockput_last h hpin) (iunlockput_only _)).bind ?_
        rintro - k₄ ⟨h, htables₄⟩
        exact ensures_pure fun _ => h.unchanged (sameFiles_of_tables (htables₄.trans hsame))
      · refine (openInode_result h hpin hsame omode).mono ?_
        rintro r k₄ (⟨-, hr⟩ | ⟨-, -, h, hfiles⟩) hfail
        · omega
        · exact h.unchanged hfiles

/-- An open that is to create the file. -/
theorem openCreate_result (h₀ : Cached k) (path : List UInt8) (omode : Nat)
    (hcreate : omode &&& O_CREATE ≠ 0) :
    (sysOpen (some path) (some omode)).Ensures (handle p) k fun r k' =>
      (k.disk.creates path (k.cwd p) = none ∧ (r = -1 → Unchanged k k')) ∨
      (k.disk.creates path (k.cwd p) ≠ none ∧ Room p k ∧ r ≠ -1) ∨
      (k.disk.creates path (k.cwd p) ≠ none ∧ ¬ Room p k ∧ r = -1 ∧ k'.disk ≠ k.disk) := by
  have hpin := h₀.pinned_disk
  unfold sysOpen
  simp only [if_pos hcreate]
  refine (keeps_tables (beginTrans_spec h₀.holding) (only_call trivial)).bind ?_
  rintro - k₁ ⟨h, htables₁⟩
  refine (keeps_tables (create_spec (by decide) hpin h) (create_only path T_FILE 0 0)).bind ?_
  rintro r k₂ ⟨hcases, htables₂⟩
  have hsame₂ := htables₂.trans htables₁
  rcases hcases with ⟨hnone, V, -, h⟩ | ⟨x, d, name, rfl, hpath, hlookup, hfree, -, -, h⟩
  · -- the file is there, or its directory is not
    refine (keeps_tables (commitTrans_spec h) (only_call trivial)).bind ?_
    rintro - k₃ ⟨h, htables₃⟩
    cases r with
    | none =>
        exact ensures_pure (.inl ⟨hnone, fun _ =>
          Holding.unchanged h (sameFiles_of_tables (htables₃.trans hsame₂))⟩)
    | some ip =>
        refine (openInode_result h hpin (htables₃.trans hsame₂) omode).mono ?_
        rintro r k₄ (⟨-, hr⟩ | ⟨-, -, h, hfiles⟩)
        · exact .inl ⟨hnone, fun hfail => by omega⟩
        · exact .inl ⟨hnone, fun _ => h.unchanged hfiles⟩
  · -- the new file is committed
    have hsome : k.disk.creates path (k.cwd p) ≠ none := by
      rw [creates_eq hpath hlookup]
      exact Option.some_ne_none d
    have hpin' : Pinned k (k.disk.created d name x ⟨T_FILE, 0, 0, 1⟩) :=
      hpin.mono fun j (hj : (k.disk.allocated d x ⟨T_FILE, 0, 0, 1⟩).Dead j) =>
        hj.of_allocated Int.one_pos
    refine (keeps_tables (commitTrans_spec h) (only_call trivial)).bind ?_
    rintro - k₃ ⟨h, htables₃⟩
    refine (openInode_result h hpin' (htables₃.trans hsame₂) omode).mono ?_
    rintro r k₄ (⟨hroom, hr⟩ | ⟨hroom, rfl, h, -⟩)
    · exact .inr (.inl ⟨hsome, hroom, by omega⟩)
    · refine .inr (.inr ⟨hsome, hroom, rfl, fun heq => ?_⟩)
      have htype : ((k.disk.created d name x ⟨T_FILE, 0, 0, 1⟩).inode x).type = T_FILE := by
        have hne : x ≠ d := by
          rintro rfl
          rw [Disk.type_of_resolve hpath] at hfree
          cases hfree
        rw [Disk.created_self _ _ _ hne]
      rw [← h.disk, heq, hfree] at htype
      cases htype

/-- `sys_open` that fails leaves everything as it was exactly if it creates no file, or finds
room in both tables (and then does not fail). -/
theorem sysOpen_unchanged_iff (h₀ : Cached k) (path : Option (List UInt8)) (omode : Option Nat)
    {r : Int} (hrun : (sysOpen path omode).exec (handle p) k = .ok (r, k')) :
    (r = -1 → Unchanged k k') ↔
      (Call.openFile path omode).adds k.disk (k.cwd p) = none ∨ Room p k := by
  have hnoarg : sysOpen path omode = pure (-1) → (r = -1 → Unchanged k k') := by
    intro heq _
    rw [heq] at hrun
    cases hrun
    exact h₀.holding.unchanged ⟨fun _ => rfl, rfl⟩
  rcases path with _ | path
  · exact iff_of_true (hnoarg rfl) (.inl rfl)
  rcases omode with _ | omode
  · exact iff_of_true (hnoarg rfl) (.inl rfl)
  by_cases hcreate : omode &&& O_CREATE = 0
  · refine iff_of_true (openExisting_result h₀ path omode hcreate r k' hrun) (.inl ?_)
    exact if_neg (not_not.mpr hcreate)
  · have hadds : (Call.openFile (some path) (some omode)).adds k.disk (k.cwd p) =
        k.disk.creates path (k.cwd p) := if_pos hcreate
    rw [hadds]
    rcases openCreate_result h₀ path omode hcreate r k' hrun with
      ⟨hnone, hsame⟩ | ⟨-, hroom, hr⟩ | ⟨hsome, hroom, hr, hdisk⟩
    · exact iff_of_true hsame (.inl hnone)
    · exact iff_of_true (fun hfail => absurd hfail hr) (.inr hroom)
    · refine iff_of_false (fun h => hdisk (h hr).disk) ?_
      rintro (hnone | hroom')
      · exact hsome hnone
      · exact hroom hroom'

end Open

/-- A file that is not there. -/
theorem sysOpen_unchanged_iff_missing : ∃ k', (sysOpen (some pathA) (some O_RDONLY)).exec
    (handle procA) (boot (imageDisk [])) = .ok (-1, k') ∧ Unchanged (boot (imageDisk [])) k' := by
  have htest : ((sysOpen (some pathA) (some O_RDONLY)).exec (handle procA)
      (boot (imageDisk []))).test (fun x => x.1 == -1) = true := by
    decide +kernel
  obtain ⟨⟨r, k'⟩, hrun, hr⟩ := Outcome.test_eq_true.mp htest
  obtain rfl := eq_of_beq hr
  have hinv : Inv (boot (imageDisk [])) :=
    boot_inv (by decide) fun f hf => absurd hf List.not_mem_nil
  exact ⟨k', hrun, (sysOpen_unchanged_iff hinv.1 (some pathA) (some O_RDONLY) hrun).mpr (.inl rfl)
    rfl⟩

/-- The path `/b`. -/
def pathB : List UInt8 := [47, 98]

/-- A process opens `/a` until its descriptors are used up. -/
def openAll : List (Pid × Call) :=
  List.replicate NOFILE (procA, .openFile (some pathA) (some O_CREATE))

/-- It cannot open `/b`, but the file is there then. -/
theorem openAll_creates : ∃ k k', Runs.exec step openAll (boot (imageDisk [])) = some k ∧
    (sysOpen (some pathB) (some O_CREATE)).exec (handle procA) k = .ok (-1, k') ∧
    k.disk.follow false pathB ROOTINO = none ∧
    k'.disk.follow false pathB ROOTINO = some (3, [98]) ∧ ¬ Unchanged k k' := by
  have htest : ((Runs.exec step openAll (boot (imageDisk []))).any fun k =>
      ((sysOpen (some pathB) (some O_CREATE)).exec (handle procA) k).test fun x =>
        x.1 == -1 && k.disk.follow false pathB ROOTINO == none &&
          x.2.disk.follow false pathB ROOTINO == some (3, [98])) = true := by
    decide +kernel
  rw [Option.any_eq_true] at htest
  obtain ⟨k, hk, htest⟩ := htest
  obtain ⟨⟨r, k'⟩, hrun, hr⟩ := Outcome.test_eq_true.mp htest
  simp only [Bool.and_eq_true, beq_iff_eq] at hr
  obtain ⟨⟨rfl, hbefore⟩, hafter⟩ := hr
  refine ⟨k, k', hk, hrun, hbefore, hafter, fun h => ?_⟩
  rw [h.disk, hbefore] at hafter
  cases hafter

end Xv6Arm.Sys
