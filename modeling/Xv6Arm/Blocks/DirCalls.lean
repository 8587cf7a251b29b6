import Xv6Arm.Blocks.Directories

/-!
# Runs on a directory

A directory is a map from names to inodes.  After any run of the kernel on an image of
`mkfs`, any run of `dirlookup` and `dirlink` on the bytes of a directory is a run on such
a map (`directory_refines_names`).
-/

namespace Xv6Arm.Blocks

open Bytes Fs Mkfs Fallible Splice

variable {Z : Zone} {s : Core} {A : Files} {fs : Nat → File} {i : Nat}

/-! ## Calls -/

/-- The calls on a directory. -/
inductive DirCall
  | lookup (name : List UInt8)
  | link (name : List UInt8) (inum : Nat)

/-- What a call on a directory returns. -/
inductive DirResult
  | found (inum : Option Nat)
  | linked (r : Int)
  deriving DecidableEq, Repr

def DirCall.run (devsw : Devsw) (i : Nat) : DirCall → CoreM DirResult
  | .lookup name => do
    let found ← lookupIn devsw i (nameBuf name)
    return .found (found.map Prod.fst)
  | .link name inum => do
    let r ← linkIn devsw i (nameBuf name) inum
    return .linked r

def runDir (devsw : Devsw) (i : Nat) : List DirCall → CoreM (List DirResult)
  | [] => return []
  | c :: cs => do
    let r ← c.run devsw i
    let rs ← runDir devsw i cs
    return r :: rs

/-- Names and inode numbers that entries can hold. -/
def DirCall.Allowed : DirCall → Prop
  | .lookup name => ValidName name
  | .link name inum => ValidName name ∧ inum ≠ 0 ∧ inum < 2 ^ 16

/-- The calls on the bytes of a directory, with room for `cap` blocks. -/
def DirCall.spec (ninodes cap i : Nat) : DirCall → Files → Except String (DirResult × Files)
  | .lookup name, A => .ok (.found (target (entriesOf (A i).data) name), A)
  | .link name inum, A =>
    if target (entriesOf (A i).data) name ≠ none then .ok (.linked (-1), A)
    else if Sys.Kernel.writable (entriesOf (A i).data) (freeSlot (entriesOf (A i).data)) then
      if usedBlocks ninodes (linked i name inum A) ≤ cap then
        .ok (.linked 0, Blocks.linked i name inum A)
      else .error "balloc: out of blocks"
    else .error "dirlink"

def specDir (ninodes cap i : Nat) : List DirCall → Files → Except String (List DirResult × Files)
  | [], A => .ok ([], A)
  | c :: cs, A => do
    let (r, A) ← c.spec ninodes cap i A
    let (rs, A) ← specDir ninodes cap i cs A
    return (r :: rs, A)

/-- What a directory is for: a map from names to inodes. -/
abbrev Names := List UInt8 → Option Nat

/-- The calls on that map. -/
def DirCall.onNames : DirCall → Names → DirResult × Names
  | .lookup name, N => (.found (N name), N)
  | .link name inum, N =>
    if N name ≠ none then (.linked (-1), N)
    else (.linked 0, Function.update N name (some inum))

def runNames : List DirCall → Names → List DirResult × Names
  | [], N => ([], N)
  | c :: cs, N =>
    ((c.onNames N).1 :: (runNames cs (c.onNames N).2).1, (runNames cs (c.onNames N).2).2)

/-- The names in a directory. -/
def namesOf (A : Files) (i : Nat) : Names := target (entriesOf (A i).data)

/-- The call on the bytes is the call on the map. -/
theorem DirCall.spec_onNames {n cap : Nat} {c : DirCall} {r : DirResult} {A' : Files}
    (hd : IsDir Z A i) (hc : c.Allowed) (h : c.spec n cap i A = .ok (r, A')) :
    IsDir Z A' i ∧ (∀ j, j ≠ i → A' j = A j) ∧ c.onNames (namesOf A i) = (r, namesOf A' i) := by
  cases c with
  | lookup name =>
    cases h
    exact ⟨hd, fun _ _ => rfl, rfl⟩
  | link name inum =>
    obtain ⟨hname, hne, hinum⟩ := hc
    rw [DirCall.spec] at h
    rw [DirCall.onNames, namesOf]
    split at h
    · next hsome =>
      cases h
      exact ⟨hd, fun _ _ => rfl, if_pos hsome⟩
    · next hnone =>
      split at h
      · split at h
        · cases h
          refine ⟨hd.linked name inum, fun j hj => Function.update_of_ne hj _ _, ?_⟩
          rw [if_neg hnone, namesOf, entriesOf_linked hd hname hinum,
            target_putEntry hne (not_not.mp hnone)]
        · cases h
      · cases h

/-- What a call does. -/
theorem Holds.dirCall (devsw : Devsw) (h : Holds Z s A fs) (hd : IsDir Z A i) {c : DirCall}
    (hc : c.Allowed) :
    (∀ r A', c.spec Z.sb.ninodes (room Z) i A = .ok (r, A') →
      ∃ s' fs', (c.run devsw i).run s = .ok (r, s') ∧ Holds Z s' A' fs') ∧
    (∀ msg, c.spec Z.sb.ninodes (room Z) i A = .error msg → Z.lim = Z.sb.size →
      (c.run devsw i).run s = .error msg) := by
  cases c with
  | lookup name =>
    obtain ⟨s', hrun, hs', -⟩ := h.lookupIn_run devsw hd hc
    refine ⟨fun r A' hspec => ?_, fun msg hspec => by cases hspec⟩
    cases hspec
    refine ⟨s', fs, ?_, hs'⟩
    rw [DirCall.run]
    simp only [StateT.run_bind, hrun, ok_bind, map_lookupSpec]
    rfl
  | link name inum =>
    obtain ⟨hname, hne, hinum⟩ := hc
    obtain ⟨hsome, hnone⟩ := h.linkIn_adds devsw hd hname hne hinum
    rw [DirCall.spec, DirCall.run]
    simp only [StateT.run_bind]
    by_cases hfound : target (entriesOf (A i).data) name ≠ none
    · obtain ⟨s', hrun, hs', -⟩ := hsome hfound
      rw [if_pos hfound, hrun]
      refine ⟨fun r A' hspec => ?_, fun msg hspec => by cases hspec⟩
      cases hspec
      exact ⟨s', fs, rfl, hs'⟩
    · specialize hnone (not_not.mp hfound)
      rw [if_neg hfound]
      split
      · next hw =>
        rw [if_pos hw] at hnone
        split
        · next hroom =>
          rw [if_pos hroom] at hnone
          obtain ⟨⟨s', fs', hrun, hs'⟩, -⟩ := hnone
          rw [hrun]
          refine ⟨fun r A' hspec => ?_, fun msg hspec => by cases hspec⟩
          cases hspec
          exact ⟨s', fs', rfl, hs'⟩
        · next hroom =>
          rw [if_neg hroom] at hnone
          refine ⟨fun r A' hspec => (by cases hspec), fun msg hspec hlim => ?_⟩
          cases hspec
          rw [hnone hlim]
          rfl
      · next hw =>
        rw [if_neg hw] at hnone
        refine ⟨fun r A' hspec => (by cases hspec), fun msg hspec _ => ?_⟩
        cases hspec
        rw [hnone]
        rfl

theorem specDir_onNames {n cap : Nat} (cs : List DirCall) : ∀ {A A' : Files} {rs : List DirResult},
    IsDir Z A i → (∀ c ∈ cs, c.Allowed) → specDir n cap i cs A = .ok (rs, A') →
      (∀ j, j ≠ i → A' j = A j) ∧ runNames cs (namesOf A i) = (rs, namesOf A' i) := by
  induction cs with
  | nil =>
    intro A A' rs hd _ h
    cases h
    exact ⟨fun _ _ => rfl, rfl⟩
  | cons c cs ih =>
    intro A A' rs hd hcs h
    obtain ⟨hc, hcs⟩ := List.forall_mem_cons.mp hcs
    rw [specDir] at h
    obtain ⟨⟨r, A₁⟩, hspec, h⟩ := bind_eq_ok.mp h
    obtain ⟨⟨rs', A₂⟩, hspecs, h⟩ := bind_eq_ok.mp h
    cases h
    obtain ⟨hd₁, hsame, hnames⟩ := c.spec_onNames hd hc hspec
    obtain ⟨hsame', hrest⟩ := ih hd₁ hcs hspecs
    refine ⟨fun j hj => (hsame' j hj).trans (hsame j hj), ?_⟩
    rw [runNames, hnames, hrest]

/-- What a run of calls does. -/
theorem Holds.runDir (devsw : Devsw) (cs : List DirCall) : ∀ {s : Core} {A : Files}
    {fs : Nat → File}, Holds Z s A fs → IsDir Z A i → (∀ c ∈ cs, c.Allowed) →
    (∀ rs A', specDir Z.sb.ninodes (room Z) i cs A = .ok (rs, A') →
      ∃ s' fs', (runDir devsw i cs).run s = .ok (rs, s') ∧ Holds Z s' A' fs') ∧
    (∀ msg, specDir Z.sb.ninodes (room Z) i cs A = .error msg → Z.lim = Z.sb.size →
      (runDir devsw i cs).run s = .error msg) := by
  induction cs with
  | nil =>
    intro s A fs h hd _
    refine ⟨fun rs A' hspec => ?_, fun msg hspec => by cases hspec⟩
    cases hspec
    exact ⟨s, fs, rfl, h⟩
  | cons c cs ih =>
    intro s A fs h hd hcs
    obtain ⟨hc, hcs⟩ := List.forall_mem_cons.mp hcs
    obtain ⟨hok, herror⟩ := h.dirCall devsw hd hc
    rw [specDir, Blocks.runDir]
    simp only [StateT.run_bind]
    cases hspec : c.spec Z.sb.ninodes (room Z) i A with
    | error msg =>
      refine ⟨fun rs A' h => (by cases h), fun msg' h hlim => ?_⟩
      cases h
      rw [herror msg hspec hlim]
      rfl
    | ok x =>
      obtain ⟨s₁, fs₁, hrun, h₁⟩ := hok x.1 x.2 hspec
      obtain ⟨hok', herror'⟩ := ih h₁ (c.spec_onNames hd hc hspec).1 hcs
      simp only [ok_bind, hrun]
      cases hspecs : specDir Z.sb.ninodes (room Z) i cs x.2 with
      | error msg =>
        refine ⟨fun rs A' h => (by cases h), fun msg' h hlim => ?_⟩
        cases h
        rw [herror' msg hspecs hlim]
        rfl
      | ok y =>
        obtain ⟨s₂, fs₂, hrun', h₂⟩ := hok' y.1 y.2 hspecs
        refine ⟨fun rs A' h => ?_, fun msg h => by cases h⟩
        cases h
        exact ⟨s₂, fs₂, by rw [hrun']; rfl, h₂⟩

/-- After any run of the kernel on an image of `mkfs`, the calls on the bytes of a directory are
those on a map from names to inodes, and change no other inode.  They end so unless there is no
room for an entry, and then they panic. -/
theorem directory_refines_names {files : List Input} {m : Mkfs.State} (h : mkfs files = .ok m)
    (hfew : files.length + 2 ≤ ninodes) (hholes : (files.length + 2) % 32 ≠ 0)
    (devsw : Devsw) (ops : List Op)
    (hops : AllowedOps ninodes (size - usedBefore) ops (nodesOf m.img)) {rs : List Result}
    {A : Files} (hspec : specOps ninodes (size - usedBefore) ops (nodesOf m.img) = .ok (rs, A))
    (hd : IsDir (mkfsZone size) A i) (cs : List DirCall) (hcs : ∀ c ∈ cs, c.Allowed) :
    (∀ rs' A', specDir ninodes (size - usedBefore) i cs A = .ok (rs', A') →
      (∃ s, (runOps devsw ops >>= fun _ => runDir devsw i cs).run (Core.boot m.img) =
        .ok (rs', s) ∧ Consistent size s.vol.disk A') ∧
      (∀ j, j ≠ i → A' j = A j) ∧ runNames cs (namesOf A i) = (rs', namesOf A' i)) ∧
    (∀ msg, specDir ninodes (size - usedBefore) i cs A = .error msg →
      (runOps devsw ops >>= fun _ => runDir devsw i cs).run (Core.boot m.img) = .error msg) := by
  have hholds := mkfs_holds h hfew hholes (Nat.le_refl size) (mkfs_room h hfew)
  rw [← room_mkfsZone size] at hops hspec ⊢
  obtain ⟨s, fs, -, hrun, hs, -⟩ := (hholds.run devsw ops hops).1 rs A hspec
  obtain ⟨hok, herror⟩ := hs.runDir devsw cs hd hcs
  simp only [StateT.run_bind, hrun, ok_bind]
  refine ⟨fun rs' A' hdir => ?_, fun msg hdir => herror msg hdir rfl⟩
  obtain ⟨s', fs', hrun', hs'⟩ := hok rs' A' hdir
  exact ⟨⟨s', hrun', hs'.consistent⟩, specDir_onNames cs hd hcs hdir⟩

/-- The entries of the root directory of an empty image. -/
theorem entriesOf_empty {m : Mkfs.State} (h : mkfs [] = .ok m) :
    entriesOf (nodesOf m.img ROOTINO).data =
      ⟨ROOTINO, [46]⟩ :: ⟨ROOTINO, [46, 46]⟩ :: List.replicate 30 ⟨0, []⟩ := by
  obtain ⟨-, hdata, -⟩ := nodesOf_empty h
  have hroot : entriesOf (rootBytes []) = [⟨ROOTINO, [46]⟩, ⟨ROOTINO, [46, 46]⟩] :=
    Sys.ofDirent_root (by decide)
  have hzeros : entriesOf (List.replicate 480 0) = List.replicate 30 ⟨0, []⟩ :=
    Sys.ofDirent_zeros 480
  rw [hdata, entriesOf_append (length_rootBytes []), hroot, hzeros]
  rfl

/-- Links a name in the root directory and looks it up. -/
def linkName : List DirCall := [.link [97] 2, .lookup [97]]

theorem validName_a : ValidName [97] where
  short := by decide
  ne_zero c hc := by
    rw [List.mem_singleton.mp hc]
    decide

theorem linkName_allowed : ∀ c ∈ linkName, c.Allowed := by
  simp [linkName, DirCall.Allowed, validName_a]

theorem linkName_spec {m : Mkfs.State} (h : mkfs [] = .ok m) {A : Files}
    (hroot : A ROOTINO = nodesOf m.img ROOTINO)
    (hother : ∀ i, i < ninodes → i ≠ ROOTINO → (A i).data = []) :
    IsDir (mkfsZone size) A ROOTINO ∧
    specDir ninodes (size - usedBefore) ROOTINO linkName A =
      .ok ([.linked 0, .found (some 2)], linked ROOTINO [97] 2 A) := by
  obtain ⟨htype, -, -⟩ := nodesOf_empty h
  have hentries := entriesOf_empty h
  have hlen := length_root h
  rw [← hroot] at htype hentries hlen
  have hd : IsDir (mkfsZone size) A ROOTINO := ⟨by decide, htype, by rw [hlen]; decide⟩
  have hnone : target (entriesOf (A ROOTINO).data) [97] = none := by
    rw [hentries]
    decide
  have hfree : freeSlot (entriesOf (A ROOTINO).data) = 2 := by
    rw [hentries]
    decide
  have hused : usedBlocks ninodes (linked ROOTINO [97] 2 A) = 1 := by
    rw [linked, hfree]
    refine usedBlocks_root hother ?_
    show (splice _ _ _).length = _
    rw [length_splice (by omega), hlen, length_newEntry]
    rfl
  have htarget : target (entriesOf (linked ROOTINO [97] 2 A ROOTINO).data) [97] = some 2 := by
    rw [entriesOf_linked hd validName_a (by decide), target_putEntry (by decide) hnone,
      Function.update_self]
  have hlink : (DirCall.link [97] 2).spec ninodes (size - usedBefore) ROOTINO A =
      .ok (.linked 0, linked ROOTINO [97] 2 A) := by
    rw [DirCall.spec, if_neg (not_not.mpr hnone), hfree, if_pos (by rw [hentries]; decide),
      if_pos (by rw [hused]; decide)]
  refine ⟨hd, ?_⟩
  rw [linkName, specDir, hlink, ok_bind]
  simp only [specDir, DirCall.spec, htarget, ok_bind]
  rfl

/-- `ialloc` on an empty image takes the inode behind the root directory. -/
theorem alloc_spec {m : Mkfs.State} (h : mkfs [] = .ok m) (cap : Nat) :
    specOps ninodes cap [.alloc T_FILE] (nodesOf m.img) = .ok ([(2, [])],
      Function.update (nodesOf m.img) 2
        { type := T_FILE, major := 0, minor := 0, nlink := 0, data := [] }) := by
  obtain ⟨htype, -, -⟩ := nodesOf_empty h
  have hunused : (nodesOf m.img 2).type = 0 := nodesOf_unused h (by decide) (by decide)
  have hfree : freeInode ninodes (nodesOf m.img) = some 2 := by
    show (1 :: 2 :: List.range' 3 197).find? _ = _
    rw [List.find?_cons_of_neg, List.find?_cons_of_pos]
    · simpa using hunused
    · rw [show nodesOf m.img 1 = nodesOf m.img ROOTINO from rfl, htype]
      decide
  rw [specOps, Op.spec, hfree, ok_bind]
  rfl

/-- `create` of a file: a new inode and its name. -/
theorem directory_refines_names_linkName : ∃ m A s A', mkfs [] = .ok m ∧
    (runOps ⟨fun _ => none, fun _ => none⟩ [.alloc T_FILE] >>= fun _ =>
      runDir ⟨fun _ => none, fun _ => none⟩ ROOTINO linkName).run (Core.boot m.img) =
      .ok ([.linked 0, .found (some 2)], s) ∧
    Consistent size s.vol.disk A' ∧ (A' 2).type = T_FILE ∧
    runNames linkName (namesOf A ROOTINO) =
      ([.linked 0, .found (some 2)], namesOf A' ROOTINO) := by
  obtain ⟨m, hm⟩ := mkfs_empty
  have hops := alloc_spec hm (size - usedBefore)
  have hother : ∀ i, i < ninodes → i ≠ ROOTINO → (Function.update (nodesOf m.img) 2
      { type := T_FILE, major := 0, minor := 0, nlink := 0, data := [] } i).data = [] := by
    intro i hi hne
    rcases eq_or_ne i 2 with rfl | htwo
    · rw [Function.update_self]
    · rw [Function.update_of_ne htwo]
      exact (nodesOf_empty hm).2.2 i hi hne
  obtain ⟨hd, hspec⟩ := linkName_spec hm (Function.update_of_ne (by decide) ..) hother
  obtain ⟨⟨s, hrun, hs⟩, hkept, hnames⟩ := (directory_refines_names hm (by decide) (by decide)
    ⟨fun _ => none, fun _ => none⟩ [.alloc T_FILE]
    ⟨show T_FILE < 2 ^ 16 by decide, fun _ _ _ => trivial⟩ hops hd
    linkName linkName_allowed).1 _ _ hspec
  refine ⟨m, _, s, _, hm, hrun, hs, ?_, hnames⟩
  rw [hkept 2 (by decide), Function.update_self]

end Xv6Arm.Blocks
