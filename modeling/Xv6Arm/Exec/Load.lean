import Xv6Arm.Lib.Runs
import Xv6Arm.Sys.Args

/-!
# Loading a program

The loop of `exec` over the program headers of a file.  Each round reads one header,
grows the process with `allocuvm` and loads the segment with `loaduvm`.  `exec` tests
the sum of `vaddr` and `memsz` only, which may wrap around, and does not test whether
`vaddr` is aligned.

The bodies of `allocuvm` and `loaduvm` are not part of the kernel as it is built.
`allocuvm` is modelled by what it returns; whether it runs out of memory, and whether
`loaduvm` succeeds, is the `Outcome` of a round.
-/

namespace Xv6Arm.Exec

open Runs Bytes

/-! ## The file -/

/-- `ELF_MAGIC`. -/
def ELF_MAGIC : Nat := 0x464C457F

/-- `ELF_PROG_LOAD`. -/
def ELF_PROG_LOAD : Word := 1

/-- `readi` of a file of `size` bytes: the number of bytes read, or -1. -/
def readi (size : Nat) (off n : Word) : Word :=
  if size < off.toNat ∨ off + n < off then -1
  else if size < (off + n).toNat then BitVec.ofNat 32 (size - off.toNat)
  else n

/-- The fields of `struct proghdr` that `exec` uses. -/
structure Proghdr where
  type : Word
  off : Word
  vaddr : Word
  filesz : Word
  memsz : Word

variable {N : Nat}

/-- A field of 4 bytes. -/
def field (file : Buf N) (off : Nat) : Word := BitVec.ofNat 32 (getLe file off 4)

/-- The program header at an offset. -/
def proghdr (file : Buf N) (off : Nat) : Proghdr :=
  { type := field file off
    off := field file (off + 4)
    vaddr := field file (off + 8)
    filesz := field file (off + 16)
    memsz := field file (off + 20) }

/-- `elf.entry`. -/
def elfEntry (file : Buf N) : Word := field file 24

/-- `elf.phoff`. -/
def phoff (file : Buf N) : Word := field file 28

/-- `elf.phnum`. -/
def phnum (file : Buf N) : Nat := getLe file 44 2

/-! ## The loop -/

/-- A call of `loaduvm(pgdir, addr, ip, off, size)`, and the size of the process then. -/
structure Call where
  addr : Word
  off : Word
  size : Word
  sz : Word
deriving DecidableEq

/-- The variables of the loop, and the calls of `loaduvm` so far, last first.  `bad` is set when
`exec` goes to `bad`. -/
structure Load where
  i : Nat
  off : Word
  sz : Word
  calls : List Call
  bad : Bool
deriving DecidableEq

/-- What `exec` cannot know: whether memory runs out, and whether `loaduvm` returns 0. -/
structure Outcome where
  oom : Bool
  loaded : Bool

/-- `allocuvm(pgdir, oldsz, newsz)`: the new size, or 0. -/
def allocuvm (oom : Bool) (oldsz newsz : Word) : Word :=
  if KERNBASE ≤ newsz then 0
  else if newsz < oldsz then oldsz
  else if oom then 0
  else newsz

/-- `exec` up to the loop.  `readi` returns an int, which is compared with `sizeof(elf)` as an
unsigned number. -/
def start (file : Buf N) : Option Load :=
  if readi N 0 52 < 52 then none
  else if getLe file 0 4 ≠ ELF_MAGIC then none
  else some { i := 0, off := phoff file, sz := 0, calls := [], bad := false }

/-- The next round. -/
def Load.next (s : Load) : Load := { s with i := s.i + 1, off := s.off + 32 }

/-- The call of `loaduvm` for a segment, when the process has grown to `sz`. -/
def loadSegment (o : Outcome) (s : Load) (ph : Proghdr) (sz : Word) : Load :=
  let s := { s with sz := sz, calls := ⟨ph.vaddr, ph.off, ph.filesz, sz⟩ :: s.calls }
  if o.loaded then s.next else { s with bad := true }

/-- What a round does with a header. -/
def segment (o : Outcome) (s : Load) (ph : Proghdr) : Load :=
  if ph.type ≠ ELF_PROG_LOAD then s.next
  else if ph.memsz < ph.filesz then { s with bad := true }
  else if allocuvm o.oom s.sz (ph.vaddr + ph.memsz) = 0 then { s with sz := 0, bad := true }
  else loadSegment o s ph (allocuvm o.oom s.sz (ph.vaddr + ph.memsz))

/-- A round of the loop. -/
def step (file : Buf N) (o : Outcome) (s : Load) : Option Load :=
  if s.bad = true ∨ phnum file ≤ s.i then none
  else if readi N s.off 32 ≠ 32 then some { s with bad := true }
  else some (segment o s (proghdr file s.off.toNat))

/-! ## The contract of loaduvm -/

/-- The address is aligned, and the bytes to be loaded lie in the memory of the process. -/
structure Call.Meets (c : Call) : Prop where
  aligned : Aligned c.addr
  no_wrap : c.addr.toNat + c.size.toNat ≤ 2 ^ 32
  inside : ∀ b, c.addr.toNat ≤ b → b < c.addr.toNat + c.size.toNat → b < c.sz.toNat
  below : c.sz < KERNBASE

/-- The calls so far meet the contract. -/
def Met (s : Load) : Prop := ∀ c ∈ s.calls, c.Meets

/-- A round loads the segment of its header. -/
structure Loads (o : Outcome) (s : Load) (ph : Proghdr) : Prop where
  type : ph.type = ELF_PROG_LOAD
  size : ph.filesz ≤ ph.memsz
  grown : allocuvm o.oom s.sz (ph.vaddr + ph.memsz) ≠ 0

/-- A segment starts at a page.  Its end does not wrap around, or what is loaded of it lies in the
memory that the process had before. -/
def Proghdr.Placed (ph : Proghdr) (sz : Word) : Prop :=
  Aligned ph.vaddr ∧ (ph.filesz = 0 ∨ ph.vaddr.toNat + ph.memsz.toNat < 2 ^ 32 ∨
    ph.vaddr.toNat + ph.filesz.toNat ≤ sz.toNat)

variable {file : Buf N} {s t : Load} {o : Outcome}

/-- The process grows to the new size, or stays as it is. -/
theorem allocuvm_run {oom : Bool} {oldsz newsz : Word} (hold : oldsz < KERNBASE)
    (h : allocuvm oom oldsz newsz ≠ 0) :
    allocuvm oom oldsz newsz < KERNBASE ∧
      (allocuvm oom oldsz newsz).toNat = max oldsz.toNat newsz.toNat := by
  unfold allocuvm at *
  split at h
  · exact absurd rfl h
  next hnew =>
  rw [if_neg hnew]
  split at h
  next hlt =>
    rw [if_pos hlt]
    exact ⟨hold, by bv_omega⟩
  next hge =>
    rw [if_neg hge]
    split at h
    · exact absurd rfl h
    next hoom =>
      rw [if_neg hoom]
      exact ⟨by bv_omega, by bv_omega⟩

/-- A segment that is placed is what makes the call meet the contract. -/
theorem meets_iff {ph : Proghdr} (hold : s.sz < KERNBASE) (h : Loads o s ph) :
    (Call.mk ph.vaddr ph.off ph.filesz (allocuvm o.oom s.sz (ph.vaddr + ph.memsz))).Meets ↔
      ph.Placed s.sz := by
  obtain ⟨hbelow, hmax⟩ := allocuvm_run hold h.grown
  have hsum := BitVec.toNat_add ph.vaddr ph.memsz
  have hsize : ph.filesz.toNat ≤ ph.memsz.toNat := h.size
  have hvaddr := ph.vaddr.isLt
  have hmemsz := ph.memsz.isLt
  generalize allocuvm o.oom s.sz (ph.vaddr + ph.memsz) = sz at hbelow hmax ⊢
  constructor
  · rintro ⟨halign, hwrap, hin, -⟩
    simp only at halign hwrap hin
    refine ⟨halign, ?_⟩
    by_cases hzero : ph.filesz = 0
    · exact .inl hzero
    · have hpos : 0 < ph.filesz.toNat := by bv_omega
      have hlast := hin (ph.vaddr.toNat + ph.filesz.toNat - 1) (by omega) (by omega)
      refine .inr ?_
      omega
  · rintro ⟨halign, hplaced⟩
    have hend : ph.filesz.toNat = 0 ∨ ph.vaddr.toNat + ph.filesz.toNat ≤ sz.toNat := by
      rcases hplaced with hzero | hfits | hheld
      · exact .inl (by rw [hzero]; rfl)
      · omega
      · omega
    have hlt := sz.isLt
    exact ⟨halign, by simp only; omega, fun b hlow hhigh => by simp only at *; omega, hbelow⟩

/-- A round with a header makes one call or none, and the size of the process stays below the
kernel. -/
theorem segment_cases (o : Outcome) (ph : Proghdr) (hold : s.sz < KERNBASE) :
    (segment o s ph).sz < KERNBASE ∧
      ((¬ Loads o s ph ∧ (segment o s ph).calls = s.calls) ∨
       (Loads o s ph ∧ (segment o s ph).calls =
        ⟨ph.vaddr, ph.off, ph.filesz, allocuvm o.oom s.sz (ph.vaddr + ph.memsz)⟩ :: s.calls)) := by
  unfold segment
  by_cases htype : ph.type = ELF_PROG_LOAD
  · rw [if_neg (not_not_intro htype)]
    by_cases hsize : ph.memsz < ph.filesz
    · rw [if_pos hsize]
      refine ⟨hold, .inl ⟨fun h => ?_, rfl⟩⟩
      have hle := h.size
      bv_omega
    · rw [if_neg hsize]
      by_cases hgrown : allocuvm o.oom s.sz (ph.vaddr + ph.memsz) = 0
      · rw [if_pos hgrown]
        exact ⟨show 0 < KERNBASE by decide, .inl ⟨fun h => h.grown hgrown, rfl⟩⟩
      · rw [if_neg hgrown]
        have hloads : Loads o s ph := ⟨htype, by bv_omega, hgrown⟩
        have hbelow := (allocuvm_run hold hgrown).1
        unfold loadSegment
        cases o.loaded with
        | true => exact ⟨hbelow, .inr ⟨hloads, rfl⟩⟩
        | false => exact ⟨hbelow, .inr ⟨hloads, rfl⟩⟩
  · rw [if_pos htype]
    exact ⟨hold, .inl ⟨fun h => htype h.type, rfl⟩⟩

/-- A round stops at a header that cannot be read, or goes on with it. -/
theorem step_cases (hst : step file o s = some t) :
    (readi N s.off 32 ≠ 32 ∧ t = { s with bad := true }) ∨
      (readi N s.off 32 = 32 ∧ t = segment o s (proghdr file s.off.toNat)) := by
  unfold step at hst
  by_cases hover : s.bad = true ∨ phnum file ≤ s.i
  · rw [if_pos hover] at hst
    cases hst
  · rw [if_neg hover] at hst
    by_cases hread : readi N s.off 32 = 32
    · rw [if_neg (not_not_intro hread)] at hst
      exact .inr ⟨hread, (Option.some.inj hst).symm⟩
    · rw [if_pos hread] at hst
      exact .inl ⟨hread, (Option.some.inj hst).symm⟩

theorem start_calls (h : start file = some s) : s.sz < KERNBASE ∧ s.calls = [] := by
  unfold start at h
  split at h
  · cases h
  split at h
  · cases h
  · cases h
    exact ⟨show (0 : Word) < KERNBASE by decide, rfl⟩

/-- The segments that a round loads are placed. -/
def PlacedStep (file : Buf N) (s : Load) (o : Outcome) : Prop :=
  readi N s.off 32 = 32 → Loads o s (proghdr file s.off.toNat) →
    (proghdr file s.off.toNat).Placed s.sz

/-- Every call of `loaduvm` meets its contract exactly if every segment that is loaded is
placed. -/
theorem met_iff {s₀ u : Load} (hstart : start file = some s₀) {tr : List (Load × Outcome)}
    (hr : Run (step file) s₀ tr u) : Along Met tr u ↔ EveryStep (PlacedStep file) tr := by
  obtain ⟨hsz, hnil⟩ := start_calls hstart
  refine hr.forall_iff (I := fun s => s.sz < KERNBASE ∧ Met s) (fun _ h => h.2) ?_ ?_
    ⟨hsz, fun c hc => by rw [hnil] at hc; cases hc⟩
  · rintro s o t ⟨hs, hmet⟩ hok hst
    rcases step_cases hst with ⟨-, rfl⟩ | ⟨hread, rfl⟩
    · exact ⟨hs, hmet⟩
    · obtain ⟨ht, ⟨-, hcalls⟩ | ⟨hloads, hcalls⟩⟩ :=
        segment_cases o (proghdr file s.off.toNat) hs
      · refine ⟨ht, ?_⟩
        rw [Met, hcalls]
        exact hmet
      · refine ⟨ht, ?_⟩
        rw [Met, hcalls]
        exact List.forall_mem_cons.mpr ⟨(meets_iff hs hloads).mpr (hok hread hloads), hmet⟩
  · rintro s o t ⟨hs, hmet⟩ hbad hst hmet'
    rcases step_cases hst with ⟨hread, rfl⟩ | ⟨hread, rfl⟩
    · exact hbad fun h => absurd h hread
    · obtain ⟨-, ⟨hno, -⟩ | ⟨hloads, hcalls⟩⟩ := segment_cases o (proghdr file s.off.toNat) hs
      · exact hbad fun _ h => absurd h hno
      · rw [Met, hcalls] at hmet'
        exact hbad fun _ _ => (meets_iff hs hloads).mp (hmet' _ (List.mem_cons_self ..))

/-- A file with one program header. -/
def oneSegment (vaddr filesz memsz : Nat) : Buf 84 :=
  let elf := putLe (putLe (putLe (zeroBuf 84) 0 4 ELF_MAGIC) 28 4 52) 44 2 1
  putLe (putLe (putLe (putLe elf 52 4 1) 60 4 vaddr) 68 4 filesz) 72 4 memsz

/-- The state before the loop. -/
def first : Load := { i := 0, off := 52, sz := 0, calls := [], bad := false }

/-- A segment of a page at address 0. -/
theorem met_iff_page : ∃ tr u, Run (step (oneSegment 0 0x10 0x1000)) first tr u ∧
    u.calls = [⟨0, 0, 0x10, 0x1000⟩] ∧ Along Met tr u := by
  have hstart : start (oneSegment 0 0x10 0x1000) = some first := by decide
  have hstep : step (oneSegment 0 0x10 0x1000) ⟨false, true⟩ first =
      some ⟨1, 84, 0x1000, [⟨0, 0, 0x10, 0x1000⟩], false⟩ := by decide
  have hr := Run.cons hstep (.nil _)
  refine ⟨_, _, hr, rfl, (met_iff hstart hr).mpr fun x hx => ?_⟩
  obtain rfl := List.mem_singleton.mp hx
  exact fun _ _ => ⟨by decide, .inr (.inl (by decide))⟩

/-- Segments whose end wraps around, and that do not start at a page. -/
theorem segments_not_met :
    (start (oneSegment 0xfffff000 1 0x2000) = some first ∧
      ∃ tr u, Run (step (oneSegment 0xfffff000 1 0x2000)) first tr u ∧
        u.calls = [⟨0xfffff000, 0, 1, 0x1000⟩] ∧ ¬ Met u) ∧
    start (oneSegment 1 1 1) = some first ∧
      ∃ tr u, Run (step (oneSegment 1 1 1)) first tr u ∧ u.calls = [⟨1, 0, 1, 2⟩] ∧ ¬ Met u := by
  have hwrap : step (oneSegment 0xfffff000 1 0x2000) ⟨false, true⟩ first =
      some ⟨1, 84, 0x1000, [⟨0xfffff000, 0, 1, 0x1000⟩], false⟩ := by decide
  have hodd : step (oneSegment 1 1 1) ⟨false, true⟩ first =
      some ⟨1, 84, 2, [⟨1, 0, 1, 2⟩], false⟩ := by decide
  refine ⟨⟨by decide, _, _, .cons hwrap (.nil _), rfl, fun h => ?_⟩, by decide, _, _,
    .cons hodd (.nil _), rfl, fun h => ?_⟩
  · have hin := (h _ (List.mem_singleton.mpr rfl)).inside 0xfffff000
    exact absurd (hin (by decide) (by decide)) (by decide)
  · exact absurd (h _ (List.mem_singleton.mpr rfl)).aligned (by decide)

end Xv6Arm.Exec
