import Xv6Arm.Grep.Match

/-!
# The loop of grep

The model of `grep` of `grep.c`, with `strchr` and `memmove` of `ulib.c`.  The lines of the
input are cut out of one buffer, which is read into behind what is left of the read before.

`buf` is the first variable of the program that has no value at the start, and what stands
behind it (`base` and `freep` of `umalloc.c`) is not used by `grep`.  So there are zeros
behind it.  The buffer itself has zeros only at the first call: `main` calls `grep` once for
each file, and the buffer keeps what the call before has left in it.

`read` is the kernel.  The input comes in chunks, and a call of `read` returns the next chunk,
or as much of it as there is room for.
-/

namespace Xv6Arm.Grep

/-- The character that ends a string. -/
def NUL : Char := '\x00'

/-- `sizeof(buf)`. -/
def BUFSIZE : Nat := 1024

/-! ## The library -/

/-- `strchr(s, c)`: how far behind `s` the character stands.  The list is the memory from `s` to
the end of the buffer. -/
def strchr (c : Char) : List Char → Option Nat
  | [] => none
  | t :: s => if t = NUL then none else if t = c then some 0 else (strchr c s).map (· + 1)

/-- `memmove(dst, src, n)` inside of the buffer. -/
def memmove (buf : List Char) (dst src : Nat) : Nat → List Char
  | 0 => buf
  | n + 1 => memmove (buf.set dst (buf.getD src NUL)) (dst + 1) (src + 1) n

/-- The string at the start of a memory. -/
def cstring (s : List Char) : List Char := s.takeWhile (· ≠ NUL)

/-- `read` of at most `n` bytes: what it gives, and the chunks that are left. -/
def read (n : Nat) : List (List Char) → List Char × List (List Char)
  | [] => ([], [])
  | c :: src => if c.length ≤ n then (c, src) else (c.take n, c.drop n :: src)

/-- A buffer into which `read` has put a chunk at `m`. -/
def fill (buf : List Char) (m : Nat) (chunk : List Char) : List Char :=
  buf.take m ++ chunk ++ buf.drop (m + chunk.length)

/-! ## grep -/

/-- The buffer, the index `p - buf`, and what was written so far. -/
structure Vars where
  buf : List Char
  p : Nat
  out : List Char

/-- A round of the inner loop, for the line that ends at `q`. -/
def Vars.line (pattern : List Char) (q : Nat) (s : Vars) : Vars :=
  let buf := s.buf.set q NUL
  if matchText pattern (cstring (buf.drop s.p)) then
    let buf := buf.set q '\n'
    { buf, p := q + 1, out := s.out ++ (buf.drop s.p).take (q + 1 - s.p) }
  else { s with buf, p := q + 1 }

/-- The inner loop, with a bound on its rounds.  Each round moves `p` on. -/
def scan (pattern : List Char) : Nat → Vars → Vars
  | 0, s => s
  | n + 1, s =>
      match strchr '\n' (s.buf.drop s.p) with
      | none => s
      | some k => scan pattern n (s.line pattern (s.p + k))

/-- The end of a round of the outer loop: the buffer and `m`. -/
def Vars.carry (s : Vars) (m : Int) : List Char × Int :=
  let m := if s.p = 0 then 0 else m
  if 0 < m then (memmove s.buf 0 s.p (m - s.p).toNat, m - s.p) else (s.buf, m)

/-- Why the loop does not go on. -/
inductive Stop
  /-- `read` writes below the buffer. -/
  | outOfBounds
  | fuel
deriving DecidableEq

/-- The outer loop, with a bound on its rounds. -/
def loop (pattern : List Char) :
    Nat → List (List Char) → List Char → Int → List Char → Except Stop (List Char)
  | 0, _, _, _, _ => .error .fuel
  | n + 1, src, buf, m, out =>
      let (chunk, src) := read (BUFSIZE - m).toNat src
      if chunk = [] then .ok out
      else if m < 0 then .error .outOfBounds
      else
        let s := scan pattern (BUFSIZE + 1) ⟨fill buf m.toNat chunk, 0, out⟩
        let (buf, m) := s.carry (m + chunk.length)
        loop pattern n src buf m s.out

/-- A line of an input, without its `'\n'`. -/
structure IsLine (l : List Char) : Prop where
  no_newline : '\n' ∉ l
  no_nul : NUL ∉ l
  short : l.length < 1023

/-- The text of lines. -/
def text : List (List Char) → List Char
  | [] => []
  | l :: ls => l ++ '\n' :: text ls

/-- The lines that match a pattern. -/
def matching (pattern : List Char) (ls : List (List Char)) : List Char :=
  text (ls.filter fun l => matchText pattern l)

end Xv6Arm.Grep
