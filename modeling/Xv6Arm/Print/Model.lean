import Xv6Arm.Mem.Layout

/-!
# Printing

The model of `cprintf` with its `printint` and `cons_putc` (`console.c`), of `printf` with its
`printint` and `putc` (`printf.c`), and of `atoi` (`ulib.c`).

A call is a `Printer`.  It has the words behind the format string for its arguments, and
gives out what it prints item by item.  The kernel's calls give out what is sent to the UART
and when `cons.lock` is taken and given back, and the user's calls what is written to a file.
A call that stops leaves what it has given out before.

A `char` is a byte, and as an `int` it is not negative.
-/

namespace Xv6Arm.Print

/-- Why a call does not return. -/
inductive Stop
  | panic (msg : String)
  /-- The loop of `cons_putc` after a panic. -/
  | spins
  /-- An index outside of an array. -/
  | outside
  /-- A read behind the last argument. -/
  | noArgument
  /-- The string at `s` has no end. -/
  | endless (s : Word)
deriving DecidableEq

/-- What a call has given out, and the arguments it has not read. -/
structure State (ω : Type) where
  out : List ω
  args : List Word

/-- A call that gives out items of `ω`. -/
abbrev Printer (ω : Type) := EStateM Stop (State ω)

/-- A string, without the 0 at its end. -/
structure CString where
  bytes : List UInt8
  no_nul : 0 ∉ bytes

/-- A `char` as an `int`. -/
def toWord (c : UInt8) : Word := c.toBitVec.setWidth 32

/-- An `int` as a `char`. -/
def toByte (w : Word) : UInt8 := ⟨w.setWidth 8⟩

section Parts

variable {ω : Type}

def emit (o : ω) : Printer ω Unit := fun s => .ok () { s with out := s.out ++ [o] }

/-- `*argp++`. -/
def nextArg : Printer ω Word := fun s =>
  match s.args with
  | [] => .error .noArgument s
  | a :: args => .ok a { s with args }

/-! ## Numbers -/

/-- `sizeof(buf)`. -/
def BUFSIZE : ℕ := 16

/-- The `do` loop of `printint`, where `room` is the number of bytes behind `i` in `buf`, and the
list is what stands before `i`. -/
def digitLoop (digits : List UInt8) (base : Word) :
    ℕ → Word → List UInt8 → Printer ω (List UInt8)
  | 0, _, _ => throw .outside
  | room + 1, x, buf =>
      match digits[(x % base).toNat]? with
      | none => throw .outside
      | some d =>
          if x / base = 0 then pure (buf ++ [d])
          else digitLoop digits base room (x / base) (buf ++ [d])

/-- `buf[i++] = '-'`. -/
def putSign (buf : List UInt8) : Printer ω (List UInt8) :=
  if buf.length < BUFSIZE then pure (buf ++ ['-'.toUInt8]) else throw .outside

/-- What both `printint` do once they know the sign. -/
def printDigits (put : UInt8 → Printer ω Unit) (digits : List UInt8) (x base : Word)
    (neg : Bool) : Printer ω Unit := do
  let buf ← digitLoop digits base BUFSIZE x []
  let buf ← if neg then putSign buf else pure buf
  buf.reverse.forM put

/-! ## Strings -/

/-- The number of addresses.  A loop over a string that makes so many rounds is back at its first
byte. -/
def ADDRESSES : ℕ := 2 ^ 32

/-- The loop over a string. -/
def putString (put : UInt8 → Printer ω Unit) (mem : Word → UInt8) : ℕ → Word → Printer ω Unit
  | 0, s => throw (.endless s)
  | n + 1, s =>
      if mem s = 0 then pure ()
      else do
        put (mem s)
        putString put mem n (s + 1)

/-- `"(null)"`. -/
def nullText : List UInt8 := ['(', 'n', 'u', 'l', 'l', ')'].map Char.toUInt8

/-- `%s` of both functions. -/
def printString (put : UInt8 → Printer ω Unit) (mem : Word → UInt8) : Printer ω Unit := do
  let s ← nextArg
  if s = 0 then nullText.forM put else putString put mem ADDRESSES s

end Parts

end Xv6Arm.Print

namespace Xv6Arm.Console

open Print

/-! ## The kernel -/

/-- What the kernel gives out. -/
inductive Event
  | acquire
  | uart (byte : UInt8)
  | release
deriving DecidableEq

/-- `cons.locking` and `panicked`. -/
structure Cons where
  locking : Bool
  panicked : Bool

/-- `BACKSPACE`. -/
def BACKSPACE : Word := 0x100

/-- `cons_putc(c)`. -/
def consPutc (cons : Cons) (c : Word) : Printer Event Unit :=
  if cons.panicked then throw .spins
  else if c = BACKSPACE then do
    emit (.uart '\x08'.toUInt8)
    emit (.uart ' '.toUInt8)
    emit (.uart '\x08'.toUInt8)
  else emit (.uart (toByte c))

/-- `cons_putc` of a `char`. -/
def putChar (cons : Cons) (c : UInt8) : Printer Event Unit := consPutc cons (toWord c)

/-- The `digits` of `printint`. -/
def digits : List UInt8 :=
  ['0', '1', '2', '3', '4', '5', '6', '7', '8', '9', 'a', 'b', 'c', 'd', 'e', 'f'].map Char.toUInt8

/-- `printint(xx, base, sign)`. -/
def printint (cons : Cons) (xx base : Word) (sign : Bool) : Printer Event Unit :=
  -- The condition stores into `sign`, unless it is 0.
  let sign := sign && xx.slt 0
  let x := if sign then -xx else xx
  printDigits (putChar cons) digits x base sign

/-- The `switch` of `cprintf`. -/
def convert (cons : Cons) (mem : Word → UInt8) (c : UInt8) : Printer Event Unit :=
  if c = 'd'.toUInt8 then do printint cons (← nextArg) 10 true
  else if c = 'x'.toUInt8 ∨ c = 'p'.toUInt8 then do printint cons (← nextArg) 16 false
  else if c = 's'.toUInt8 then printString (putChar cons) mem
  else if c = '%'.toUInt8 then putChar cons '%'.toUInt8
  else do
    putChar cons '%'.toUInt8
    putChar cons c

/-- The loop of `cprintf`. -/
def cprintfLoop (cons : Cons) (mem : Word → UInt8) : List UInt8 → Printer Event Unit
  | [] => pure ()
  | c :: fmt =>
      if c ≠ '%'.toUInt8 then do
        putChar cons c
        cprintfLoop cons mem fmt
      else
        match fmt with
        | [] => pure ()
        | c :: fmt => do
            convert cons mem c
            cprintfLoop cons mem fmt

/-- `acquire(&cons.lock)` or `release(&cons.lock)`, if `locking`. -/
def Cons.lock (cons : Cons) (e : Event) : Printer Event Unit :=
  if cons.locking then emit e else pure ()

/-- `cprintf(fmt, ...)`, where `none` is the null pointer. -/
def cprintf (cons : Cons) (mem : Word → UInt8) (fmt : Option CString) : Printer Event Unit := do
  cons.lock .acquire
  match fmt with
  | none => throw (.panic "null fmt")
  | some fmt =>
      cprintfLoop cons mem fmt.bytes
      cons.lock .release

end Xv6Arm.Console

namespace Xv6Arm.Printf

open Print

/-! ## The user library -/

/-- A byte, and the file it is written to. -/
structure Write where
  fd : Word
  byte : UInt8
deriving DecidableEq

/-- `putc(fd, c)`. -/
def putc (fd : Word) (c : UInt8) : Printer Write Unit := emit ⟨fd, c⟩

/-- The `digits` of `printint`. -/
def digits : List UInt8 :=
  ['0', '1', '2', '3', '4', '5', '6', '7', '8', '9', 'A', 'B', 'C', 'D', 'E', 'F'].map Char.toUInt8

/-- `printint(fd, xx, base, sgn)`. -/
def printint (fd xx base : Word) (sgn : Bool) : Printer Write Unit :=
  if sgn && xx.slt 0 then printDigits (putc fd) digits (-xx) base true
  else printDigits (putc fd) digits xx base false

/-- A round of `printf` after `'%'`. -/
def convert (fd : Word) (mem : Word → UInt8) (c : UInt8) : Printer Write Unit :=
  if c = 'd'.toUInt8 then do printint fd (← nextArg) 10 true
  else if c = 'x'.toUInt8 ∨ c = 'p'.toUInt8 then do printint fd (← nextArg) 16 false
  else if c = 's'.toUInt8 then printString (putc fd) mem
  else if c = 'c'.toUInt8 then do putc fd (toByte (← nextArg))
  else if c = '%'.toUInt8 then putc fd c
  else do
    putc fd '%'.toUInt8
    putc fd c

/-- The values of `state`: 0 and `'%'`. -/
inductive Mode
  | text
  | percent

/-- The loop of `printf`. -/
def printfLoop (fd : Word) (mem : Word → UInt8) : Mode → List UInt8 → Printer Write Unit
  | _, [] => pure ()
  | .text, c :: fmt =>
      if c = '%'.toUInt8 then printfLoop fd mem .percent fmt
      else do
        putc fd c
        printfLoop fd mem .text fmt
  | .percent, c :: fmt => do
      convert fd mem c
      printfLoop fd mem .text fmt

/-- `printf(fd, fmt, ...)`. -/
def printf (fd : Word) (mem : Word → UInt8) (fmt : CString) : Printer Write Unit :=
  printfLoop fd mem .text fmt.bytes

end Xv6Arm.Printf

namespace Xv6Arm.Ulib

open Print

/-- The loop of `atoi`. -/
def atoiLoop : Word → List UInt8 → Word
  | n, [] => n
  | n, c :: s =>
      if '0'.toUInt8 ≤ c ∧ c ≤ '9'.toUInt8 then
        atoiLoop (n * 10 + toWord c - toWord '0'.toUInt8) s
      else n

/-- `atoi(s)`, of a string without the 0 at its end. -/
def atoi (s : List UInt8) : Word := atoiLoop 0 s

end Xv6Arm.Ulib
