import Xv6Arm.Print.Numbers

/-!
# Format strings

A format string is a list of directives (`directives`): the characters that are printed as they
are, and the conversions.  `printAll` says what a list of directives prints for a list of
arguments, given the digits of hexadecimal numbers.

`cprintf` looks one character ahead and `printf` keeps a state, but both print the directives
of their format string one by one (`does_cprintfLoop`, `does_printfLoop`).  To `cprintf` the
conversion `%c` is not known.
-/

namespace Xv6Arm.Print

/-! ## Directives -/

/-- A character to print, or a conversion. -/
inductive Directive
  | plain (c : UInt8)
  | dec
  | hex
  | str
  | char
  | percent
  | unknown (c : UInt8)
deriving DecidableEq

/-- The conversion with the letter `c`. -/
def conversion (c : UInt8) : Directive :=
  if c = 'd'.toUInt8 then .dec
  else if c = 'x'.toUInt8 ∨ c = 'p'.toUInt8 then .hex
  else if c = 's'.toUInt8 then .str
  else if c = 'c'.toUInt8 then .char
  else if c = '%'.toUInt8 then .percent
  else .unknown c

/-- The directives of a format string.  A `'%'` at its end is none. -/
def directives : List UInt8 → List Directive
  | [] => []
  | [c] => if c = '%'.toUInt8 then [] else [.plain c]
  | c :: d :: fmt =>
      if c = '%'.toUInt8 then conversion d :: directives fmt
      else .plain c :: directives (d :: fmt)

/-- The directive takes an argument. -/
def Directive.takesArg : Directive → Bool
  | .dec | .hex | .str | .char => true
  | .plain _ | .percent | .unknown _ => false

/-- The number of arguments that a format string takes. -/
def CString.needed (fmt : CString) : ℕ := (directives fmt.bytes).countP Directive.takesArg

/-! ## What is printed -/

/-- The end of a call: why it has stopped, if it has not returned, what it has given out, and the
arguments it has not read. -/
structure Ending (ω : Type) where
  stop : Option Stop
  out : List ω
  args : List Word

/-- A call with the given arguments. -/
def Printer.call {ω : Type} (p : Printer ω Unit) (args : List Word) : Ending ω :=
  match p ⟨[], args⟩ with
  | .ok _ s => ⟨none, s.out, s.args⟩
  | .error e s => ⟨some e, s.out, s.args⟩

/-- The same end with other items. -/
def Ending.map {ω ω' : Type} (f : ω → ω') (e : Ending ω) : Ending ω' :=
  ⟨e.stop, e.out.map f, e.args⟩

/-- One after the other. -/
def Ending.andThen {ω : Type} (e : Ending ω) (g : List Word → Ending ω) : Ending ω :=
  match e.stop with
  | none => { g e.args with out := e.out ++ (g e.args).out }
  | some _ => e

/-- The bytes from `s` on, up to a 0. -/
def bytesAt (mem : Word → UInt8) (n : ℕ) (s : Word) : List UInt8 :=
  ((List.range n).map fun k => mem (s + BitVec.ofNat 32 k)).takeWhile (· ≠ 0)

/-- The text of a string. -/
def stringText (mem : Word → UInt8) (s : Word) : List UInt8 :=
  if s = 0 then nullText else bytesAt mem ADDRESSES s

/-- A string that has no 0 in `n` bytes leads to `s + n`. -/
def stopAt (mem : Word → UInt8) : ℕ → Word → Option Stop
  | 0, s => some (.endless s)
  | n + 1, s => if mem s = 0 then none else stopAt mem n (s + 1)

/-- How the output of a string stops, if it does not end. -/
def stringStop (mem : Word → UInt8) (s : Word) : Option Stop :=
  if s = 0 then none else stopAt mem ADDRESSES s

/-- What a directive prints. -/
def Directive.print (digits : List UInt8) (mem : Word → UInt8) :
    Directive → List Word → Ending UInt8
  | .plain c, args => ⟨none, [c], args⟩
  | .percent, args => ⟨none, ['%'.toUInt8], args⟩
  | .unknown c, args => ⟨none, ['%'.toUInt8, c], args⟩
  | _, [] => ⟨some .noArgument, [], []⟩
  | .dec, a :: args => ⟨none, decimal digits a.toInt, args⟩
  | .hex, a :: args => ⟨none, numeral digits 16 a.toNat, args⟩
  | .str, a :: args => ⟨stringStop mem a, stringText mem a, args⟩
  | .char, a :: args => ⟨none, [toByte a], args⟩

/-- What a list of directives prints. -/
def printAll (digits : List UInt8) (mem : Word → UInt8) :
    List Directive → List Word → Ending UInt8
  | [], args => ⟨none, [], args⟩
  | d :: ds, args => (d.print digits mem args).andThen (printAll digits mem ds)

/-! ## Calls that print -/

section Does

variable {ω : Type} {f : UInt8 → ω} {p q : Printer ω Unit} {e g : List Word → Ending UInt8}
  {put : UInt8 → Printer ω Unit} {mem : Word → UInt8}

/-- The state after a call that has started with `out` printed. -/
def Ending.result (f : UInt8 → ω) (out : List ω) (e : Ending UInt8) :
    EStateM.Result Stop (State ω) Unit :=
  match e.stop with
  | none => .ok () ⟨out ++ e.out.map f, e.args⟩
  | some x => .error x ⟨out ++ e.out.map f, e.args⟩

/-- The call `p` prints as `e` says, where a byte is given out by way of `f`. -/
def Does (f : UInt8 → ω) (p : Printer ω Unit) (e : List Word → Ending UInt8) : Prop :=
  ∀ s, p s = (e s.args).result f s.out

/-- `put` gives out one byte. -/
def Puts (f : UInt8 → ω) (put : UInt8 → Printer ω Unit) : Prop :=
  ∀ c, Does f (put c) fun args => ⟨none, [c], args⟩

theorem Ending.result_nil (f : UInt8 → ω) (out : List ω) (args : List Word) :
    (⟨none, [], args⟩ : Ending UInt8).result f out = .ok () ⟨out, args⟩ := by
  show EStateM.Result.ok () (State.mk (out ++ []) args) = _
  rw [List.append_nil]

theorem Ending.result_stop (f : UInt8 → ω) (out : List ω) (args : List Word) (x : Stop) :
    (⟨some x, [], args⟩ : Ending UInt8).result f out = .error x ⟨out, args⟩ := by
  show EStateM.Result.error x (State.mk (out ++ []) args) = _
  rw [List.append_nil]

theorem Does.call (h : Does f p e) (args : List Word) : p.call args = (e args).map f := by
  unfold Printer.call
  rw [h]
  unfold Ending.result Ending.map
  cases (e args).stop with
  | none => rfl
  | some x => rfl

theorem does_pure : Does f (pure ()) fun args => ⟨none, [], args⟩ := fun s => by
  rw [Ending.result_nil]
  rfl

theorem puts_emit : Puts f fun c => emit (f c) := fun _ _ => rfl

/-- The rule of sequence. -/
theorem Does.bind (hp : Does f p e) (hq : Does f q g) :
    Does f (p >>= fun _ => q) fun args => (e args).andThen g := fun s => by
  have hs := hp s
  show EStateM.bind p (fun _ => q) s = ((e s.args).andThen g).result f s.out
  unfold EStateM.bind
  rw [hs]
  generalize e s.args = r
  obtain ⟨stop, out, args⟩ := r
  cases stop with
  | none =>
    show q ⟨s.out ++ out.map f, args⟩ = _
    rw [hq]
    unfold Ending.andThen Ending.result
    dsimp only
    rw [List.map_append, List.append_assoc]
  | some x => rfl

theorem Puts.forM (h : Puts f put) :
    ∀ s : List UInt8, Does f (s.forM put) fun args => ⟨none, s, args⟩
  | [] => does_pure
  | c :: s => (h c).bind (h.forM s)

theorem does_nextArg {p : Word → Printer ω Unit} {stop : Word → Option Stop}
    {out : Word → List UInt8} (h : ∀ a, Does f (p a) fun args => ⟨stop a, out a, args⟩)
    (he : e [] = ⟨some .noArgument, [], []⟩)
    (hcons : ∀ a args, e (a :: args) = ⟨stop a, out a, args⟩) : Does f (nextArg >>= p) e := by
  rintro ⟨o, args⟩
  cases args with
  | nil =>
    rw [he, Ending.result_stop]
    rfl
  | cons a args =>
    rw [hcons]
    exact h a ⟨o, args⟩

/-- A call that prints a text of its argument. -/
theorem Puts.ofArg (h : Puts f put) {p : Word → Printer ω Unit} {text : Word → List UInt8}
    (hp : ∀ a, p a = (text a).forM put) (he : e [] = ⟨some .noArgument, [], []⟩)
    (hcons : ∀ a args, e (a :: args) = ⟨none, text a, args⟩) : Does f (nextArg >>= p) e := by
  refine does_nextArg (fun a => ?_) he hcons
  rw [hp]
  exact h.forM (text a)

/-! ### Strings -/

theorem add_one_add (s : Word) (k : ℕ) :
    s + 1 + BitVec.ofNat 32 k = s + BitVec.ofNat 32 (k + 1) := by
  rw [BitVec.ofNat_add, BitVec.add_comm (BitVec.ofNat 32 k), ← BitVec.add_assoc]
  rfl

theorem bytesAt_succ (mem : Word → UInt8) (n : ℕ) (s : Word) :
    bytesAt mem (n + 1) s = if mem s = 0 then [] else mem s :: bytesAt mem n (s + 1) := by
  unfold bytesAt
  rw [List.range_succ_eq_map, List.map_cons, List.takeWhile_cons, List.map_map,
    show s + BitVec.ofNat 32 0 = s from BitVec.add_zero s]
  have hnext : ((fun k => mem (s + BitVec.ofNat 32 k)) ∘ Nat.succ) =
      fun k => mem (s + 1 + BitVec.ofNat 32 k) := by
    funext k
    rw [add_one_add]
    rfl
  rw [hnext]
  by_cases h : mem s = 0
  · simp [h]
  · simp [h]

theorem Puts.putString (h : Puts f put) : ∀ (n : ℕ) (s : Word),
    Does f (putString put mem n s) fun args => ⟨stopAt mem n s, bytesAt mem n s, args⟩
  | 0, s => fun t => by
      rw [show bytesAt mem 0 s = [] from rfl, stopAt, Ending.result_stop]
      rfl
  | n + 1, s => by
      rw [Print.putString, stopAt, bytesAt_succ]
      split
      · exact does_pure
      · exact (h (mem s)).bind (h.putString n (s + 1))

theorem Puts.printString (h : Puts f put) (digits : List UInt8) :
    Does f (printString put mem) (Directive.str.print digits mem) := by
  refine does_nextArg (fun a => ?_) rfl fun _ _ => rfl
  unfold stringStop stringText
  split
  · exact h.forM nullText
  · exact h.putString ADDRESSES a

end Does

/-! ## cprintf -/

section Kernel

open Console (Cons Event)

variable {cons : Cons} {mem : Word → UInt8}

/-- What `cprintf` takes a directive for. -/
def Directive.inKernel : Directive → Directive
  | .char => .unknown 'c'.toUInt8
  | d => d

theorem map_inKernel {ds : List Directive} (h : .char ∉ ds) :
    ds.map Directive.inKernel = ds := by
  have hid : ∀ d ∈ ds, d.inKernel = id d := by
    intro d hd
    cases d with
    | char => exact absurd hd h
    | _ => rfl
  rw [List.map_congr_left hid, List.map_id]

theorem toByte_toWord (c : UInt8) : toByte (toWord c) = c := by
  refine UInt8.toNat_inj.mp ?_
  show (BitVec.setWidth 8 (toWord c)).toNat = c.toNat
  rw [BitVec.toNat_setWidth, toNat_toWord]
  exact Nat.mod_eq_of_lt c.toNat_lt

/-- No `char` is `BACKSPACE`. -/
theorem toWord_ne_backspace (c : UInt8) : toWord c ≠ Console.BACKSPACE := by
  intro h
  have hlt := c.toNat_lt
  rw [← toNat_toWord, h] at hlt
  exact absurd hlt (by decide)

theorem puts_putChar (hp : cons.panicked = false) : Puts .uart (Console.putChar cons) := by
  intro c
  unfold Console.putChar Console.consPutc
  rw [hp, if_neg Bool.false_ne_true, if_neg (toWord_ne_backspace c), toByte_toWord]
  exact puts_emit c

theorem does_convert (hp : cons.panicked = false) (c : UInt8) :
    Does .uart (Console.convert cons mem c)
      ((conversion c).inKernel.print Console.digits mem) := by
  have h := puts_putChar hp
  unfold Console.convert conversion
  split
  · exact h.ofArg (fun a => console_printint_decimal a cons) rfl fun _ _ => rfl
  split
  · exact h.ofArg (fun a => console_printint_hex a cons) rfl fun _ _ => rfl
  split
  · exact h.printString _
  split
  · next hc =>
    subst hc
    exact h '%'.toUInt8
  split
  · next hc =>
    subst hc
    exact (h _).bind (h _)
  · exact (h _).bind (h c)

/-- `cprintf` prints the directives of its format string. -/
theorem does_cprintfLoop (hp : cons.panicked = false) : ∀ fmt : List UInt8,
    Does .uart (Console.cprintfLoop cons mem fmt)
      (printAll Console.digits mem ((directives fmt).map Directive.inKernel))
  | [] => does_pure
  | [c] => by
      rw [Console.cprintfLoop, directives]
      by_cases hc : c = '%'.toUInt8
      · rw [if_neg (not_not.mpr hc), if_pos hc]
        exact does_pure
      · rw [if_pos hc, if_neg hc]
        exact (puts_putChar hp c).bind does_pure
  | c :: d :: fmt => by
      rw [Console.cprintfLoop, directives]
      by_cases hc : c = '%'.toUInt8
      · rw [if_neg (not_not.mpr hc), if_pos hc]
        exact (does_convert hp d).bind (does_cprintfLoop hp fmt)
      · rw [if_pos hc, if_neg hc]
        exact (puts_putChar hp c).bind (does_cprintfLoop hp (d :: fmt))

theorem does_cprintf (hl : cons.locking = false) (hp : cons.panicked = false) (fmt : CString) :
    Does .uart (Console.cprintf cons mem (some fmt))
      (printAll Console.digits mem ((directives fmt.bytes).map Directive.inKernel)) := by
  unfold Console.cprintf Cons.lock
  rw [hl, if_neg Bool.false_ne_true, if_neg Bool.false_ne_true, pure_bind]
  dsimp only
  rw [bind_pure_unit]
  exact does_cprintfLoop hp fmt.bytes

end Kernel

/-! ## printf -/

section User

variable {fd : Word} {mem : Word → UInt8}

theorem puts_putc : Puts (Printf.Write.mk fd) (Printf.putc fd) := puts_emit

theorem does_convert_user (c : UInt8) :
    Does (Printf.Write.mk fd) (Printf.convert fd mem c)
      ((conversion c).print Printf.digits mem) := by
  have h : Puts (Printf.Write.mk fd) (Printf.putc fd) := puts_putc
  unfold Printf.convert conversion
  split
  · exact h.ofArg (fun a => printf_printint_decimal a fd) rfl fun _ _ => rfl
  split
  · exact h.ofArg (fun a => printf_printint_hex a fd) rfl fun _ _ => rfl
  split
  · exact h.printString _
  split
  · exact does_nextArg (fun a => h (toByte a)) rfl fun _ _ => rfl
  split
  · next hc =>
    subst hc
    exact h _
  · exact (h _).bind (h c)

theorem does_printfLoop : ∀ fmt : List UInt8,
    Does (Printf.Write.mk fd) (Printf.printfLoop fd mem .text fmt)
      (printAll Printf.digits mem (directives fmt))
  | [] => does_pure
  | [c] => by
      rw [Printf.printfLoop, directives]
      split
      · exact does_pure
      · exact (puts_putc c).bind does_pure
  | c :: d :: fmt => by
      rw [Printf.printfLoop, directives]
      split
      · exact (does_convert_user d).bind (does_printfLoop fmt)
      · exact (puts_putc c).bind (does_printfLoop (d :: fmt))

end User

/-! ## Agreement -/

/-- A letter in upper case. -/
def upper (c : UInt8) : UInt8 :=
  if 'a'.toUInt8 ≤ c ∧ c ≤ 'z'.toUInt8 then c - ('a'.toUInt8 - 'A'.toUInt8) else c

/-- The texts that two calls have printed for directives and arguments.  For each directive both
have the text that it prints, but a hexadecimal number may be spelt in other letter cases. -/
inductive UpToCase (mem : Word → UInt8) :
    List Directive → List Word → List UInt8 → List UInt8 → Prop
  | nil (args : List Word) : UpToCase mem [] args [] []
  | same {d : Directive} {ds : List Directive} {args : List Word} {k u : List UInt8} :
      d ≠ .hex → UpToCase mem ds (d.print Console.digits mem args).args k u →
      UpToCase mem (d :: ds) args ((d.print Console.digits mem args).out ++ k)
        ((d.print Console.digits mem args).out ++ u)
  | hex {ds : List Directive} {a : Word} {args : List Word} {b c k u : List UInt8} :
      b.map upper = (numeral Console.digits 16 a.toNat).map upper →
      c.map upper = (numeral Console.digits 16 a.toNat).map upper →
      UpToCase mem ds args k u → UpToCase mem (.hex :: ds) (a :: args) (b ++ k) (c ++ u)

section Tables

variable {b n : ℕ}

/-- Two numerals are alike digit by digit. -/
theorem map_numeral {α : Type} {f : UInt8 → α} {digits digits' : List UInt8} (hb : 1 < b)
    (h : ∀ d < b, f (digits.getD d 0) = f (digits'.getD d 0)) :
    (numeral digits b n).map f = (numeral digits' b n).map f := by
  unfold numeral
  rw [List.map_map, List.map_map]
  exact List.map_congr_left fun d hd =>
    h d (Numerals.lt_of_mem_lowDigits hb (List.mem_reverse.mp hd))

theorem decimal_eq (z : ℤ) : decimal Console.digits z = decimal Printf.digits z := by
  have h : (numeral Console.digits 10 z.natAbs).map id =
      (numeral Printf.digits 10 z.natAbs).map id := map_numeral (by decide) (by decide)
  rw [List.map_id, List.map_id] at h
  unfold decimal
  rw [h]

theorem hex_upper (n : ℕ) :
    (numeral Console.digits 16 n).map upper = (numeral Printf.digits 16 n).map upper :=
  map_numeral (by decide) (by decide)

end Tables

/-- Two calls that end alike.  They have printed the directives up to some place, and all of them if
they return. -/
structure Alike (mem : Word → UInt8) (ds : List Directive) (given : List Word)
    (k u : Ending UInt8) : Prop where
  stop : k.stop = u.stop
  args : k.args = u.args
  out : ∃ printed, printed <+: ds ∧ (k.stop = none → printed = ds) ∧
    UpToCase mem printed given k.out u.out

section Agreement

variable (mem : Word → UInt8)

/-- Only the digits of hexadecimal numbers depend on the table. -/
theorem Directive.print_digits {d : Directive} (hd : d ≠ .hex) (args : List Word) :
    d.print Printf.digits mem args = d.print Console.digits mem args := by
  cases d with
  | hex => exact absurd rfl hd
  | dec =>
    cases args with
    | nil => rfl
    | cons a args =>
      dsimp only [print]
      rw [decimal_eq]
  | _ => cases args <;> rfl

/-- The texts of one directive, before those of other directives. -/
theorem Directive.print_upToCase (d : Directive) (args : List Word)
    (harg : d.takesArg → args ≠ []) {ds : List Directive} {k u : List UInt8}
    (h : UpToCase mem ds (d.print Console.digits mem args).args k u) :
    UpToCase mem (d :: ds) args ((d.print Console.digits mem args).out ++ k)
      ((d.print Printf.digits mem args).out ++ u) := by
  by_cases hd : d = .hex
  · subst hd
    cases args with
    | nil => exact absurd rfl (harg rfl)
    | cons a args => exact .hex rfl (hex_upper a.toNat).symm h
  · rw [print_digits mem hd]
    exact .same hd h

/-- A directive without its argument prints nothing. -/
theorem Directive.print_noArgument {d : Directive} (hd : d.takesArg) (digits : List UInt8) :
    d.print digits mem [] = ⟨some .noArgument, [], []⟩ := by
  cases d with
  | plain _ => cases hd
  | percent => cases hd
  | unknown _ => cases hd
  | _ => rfl

/-- Both tables lead to the same end. -/
theorem Directive.print_ending (d : Directive) (args : List Word) :
    (d.print Console.digits mem args).stop = (d.print Printf.digits mem args).stop ∧
    (d.print Console.digits mem args).args = (d.print Printf.digits mem args).args := by
  by_cases hd : d = .hex
  · subst hd
    cases args <;> exact ⟨rfl, rfl⟩
  · rw [print_digits mem hd]
    exact ⟨rfl, rfl⟩

theorem printAll_alike (ds : List Directive) : ∀ args : List Word,
    Alike mem ds args (printAll Console.digits mem ds args) (printAll Printf.digits mem ds args) := by
  induction ds with
  | nil => exact fun args => ⟨rfl, rfl, [], List.nil_prefix, fun _ => rfl, .nil args⟩
  | cons d ds ih =>
    intro args
    by_cases hno : d.takesArg ∧ args = []
    · -- the missing argument stops both calls before they print anything
      obtain ⟨hd, rfl⟩ := hno
      unfold printAll Ending.andThen
      rw [d.print_noArgument mem hd, d.print_noArgument mem hd]
      exact ⟨rfl, rfl, [], List.nil_prefix, fun h => (by cases h), .nil []⟩
    have harg : d.takesArg → args ≠ [] := fun hd hnil => hno ⟨hd, hnil⟩
    obtain ⟨hstop, hargs⟩ := d.print_ending mem args
    unfold printAll Ending.andThen
    rw [← hstop, ← hargs]
    cases hk : (d.print Console.digits mem args).stop with
    | none =>
      obtain ⟨hs, ha, printed, hpre, hall, hcase⟩ := ih (d.print Console.digits mem args).args
      refine ⟨hs, ha, d :: printed, List.cons_prefix_cons.mpr ⟨rfl, hpre⟩, fun h => ?_,
        d.print_upToCase mem args harg hcase⟩
      rw [hall h]
    | some x =>
      refine ⟨hstop, hargs, [d], List.cons_prefix_cons.mpr ⟨rfl, List.nil_prefix⟩, fun h => ?_, ?_⟩
      · rw [hk] at h
        cases h
      · have hcase := d.print_upToCase mem args harg (.nil _)
        rwa [List.append_nil, List.append_nil] at hcase

/-! ### Calls that return -/

/-- The loop over a string stops only after `n` bytes that are not 0. -/
theorem stopAt_cases (n : ℕ) : ∀ s : Word, stopAt mem n s = none ∨
    (∃ a, stopAt mem n s = some (.endless a)) ∧ ∀ k < n, mem (s + BitVec.ofNat 32 k) ≠ 0 := by
  induction n with
  | zero => exact fun s => .inr ⟨⟨s, rfl⟩, fun k hk => absurd hk (Nat.not_lt_zero k)⟩
  | succ n ih =>
    intro s
    rw [stopAt]
    split
    · exact .inl rfl
    next hs =>
    rcases ih (s + 1) with hnone | ⟨hsome, hbytes⟩
    · exact .inl hnone
    refine .inr ⟨hsome, fun k hk => ?_⟩
    cases k with
    | zero => rwa [BitVec.add_zero]
    | succ k =>
      have hk := hbytes k (Nat.lt_of_succ_lt_succ hk)
      rwa [add_one_add] at hk

/-- Only in a memory without a 0 the output of a string does not end. -/
theorem stringStop_cases (s : Word) : stringStop mem s = none ∨
    (∃ a, stringStop mem s = some (.endless a)) ∧ ∀ q, mem q ≠ 0 := by
  unfold stringStop
  split
  · exact .inl rfl
  rcases stopAt_cases mem ADDRESSES s with hnone | ⟨hsome, hbytes⟩
  · exact .inl hnone
  refine .inr ⟨hsome, fun q => ?_⟩
  have hq := hbytes (q - s).toNat (q - s).isLt
  rwa [BitVec.ofNat_toNat, BitVec.setWidth_eq, BitVec.add_comm, BitVec.sub_add_cancel] at hq

/-- The call returns with the arguments that are left, or it is in a string that has no end. -/
def Settles (args : List Word) (e : Ending UInt8) : Prop :=
  (e.stop = none ∧ e.args = args) ∨ ((∃ a, e.stop = some (.endless a)) ∧ ∀ q, mem q ≠ 0)

theorem Directive.print_settles (digits : List UInt8) (d : Directive) (args : List Word)
    (h : [d].countP takesArg ≤ args.length) :
    Settles mem (args.drop ([d].countP takesArg)) (d.print digits mem args) := by
  cases d with
  | plain c => exact .inl ⟨rfl, rfl⟩
  | percent => exact .inl ⟨rfl, rfl⟩
  | unknown c => exact .inl ⟨rfl, rfl⟩
  | str =>
    obtain ⟨a, args, rfl⟩ := List.exists_cons_of_length_pos h
    exact (stringStop_cases mem a).imp_left fun h => ⟨h, rfl⟩
  | _ =>
    obtain ⟨a, args, rfl⟩ := List.exists_cons_of_length_pos h
    exact .inl ⟨rfl, rfl⟩

theorem printAll_settles (digits : List UInt8) (ds : List Directive) : ∀ args : List Word,
    ds.countP Directive.takesArg ≤ args.length →
    Settles mem (args.drop (ds.countP Directive.takesArg)) (printAll digits mem ds args) := by
  induction ds with
  | nil => exact fun args _ => .inl ⟨rfl, rfl⟩
  | cons d ds ih =>
    intro args h
    rw [← List.singleton_append, List.countP_append] at h ⊢
    show Settles mem _ ((d.print digits mem args).andThen (printAll digits mem ds))
    unfold Ending.andThen
    rcases d.print_settles mem digits args (by omega) with ⟨hstop, hargs⟩ | ⟨⟨a, hstop⟩, hmem⟩
    · rw [hstop, hargs, ← List.drop_drop]
      refine ih _ ?_
      rw [List.length_drop]
      omega
    · rw [hstop]
      exact .inr ⟨⟨a, hstop⟩, hmem⟩

end Agreement

/-- For a format string without `%c` and enough arguments, `cprintf` and `printf` give out the same
bytes, up to the letter case of hexadecimal digits, and read the same arguments.  They return, or
both are in the same string that has no end. -/
theorem cprintf_printf_alike (mem : Word → UInt8) (fd : Word) {cons : Console.Cons} {fmt : CString}
    {args : List Word} (hl : cons.locking = false) (hp : cons.panicked = false)
    (hchar : .char ∉ directives fmt.bytes) (hargs : fmt.needed ≤ args.length) :
    ∃ k u : Ending UInt8, (Console.cprintf cons mem (some fmt)).call args = k.map .uart ∧
      (Printf.printf fd mem fmt).call args = u.map (.mk fd) ∧
      Alike mem (directives fmt.bytes) args k u ∧ Settles mem (args.drop fmt.needed) k := by
  have hk : Does .uart (Console.cprintf cons mem (some fmt)) _ := does_cprintf hl hp fmt
  rw [map_inKernel hchar] at hk
  exact ⟨_, _, hk.call args, (does_printfLoop fmt.bytes).call args, printAll_alike mem _ args,
    printAll_settles mem _ _ args hargs⟩

/-- `"%d%%%x%q%s%"`. -/
def mixedFormat : CString where
  bytes := ['%', 'd', '%', '%', '%', 'x', '%', 'q', '%', 's', '%'].map Char.toUInt8
  no_nul := by decide

/-- A negative number, a hexadecimal number and a null pointer. -/
theorem cprintf_printf_alike_mixed :
    ∃ k u : Ending UInt8,
      (Console.cprintf ⟨false, false⟩ (fun _ => 0) (some mixedFormat)).call [-5, 0xbeef, 0] =
        k.map .uart ∧
      (Printf.printf 1 (fun _ => 0) mixedFormat).call [-5, 0xbeef, 0] = u.map (.mk 1) ∧
      Alike (fun _ => 0) (directives mixedFormat.bytes) [-5, 0xbeef, 0] k u ∧ Settles (fun _ => 0) [] k :=
  cprintf_printf_alike (fun _ => 0) 1 rfl rfl (by decide) (by decide)

end Xv6Arm.Print
