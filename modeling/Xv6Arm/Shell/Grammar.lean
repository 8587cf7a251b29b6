import Xv6Arm.Shell.Parser
import Mathlib.Data.List.TakeWhile

/-!
# The shell's grammar

    line  := pipe '&'* [';' line]
    pipe  := exec ['|' pipe]
    exec  := '(' line ')' redir* | redir* (word redir*)*
    redir := ('<' | '>' | '>>') word

`tokens` splits a line into tokens.  Words are maximal runs of characters that are
neither blanks nor symbols.  `Derives` is the grammar on lists of tokens.  It gives
each derivation its tree: `&` wraps the command before it, `;` and `|` group to
the right, and the first redirection of a command is the innermost.

The last part connects the tokens with the cursor of the parser.  `peek` looks at
the first token of what is left, and `gettoken` takes it off.
-/

namespace Xv6Arm.Shell

/-! ## Tokens of a line -/

inductive Token where
  | lt
  | gt
  | append
  | bar
  | amp
  | semi
  | lparen
  | rparen
  | word (w : List Char)
  deriving DecidableEq, Repr

/-- The token that one symbol makes. -/
def symbol (c : Char) : Option Token :=
  if c = '<' then some .lt
  else if c = '>' then some .gt
  else if c = '|' then some .bar
  else if c = '&' then some .amp
  else if c = ';' then some .semi
  else if c = '(' then some .lparen
  else if c = ')' then some .rparen
  else none

def tokens : List Char → List Token
  | [] => []
  | c :: s =>
      if isBlank c then tokens s
      else if c = '>' ∧ s.head? = some '>' then .append :: tokens s.tail
      else
        match symbol c with
        | some t => t :: tokens s
        | none => .word (c :: s.takeWhile isWordChar) :: tokens (s.dropWhile isWordChar)
  termination_by s => s.length
  decreasing_by
    · simp
    · simp only [List.length_tail, List.length_cons]
      omega
    · simp
    · exact Nat.lt_succ_of_le (List.dropWhile_sublist _).length_le

/-! ## Derivations -/

/-- The operators of a redirection. -/
inductive RedirOp where
  | lt
  | gt
  | append
  deriving DecidableEq, Repr

def RedirOp.token : RedirOp → Token
  | .lt => .lt
  | .gt => .gt
  | .append => .append

/-- The command under a redirection. -/
def RedirOp.wrap {σ : Type} (cmd : Cmd σ) (file : σ) : RedirOp → Cmd σ
  | .lt => .redir cmd file O_RDONLY .stdin
  | .gt => .redir cmd file (O_WRONLY ||| O_CREATE) .stdout
  | .append => .redir cmd file (O_WRONLY ||| O_CREATE) .stdout

/-- The command under redirections, the first of them innermost. -/
def wrapAll {σ : Type} (rs : List (RedirOp × σ)) (cmd : Cmd σ) : Cmd σ :=
  rs.foldl (fun c r => r.1.wrap c r.2) cmd

/-- `redir*` -/
inductive Redirs : List Token → List (RedirOp × List Char) → Prop
  | nil : Redirs [] []
  | cons (op : RedirOp) (file : List Char) {u : List Token} {rs : List (RedirOp × List Char)} :
      Redirs u rs → Redirs (op.token :: .word file :: u) ((op, file) :: rs)

/-- `(word redir*)*` -/
inductive Args : List Token → List (List Char) → List (RedirOp × List Char) → Prop
  | nil : Args [] [] []
  | cons (w : List Char) {u v : List Token} {ws : List (List Char)}
      {rs rs' : List (RedirOp × List Char)} :
      Redirs u rs → Args v ws rs' → Args (.word w :: (u ++ v)) (w :: ws) (rs ++ rs')

inductive Nonterminal where
  | line
  | pipe
  | exec
  deriving DecidableEq, Repr

/-- A command with `k` times `&` after it. -/
def backs {σ : Type} : Nat → Cmd σ → Cmd σ
  | 0, c => c
  | k + 1, c => backs k (.back c)

/-- `Derives N u c`: the nonterminal derives the tokens, and `c` is the tree. -/
inductive Derives : Nonterminal → List Token → Cmd (List Char) → Prop
  | line {u : List Token} {c : Cmd (List Char)} (k : Nat) :
      Derives .pipe u c → Derives .line (u ++ List.replicate k .amp) (backs k c)
  | list {u v : List Token} {c d : Cmd (List Char)} (k : Nat) :
      Derives .pipe u c → Derives .line v d →
      Derives .line (u ++ List.replicate k .amp ++ .semi :: v) (.list (backs k c) d)
  | exec {u : List Token} {c : Cmd (List Char)} :
      Derives .exec u c → Derives .pipe u c
  | pipe {u v : List Token} {c d : Cmd (List Char)} :
      Derives .exec u c → Derives .pipe v d → Derives .pipe (u ++ .bar :: v) (.pipe c d)
  | block {u v : List Token} {c : Cmd (List Char)} {rs : List (RedirOp × List Char)} :
      Derives .line u c → Redirs v rs →
      Derives .exec (.lparen :: u ++ .rparen :: v) (wrapAll rs c)
  | simple {u v : List Token} {ws : List (List Char)} {rs rs' : List (RedirOp × List Char)} :
      Redirs u rs → Args v ws rs' → ws.length ≤ MAXARGS - 1 →
      Derives .exec (u ++ v) (wrapAll (rs ++ rs') (.exec ws))

/-! ## The cursor and the tokens -/

/-- What `gettoken` returns for a token. -/
def Token.ret : Token → Char
  | .lt => '<'
  | .gt => '>'
  | .append => '+'
  | .bar => '|'
  | .amp => '&'
  | .semi => ';'
  | .lparen => '('
  | .rparen => ')'
  | .word _ => 'a'

/-- Whether a token starts with one of the symbols. -/
def Token.starts (toks : List Char) : Token → Bool
  | .append => toks.contains '>'
  | .word _ => false
  | t => toks.contains t.ret

theorem tokens_blank {c : Char} (s : List Char) (hc : isBlank c = true) :
    tokens (c :: s) = tokens s := by
  rw [tokens, if_pos hc]

theorem skip_cons {c : Char} (s : List Char) (hc : isBlank c = false) : skip (c :: s) = c :: s := by
  simp [skip, hc]

/-- Blanks before a token do not count. -/
@[simp] theorem tokens_skip (s : List Char) : tokens (skip s) = tokens s := by
  induction s with
  | nil => rfl
  | cons c s ih =>
      cases hc : isBlank c with
      | true =>
          rw [tokens_blank s hc, ← ih]
          simp [skip, hc]
      | false => rw [skip_cons s hc]

theorem skip_suffix (s : List Char) : skip s <:+ s := List.dropWhile_suffix _

/-- After the blanks the line ends or something else stands there. -/
theorem skip_cases (s : List Char) : skip s = [] ∨ ∃ c r, skip s = c :: r ∧ isBlank c = false := by
  induction s with
  | nil => exact .inl rfl
  | cons c s ih =>
      cases hc : isBlank c with
      | true => simpa [skip, hc] using ih
      | false => exact .inr ⟨c, s, skip_cons s hc, hc⟩

/-- A symbol is its own token, as far as `gettoken` and `peek` go. -/
theorem symbol_some {c : Char} {t : Token} (h : symbol c = some t) :
    c ∈ symbols ∧ t.ret = c ∧ (∀ toks, t.starts toks = toks.contains c) ∧ ∀ w, t ≠ .word w := by
  unfold symbol at h
  split_ifs at h with h₁ h₂ h₃ h₄ h₅ h₆ h₇ <;> cases h <;> subst c <;>
    exact ⟨by decide, rfl, fun _ => rfl, fun _ => by simp⟩

theorem symbol_none {c : Char} (h : symbol c = none) : c ∉ symbols := by
  intro hc
  simp only [symbols, List.mem_cons, List.not_mem_nil, or_false] at hc
  rcases hc with rfl | rfl | rfl | rfl | rfl | rfl | rfl <;> cases h

theorem isWordChar_of {c : Char} (hc : isBlank c = false) (hs : symbol c = none) :
    isWordChar c = true := by
  have hc' : c ∉ whitespace := by simpa [isBlank] using hc
  simp [isWordChar, hc', symbol_none hs]

theorem scan_symbol {c : Char} {r : List Char} {t : Token} (ht : symbol c = some t)
    (happ : ¬ (c = '>' ∧ r.head? = some '>')) : scan (c :: r) = (c, r) := by
  have hc := (symbol_some ht).1
  simp only [symbols, List.mem_cons, List.not_mem_nil, or_false] at hc
  rcases hc with rfl | rfl | rfl | rfl | rfl | rfl | rfl
  all_goals first
    | rfl
    | simp only [true_and] at happ; simp [scan, happ]

theorem scan_word {c : Char} (r : List Char) (hc : isBlank c = false) (ht : symbol c = none) :
    scan (c :: r) = ('a', r.dropWhile isWordChar) := by
  have hs := symbol_none ht
  simp only [symbols, List.mem_cons, List.not_mem_nil, or_false, not_or] at hs
  simp [scan, hs, isWordChar_of hc ht]

/-- The counted string is the word `w` at a place in `s`, and the word ends there. -/
structure Span.Spells (a : Span) (s w : List Char) : Prop where
  suffix : a.q <:+ s
  text : a.q = w ++ a.eq
  chars : ∀ c ∈ w, isWordChar c = true
  stop : ∀ c ∈ a.eq.head?, isWordChar c = false

/-- The first token of a text, and what the scanner makes of it. -/
structure First (c : Char) (r : List Char) (t : Token) : Prop where
  tokens_eq : tokens (c :: r) = t :: tokens (scan (c :: r)).2
  ret_eq : (scan (c :: r)).1 = t.ret
  suffix : (scan (c :: r)).2 <:+ c :: r
  starts_eq : ∀ toks, toks ⊆ symbols → toks.contains c = t.starts toks
  spells : ∀ w, t = .word w → (Span.mk (c :: r) (scan (c :: r)).2).Spells (c :: r) w

theorem first_append (r : List Char) : First '>' ('>' :: r) .append where
  tokens_eq := by
    rw [tokens]
    simp [isBlank, whitespace, scan]
  ret_eq := rfl
  suffix := ⟨['>', '>'], rfl⟩
  starts_eq := fun _ _ => rfl
  spells := fun _ h => by cases h

theorem first_symbol {c : Char} {r : List Char} {t : Token} (hc : isBlank c = false)
    (ht : symbol c = some t) (happ : ¬ (c = '>' ∧ r.head? = some '>')) : First c r t where
  tokens_eq := by
    rw [tokens, scan_symbol ht happ, if_neg (by simp [hc]), if_neg happ, ht]
  ret_eq := by
    rw [scan_symbol ht happ, (symbol_some ht).2.1]
  suffix := by
    rw [scan_symbol ht happ]
    exact List.suffix_cons c r
  starts_eq := fun toks _ => ((symbol_some ht).2.2.1 toks).symm
  spells := fun w h => absurd h ((symbol_some ht).2.2.2 w)

theorem first_word {c : Char} (r : List Char) (hc : isBlank c = false) (ht : symbol c = none) :
    First c r (.word (c :: r.takeWhile isWordChar)) where
  tokens_eq := by
    have happ : ¬ (c = '>' ∧ r.head? = some '>') := by
      rintro ⟨rfl, -⟩
      cases ht
    rw [tokens, scan_word r hc ht, if_neg (by simp [hc]), if_neg happ, ht]
  ret_eq := by rw [scan_word r hc ht, Token.ret]
  suffix := by
    rw [scan_word r hc ht]
    exact (List.dropWhile_suffix _).trans (List.suffix_cons c r)
  starts_eq := by
    intro toks hsub
    have hmem : c ∉ toks := fun h => symbol_none ht (hsub h)
    simp [Token.starts, hmem]
  spells := by
    rintro w ⟨⟩
    rw [scan_word r hc ht]
    refine ⟨List.suffix_rfl, ?_, ?_, ?_⟩
    · rw [List.cons_append, List.takeWhile_append_dropWhile]
    · intro d hd
      rcases List.mem_cons.mp hd with rfl | hd
      · exact isWordChar_of hc ht
      · exact List.mem_takeWhile_imp hd
    · intro d hd
      have hnot := List.head?_dropWhile_not isWordChar r
      rw [Option.mem_def.mp hd] at hnot
      exact hnot

theorem exists_first {c : Char} (r : List Char) (hc : isBlank c = false) : ∃ t, First c r t := by
  by_cases happ : c = '>' ∧ r.head? = some '>'
  · obtain ⟨rfl, hr⟩ := happ
    cases r with
    | nil => cases hr
    | cons d r =>
        cases hr
        exact ⟨_, first_append r⟩
  · cases ht : symbol c with
    | some t => exact ⟨t, first_symbol hc ht happ⟩
    | none => exact ⟨_, first_word r hc ht⟩

/-- The first token of what is left, and nothing if nothing is left. -/
theorem first_cases (s : List Char) : (skip s = [] ∧ tokens s = []) ∨
    ∃ c r t, skip s = c :: r ∧ First c r t ∧ tokens s = t :: tokens (scan (skip s)).2 := by
  rcases skip_cases s with h | ⟨c, r, h, hc⟩
  · refine .inl ⟨h, ?_⟩
    rw [← tokens_skip, h, tokens]
  · obtain ⟨t, ht⟩ := exists_first r hc
    refine .inr ⟨c, r, t, h, ht, ?_⟩
    rw [← tokens_skip s, h, ht.tokens_eq]

/-- `peek` looks at the first token. -/
theorem peek_fst {toks : List Char} (hsub : toks ⊆ symbols) (s : List Char) :
    (peek toks s).1 = (tokens s).head?.any (Token.starts toks) := by
  rcases first_cases s with ⟨h, hnil⟩ | ⟨c, r, t, h, ht, hts⟩
  · simp [peek, h, hnil]
  · simp only [peek, h, hts, List.head?_cons, Option.any_some, ht.starts_eq toks hsub]

@[simp] theorem tokens_peek (toks s : List Char) : tokens (peek toks s).2 = tokens s :=
  tokens_skip s

theorem peek_suffix (toks s : List Char) : (peek toks s).2 <:+ s := skip_suffix s

theorem gettoken_nil {s : List Char} (h : tokens s = []) :
    (gettoken s).ret = '\x00' ∧ (gettoken s).rest = [] := by
  rcases first_cases s with ⟨hs, -⟩ | ⟨c, r, t, hs, ht, hts⟩
  · rw [gettoken, hs]
    exact ⟨rfl, rfl⟩
  · rw [h] at hts
    cases hts

/-- What `gettoken` does where a token is left. -/
structure Takes (s : List Char) (t : Token) (ts : List Token) : Prop where
  ret_eq : (gettoken s).ret = t.ret
  rest_eq : tokens (gettoken s).rest = ts
  suffix : (gettoken s).rest <:+ s
  spells : ∀ w, t = .word w → (gettoken s).str.Spells s w

theorem gettoken_cons {s : List Char} {t : Token} {ts : List Token} (h : tokens s = t :: ts) :
    Takes s t ts := by
  rcases first_cases s with ⟨hs, hnil⟩ | ⟨c, r, t', hs, ht, hts⟩
  · rw [h] at hnil
    cases hnil
  · rw [h] at hts
    obtain ⟨rfl, hrest⟩ := List.cons.inj hts
    constructor
    · rw [gettoken, hs, ht.ret_eq]
    · simp [gettoken, hrest]
    · have hsuf : (scan (skip s)).2 <:+ skip s := hs ▸ ht.suffix
      exact (skip_suffix _).trans (hsuf.trans (skip_suffix s))
    · intro w hw
      have hsp := ht.spells w hw
      rw [← hs] at hsp
      exact ⟨skip_suffix s, hsp.text, hsp.chars, hsp.stop⟩

end Xv6Arm.Shell
