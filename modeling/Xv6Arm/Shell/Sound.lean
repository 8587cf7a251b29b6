import Xv6Arm.Shell.Grammar
import Xv6Arm.Lib.Fallible

/-!
# The parser ends with a derivation or a panic

For each function of the parser: it ends, and what it returns has a derivation
from the tokens it has read.  The proof is by induction on the bound on the
calls, which is compared with the number of tokens that are left.  At most four
calls are nested between two tokens.

The strings of the tree are still pointers here.  They are words of the line, and
each word ends where the pointer to its end points (`Within`).
-/

namespace Xv6Arm.Shell

open Fallible

/-! ## Trees over strings -/

section

variable {σ τ : Type}

def Cmd.map (f : σ → τ) : Cmd σ → Cmd τ
  | .exec argv => .exec (argv.map f)
  | .redir cmd file mode fd => .redir (cmd.map f) (f file) mode fd
  | .pipe left right => .pipe (left.map f) (right.map f)
  | .list left right => .list (left.map f) (right.map f)
  | .back cmd => .back (cmd.map f)

/-- The strings of a tree, a file name after those of the command it is for. -/
def Cmd.strings : Cmd σ → List σ
  | .exec argv => argv
  | .redir cmd file _ _ => cmd.strings ++ [file]
  | .pipe left right => left.strings ++ right.strings
  | .list left right => left.strings ++ right.strings
  | .back cmd => cmd.strings

theorem Cmd.map_addArg (f : σ → τ) (a : σ) (c : Cmd σ) :
    (c.addArg a).map f = (c.map f).addArg (f a) := by
  induction c with
  | exec argv => simp [Cmd.addArg, Cmd.map]
  | redir cmd file mode fd ih => simp [Cmd.addArg, Cmd.map, ih]
  | pipe l r => rfl
  | list l r => rfl
  | back c => rfl

theorem Cmd.mem_strings_addArg {a b : σ} {c : Cmd σ} (h : b ∈ (c.addArg a).strings) :
    b ∈ c.strings ∨ b = a := by
  induction c with
  | exec argv => simpa [Cmd.addArg, Cmd.strings] using h
  | redir cmd file mode fd ih =>
      rcases List.mem_append.mp h with h | h
      · exact (ih h).imp (List.mem_append_left _) id
      · exact .inl (List.mem_append_right _ h)
  | pipe l r => exact .inl h
  | list l r => exact .inl h
  | back c => exact .inl h

theorem map_wrap (f : σ → τ) (op : RedirOp) (c : Cmd σ) (a : σ) :
    (op.wrap c a).map f = op.wrap (c.map f) (f a) := by
  cases op <;> rfl

theorem strings_wrap (op : RedirOp) (c : Cmd σ) (a : σ) :
    (op.wrap c a).strings = c.strings ++ [a] := by
  cases op <;> rfl

theorem redircmd_token (op : RedirOp) (c : Cmd σ) (a : σ) :
    redircmd op.token.ret c a = op.wrap c a := by
  cases op <;> rfl

/-- A word that is added goes to the simple command under the redirections. -/
theorem addArg_wrapAll (rs : List (RedirOp × σ)) (a : σ) : ∀ c : Cmd σ,
    (wrapAll rs c).addArg a = wrapAll rs (c.addArg a) := by
  induction rs with
  | nil => exact fun _ => rfl
  | cons r rs ih =>
      intro c
      have hwrap : (r.1.wrap c r.2).addArg a = r.1.wrap (c.addArg a) r.2 := by
        cases r.1 <;> rfl
      simpa [wrapAll, hwrap] using ih (r.1.wrap c r.2)

end

/-- The characters of a counted string. -/
def Span.text (a : Span) : List Char := a.q.take (a.q.length - a.eq.length)

theorem Span.Spells.text_eq {a : Span} {s w : List Char} (h : a.Spells s w) : a.text = w := by
  rw [Span.text, h.text]
  simp

theorem Span.Spells.mono {a : Span} {s s' w : List Char} (h : a.Spells s w) (hs : s <:+ s') :
    a.Spells s' w :=
  ⟨h.suffix.trans hs, h.text, h.chars, h.stop⟩

/-! ## Looking at tokens -/

section

variable {s : List Char} {t : Token} {ts : List Token}

theorem peek_of_cons (toks : List Char) (h : tokens s = t :: ts) (hsub : toks ⊆ symbols) :
    (peek toks s).1 = t.starts toks := by
  simp [peek_fst hsub, h]

theorem peek_of_nil (toks : List Char) (h : tokens s = []) (hsub : toks ⊆ symbols) :
    (peek toks s).1 = false := by
  simp [peek_fst hsub, h]

/-- Where `peek` finds something, that is the next token. -/
theorem exists_of_peek {toks : List Char} (h : (peek toks s).1 = true) (hsub : toks ⊆ symbols) :
    ∃ t ts, tokens s = t :: ts ∧ t.starts toks = true := by
  cases hts : tokens s with
  | nil => rw [peek_of_nil toks hts hsub] at h; cases h
  | cons t ts => exact ⟨t, ts, rfl, by rw [← peek_of_cons toks hts hsub, h]⟩

/-- A symbol that `peek` finds is the next token, and `gettoken` takes it. -/
theorem takes_of_peek {c : Char} (hc : symbol c = some t) (hgt : c ≠ '>')
    (h : (peek [c] s).1 = true) : ∃ ts, tokens s = t :: ts ∧ Takes (peek [c] s).2 t ts := by
  have hsub : [c] ⊆ symbols := by simpa using (symbol_some hc).1
  obtain ⟨t', ts, hts, ht'⟩ := exists_of_peek h hsub
  have htok : symbol c = some t' := by
    cases t' <;> simp [Token.starts, Token.ret] at ht' <;> first
      | exact absurd ht'.symm hgt
      | subst ht'; rfl
  obtain rfl : t' = t := Option.some.inj (htok.symm.trans hc)
  exact ⟨ts, hts, gettoken_cons ((tokens_peek [c] s).trans hts)⟩

/-- A symbol that is the next token is found by `peek` and taken by `gettoken`. -/
theorem takes_of_tokens (c : Char) (hc : symbol c = some t) (h : tokens s = t :: ts) :
    (peek [c] s).1 = true ∧ Takes (peek [c] s).2 t ts := by
  have hsub : [c] ⊆ symbols := by simpa using (symbol_some hc).1
  refine ⟨?_, gettoken_cons ((tokens_peek [c] s).trans h)⟩
  rw [peek_of_cons [c] h hsub, (symbol_some hc).2.2.1]
  simp

theorem word_of_ret (h : (gettoken s).ret = 'a') : ∃ w ts, tokens s = .word w :: ts := by
  cases hts : tokens s with
  | nil =>
      rw [(gettoken_nil hts).1] at h
      cases h
  | cons t ts =>
      rw [(gettoken_cons hts).ret_eq] at h
      cases t <;> first
        | exact ⟨_, _, rfl⟩
        | cases h

theorem nil_of_ret (h : (gettoken s).ret = '\x00') : tokens s = [] := by
  cases hts : tokens s with
  | nil => rfl
  | cons t ts =>
      rw [(gettoken_cons hts).ret_eq] at h
      cases t <;> cases h

theorem redir_of_starts (h : t.starts ['<', '>'] = true) : ∃ op : RedirOp, t = op.token := by
  cases t with
  | lt => exact ⟨.lt, rfl⟩
  | gt => exact ⟨.gt, rfl⟩
  | append => exact ⟨.append, rfl⟩
  | _ => cases h

end

/-! ## The parser ends, and what it returns has a derivation -/

section Ends

variable {line : List Char}

/-- The strings of a tree are words of the line. -/
def Within (line : List Char) (c : Cmd Span) : Prop := ∀ a ∈ c.strings, ∃ w, a.Spells line w

/-- What the parser may fail with. -/
def Panics (e : Stop) : Prop := e ≠ .fuel

theorem panics (m : String) : Panics (.panic m) := by simp [Panics]

theorem parseredirs_ends {n : Nat} : ∀ {cmd : Cmd Span} {s : List Char}, s <:+ line →
    Within line cmd → (tokens s).length < n →
    Ends (parseredirs n cmd s) (fun r => ∃ u rs, tokens s = u ++ tokens r.2 ∧ Redirs u rs ∧
      r.1.map Span.text = wrapAll rs (cmd.map Span.text) ∧ r.2 <:+ line ∧ Within line r.1)
      Panics := by
  induction n with
  | zero => intro cmd s _ _ hn; omega
  | succ n ih =>
      intro cmd s hs hw hn
      have hp := (peek_suffix ['<', '>'] s).trans hs
      simp only [parseredirs]
      split_ifs with hpeek hword
      · exact panics _
      · obtain ⟨t, ts, hts, ht⟩ := exists_of_peek hpeek (by simp [symbols])
        obtain ⟨op, rfl⟩ := redir_of_starts ht
        have htake := gettoken_cons ((tokens_peek ['<', '>'] s).trans hts)
        obtain ⟨w, ts', hts'⟩ := word_of_ret (not_not.mp hword)
        have hfile := gettoken_cons hts'
        have hrest := htake.rest_eq
        rw [hts'] at hrest
        subst hrest
        have hspell := (hfile.spells w rfl).mono (htake.suffix.trans hp)
        rw [htake.ret_eq, redircmd_token]
        refine (ih (hfile.suffix.trans (htake.suffix.trans hp)) ?_ ?_).mono ?_
        · intro a ha
          rw [strings_wrap] at ha
          rcases List.mem_append.mp ha with ha | ha
          · exact hw a ha
          · rw [List.mem_singleton.mp ha]
            exact ⟨w, hspell⟩
        · rw [hfile.rest_eq]
          simp only [hts, List.length_cons] at hn
          omega
        · rintro r ⟨u, rs, htok, hrs, hmap, hsuf, hwithin⟩
          refine ⟨op.token :: .word w :: u, (op, w) :: rs, ?_, .cons op w hrs, ?_, hsuf, hwithin⟩
          · rw [hts, ← hfile.rest_eq, htok]
            rfl
          · rw [hmap, map_wrap, hspell.text_eq]
            rfl
      · exact ⟨[], [], by simp, .nil, rfl, hp, hw⟩

/-- The words that are parsed up to now are `ws₀` and the redirections `rs₀`. -/
theorem parseargs_ends {n : Nat} : ∀ {cmd : Cmd Span} {s : List Char} {ws₀ : List (List Char)}
    {rs₀ : List (RedirOp × List Char)}, s <:+ line → Within line cmd → (tokens s).length < n →
    ws₀.length ≤ MAXARGS - 1 → cmd.map Span.text = wrapAll rs₀ (.exec ws₀) →
    Ends (parseargs n ws₀.length cmd s) (fun r => ∃ u ws rs, tokens s = u ++ tokens r.2 ∧
      Args u ws rs ∧ (ws₀ ++ ws).length ≤ MAXARGS - 1 ∧
      r.1.map Span.text = wrapAll (rs₀ ++ rs) (.exec (ws₀ ++ ws)) ∧
      r.2 <:+ line ∧ Within line r.1) Panics := by
  induction n with
  | zero => intro cmd s ws₀ rs₀ _ _ hn; omega
  | succ n ih =>
      intro cmd s ws₀ rs₀ hs hw hn hlen hmap
      have hp := (peek_suffix ['|', ')', '&', ';'] s).trans hs
      have hpt := tokens_peek ['|', ')', '&', ';'] s
      simp only [parseargs]
      split_ifs with hpeek hend hword hmax
      · exact ⟨[], [], [], by simp, .nil, by simpa, by simpa using hmap, hp, hw⟩
      · have hnil := nil_of_ret hend
        have hrest := (gettoken_nil hnil).2
        rw [hpt] at hnil
        refine ⟨[], [], [], ?_, .nil, by simpa, by simpa using hmap, ?_, hw⟩
        · simp [hnil, hrest, tokens]
        · simp [hrest]
      · exact panics _
      · exact panics _
      · obtain ⟨w, ts, hts⟩ := word_of_ret (not_not.mp hword)
        have htake := gettoken_cons hts
        have hspell := (htake.spells w rfl).mono hp
        rw [hpt] at hts
        have hwithin : Within line (cmd.addArg (gettoken (peek ['|', ')', '&', ';'] s).2).str) := by
          intro a ha
          rcases Cmd.mem_strings_addArg ha with ha | rfl
          · exact hw a ha
          · exact ⟨w, hspell⟩
        have hmap' : (cmd.addArg (gettoken (peek ['|', ')', '&', ';'] s).2).str).map Span.text =
            wrapAll rs₀ (.exec (ws₀ ++ [w])) := by
          rw [Cmd.map_addArg, hmap, addArg_wrapAll, hspell.text_eq, Cmd.addArg]
        have hlen' : (ws₀ ++ [w]).length = ws₀.length + 1 := by simp
        simp only [hts, List.length_cons] at hn
        refine (parseredirs_ends (htake.suffix.trans hp) hwithin ?_).bind ?_
        · rw [htake.rest_eq]
          omega
        rintro ⟨c, s'⟩ ⟨u, rs, htok, hrs, hmap₁, hsuf₁, hw₁⟩
        rw [htake.rest_eq] at htok
        rw [hmap', wrapAll, wrapAll, ← List.foldl_append, ← wrapAll] at hmap₁
        have hn' : (tokens s').length < n := by
          have := congrArg List.length htok
          simp only [List.length_append] at this
          omega
        rw [← hlen']
        refine (ih hsuf₁ hw₁ hn' (by omega) hmap₁).mono ?_
        rintro r ⟨v, ws, rs', htok₂, hargs, hlen₂, hmap₂, hsuf₂, hw₂⟩
        refine ⟨.word w :: (u ++ v), w :: ws, rs ++ rs', ?_, .cons w hrs hargs, ?_, ?_, hsuf₂, hw₂⟩
        · rw [hts, htok, htok₂]
          simp
        · simpa using hlen₂
        · simpa using hmap₂

theorem parsebacks_ends {n : Nat} : ∀ {cmd : Cmd Span} {s : List Char}, s <:+ line →
    Within line cmd → (tokens s).length < n →
    Ends (parsebacks n cmd s) (fun r => ∃ k, tokens s = List.replicate k .amp ++ tokens r.2 ∧
      r.1.map Span.text = backs k (cmd.map Span.text) ∧ r.2 <:+ line ∧ Within line r.1)
      Panics := by
  induction n with
  | zero => intro cmd s _ _ hn; omega
  | succ n ih =>
      intro cmd s hs hw hn
      have hp := (peek_suffix ['&'] s).trans hs
      simp only [parsebacks]
      split_ifs with hpeek
      · obtain ⟨ts, hts, htake⟩ := takes_of_peek rfl (by decide) hpeek
        simp only [hts, List.length_cons] at hn
        have hback : Within line (.back cmd) := hw
        refine (ih (htake.suffix.trans hp) hback ?_).mono ?_
        · rw [htake.rest_eq]
          omega
        · rintro r ⟨k, htok, hmap, hsuf, hwithin⟩
          refine ⟨k + 1, ?_, hmap, hsuf, hwithin⟩
          rw [hts, ← htake.rest_eq, htok]
          rfl
      · exact ⟨0, by simp, rfl, hp, hw⟩

/-- A tree that the parser returns with a cursor. -/
structure Parsed (line : List Char) (N : Nonterminal) (s : List Char)
    (r : Cmd Span × List Char) : Prop where
  derives : ∃ u, tokens s = u ++ tokens r.2 ∧ Derives N u (r.1.map Span.text)
  suffix : r.2 <:+ line
  within : Within line r.1

theorem Parsed.length_le {N : Nonterminal} {s : List Char} {r : Cmd Span × List Char}
    (h : Parsed line N s r) : (tokens r.2).length ≤ (tokens s).length := by
  obtain ⟨u, htok, -⟩ := h.derives
  rw [htok, List.length_append]
  omega

/-- The function for a nonterminal. -/
def parse : Nonterminal → Nat → List Char → Parse (Cmd Span × List Char)
  | .line => parseline
  | .pipe => parsepipe
  | .exec => parseexec

/-- The calls that a function needs, by the number of tokens that are left. -/
def bound : Nonterminal → Nat → Nat
  | .line, k => 4 * k + 4
  | .pipe, k => 4 * k + 3
  | .exec, k => 4 * k + 2

/-- The functions of the grammar end where they may make `n` calls. -/
def AllEnd (line : List Char) (n : Nat) : Prop :=
  ∀ N s, s <:+ line → bound N (tokens s).length ≤ n → Ends (parse N n s) (Parsed line N s) Panics

theorem parsepipe_ends {n : Nat} (ih : AllEnd line n) {s : List Char} (hs : s <:+ line)
    (hn : bound .pipe (tokens s).length ≤ n + 1) :
    Ends (parsepipe (n + 1) s) (Parsed line .pipe s) Panics := by
  simp only [bound] at hn
  rw [parsepipe]
  refine (ih .exec s hs (by simp only [bound]; omega)).bind ?_
  rintro ⟨c, s₁⟩ hexec
  have hle := hexec.length_le
  obtain ⟨⟨u, htok, hu⟩, hsuf, hw⟩ := hexec
  have hp := (peek_suffix ['|'] s₁).trans hsuf
  dsimp only at *
  split_ifs with hpeek
  · obtain ⟨ts, hts, htake⟩ := takes_of_peek rfl (by decide) hpeek
    simp only [hts, List.length_cons] at hle
    refine (ih .pipe _ (htake.suffix.trans hp) ?_).bind ?_
    · rw [htake.rest_eq, bound]
      omega
    · rintro ⟨d, s₂⟩ ⟨⟨v, htok₂, hv⟩, hsuf₂, hw₂⟩
      refine ⟨⟨u ++ .bar :: v, ?_, .pipe hu hv⟩, hsuf₂, ?_⟩
      · rw [htok, hts, ← htake.rest_eq, htok₂]
        simp
      · intro a ha
        exact (List.mem_append.mp ha).elim (hw a) (hw₂ a)
  · exact ⟨⟨u, by simpa using htok, .exec hu⟩, hp, hw⟩

theorem parseline_ends {n : Nat} (ih : AllEnd line n) {s : List Char} (hs : s <:+ line)
    (hn : bound .line (tokens s).length ≤ n + 1) :
    Ends (parseline (n + 1) s) (Parsed line .line s) Panics := by
  simp only [bound] at hn
  rw [parseline]
  refine (ih .pipe s hs (by simp only [bound]; omega)).bind ?_
  rintro ⟨c, s₁⟩ hpipe
  have hle := hpipe.length_le
  obtain ⟨⟨u, htok, hu⟩, hsuf, hw⟩ := hpipe
  refine (parsebacks_ends hsuf hw (by dsimp only at hle ⊢; omega)).bind ?_
  rintro ⟨c', s₂⟩ ⟨k, htok', hmap, hsuf', hw'⟩
  have hle' := congrArg List.length htok'
  simp only [List.length_append, List.length_replicate] at hle'
  have hp := (peek_suffix [';'] s₂).trans hsuf'
  dsimp only at *
  split_ifs with hpeek
  · obtain ⟨ts, hts, htake⟩ := takes_of_peek rfl (by decide) hpeek
    simp only [hts, List.length_cons] at hle'
    refine (ih .line _ (htake.suffix.trans hp) ?_).bind ?_
    · rw [htake.rest_eq, bound]
      omega
    · rintro ⟨d, s₃⟩ ⟨⟨v, htok₂, hv⟩, hsuf₂, hw₂⟩
      refine ⟨⟨u ++ List.replicate k .amp ++ .semi :: v, ?_, ?_⟩, hsuf₂, ?_⟩
      · rw [htok, htok', hts, ← htake.rest_eq, htok₂]
        simp
      · rw [Cmd.map, hmap]
        exact .list k hu hv
      · intro a ha
        exact (List.mem_append.mp ha).elim (hw' a) (hw₂ a)
  · refine ⟨⟨u ++ List.replicate k .amp, ?_, ?_⟩, hp, hw'⟩
    · rw [htok, htok']
      simp
    · rw [hmap]
      exact .line k hu

theorem parseblock_ends {n : Nat} (ih : AllEnd line n) {s : List Char} (hs : s <:+ line)
    (hn : 4 * (tokens s).length + 1 ≤ n + 1) :
    Ends (parseblock (n + 1) s) (Parsed line .exec s) Panics := by
  have hp := (peek_suffix ['('] s).trans hs
  rw [parseblock]
  dsimp only
  split_ifs with hpeek
  · obtain ⟨ts, hts, htake⟩ := takes_of_peek rfl (by decide) hpeek
    simp only [hts, List.length_cons] at hn
    refine (ih .line _ (htake.suffix.trans hp) ?_).bind ?_
    · rw [htake.rest_eq, bound]
      omega
    · rintro ⟨c, s₁⟩ hline
      have hle := hline.length_le
      rw [htake.rest_eq] at hle
      obtain ⟨⟨u, htok, hu⟩, hsuf, hw⟩ := hline
      have hp₁ := (peek_suffix [')'] s₁).trans hsuf
      dsimp only at *
      split_ifs with hpeek₁
      · obtain ⟨ts₁, hts₁, htake₁⟩ := takes_of_peek rfl (by decide) hpeek₁
        simp only [hts₁, List.length_cons] at hle
        refine (parseredirs_ends (htake₁.suffix.trans hp₁) hw ?_).mono ?_
        · rw [htake₁.rest_eq]
          omega
        · rintro ⟨d, s₂⟩ ⟨v, rs, htok₂, hrs, hmap, hsuf₂, hw₂⟩
          refine ⟨⟨.lparen :: u ++ .rparen :: v, ?_, ?_⟩, hsuf₂, hw₂⟩
          · rw [hts, ← htake.rest_eq, htok, hts₁, ← htake₁.rest_eq, htok₂]
            simp
          · rw [hmap]
            exact .block hu hrs
      · exact panics _
  · exact panics _

theorem parseexec_ends {n : Nat} (ih : AllEnd line n) {s : List Char} (hs : s <:+ line)
    (hn : bound .exec (tokens s).length ≤ n + 2) :
    Ends (parseexec (n + 2) s) (Parsed line .exec s) Panics := by
  have hp := (peek_suffix ['('] s).trans hs
  have hpt := tokens_peek ['('] s
  simp only [bound] at hn
  rw [parseexec]
  split_ifs with hpeek
  · have hblock := parseblock_ends ih hp (by rw [hpt]; omega)
    refine hblock.mono ?_
    rintro r ⟨hd, hsuf, hw⟩
    rw [hpt] at hd
    exact ⟨hd, hsuf, hw⟩
  · refine (parseredirs_ends hp (fun _ h => by cases h) (by rw [hpt]; omega)).bind ?_
    rintro ⟨c, s₁⟩ ⟨u, rs, htok, hrs, hmap, hsuf, hw⟩
    rw [hpt] at htok
    have hle := congrArg List.length htok
    simp only [List.length_append] at hle
    refine (parseargs_ends hsuf hw (by dsimp only; omega) (by simp) hmap).mono ?_
    rintro ⟨d, s₂⟩ ⟨v, ws, rs', htok₂, hargs, hlen, hmap₂, hsuf₂, hw₂⟩
    refine ⟨⟨u ++ v, ?_, ?_⟩, hsuf₂, hw₂⟩
    · rw [htok, htok₂]
      simp
    · rw [hmap₂]
      exact .simple hrs hargs hlen

theorem allEnd (line : List Char) (n : Nat) : AllEnd line n := by
  induction n using Nat.strongRec with
  | ind n ih =>
      intro N s hs hn
      -- No function ends within one call.
      match n, N with
      | 0, N => cases N <;> simp only [bound] at hn <;> omega
      | 1, N => cases N <;> simp only [bound] at hn <;> omega
      | n + 2, .line => exact parseline_ends (ih (n + 1) (by omega)) hs hn
      | n + 2, .pipe => exact parsepipe_ends (ih (n + 1) (by omega)) hs hn
      | n + 2, .exec => exact parseexec_ends (ih n (by omega)) hs hn

end Ends

end Xv6Arm.Shell
