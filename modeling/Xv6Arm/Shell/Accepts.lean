import Xv6Arm.Shell.Sound

/-!
# The parser accepts exactly its grammar

`complete` shows by induction on a derivation that the parser finds it.  The
parser looks one token ahead, so it also has to be said which tokens may follow
(`Follows`).

The tree that `parsecmd` returns points into the line.  `nulterminate` writes its
NULs only where a word ends, so it cuts no word, and the strings of the tree are
the words of the derivation.
-/

namespace Xv6Arm.Shell

/-! ## What has a derivation is parsed -/

section Complete

/-- The tokens that may follow what a nonterminal derives. -/
def Nonterminal.follow : Nonterminal → List Token
  | .line => [.rparen]
  | .pipe => [.rparen, .amp, .semi]
  | .exec => [.rparen, .amp, .semi, .bar]

def Follows (N : Nonterminal) (v : List Token) : Prop := ∀ t ∈ v.head?, t ∈ N.follow

/-- The parser returns the tree and stops before `v`. -/
def Yields (x : Parse (Cmd Span × List Char)) (c : Cmd (List Char)) (v : List Token) : Prop :=
  ∃ r, x = .ok r ∧ r.1.map Span.text = c ∧ tokens r.2 = v

theorem Yields.bind {x : Parse (Cmd Span × List Char)} {c d : Cmd (List Char)}
    {v v' : List Token} {g : Cmd Span × List Char → Parse (Cmd Span × List Char)}
    (h : Yields x c v)
    (hg : ∀ r, r.1.map Span.text = c → tokens r.2 = v → Yields (g r) d v') :
    Yields (x >>= g) d v' := by
  obtain ⟨r, rfl, hmap, hv⟩ := h
  exact hg r hmap hv

/-- `peek` finds nothing where the next token is another one. -/
theorem peek_false {toks s : List Char} {v : List Token} (hsub : toks ⊆ symbols)
    (h : tokens s = v) (hv : ∀ t ∈ v.head?, t.starts toks = false) : (peek toks s).1 = false := by
  cases v with
  | nil => exact peek_of_nil toks h hsub
  | cons t ts => rw [peek_of_cons toks h hsub, hv t rfl]

theorem Follows.starts {N : Nonterminal} {v : List Token} (h : Follows N v) (toks : List Char)
    (hN : ∀ t ∈ N.follow, t.starts toks = false) : ∀ t ∈ v.head?, t.starts toks = false :=
  fun t ht => hN t (h t ht)

theorem RedirOp.starts_token (op : RedirOp) : op.token.starts ['<', '>'] = true := by
  cases op <;> rfl

theorem parseredirs_complete {u : List Token} {rs : List (RedirOp × List Char)}
    (h : Redirs u rs) : ∀ {n : Nat} (cmd : Cmd Span) {s : List Char} {v : List Token},
    tokens s = u ++ v → (∀ t ∈ v.head?, t.starts ['<', '>'] = false) → (tokens s).length < n →
    Yields (parseredirs n cmd s) (wrapAll rs (cmd.map Span.text)) v := by
  induction h with
  | nil =>
      intro n cmd s v hs hv hn
      obtain ⟨n, rfl⟩ : ∃ m, n = m + 1 := ⟨n - 1, by omega⟩
      have hpeek := peek_false (by simp [symbols]) hs hv
      simp only [parseredirs, hpeek]
      exact ⟨_, rfl, rfl, by simpa using hs⟩
  | @cons op file u rs hu ih =>
      intro n cmd s v hs hv hn
      obtain ⟨n, rfl⟩ : ∃ m, n = m + 1 := ⟨n - 1, by omega⟩
      rw [List.cons_append, List.cons_append] at hs
      have hpeek := peek_of_cons ['<', '>'] hs (by simp [symbols])
      rw [op.starts_token] at hpeek
      have htake := gettoken_cons ((tokens_peek ['<', '>'] s).trans hs)
      have hfile := gettoken_cons htake.rest_eq
      have hword : (gettoken (gettoken (peek ['<', '>'] s).2).rest).ret = 'a' := hfile.ret_eq
      have hn' : (tokens (gettoken (gettoken (peek ['<', '>'] s).2).rest).rest).length < n := by
        rw [hs, List.length_cons, List.length_cons] at hn
        rw [hfile.rest_eq]
        omega
      have hrec := ih (op.wrap cmd (gettoken (gettoken (peek ['<', '>'] s).2).rest).str)
        hfile.rest_eq hv hn'
      rw [map_wrap, (hfile.spells file rfl).text_eq] at hrec
      simp only [parseredirs, hpeek, hword, htake.ret_eq, redircmd_token, if_true, ne_eq,
        not_true_eq_false, if_false]
      exact hrec

theorem Args.starts {u v : List Token} {ws : List (List Char)} {rs : List (RedirOp × List Char)}
    {toks : List Char} (h : Args u ws rs) (hv : ∀ t ∈ v.head?, t.starts toks = false) :
    ∀ t ∈ (u ++ v).head?, t.starts toks = false := by
  cases h with
  | nil => exact hv
  | cons w hu hargs =>
      rintro t ⟨⟩
      rfl

theorem Redirs.starts {u v : List Token} {rs : List (RedirOp × List Char)} (h : Redirs u rs)
    (hv : ∀ t ∈ v.head?, t.starts ['('] = false) :
    ∀ t ∈ (u ++ v).head?, t.starts ['('] = false := by
  cases h with
  | nil => exact hv
  | cons op file hu =>
      rintro t ⟨⟩
      cases op <;> rfl

theorem parseargs_complete {u : List Token} {ws : List (List Char)}
    {rs : List (RedirOp × List Char)} (h : Args u ws rs) :
    ∀ {n : Nat} {cmd : Cmd Span} {s : List Char} {v : List Token} {ws₀ : List (List Char)}
      {rs₀ : List (RedirOp × List Char)}, tokens s = u ++ v → Follows .exec v →
    (tokens s).length < n → (ws₀ ++ ws).length ≤ MAXARGS - 1 →
    cmd.map Span.text = wrapAll rs₀ (.exec ws₀) →
    Yields (parseargs n ws₀.length cmd s) (wrapAll (rs₀ ++ rs) (.exec (ws₀ ++ ws))) v := by
  induction h with
  | nil =>
      intro n cmd s v ws₀ rs₀ hs hv hn _ hmap
      obtain ⟨n, rfl⟩ : ∃ m, n = m + 1 := ⟨n - 1, by omega⟩
      rw [List.nil_append] at hs
      simp only [parseargs, List.append_nil]
      cases v with
      | nil =>
          have hpeek := peek_of_nil ['|', ')', '&', ';'] hs (by simp [symbols])
          have hnil := gettoken_nil ((tokens_peek ['|', ')', '&', ';'] s).trans hs)
          simp only [hpeek, hnil.1]
          exact ⟨_, rfl, hmap, by simp [hnil.2, tokens]⟩
      | cons t ts =>
          have hpeek := peek_of_cons ['|', ')', '&', ';'] hs (by simp [symbols])
          have ht : ∀ t ∈ Nonterminal.exec.follow, t.starts ['|', ')', '&', ';'] = true := by
            decide
          rw [ht t (hv t rfl)] at hpeek
          simp only [hpeek]
          exact ⟨_, rfl, hmap, by simpa using hs⟩
  | @cons w u v ws rs rs' hu hargs ih =>
      intro n cmd s v' ws₀ rs₀ hs hv hn hlen hmap
      obtain ⟨n, rfl⟩ : ∃ m, n = m + 1 := ⟨n - 1, by omega⟩
      rw [List.cons_append, List.append_assoc] at hs
      have hpeek := peek_of_cons ['|', ')', '&', ';'] hs (by simp [symbols])
      have htake := gettoken_cons ((tokens_peek ['|', ')', '&', ';'] s).trans hs)
      have hword : (gettoken (peek ['|', ')', '&', ';'] s).2).ret = 'a' := htake.ret_eq
      rw [hs, List.length_cons] at hn
      rw [List.length_append, List.length_cons] at hlen
      have hroom : ¬ MAXARGS ≤ ws₀.length + 1 := by
        rw [MAXARGS] at hlen ⊢
        omega
      have hfalse : (peek ['|', ')', '&', ';'] s).1 = false := hpeek
      simp only [parseargs, hfalse, hword, hroom, if_false, ne_eq, not_true_eq_false,
        Bool.false_eq_true, Char.reduceEq]
      have hredirs := parseredirs_complete hu
        (cmd.addArg (gettoken (peek ['|', ')', '&', ';'] s).2).str) htake.rest_eq
        (hargs.starts (hv.starts _ (by decide))) (n := n) (by rw [htake.rest_eq]; omega)
      rw [Cmd.map_addArg, hmap, addArg_wrapAll, (htake.spells w rfl).text_eq, Cmd.addArg, wrapAll,
        wrapAll, ← List.foldl_append, ← wrapAll] at hredirs
      refine hredirs.bind fun r hr hrv => ?_
      have hrec := ih (n := n) hrv hv (by
        rw [hrv]
        simp only [List.length_append] at hn ⊢
        omega) (by simpa using hlen) hr
      simpa using hrec

theorem parsebacks_complete {k : Nat} : ∀ {n : Nat} (cmd : Cmd Span) {s : List Char}
    {v : List Token}, tokens s = List.replicate k .amp ++ v →
    (∀ t ∈ v.head?, t.starts ['&'] = false) → (tokens s).length < n →
    Yields (parsebacks n cmd s) (backs k (cmd.map Span.text)) v := by
  induction k with
  | zero =>
      intro n cmd s v hs hv hn
      obtain ⟨n, rfl⟩ : ∃ m, n = m + 1 := ⟨n - 1, by omega⟩
      have hpeek := peek_false (by simp [symbols]) hs hv
      simp only [parsebacks, hpeek]
      exact ⟨_, rfl, rfl, by simpa using hs⟩
  | succ k ih =>
      intro n cmd s v hs hv hn
      obtain ⟨n, rfl⟩ : ∃ m, n = m + 1 := ⟨n - 1, by omega⟩
      rw [List.replicate_succ, List.cons_append] at hs
      obtain ⟨hpeek, htake⟩ := takes_of_tokens '&' rfl hs
      simp only [parsebacks, hpeek, if_true]
      rw [hs, List.length_cons] at hn
      exact ih (.back cmd) htake.rest_eq hv (by rw [htake.rest_eq]; omega)

theorem Follows.mono {N N' : Nonterminal} {v : List Token} (h : Follows N v)
    (hsub : N.follow ⊆ N'.follow) : Follows N' v :=
  fun t ht => hsub (h t ht)

theorem follows_cons {N : Nonterminal} {t : Token} (v : List Token) (h : t ∈ N.follow) :
    Follows N (t :: v) := by
  rintro t' ⟨⟩
  exact h

theorem follows_amps {v : List Token} (h : Follows .pipe v) (k : Nat) :
    Follows .pipe (List.replicate k .amp ++ v) := by
  cases k with
  | zero => exact h
  | succ k => exact follows_cons _ (by decide)

/-- The parser finds the tree wherever the tokens stand and a token follows that ends
them. -/
def Found (N : Nonterminal) (u : List Token) (c : Cmd (List Char)) : Prop :=
  ∀ {s : List Char} {v : List Token} {n : Nat}, tokens s = u ++ v → Follows N v →
    bound N (tokens s).length ≤ n → Yields (parse N n s) c v

theorem exists_succ_of_bound {N : Nonterminal} {k n : Nat} (h : bound N k ≤ n) :
    ∃ m, n = m + 2 := by
  refine ⟨n - 2, ?_⟩
  cases N <;> rw [bound] at h <;> omega

section

variable {u v : List Token} {c d : Cmd (List Char)}

theorem Found.line (hu : Found .pipe u c) (k : Nat) :
    Found .line (u ++ List.replicate k .amp) (backs k c) := by
  intro s v n hs hv hn
  obtain ⟨n, rfl⟩ := exists_succ_of_bound hn
  rw [bound] at hn
  rw [List.append_assoc] at hs
  have hpipe := hu hs (follows_amps (hv.mono (by decide)) k) (n := n + 1) (by rw [bound]; omega)
  rw [parse, parseline]
  refine hpipe.bind fun r hr hrv => ?_
  have hlen : (tokens r.2).length ≤ (tokens s).length := by simp [hs, hrv]
  have hbacks := parsebacks_complete r.1 hrv (hv.starts _ (by decide)) (n := n + 1) (by omega)
  refine hbacks.bind fun r' hr' hrv' => ?_
  have hpeek := peek_false (by simp [symbols]) hrv' (hv.starts [';'] (by decide))
  rw [hr] at hr'
  simp only [hpeek]
  exact ⟨_, rfl, hr', by simpa using hrv'⟩

theorem Found.list (hu : Found .pipe u c) (hv : Found .line v d) (k : Nat) :
    Found .line (u ++ List.replicate k .amp ++ .semi :: v) (.list (backs k c) d) := by
  intro s v' n hs hv' hn
  obtain ⟨n, rfl⟩ := exists_succ_of_bound hn
  rw [bound] at hn
  rw [List.append_assoc, List.append_assoc, List.cons_append] at hs
  have hpipe := hu hs (follows_amps (follows_cons _ (by decide)) k) (n := n + 1)
    (by rw [bound]; omega)
  rw [parse, parseline]
  refine hpipe.bind fun r hr hrv => ?_
  have hlen : (tokens r.2).length ≤ (tokens s).length := by simp [hs, hrv]
  have hbacks := parsebacks_complete r.1 hrv (fun t ht => by cases ht; rfl) (n := n + 1)
    (by omega)
  refine hbacks.bind fun r' hr' hrv' => ?_
  rw [hr] at hr'
  obtain ⟨hpeek, htake⟩ := takes_of_tokens ';' rfl hrv'
  have hlen' : (v ++ v').length < (tokens s).length := by
    simp only [hs, List.length_append, List.length_cons]
    omega
  simp only [hpeek, if_true]
  have hright := hv htake.rest_eq hv' (n := n + 1) (by rw [htake.rest_eq, bound]; omega)
  refine hright.bind fun r'' hr'' hrv'' => ?_
  exact ⟨_, rfl, by rw [Cmd.map, hr', hr''], hrv''⟩

theorem Found.exec (hu : Found .exec u c) : Found .pipe u c := by
  intro s v n hs hv hn
  obtain ⟨n, rfl⟩ := exists_succ_of_bound hn
  rw [bound] at hn
  rw [parse, parsepipe]
  have hexec := hu hs (hv.mono (by decide)) (n := n + 1) (by rw [bound]; omega)
  refine hexec.bind fun r hr hrv => ?_
  have hpeek := peek_false (by simp [symbols]) hrv (hv.starts ['|'] (by decide))
  simp only [hpeek]
  exact ⟨_, rfl, hr, by simpa using hrv⟩

theorem Found.pipe (hu : Found .exec u c) (hv : Found .pipe v d) :
    Found .pipe (u ++ .bar :: v) (.pipe c d) := by
  intro s v' n hs hv' hn
  obtain ⟨n, rfl⟩ := exists_succ_of_bound hn
  rw [bound] at hn
  rw [List.append_assoc, List.cons_append] at hs
  rw [parse, parsepipe]
  have hexec := hu hs (follows_cons _ (by decide)) (n := n + 1) (by rw [bound]; omega)
  refine hexec.bind fun r hr hrv => ?_
  obtain ⟨hpeek, htake⟩ := takes_of_tokens '|' rfl hrv
  have hlen : (v ++ v').length < (tokens s).length := by
    simp only [hs, List.length_append, List.length_cons]
    omega
  simp only [hpeek, if_true]
  have hright := hv htake.rest_eq hv' (n := n + 1) (by rw [htake.rest_eq, bound]; omega)
  refine hright.bind fun r' hr' hrv' => ?_
  exact ⟨_, rfl, by rw [Cmd.map, hr, hr'], hrv'⟩

theorem Found.block {rs : List (RedirOp × List Char)} (hu : Found .line u c)
    (hrs : Redirs v rs) : Found .exec (.lparen :: u ++ .rparen :: v) (wrapAll rs c) := by
  intro s v' n hs hv' hn
  obtain ⟨n, rfl⟩ := exists_succ_of_bound hn
  rw [bound] at hn
  rw [List.append_assoc, List.cons_append, List.cons_append] at hs
  have hlen : (u ++ .rparen :: (v ++ v')).length + 1 = (tokens s).length := by
    rw [hs, List.length_cons]
  have hpeek := (takes_of_tokens '(' rfl hs).1
  obtain ⟨hpeek', htake⟩ := takes_of_tokens '(' rfl ((tokens_peek ['('] s).trans hs)
  rw [parse, parseexec]
  simp only [hpeek, if_true]
  rw [parseblock]
  simp only [hpeek', if_true]
  have hline := hu htake.rest_eq (follows_cons _ (by decide)) (n := n)
    (by rw [htake.rest_eq, bound]; omega)
  refine hline.bind fun r hr hrv => ?_
  obtain ⟨hclose, htake'⟩ := takes_of_tokens ')' rfl hrv
  simp only [hclose, if_true]
  rw [← hr]
  refine parseredirs_complete hrs r.1 htake'.rest_eq (hv'.starts _ (by decide)) ?_
  rw [htake'.rest_eq]
  simp only [List.length_append, List.length_cons] at hlen ⊢
  omega

theorem found_simple {ws : List (List Char)} {rs rs' : List (RedirOp × List Char)}
    (hrs : Redirs u rs) (hargs : Args v ws rs') (hlen : ws.length ≤ MAXARGS - 1) :
    Found .exec (u ++ v) (wrapAll (rs ++ rs') (.exec ws)) := by
  intro s v' n hs hv' hn
  obtain ⟨n, rfl⟩ := exists_succ_of_bound hn
  rw [bound] at hn
  rw [List.append_assoc] at hs
  have hpeek := peek_false (by simp [symbols]) hs
    (hrs.starts (hargs.starts (hv'.starts _ (by decide))))
  have hs' := (tokens_peek ['('] s).trans hs
  have hredirs := parseredirs_complete hrs (.exec []) hs'
    (hargs.starts (hv'.starts _ (by decide))) (n := n + 1) (by rw [tokens_peek]; omega)
  rw [parse, parseexec]
  simp only [hpeek, Bool.false_eq_true, if_false]
  refine hredirs.bind fun r hr hrv => ?_
  have hle : (tokens r.2).length ≤ (tokens s).length := by simp [hs, hrv]
  have hlen' : (([] : List (List Char)) ++ ws).length ≤ MAXARGS - 1 := hlen
  exact parseargs_complete hargs hrv hv' (by omega) hlen' hr

end

/-- Every derivation is found. -/
theorem complete {N : Nonterminal} {u : List Token} {c : Cmd (List Char)} (h : Derives N u c) :
    Found N u c := by
  induction h with
  | line k _ ih => exact ih.line k
  | list k _ _ ihu ihv => exact ihu.list ihv k
  | exec _ ih => exact ih.exec
  | pipe _ _ ihu ihv => exact ihu.pipe ihv
  | block _ hrs ih => exact ih.block hrs
  | simple hrs hargs hlen => exact found_simple hrs hargs hlen

end Complete

/-! ## Strings -/

section Strings

variable {s buf : List Char}

/-- The buffer holds the line, except for NULs at characters that are in no word. -/
structure Cut (s buf : List Char) : Prop where
  last : buf[s.length]? = some '\x00'
  char : ∀ (i : Nat) (c : Char), s[i]? = some c →
    buf[i]? = some c ∨ (buf[i]? = some '\x00' ∧ isWordChar c = false)

/-- Ends a counted string. -/
def terminate (s buf : List Char) (a : Span) : List Char := buf.set (addr s a.eq) '\x00'

theorem nulterminate_eq (s : List Char) (c : Cmd Span) : ∀ buf,
    nulterminate s c buf = c.strings.foldl (terminate s) buf := by
  induction c with
  | exec argv => exact fun _ => rfl
  | redir cmd file mode fd ih =>
      intro buf
      simp [nulterminate, Cmd.strings, ih, terminate]
  | pipe l r ihl ihr =>
      intro buf
      simp [nulterminate, Cmd.strings, ihl, ihr]
  | list l r ihl ihr =>
      intro buf
      simp [nulterminate, Cmd.strings, ihl, ihr]
  | back c ih => exact ih

/-- A word of the line in the buffer: where it stands and where it ends. -/
theorem Span.Spells.place {a : Span} {w : List Char} (h : a.Spells s w) :
    ∃ pre, s = pre ++ w ++ a.eq ∧ addr s a.q = pre.length ∧
      addr s a.eq = pre.length + w.length := by
  obtain ⟨pre, rfl⟩ := h.suffix
  refine ⟨pre, ?_, ?_, ?_⟩
  · rw [h.text, List.append_assoc]
  · simp [addr]
  · simp only [addr, h.text, List.length_append]
    omega

/-- The character where a word ends is in no word. -/
theorem Span.Spells.end_char {a : Span} {w : List Char} (h : a.Spells s w) {c : Char}
    (hc : s[addr s a.eq]? = some c) : isWordChar c = false := by
  obtain ⟨pre, hline, -, haddr⟩ := h.place
  apply h.stop
  rw [haddr, hline] at hc
  rw [List.head?_eq_getElem?]
  simpa [List.getElem?_append_right] using hc

theorem Cut.terminate (h : Cut s buf) {a : Span} {w : List Char} (ha : a.Spells s w) :
    Cut s (terminate s buf a) ∧
      (Shell.terminate s buf a)[addr s a.eq]? = some '\x00' := by
  have hle : addr s a.eq ≤ s.length := Nat.sub_le _ _
  have hlast : s.length < buf.length := (List.getElem?_eq_some_iff.mp h.last).1
  have hset (i : Nat) : (Shell.terminate s buf a)[i]? =
      if i = addr s a.eq then some '\x00' else buf[i]? := by
    rw [Shell.terminate, List.getElem?_set]
    split_ifs <;> first | rfl | omega
  refine ⟨⟨?_, ?_⟩, ?_⟩
  · rw [hset]
    split_ifs
    · rfl
    · exact h.last
  · intro i c hc
    rw [hset]
    split_ifs with hi
    · subst hi
      exact .inr ⟨rfl, ha.end_char hc⟩
    · exact h.char i c hc
  · rw [hset, if_pos rfl]

/-- After every string of a list is ended, the buffer is still cut at no word, and
what was ended stays ended. -/
theorem foldl_terminate {l : List Span} : ∀ {buf : List Char}, Cut s buf →
    (∀ a ∈ l, ∃ w, a.Spells s w) →
    Cut s (l.foldl (terminate s) buf) ∧
      (∀ i : Nat, buf[i]? = some '\x00' → (l.foldl (terminate s) buf)[i]? = some '\x00') ∧
      ∀ a ∈ l, (l.foldl (terminate s) buf)[addr s a.eq]? = some '\x00' := by
  induction l with
  | nil => exact fun h _ => ⟨h, fun _ hi => hi, by simp⟩
  | cons a l ih =>
      intro buf h hl
      obtain ⟨w, ha⟩ := hl a List.mem_cons_self
      obtain ⟨hcut, hend⟩ := h.terminate ha
      obtain ⟨hcut', hkeep, hends⟩ := ih hcut fun b hb => hl b (List.mem_cons_of_mem a hb)
      refine ⟨hcut', fun i hi => hkeep i ?_, ?_⟩
      · rw [terminate, List.getElem?_set]
        have hlt : i < buf.length := (List.getElem?_eq_some_iff.mp hi).1
        split_ifs <;> first | rfl | exact hi | omega
      · intro b hb
        rcases List.mem_cons.mp hb with rfl | hb
        · exact hkeep _ hend
        · exact hends b hb

/-- A text that starts with `w` and a NUL after it. -/
theorem takeWhile_eq {w : List Char} : ∀ {l : List Char}, '\x00' ∉ w →
    (∀ (j : Nat) (c : Char), w[j]? = some c → l[j]? = some c) → l[w.length]? = some '\x00' →
    (l.takeWhile fun c => c ≠ '\x00') = w := by
  induction w with
  | nil =>
      intro l _ _ hend
      cases l with
      | nil => rfl
      | cons c l =>
          cases hend
          rfl
  | cons c w ih =>
      intro l hnul hw hend
      cases l with
      | nil => cases hend
      | cons d l =>
          have hd : d = c := Option.some.inj (hw 0 c rfl)
          subst hd
          have hne : d ≠ '\x00' := fun h => hnul (h ▸ List.mem_cons_self)
          have hrest := ih (l := l) (fun h => hnul (List.mem_cons_of_mem _ h))
            (fun j c hj => hw (j + 1) c hj) hend
          rw [List.takeWhile_cons_of_pos (by simpa using hne), hrest]

/-- A string that is ended is the word it points to. -/
theorem Cut.stringAt (h : Cut s buf) (hline : '\x00' ∉ s) {a : Span} {w : List Char}
    (ha : a.Spells s w) (hend : buf[addr s a.eq]? = some '\x00') :
    stringAt s buf a.q = w := by
  obtain ⟨pre, hpre, hq, heq⟩ := ha.place
  refine takeWhile_eq ?_ ?_ ?_
  · intro hnul
    refine hline ?_
    rw [hpre]
    simp [hnul]
  · intro j c hj
    have hc : s[pre.length + j]? = some c := by
      have hj' : j < w.length := (List.getElem?_eq_some_iff.mp hj).1
      rw [hpre, List.append_assoc, List.getElem?_append_right (by omega)]
      simpa [List.getElem?_append_left hj'] using hj
    rw [List.getElem?_drop, hq]
    refine (h.char _ _ hc).resolve_right ?_
    rintro ⟨-, hnot⟩
    rw [ha.chars c (List.mem_of_getElem? hj)] at hnot
    cases hnot
  · rw [List.getElem?_drop, hq, ← heq, hend]

theorem cut_start (s : List Char) : Cut s (s ++ ['\x00']) where
  last := by simp
  char := by
    intro i c hc
    have hi : i < s.length := (List.getElem?_eq_some_iff.mp hc).1
    exact .inl (by rw [List.getElem?_append_left hi, hc])

/-- The strings of the tree are the words it points to. -/
theorem nulterminate_strings (hline : '\x00' ∉ s) {c : Cmd Span} (hc : Within s c) :
    ∀ a ∈ c.strings,
      stringAt s (nulterminate s c (s ++ ['\x00'])) a.q = a.text := by
  intro a ha
  obtain ⟨hcut, -, hends⟩ := foldl_terminate (cut_start s) hc
  rw [← nulterminate_eq] at hcut hends
  obtain ⟨w, hw⟩ := hc a ha
  rw [hcut.stringAt hline hw (hends a ha), hw.text_eq]

theorem Cmd.map_congr {σ τ : Type} {f g : σ → τ} {c : Cmd σ} (h : ∀ a ∈ c.strings, f a = g a) :
    c.map f = c.map g := by
  induction c with
  | exec argv => exact congrArg Cmd.exec (List.map_congr_left h)
  | redir cmd file mode fd ih =>
      have hfile := h file (List.mem_append_right _ (List.mem_singleton.mpr rfl))
      rw [Cmd.map, Cmd.map, ih fun a ha => h a (List.mem_append_left _ ha), hfile]
  | pipe l r ihl ihr =>
      rw [Cmd.map, Cmd.map, ihl fun a ha => h a (List.mem_append_left _ ha),
        ihr fun a ha => h a (List.mem_append_right _ ha)]
  | list l r ihl ihr =>
      rw [Cmd.map, Cmd.map, ihl fun a ha => h a (List.mem_append_left _ ha),
        ihr fun a ha => h a (List.mem_append_right _ ha)]
  | back c ih => rw [Cmd.map, Cmd.map, ih h]

end Strings

/-! ## Lines -/

theorem length_tokens_le (s : List Char) : (tokens s).length ≤ s.length := by
  fun_induction tokens s with
  | case1 => simp
  | case2 c s hc ih => simp; omega
  | case3 c s hc happ ih => simp at ih ⊢; omega
  | case4 c s hc happ t ht ih => simp; omega
  | case5 c s hc happ ht ih =>
      have hle := (List.dropWhile_sublist isWordChar (l := s)).length_le
      simp
      omega

/-- The parser returns a tree, and these are its strings. -/
def Accepts (fuel : Nat) (s : List Char) (t : Cmd (List Char)) : Prop :=
  ∃ cmd buf, parsecmd fuel s = .ok (cmd, buf) ∧ (cmd.map fun a => stringAt s buf a.q) = t

section

variable {s : List Char} {fuel : Nat}

theorem bound_le (hfuel : 4 * s.length + 4 ≤ fuel) : bound .line (tokens s).length ≤ fuel := by
  have hle := length_tokens_le s
  rw [bound]
  omega

theorem parsecmd_ends (hs : '\x00' ∉ s) (hfuel : 4 * s.length + 4 ≤ fuel) :
    Fallible.Ends (parsecmd fuel s) (fun r => Derives .line (tokens s)
      (r.1.map fun a => stringAt s r.2 a.q)) Panics := by
  refine (allEnd s fuel .line s List.suffix_rfl (bound_le hfuel)).bind ?_
  rintro ⟨c, rest⟩ ⟨⟨u, htok, hu⟩, -, hw⟩
  dsimp only at *
  split_ifs with hrest
  · exact panics _
  · have hnil : tokens rest = [] := by
      rw [← tokens_peek [], not_not.mp hrest, tokens]
    rw [hnil, List.append_nil] at htok
    rw [htok, Fallible.Ends, Cmd.map_congr (nulterminate_strings hs hw)]
    exact hu

theorem accepts_of_derives (hs : '\x00' ∉ s) (hfuel : 4 * s.length + 4 ≤ fuel)
    {t : Cmd (List Char)} (h : Derives .line (tokens s) t) : Accepts fuel s t := by
  obtain ⟨r, hr, hmap, hrest⟩ :=
    complete h (List.append_nil _).symm (fun _ ht => by cases ht) (bound_le hfuel)
  have hw : Within s r.1 := by
    have hend := allEnd s fuel .line s List.suffix_rfl (bound_le hfuel)
    rw [hr] at hend
    exact hend.within
  have hnil : (peek [] r.2).2 = [] := by
    rcases first_cases r.2 with ⟨h, -⟩ | ⟨c, r', t', -, -, htok⟩
    · exact h
    · rw [hrest] at htok
      cases htok
  refine ⟨r.1, nulterminate s r.1 (s ++ ['\x00']), ?_, ?_⟩
  · rw [parse] at hr
    simp [parsecmd, hr, hnil]
  · rw [Cmd.map_congr (nulterminate_strings hs hw), hmap]

end

/-- The parser ends on every line.  It returns a tree exactly if the tokens of the line
derive from the grammar, and the tree is the one of the derivation, which is
unique. -/
theorem parsecmd_accepts (s : List Char) (hs : '\x00' ∉ s) (fuel : Nat)
    (hfuel : 4 * s.length + 4 ≤ fuel) :
    parsecmd fuel s ≠ .error .fuel ∧
      (∀ t, Accepts fuel s t ↔ Derives .line (tokens s) t) ∧
      ∀ t t', Derives .line (tokens s) t → Derives .line (tokens s) t' → t = t' := by
  have hends := parsecmd_ends hs hfuel
  refine ⟨?_, fun t => ⟨?_, accepts_of_derives hs hfuel⟩, ?_⟩
  · intro h
    rw [h] at hends
    exact hends rfl
  · rintro ⟨cmd, buf, h, rfl⟩
    rw [h] at hends
    exact hends
  · intro t t' ht ht'
    obtain ⟨cmd, buf, h, rfl⟩ := accepts_of_derives hs hfuel ht
    obtain ⟨cmd', buf', h', rfl⟩ := accepts_of_derives hs hfuel ht'
    rw [h] at h'
    cases h'
    rfl

/-- `a<b|(c;)&` -/
theorem parsecmd_accepts_block :
    '\x00' ∉ ['a', '<', 'b', '|', '(', 'c', ';', ')', '&'] ∧
      Derives .line (tokens ['a', '<', 'b', '|', '(', 'c', ';', ')', '&'])
        (.back (.pipe (.redir (.exec [['a']]) ['b'] O_RDONLY .stdin)
          (.list (.exec [['c']]) (.exec [])))) := by
  have hs : '\x00' ∉ ['a', '<', 'b', '|', '(', 'c', ';', ')', '&'] := by decide
  exact ⟨hs, ((parsecmd_accepts _ hs 40 (by decide)).2.1 _).mp ⟨_, _, rfl, by decide⟩⟩

/-! ## Words -/

section Words

variable {s w : List Char} {a : Span}

theorem strings_map {σ τ : Type} (f : σ → τ) (c : Cmd σ) : (c.map f).strings = c.strings.map f := by
  induction c with
  | exec argv => rfl
  | redir cmd file mode fd ih => simp [Cmd.map, Cmd.strings, ih]
  | pipe l r ihl ihr => simp [Cmd.map, Cmd.strings, ihl, ihr]
  | list l r ihl ihr => simp [Cmd.map, Cmd.strings, ihl, ihr]
  | back c ih => exact ih

theorem strings_backs {σ : Type} (k : Nat) : ∀ c : Cmd σ, (backs k c).strings = c.strings := by
  induction k with
  | zero => exact fun _ => rfl
  | succ k ih => exact fun c => ih (.back c)

theorem strings_wrapAll {σ : Type} (rs : List (RedirOp × σ)) : ∀ c : Cmd σ,
    (wrapAll rs c).strings = c.strings ++ rs.map Prod.snd := by
  induction rs with
  | nil => simp [wrapAll]
  | cons r rs ih =>
      intro c
      have hrest := ih (r.1.wrap c r.2)
      rw [strings_wrap] at hrest
      simpa [wrapAll] using hrest

theorem Redirs.word_mem {u : List Token} {rs : List (RedirOp × List Char)} (h : Redirs u rs) :
    ∀ w ∈ rs.map Prod.snd, .word w ∈ u := by
  induction h with
  | nil => simp
  | cons op file _ ih =>
      intro w hw
      rcases List.mem_cons.mp hw with rfl | hw
      · simp
      · simp [ih w hw]

theorem Args.word_mem {u : List Token} {ws : List (List Char)} {rs : List (RedirOp × List Char)}
    (h : Args u ws rs) : ∀ w ∈ ws ++ rs.map Prod.snd, .word w ∈ u := by
  induction h with
  | nil => simp
  | @cons v _ _ _ rs _ hrs _ ih =>
      intro w hw
      simp only [List.map_append, List.cons_append, List.mem_cons, List.mem_append] at hw ih
      simp only [List.mem_cons, Token.word.injEq, List.mem_append]
      rcases hw with rfl | hw | hw | hw
      · exact .inl rfl
      · exact .inr (.inr (ih w (.inl hw)))
      · exact .inr (.inl (hrs.word_mem w hw))
      · exact .inr (.inr (ih w (.inr hw)))

/-- The strings of a derived tree are words of the line. -/
theorem Derives.word_mem {N : Nonterminal} {u : List Token} {c : Cmd (List Char)}
    (h : Derives N u c) : ∀ w ∈ c.strings, .word w ∈ u := by
  induction h with
  | line k _ ih =>
      intro w hw
      rw [strings_backs] at hw
      exact List.mem_append_left _ (ih w hw)
  | list k _ _ ihu ihv =>
      intro w hw
      rw [Cmd.strings, strings_backs] at hw
      rcases List.mem_append.mp hw with hw | hw
      · simp [ihu w hw]
      · simp [ihv w hw]
  | exec _ ih => exact ih
  | pipe _ _ ihu ihv =>
      intro w hw
      rcases List.mem_append.mp hw with hw | hw
      · simp [ihu w hw]
      · simp [ihv w hw]
  | block _ hrs ih =>
      intro w hw
      rw [strings_wrapAll] at hw
      rcases List.mem_append.mp hw with hw | hw
      · simp [ih w hw]
      · simp [hrs.word_mem w hw]
  | @simple _ _ _ rs _ hrs hargs _ =>
      intro w hw
      rw [strings_wrapAll, Cmd.strings, List.map_append] at hw
      have hargs' := hargs.word_mem w
      simp only [List.mem_append] at hw hargs' ⊢
      rcases hw with hw | hw | hw
      · exact .inr (hargs' (.inl hw))
      · exact .inl (hrs.word_mem w hw)
      · exact .inr (hargs' (.inr hw))

theorem ne_nil_of_word_mem (h : .word w ∈ tokens s) : w ≠ [] := by
  fun_induction tokens s with
  | case1 => simp at h
  | case2 c s hc ih => exact ih h
  | case3 c s hc happ ih => exact ih (by simpa using h)
  | case4 c s hc happ t ht ih =>
      rcases List.mem_cons.mp h with rfl | h
      · exact absurd rfl ((symbol_some ht).2.2.2 w)
      · exact ih h
  | case5 c s hc happ ht ih =>
      rcases List.mem_cons.mp h with h | h
      · cases h
        simp
      · exact ih h

/-- At a word of the line, `gettoken` returns the pointers to its start and to its end. -/
theorem Span.Spells.gettoken_eq (h : a.Spells s w) (hw : w ≠ []) :
    (gettoken a.q).ret = 'a' ∧ (gettoken a.q).str = a := by
  obtain ⟨c, w, rfl⟩ := List.exists_cons_of_ne_nil hw
  have hq : a.q = c :: (w ++ a.eq) := h.text
  have hc := h.chars c List.mem_cons_self
  simp only [isWordChar, Bool.and_eq_true, Bool.not_eq_true'] at hc
  have hsym : symbol c = none := by
    cases ht : symbol c with
    | none => rfl
    | some t => simpa [(symbol_some ht).1] using hc.2
  have hend : (w ++ a.eq).dropWhile isWordChar = a.eq := by
    rw [List.dropWhile_append_of_pos fun d hd => h.chars d (List.mem_cons_of_mem c hd)]
    cases heq : a.eq with
    | nil => rfl
    | cons d r => rw [List.dropWhile_cons_of_neg (by simp [h.stop d (by simp [heq])])]
  have hscan := scan_word (w ++ a.eq) hc.1 hsym
  rw [hend, ← hq] at hscan
  have hskip : skip a.q = a.q := by rw [hq, skip_cons _ hc.1]
  simp only [gettoken, hskip, hscan, true_and]

end Words

/-- The words survive the NULs.  Every string of the tree stands in the line where
`gettoken` has found it, and what is read at its start after `nulterminate` is that
token.  Each NUL goes to a place of the line or to its end. -/
theorem nulterminate_keeps_words (s : List Char) (hs : '\x00' ∉ s) (fuel : Nat)
    (hfuel : 4 * s.length + 4 ≤ fuel) (cmd : Cmd Span) (buf : List Char)
    (h : parsecmd fuel s = .ok (cmd, buf)) :
    (∀ a ∈ cmd.strings, a.q <:+ s ∧ (gettoken a.q).ret = 'a' ∧ (gettoken a.q).str = a ∧
        a.q = a.text ++ a.eq ∧ stringAt s buf a.q = a.text) ∧
      buf = cmd.strings.foldl (fun b a => b.set (addr s a.eq) '\x00') (s ++ ['\x00']) ∧
      ∀ a ∈ cmd.strings, addr s a.eq ≤ s.length ∧ s.drop (addr s a.eq) = a.eq := by
  have hends := allEnd s fuel .line s List.suffix_rfl (bound_le hfuel)
  have htree := parsecmd_ends hs hfuel
  rw [h] at htree
  rw [parse] at hends
  rw [parsecmd] at h
  cases hline : parseline fuel s with
  | error e =>
      rw [hline] at h
      cases h
  | ok r =>
      rw [hline] at h hends
      obtain ⟨-, -, hw⟩ := hends
      simp only [bind, Except.bind] at h
      split_ifs at h
      obtain ⟨rfl, rfl⟩ := Prod.mk.inj (Except.ok.inj h)
      have hstr := nulterminate_strings hs hw
      refine ⟨?_, nulterminate_eq s r.1 _, ?_⟩
      · intro a ha
        obtain ⟨w, hspell⟩ := hw a ha
        have hword : .word (stringAt s (nulterminate s r.1 (s ++ ['\x00'])) a.q) ∈ tokens s := by
          apply htree.word_mem
          rw [strings_map]
          exact List.mem_map_of_mem ha
        rw [hstr a ha, hspell.text_eq] at hword
        obtain ⟨hret, hgot⟩ := hspell.gettoken_eq (ne_nil_of_word_mem hword)
        refine ⟨hspell.suffix, hret, hgot, ?_, hstr a ha⟩
        rw [hspell.text_eq]
        exact hspell.text
      · intro a ha
        obtain ⟨w, hspell⟩ := hw a ha
        obtain ⟨pre, hpre, -, haddr⟩ := hspell.place
        refine ⟨Nat.sub_le _ _, ?_⟩
        rw [haddr, ← List.length_append]
        conv_lhs => rw [hpre]
        exact List.drop_left

/-- `a>b<c` -/
theorem nulterminate_keeps_words_redirs :
    stringAt ['a', '>', 'b', '<', 'c'] ['a', '\x00', 'b', '\x00', 'c', '\x00']
      ['b', '<', 'c'] = ['b'] :=
  ((nulterminate_keeps_words ['a', '>', 'b', '<', 'c'] (by decide) 24 (by decide)
    (.redir (.redir (.exec [⟨['a', '>', 'b', '<', 'c'], ['>', 'b', '<', 'c']⟩])
        ⟨['b', '<', 'c'], ['<', 'c']⟩ (O_WRONLY ||| O_CREATE) .stdout) ⟨['c'], []⟩ O_RDONLY .stdin)
    ['a', '\x00', 'b', '\x00', 'c', '\x00'] rfl).1 ⟨['b', '<', 'c'], ['<', 'c']⟩
    (by decide)).2.2.2.2

end Xv6Arm.Shell
