/-
Scanning token by token.

`tokens` is a recursion on what is left of a text, and either runs to the end or gives up.  Most of
what is said about it concerns a part of that: the tokens up to some place.  `Reads` is the relation
for that, one constructor for each token, and `tokens_cases` says that every scan is such a row of
tokens followed by the end of the text or by a place where it gets stuck.

The point of the relation is that it can be carried over to a longer text.  A token ends where its
first character that does not belong to it stands, and it may look one character further for the
digit after a point.  So text can be put behind without any effect on the tokens before, provided it
is kept apart from the last of them: `Parted` is what that needs, and a line break always has it.
-/
import SmallLisp.Token.Scan

namespace SmallLisp.Scan

/-! ### Lists that are cut at the first character of another kind

Numbers and words are taken from a text as long as their characters last.  Text behind is of no effect
unless all of the text has been taken.
-/

/-- Text put behind a list of characters is not reached by what is taken from its front. -/
theorem span_append (p : Char → Bool) (cs x : List Char)
    (h : cs.dropWhile p = [] → ∀ c ∈ x.head?, p c = false) :
    (cs ++ x).takeWhile p = cs.takeWhile p ∧ (cs ++ x).dropWhile p = cs.dropWhile p ++ x := by
  induction cs with
  | nil =>
      cases x with
      | nil => exact ⟨rfl, rfl⟩
      | cons c x => simp [h rfl c rfl]
  | cons c cs ih =>
      cases hc : p c with
      | false => simp [hc]
      | true =>
          have h' := ih (by simpa [hc] using h)
          simp [hc, h'.1, h'.2]

/-! ### Text behind a token

A number could go on in the text behind, and so could a word.  `Parted` excludes both, and asks something
only where nothing is left of the text itself, or a single point.
-/

/-- Text that can be put behind `rest`, where `rest` follows a token, and leaves that token as it
is. -/
def Parted (rest x : List Char) : Prop :=
  (rest = [] → ∀ c ∈ x.head?, isSymbolPart c = false ∧ c ≠ '.') ∧
    (rest = ['.'] → ∀ c ∈ x.head?, isDigit c = false)

theorem parted_break (rest x : List Char) : Parted rest ('\n' :: x) := by
  constructor <;> intro _ c hc <;> cases hc <;> decide

/-- What stands between a token and the next one keeps them apart, unless it is a single point. -/
theorem parted_of_skip {line start : Nat} {inComment : Bool} {c : Char}
    {rest following : List Char} (hskip : skip line inComment rest = (start, c :: following))
    (hc : c ≠ '.') (x : List Char) : Parted rest x := by
  constructor
  · rintro rfl
    cases hskip
  · rintro rfl
    cases inComment <;> cases hskip
    exact absurd rfl hc

/-- No token begins with a point. -/
theorem ne_point_of_token {line : Nat} {c : Char} {cs : List Char} {r : Token × List Char}
    (h : token line c cs = .ok r) : c ≠ '.' := by
  rintro rfl
  cases h

theorem isSymbolPart_of_isDigit {c : Char} (h : isDigit c = true) : isSymbolPart c = true := by
  simp [isSymbolPart, h]

theorem Parted.not_isDigit {x : List Char} (h : Parted [] x) : ∀ c ∈ x.head?, isDigit c = false := by
  intro c hc
  cases hdigit : isDigit c with
  | false => rfl
  | true =>
      have hpart := isSymbolPart_of_isDigit hdigit
      rw [(h.1 rfl c hc).1] at hpart
      cases hpart

theorem fraction?_append_none {rest x : List Char} (h : fraction? rest = none)
    (hx : Parted rest x) : fraction? (rest ++ x) = none := by
  rcases rest with _ | ⟨c, _ | ⟨d, rest⟩⟩
  · rcases x with _ | ⟨c, x⟩
    · rfl
    · have hpoint := (hx.1 rfl c rfl).2
      rw [List.nil_append]
      unfold fraction?
      split
      · simp_all
      · rfl
  · by_cases hc : c = '.'
    · subst hc
      rcases x with _ | ⟨d, x⟩
      · exact h
      · simp [fraction?, hx.2 rfl d rfl]
    · unfold fraction?
      split <;> simp_all
  · by_cases hc : c = '.'
    · subst hc
      simpa [fraction?] using h
    · unfold fraction?
      split <;> simp_all

theorem fraction?_append_some {cs x digits rest : List Char}
    (h : fraction? cs = some (digits, rest)) (hx : Parted rest x) :
    fraction? (cs ++ x) = some (digits, rest ++ x) := by
  unfold fraction? at h
  split at h
  · rename_i d cs
    split at h
    · rename_i hd
      cases h
      have hspan := span_append isDigit cs x fun hrest =>
        Parted.not_isDigit (hrest ▸ hx)
      simp [fraction?, hd, hspan.1, hspan.2]
    · cases h
  · cases h

theorem number_append {line : Nat} {cs rest x : List Char} {t : Token}
    (h : number line cs = (t, rest)) (hx : Parted rest x) :
    number line (cs ++ x) = (t, rest ++ x) := by
  unfold number at h
  simp only at h
  split at h
  · rename_i hfraction
    cases h
    have hspan := span_append isDigit cs x fun hrest =>
      Parted.not_isDigit (hrest ▸ hx)
    simp [number, hspan.1, hspan.2, fraction?_append_none hfraction hx]
  · rename_i digits rest' hfraction
    cases h
    have hspan := span_append isDigit cs x fun hrest => by
      rw [hrest] at hfraction
      cases hfraction
    simp [number, hspan.1, hspan.2, fraction?_append_some hfraction hx]

theorem word_append {line : Nat} {cs rest x : List Char} {t : Token}
    (h : word line cs = (t, rest)) (hx : Parted rest x) :
    word line (cs ++ x) = (t, rest ++ x) := by
  unfold word at h
  cases h
  have hspan := span_append isSymbolPart cs x fun hrest c hc =>
    (hx.1 hrest c hc).1
  simp [word, hspan.1, hspan.2]

/-! ### Text behind a string

What `closeString` does with a character depends on whether it is a quote, a backslash or neither.
`closeString_escape` and `closeString_cons` are the last two; the proofs below go by induction on
its recursion and meet them in that order.
-/

theorem closeString_escape {c : Char} (hc : c ≠ '\n') (cs : List Char) :
    closeString ('\\' :: c :: cs) =
      (closeString cs).map fun (inside, rest) => ('\\' :: c :: inside, rest) := by
  rw [closeString, if_neg hc]

theorem closeString_cons {c : Char} (hquote : c ≠ '"') (hbackslash : c ≠ '\\') (cs : List Char) :
    closeString (c :: cs) = (closeString cs).map fun (inside, rest) => (c :: inside, rest) := by
  rw [closeString] <;> simp_all

theorem unescape_cons {c : Char} (hc : c ≠ '\\') (cs : List Char) :
    unescape (c :: cs) = (unescape cs).map (c :: ·) := by
  rw [unescape]
  simp_all

/-- A character that is no backslash with text behind it and no backslash at the end. -/
theorem ne_backslash {c : Char} {cs : List Char}
    (hescape : ∀ d ds, c = '\\' → cs = d :: ds → False) (hlone : c = '\\' → cs = [] → False) :
    c ≠ '\\' := by
  intro hc
  cases cs with
  | nil => exact hlone hc rfl
  | cons d ds => exact hescape d ds hc rfl

theorem closeString_append {cs inside rest : List Char}
    (h : closeString cs = some (inside, rest)) (x : List Char) :
    closeString (cs ++ x) = some (inside, rest ++ x) := by
  fun_induction closeString cs generalizing inside with
  | case1 => cases h
  | case2 cs => cases h; rfl
  | case3 => cases h
  | case4 c cs hc ih =>
      obtain ⟨p, hp, heq⟩ := Option.map_eq_some_iff.1 h
      cases heq
      rw [List.cons_append, List.cons_append, closeString_escape hc, ih hp]
      rfl
  | case5 => cases h
  | case6 c cs hquote hescape hlone ih =>
      obtain ⟨p, hp, heq⟩ := Option.map_eq_some_iff.1 h
      cases heq
      rw [List.cons_append, closeString_cons hquote (ne_backslash hescape hlone), ih hp]
      rfl

/-- A line break does not close a string. -/
theorem closeString_append_break {cs : List Char} (h : closeString cs = none) :
    closeString (cs ++ ['\n']) = none := by
  fun_induction closeString cs with
  | case1 => decide
  | case2 => cases h
  | case3 => rfl
  | case4 c cs hc ih =>
      rw [List.cons_append, List.cons_append, closeString_escape hc,
        ih (Option.map_eq_none_iff.1 h)]
      rfl
  | case5 => decide
  | case6 c cs hquote hescape hlone ih =>
      rw [List.cons_append, closeString_cons hquote (ne_backslash hescape hlone),
        ih (Option.map_eq_none_iff.1 h)]
      rfl

/-- A string that closes only in the text behind it holds all the text before. -/
theorem prefix_of_closeString {cs x inside rest : List Char} (h : closeString cs = none)
    (hx : closeString (cs ++ x) = some (inside, rest)) : ∃ more, inside = cs ++ more := by
  fun_induction closeString cs generalizing inside with
  | case1 => exact ⟨inside, rfl⟩
  | case2 => cases h
  | case3 => cases hx
  | case4 c cs hc ih =>
      rw [List.cons_append, List.cons_append, closeString_escape hc] at hx
      obtain ⟨p, hp, heq⟩ := Option.map_eq_some_iff.1 hx
      cases heq
      obtain ⟨more, hmore⟩ := ih (Option.map_eq_none_iff.1 h) hp
      exact ⟨more, by simp [hmore]⟩
  | case5 =>
      cases x with
      | nil => cases hx
      | cons c x =>
          by_cases hc : c = '\n'
          · subst hc; cases hx
          · rw [List.cons_append, List.nil_append, closeString_escape hc] at hx
            obtain ⟨p, hp, heq⟩ := Option.map_eq_some_iff.1 hx
            cases heq
            exact ⟨c :: p.1, rfl⟩
  | case6 c cs hquote hescape hlone ih =>
      rw [List.cons_append, closeString_cons hquote (ne_backslash hescape hlone)] at hx
      obtain ⟨p, hp, heq⟩ := Option.map_eq_some_iff.1 hx
      cases heq
      obtain ⟨more, hmore⟩ := ih (Option.map_eq_none_iff.1 h) hp
      exact ⟨more, by simp [hmore]⟩

/-- What a string is read as: it is closed, and its escapes have a meaning. -/
theorem string_eq_ok_iff {line : Nat} {cs rest : List Char} {t : Token} :
    string line cs = .ok (t, rest) ↔
      ∃ inside text, closeString cs = some (inside, rest) ∧ unescape inside = .ok text ∧
        t = ⟨.string, String.ofList ('"' :: inside ++ ['"']), some (.text (String.ofList text)),
          line⟩ := by
  constructor
  · intro h
    unfold string at h
    split at h
    · cases h
    · rename_i inside rest' hclose
      split at h
      · cases h
      · rename_i text htext
        cases h
        exact ⟨inside, text, hclose, htext, rfl⟩
  · rintro ⟨inside, text, hclose, htext, rfl⟩
    simp [string, hclose, htext]

theorem string_append {line : Nat} {cs rest x : List Char} {t : Token}
    (h : string line cs = .ok (t, rest)) : string line (cs ++ x) = .ok (t, rest ++ x) := by
  obtain ⟨inside, text, hclose, htext, ht⟩ := string_eq_ok_iff.mp h
  exact string_eq_ok_iff.mpr ⟨inside, text, closeString_append hclose x, htext, ht⟩

/-! ### What a token is

The scanner asks for the kinds of tokens one after the other.  The cases are gathered here with what each
of them leaves, so that the order of the questions does not matter any more.
-/

/-- A token is a sign, a number, a string or a word, and its first character says which. -/
theorem token_cases {line : Nat} {c : Char} {cs rest : List Char} {t : Token}
    (h : token line c cs = .ok (t, rest)) :
    (∃ kind, sign? c = some kind ∧ t = ⟨kind, c.toString, none, line⟩ ∧ rest = cs) ∨
      (isDigit c = true ∧ number line (c :: cs) = (t, rest)) ∨
      (c = '"' ∧ string line cs = .ok (t, rest)) ∨
      isSymbolStart c = true ∧ (∀ line cs, token line c cs = .ok (word line (c :: cs))) ∧
        word line (c :: cs) = (t, rest) := by
  unfold token at h
  split at h
  · rename_i kind hsign
    cases h
    exact .inl ⟨kind, hsign, rfl, rfl⟩
  · rename_i hsign
    split at h
    · rename_i hdigit
      exact .inr (.inl ⟨hdigit, Except.ok.inj h⟩)
    · rename_i hdigit
      split at h
      · rename_i hquote
        exact .inr (.inr (.inl ⟨hquote, h⟩))
      · rename_i hquote
        split at h
        · rename_i hstart
          refine .inr (.inr (.inr ⟨hstart, fun line cs => ?_, Except.ok.inj h⟩))
          simp [token, hsign, hdigit, hquote, hstart]
        · cases h

/-! ### Text behind a token or an error

Errors are as stable as tokens are, with one exception: a string without an end may find one in the text
behind.
-/

/-- A token is the same with other text behind it. -/
theorem token_append {line : Nat} {c : Char} {cs rest x : List Char} {t : Token}
    (h : token line c cs = .ok (t, rest)) (hx : Parted rest x) :
    token line c (cs ++ x) = .ok (t, rest ++ x) := by
  unfold token at h ⊢
  split at h
  · cases h; rfl
  · split at h
    · rename_i hdigit
      rw [if_pos hdigit, ← List.cons_append, number_append (Except.ok.inj h) hx]
    · rename_i hdigit
      rw [if_neg hdigit]
      split at h
      · rename_i hquote
        rw [if_pos hquote, string_append h]
      · rename_i hquote
        rw [if_neg hquote]
        split at h
        · rename_i hstart
          rw [if_pos hstart, ← List.cons_append, word_append (Except.ok.inj h) hx]
        · cases h

theorem sign?_quote : sign? '"' = none := by
  decide

theorem token_quote (line : Nat) (cs : List Char) : token line '"' cs = string line cs := by
  simp [token, sign?_quote, isDigit]

/-- The only error that text behind it can mend is that of a string without an end. -/
theorem token_error {line : Nat} {c : Char} {cs : List Char} {e : ScanError}
    (h : token line c cs = .error e) :
    (c = '"' ∧ closeString cs = none ∧ e = .unterminatedString line) ∨
      (∀ l, e ≠ .unterminatedString l) ∧ ∀ x, token line c (cs ++ x) = .error e := by
  by_cases hquote : c = '"'
  · subst hquote
    rw [token_quote] at h
    unfold string at h
    split at h
    · rename_i hclose
      cases h
      exact Or.inl ⟨rfl, hclose, rfl⟩
    · rename_i inside rest hclose
      split at h
      · rename_i d hescape
        cases h
        refine Or.inr ⟨by simp, fun x => ?_⟩
        simp [token_quote, string, closeString_append hclose, hescape]
      · cases h
  · unfold token at h
    split at h
    · cases h
    · rename_i hsign
      split at h
      · cases h
      · rename_i hdigit
        split at h
        · cases h
        · rename_i hstart
          cases h
          refine Or.inr ⟨by simp, fun x => ?_⟩
          simp [token, hsign, hdigit, hquote, hstart]

/-! ### One step of a scan

`tokens` is a recursion that is justified by a length.  Its three equations are stated by what is skipped
and by what is read behind that, and its definition is not unfolded after this.
-/

theorem tokens_of_end {line last : Nat} {cs : List Char} (hskip : skip line false cs = (last, [])) :
    tokens line cs = .ok [Token.endAt (min last lastLine)] := by
  rw [tokens]
  split
  · rename_i last' h
    rw [hskip] at h
    cases h
    rfl
  · rename_i start c following h
    rw [hskip] at h
    cases h

theorem tokens_of_error {line start : Nat} {c : Char} {cs following : List Char} {e : ScanError}
    (hskip : skip line false cs = (start, c :: following))
    (htoken : token (min start lastLine) c following = .error e) : tokens line cs = .error e := by
  rw [tokens]
  split
  · rename_i last h
    rw [hskip] at h
    cases h
  · rename_i start' c' following' h
    rw [hskip] at h
    cases h
    split
    · rename_i e' h
      rw [htoken] at h
      cases h
      rfl
    · rename_i t rest h
      rw [htoken] at h
      cases h

theorem tokens_of_token {line start : Nat} {c : Char} {cs following rest : List Char} {t : Token}
    (hskip : skip line false cs = (start, c :: following))
    (htoken : token (min start lastLine) c following = .ok (t, rest)) :
    tokens line cs = (tokens (start + lineBreaks t.lexeme.toList) rest).map (t :: ·) := by
  rw [tokens]
  split
  · rename_i last h
    rw [hskip] at h
    cases h
  · rename_i start' c' following' h
    rw [hskip] at h
    cases h
    split
    · rename_i e' h
      rw [htoken] at h
      cases h
    · rename_i t' rest' h
      rw [htoken] at h
      cases h
      rfl

/-- A scan depends on its text only through the place where the first token begins. -/
theorem tokens_congr {line line' : Nat} {cs cs' : List Char}
    (h : skip line false cs = skip line' false cs') : tokens line cs = tokens line' cs' := by
  rcases hskip : skip line' false cs' with ⟨start, _ | ⟨c, following⟩⟩
  · rw [tokens_of_end hskip, tokens_of_end (h.trans hskip)]
  · cases htoken : token (min start lastLine) c following with
    | error e => rw [tokens_of_error hskip htoken, tokens_of_error (h.trans hskip) htoken]
    | ok r => rw [tokens_of_token hskip htoken, tokens_of_token (h.trans hskip) htoken]

/-! ### Several steps

`Reads` goes forward from a place to a later one, so it says something of a scan that has not come to its
end.  What is left after it is either the end of the text or a place where no token can be read.
-/

/-- A text that begins on a line can be read as some tokens, and a place on a line is left. -/
inductive Reads : Nat → List Char → List Token → Nat → List Char → Prop where
  | nil {line : Nat} {cs : List Char} : Reads line cs [] line cs
  | cons {line start line' : Nat} {c : Char} {cs following rest cs' : List Char} {t : Token}
      {ts : List Token} (hskip : skip line false cs = (start, c :: following))
      (htoken : token (min start lastLine) c following = .ok (t, rest))
      (h : Reads (start + lineBreaks t.lexeme.toList) rest ts line' cs') :
      Reads line cs (t :: ts) line' cs'

/-- A scan goes on where the tokens that have been read leave it. -/
theorem tokens_of_reads {line line' : Nat} {cs cs' : List Char} {ts : List Token}
    (h : Reads line cs ts line' cs') : tokens line cs = (tokens line' cs').map (ts ++ ·) := by
  induction h with
  | @nil line cs => cases tokens line cs <;> rfl
  | @cons line start line' c cs following rest cs' t ts hskip htoken h ih =>
      rw [tokens_of_token hskip htoken, ih]
      cases tokens line' cs' <;> rfl

/-- A place where there is no further token: the end of the text. -/
def AtEnd (line : Nat) (cs : List Char) (last : Nat) : Prop :=
  skip line false cs = (last, [])

/-- A place where the next token cannot be read. -/
def Stuck (line : Nat) (cs : List Char) (e : ScanError) : Prop :=
  ∃ start c following, skip line false cs = (start, c :: following) ∧
    token (min start lastLine) c following = .error e

/-- **Every scan is a row of tokens, then the end of the text or a place where it is stuck.** -/
theorem tokens_cases (line : Nat) (cs : List Char) :
    (∃ ts line' cs' last, Reads line cs ts line' cs' ∧ AtEnd line' cs' last ∧
      tokens line cs = .ok (ts ++ [Token.endAt (min last lastLine)])) ∨
    (∃ ts line' cs' e, Reads line cs ts line' cs' ∧ Stuck line' cs' e ∧
      tokens line cs = .error e) := by
  fun_induction tokens line cs with
  | case1 line cs last hskip =>
      exact Or.inl ⟨[], line, cs, last, .nil, hskip, by simp⟩
  | case2 line cs start c following hskip e htoken =>
      exact Or.inr ⟨[], line, cs, e, .nil, ⟨start, c, following, hskip, htoken⟩, rfl⟩
  | case3 line cs start c following hskip t rest htoken hlt ih =>
      rcases ih with ⟨ts, line', cs', last, hreads, hend, heq⟩ | ⟨ts, line', cs', e, hreads, hstuck, heq⟩
      · exact Or.inl ⟨t :: ts, line', cs', last, .cons hskip htoken hreads, hend, by rw [heq]; rfl⟩
      · exact Or.inr ⟨t :: ts, line', cs', e, .cons hskip htoken hreads, hstuck, by rw [heq]; rfl⟩

/-- A scan that succeeds has read some tokens and come to the end of the text. -/
theorem exists_reads_of_ok {line : Nat} {cs : List Char} {us : List Token}
    (h : tokens line cs = .ok us) :
    ∃ ts line' cs' last, Reads line cs ts line' cs' ∧ AtEnd line' cs' last ∧
      us = ts ++ [Token.endAt (min last lastLine)] := by
  obtain ⟨ts, line', cs', last, hreads, hend, heq⟩ | ⟨_, _, _, _, -, -, heq⟩ := tokens_cases line cs
  · exact ⟨ts, line', cs', last, hreads, hend, Except.ok.inj (h.symm.trans heq)⟩
  · cases h.symm.trans heq

/-- A scan that fails has read some tokens and is stuck. -/
theorem exists_reads_of_error {line : Nat} {cs : List Char} {e : ScanError}
    (h : tokens line cs = .error e) :
    ∃ ts line' cs', Reads line cs ts line' cs' ∧ Stuck line' cs' e := by
  obtain ⟨_, _, _, _, -, -, heq⟩ | ⟨ts, line', cs', e', hreads, hstuck, heq⟩ := tokens_cases line cs
  · cases h.symm.trans heq
  · cases h.symm.trans heq
    exact ⟨ts, line', cs', hreads, hstuck⟩

/-- Tokens that are read from some text. -/
def Scanned (t : Token) : Prop :=
  ∃ line c cs rest, token line c cs = .ok (t, rest)

theorem Reads.scanned {line line' : Nat} {cs cs' : List Char} {ts : List Token}
    (h : Reads line cs ts line' cs') : ∀ t ∈ ts, Scanned t := by
  induction h with
  | nil => exact fun t ht => absurd ht List.not_mem_nil
  | cons _ htoken _ ih =>
      intro t ht
      obtain rfl | ht := List.mem_cons.mp ht
      · exact ⟨_, _, _, _, htoken⟩
      · exact ih t ht

/-! ### Text behind what has been read

What has been read stays read if other text is put behind.  Only the place where the scan stops can
change, and in what way depends on why it has stopped there.
-/

theorem skip_append {line start : Nat} {inComment : Bool} {c : Char} {cs following : List Char}
    (h : skip line inComment cs = (start, c :: following)) (x : List Char) :
    skip line inComment (cs ++ x) = (start, c :: following ++ x) := by
  fun_induction skip line inComment cs with
  | case1 => cases h
  | case2 line inComment cs ih => simpa [skip] using ih h
  | case3 line inComment c' cs hbreak hgap ih => simpa [skip, hbreak, hgap] using ih h
  | case4 line inComment cs hbreak hgap ih => simpa [skip, hbreak, hgap] using ih h
  | case5 line inComment c' cs hbreak hgap hcomment =>
      cases h
      simp [skip, hbreak, hgap, hcomment]

/-- A line break ends the comment before it, if there is one. -/
theorem skip_append_break {line last : Nat} {inComment : Bool} {cs : List Char}
    (h : skip line inComment cs = (last, [])) (x : List Char) :
    skip line inComment (cs ++ '\n' :: x) = skip (last + 1) false x := by
  fun_induction skip line inComment cs with
  | case1 line inComment => cases h; simp [skip]
  | case2 line inComment cs ih => simpa [skip] using ih h
  | case3 line inComment c' cs hbreak hgap ih => simpa [skip, hbreak, hgap] using ih h
  | case4 line inComment cs hbreak hgap ih => simpa [skip, hbreak, hgap] using ih h
  | case5 => cases h

/-- Tokens are read in the same way with other text behind them, if it is kept apart from the
last. -/
theorem Reads.append {line line' : Nat} {cs cs' : List Char} {ts : List Token}
    (h : Reads line cs ts line' cs') {x : List Char} (hx : Parted cs' x) :
    Reads line (cs ++ x) ts line' (cs' ++ x) := by
  induction h with
  | nil => exact .nil
  | @cons line start line' c cs following rest cs' t ts hskip htoken h ih =>
      have hrest : Parted rest x := by
        cases h with
        | nil => exact hx
        | cons hskip' htoken' _ => exact parted_of_skip hskip' (ne_point_of_token htoken') x
      exact .cons (skip_append hskip x) (token_append htoken hrest) (ih hx)

/-- A place inside a string: on a line, the text after its quote, which does not close it. -/
def InString (line : Nat) (cs inside : List Char) : Prop :=
  ∃ start, skip line false cs = (start, '"' :: inside) ∧ closeString inside = none

theorem InString.tokens {line : Nat} {cs inside : List Char} (h : InString line cs inside) :
    ∃ l, tokens line cs = .error (.unterminatedString l) := by
  obtain ⟨start, hskip, hclose⟩ := h
  exact ⟨min start lastLine, tokens_of_error hskip (by simp [token_quote, string, hclose])⟩

/-- A scan that finds no end of a string is stuck inside it. -/
theorem Stuck.inString {line l : Nat} {cs : List Char}
    (h : Stuck line cs (.unterminatedString l)) : ∃ inside, InString line cs inside := by
  obtain ⟨start, c, following, hskip, htoken⟩ := h
  rcases token_error htoken with ⟨rfl, hclose, -⟩ | ⟨hne, -⟩
  · exact ⟨following, start, hskip, hclose⟩
  · exact absurd rfl (hne l)

theorem InString.append_break {line : Nat} {cs inside : List Char} (h : InString line cs inside) :
    InString line (cs ++ ['\n']) (inside ++ ['\n']) := by
  obtain ⟨start, hskip, hclose⟩ := h
  exact ⟨start, skip_append hskip _, closeString_append_break hclose⟩

theorem Stuck.append {line : Nat} {cs : List Char} {e : ScanError} (h : Stuck line cs e)
    (he : ∀ l, e ≠ .unterminatedString l) (x : List Char) : Stuck line (cs ++ x) e := by
  obtain ⟨start, c, following, hskip, htoken⟩ := h
  rcases token_error htoken with ⟨-, -, rfl⟩ | ⟨-, htoken⟩
  · exact absurd rfl (he _)
  · exact ⟨start, c, following ++ x, skip_append hskip x, htoken x⟩

end SmallLisp.Scan
