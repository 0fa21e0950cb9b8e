/-
Strings without an end.

A string should have no end only if it runs to the end of the text: no quote behind its opening
quote closes it, where a backslash takes the next character with it, whatever that is.  That is
nearly so.  A backslash takes any character but a line break, and where one stands before a line
break the string is given up at once, with an end or without (`closeString_eq_none_iff`).

So a scan ends in a string without an end exactly if it comes to a quote behind which there is no
closing one, or a backslash before a line break first.  If there is neither and a backslash stands
before another character that it means nothing with, then it is that escape which is complained of.

`ComesToQuote` is what a scan gets to: all before it has been read as tokens.
-/
import SmallLisp.Proofs.Scan.Munch

namespace SmallLisp

namespace Scan

/-! ### Closing quotes

The question is put to the text and not to the scanner: is there a quote that no backslash takes away?  A
backslash takes the next character here whatever it is, a line break included.
-/

/-- What may stand before a closing quote, if a backslash takes the next character with it, whatever
that is. -/
def unclosed : Language Char :=
  quotable fun _ => True

/-- Whether the text behind an opening quote has a closing one. -/
def HasClosingQuote (text : List Char) : Prop :=
  ∃ y ∈ unclosed, ∃ rest, text = y ++ '"' :: rest

/-- Whether a backslash stands before a line break in the text behind an opening quote, and no
closing quote before that. -/
def EscapesBreak (text : List Char) : Prop :=
  ∃ y ∈ unclosed, ∃ rest, text = y ++ '\\' :: '\n' :: rest

theorem mem_unclosed_of_mem_inside {y : List Char} (hy : y ∈ inside) : y ∈ unclosed :=
  quotable_induction (P := (· ∈ unclosed)) nil_mem_quotable
    (fun _ _ hquote hbackslash _ ih => cons_mem_quotable hquote hbackslash ih)
    (fun _ _ _ _ ih => escape_mem_quotable trivial ih) hy

theorem EscapesBreak.cons {c : Char} (hquote : c ≠ '"') (hbackslash : c ≠ '\\') {text : List Char}
    (h : EscapesBreak text) : EscapesBreak (c :: text) := by
  obtain ⟨y, hy, rest, rfl⟩ := h
  exact ⟨c :: y, cons_mem_quotable hquote hbackslash hy, rest, rfl⟩

theorem EscapesBreak.escape (c : Char) {text : List Char} (h : EscapesBreak text) :
    EscapesBreak ('\\' :: c :: text) := by
  obtain ⟨y, hy, rest, rfl⟩ := h
  exact ⟨'\\' :: c :: y, escape_mem_quotable trivial hy, rest, rfl⟩

/-! ### Where the scanner finds the end of a string

For the scanner a backslash takes no line break with it, and then there is no end.  In all other texts it
finds the quote that the text has.
-/

/-- The scanner finds no end behind a backslash that stands before a line break. -/
theorem closeString_of_escapesBreak {text : List Char} (h : EscapesBreak text) :
    closeString text = none := by
  obtain ⟨y, hy, rest, rfl⟩ := h
  refine quotable_induction (P := fun y => closeString (y ++ '\\' :: '\n' :: rest) = none)
    rfl ?_ ?_ hy
  · intro c y hquote hbackslash _ ih
    rw [List.cons_append, closeString_cons hquote hbackslash, ih]
    rfl
  · intro c y _ _ ih
    by_cases hc : c = '\n'
    · subst hc
      rfl
    · rw [List.cons_append, List.cons_append, closeString_escape hc, ih]
      rfl

/-- The scanner finds the closing quote, unless a backslash stands before a line break. -/
theorem closeString_or_escapesBreak {y : List Char} (hy : y ∈ unclosed) (rest : List Char) :
    closeString (y ++ '"' :: rest) = some (y, rest) ∨ EscapesBreak (y ++ '"' :: rest) := by
  refine quotable_induction (P := fun y => closeString (y ++ '"' :: rest) = some (y, rest) ∨
    EscapesBreak (y ++ '"' :: rest)) (.inl rfl) ?_ ?_ hy
  · rintro c y hquote hbackslash _ (hclose | hbreak)
    · left
      rw [List.cons_append, closeString_cons hquote hbackslash, hclose]
      rfl
    · exact .inr (hbreak.cons hquote hbackslash)
  · rintro c y - _ ih
    by_cases hc : c = '\n'
    · subst hc
      exact .inr ⟨[], nil_mem_quotable, _, rfl⟩
    · obtain hclose | hbreak := ih
      · left
        rw [List.cons_append, List.cons_append, closeString_escape hc, hclose]
        rfl
      · exact .inr (hbreak.escape c)

/-- **The scanner finds no end of a string if there is none, or if a backslash stands before a line
break.** -/
theorem closeString_eq_none_iff {text : List Char} :
    closeString text = none ↔ ¬ HasClosingQuote text ∨ EscapesBreak text := by
  constructor
  · intro h
    by_contra hnot
    obtain ⟨hclosing, hbreak⟩ := not_or.mp hnot
    obtain ⟨y, hy, rest, rfl⟩ := not_not.mp hclosing
    obtain hclose | hbreak' := closeString_or_escapesBreak hy rest
    · cases h.symm.trans hclose
    · exact hbreak hbreak'
  · rintro (hclosing | hbreak)
    · rw [Option.eq_none_iff_forall_ne_some]
      rintro ⟨y, rest⟩ hclose
      obtain ⟨hy, htext⟩ := closeString_eq_some_iff.mp hclose
      exact hclosing ⟨y, mem_unclosed_of_mem_inside hy, rest, htext⟩
    · exact closeString_of_escapesBreak hbreak

/-- The scanner finds the end of a string if there is one, and no backslash before a line break. -/
theorem closeString_eq_some_iff_unclosed {text y rest : List Char} :
    closeString text = some (y, rest) ↔
      y ∈ unclosed ∧ text = y ++ '"' :: rest ∧ ¬ EscapesBreak text := by
  constructor
  · intro h
    obtain ⟨hy, rfl⟩ := closeString_eq_some_iff.mp h
    refine ⟨mem_unclosed_of_mem_inside hy, rfl, fun hbreak => ?_⟩
    cases h.symm.trans (closeString_of_escapesBreak hbreak)
  · rintro ⟨hy, rfl, hbreak⟩
    exact (closeString_or_escapesBreak hy rest).resolve_right hbreak

/-! ### What is complained of

A string without an end and one with an escape that means nothing are told apart by what `closeString` and
`unescape` come to.
-/

theorem unescape_eq_error_iff {y : List Char} (hy : y ∈ inside) {c : Char} :
    unescape y = .error c ↔ Misspells y c := by
  refine ⟨fun h => ?_, unescape_of_misspells⟩
  obtain ⟨text, hspells⟩ | ⟨d, hmisspells⟩ := spells_or_misspells hy
  · cases h.symm.trans (unescape_of_spells hspells)
  · cases h.symm.trans (unescape_of_misspells hmisspells)
    exact hmisspells

theorem string_eq_unterminated_iff {line l : Nat} {text : List Char} :
    string line text = .error (.unterminatedString l) ↔ closeString text = none ∧ l = line := by
  unfold string
  split
  · rename_i hclose
    simp [hclose, eq_comm]
  · rename_i y rest hclose
    rw [hclose]
    cases unescape y <;> simp

theorem string_eq_invalidEscape_iff {line l : Nat} {text : List Char} {c : Char} :
    string line text = .error (.invalidEscape c l) ↔
      ∃ y rest, closeString text = some (y, rest) ∧ Misspells y c ∧ l = line := by
  constructor
  · intro h
    unfold string at h
    split at h
    · cases h
    · rename_i y rest hclose
      split at h
      · rename_i hescape
        cases h
        have hmisspells := (unescape_eq_error_iff (mem_inside_of_closeString hclose)).mp hescape
        exact ⟨y, rest, hclose, hmisspells, rfl⟩
      · cases h
  · rintro ⟨y, rest, hclose, hmisspells, rfl⟩
    simp only [string, hclose, unescape_of_misspells hmisspells]

/-! ### The quotes that a scan comes to

A quote opens a string only if the scan comes to it, and not within another string or a comment.  So the
claim is about the first place at which the scan is stuck.
-/

/-- Whether all the text before a quote is read as tokens, so that a string has to follow. -/
def ComesToQuote (text before rest : List Char) : Prop :=
  text = before ++ '"' :: rest ∧ ∃ ts line cs start, Reads 1 text ts line cs ∧
    skip line false cs = (start, '"' :: rest)

variable {text before rest : List Char}

/-- A place that a scan comes to is on the line that the text before it leads to. -/
theorem start_of_reads {ts : List Token} {line start : Nat} {cs : List Char}
    (hreads : Reads 1 (before ++ rest) ts line cs) (hskip : skip line false cs = (start, rest)) :
    min start lastLine = lineAfter before := by
  have hcount := (lineBreaks_skip hskip).trans hreads.lineBreaks
  rw [lineBreaks_append, ← Nat.add_assoc] at hcount
  rw [Nat.add_right_cancel hcount]
  rfl

/-- A scan that comes to a quote fails as the string behind it does. -/
theorem ComesToQuote.tokens {e : ScanError} (h : ComesToQuote text before rest)
    (he : string (lineAfter before) rest = .error e) : tokens 1 text = .error e := by
  obtain ⟨rfl, ts, line, cs, start, hreads, hskip⟩ := h
  have htoken : token (min start lastLine) '"' rest = .error e := by
    rw [token_quote, start_of_reads hreads hskip, he]
  rw [tokens_of_reads hreads, tokens_of_error hskip htoken]
  rfl

theorem eq_quote_of_token {line : Nat} {c : Char} {cs : List Char} {e : ScanError}
    (h : token line c cs = .error e) (he : ∀ d l, e ≠ .unexpectedCharacter d l) : c = '"' := by
  by_contra hquote
  unfold token at h
  split at h
  · cases h
  · split at h
    · cases h
    · split at h
      · cases h
      · cases h
        exact he c line rfl

/-- A scan that fails, and not at a character that begins no token, fails in a string. -/
theorem exists_comesToQuote {e : ScanError} (h : tokens 1 text = .error e)
    (he : ∀ c l, e ≠ .unexpectedCharacter c l) :
    ∃ before rest, ComesToQuote text before rest ∧ string (lineAfter before) rest = .error e := by
  obtain ⟨ts, line, cs, hreads, start, c, rest, hskip, htoken⟩ := exists_reads_of_error h
  obtain rfl := eq_quote_of_token htoken he
  obtain ⟨gaps, -, -, rfl⟩ := hreads.exists_gaps
  obtain ⟨gap, -, rfl⟩ := exists_gap_of_skip hskip
  rw [token_quote] at htoken
  rw [← List.append_assoc] at hreads ⊢
  refine ⟨_, rest, ⟨rfl, ts, line, _, start, hreads, hskip⟩, ?_⟩
  rwa [← start_of_reads hreads hskip]

/--
**When a scan ends in a string without an end, and when in an escape without a meaning.**

The first is so if the scan comes to a quote with no closing quote behind it, or with a backslash
before a line break.  The second is so if it comes to a quote with a closing one, and of the
backslashes between them none stands before a line break and one stands before another character
that it means nothing with.
-/
theorem unclosed_strings (source : String) :
    (∀ l, scan source = .error (.unterminatedString l) ↔
      ∃ before rest, ComesToQuote source.toList before rest ∧
        (¬ HasClosingQuote rest ∨ EscapesBreak rest) ∧ l = lineAfter before) ∧
    ∀ c l, scan source = .error (.invalidEscape c l) ↔
      ∃ before y rest, ComesToQuote source.toList before (y ++ '"' :: rest) ∧ y ∈ unclosed ∧
        ¬ EscapesBreak (y ++ '"' :: rest) ∧ Misspells y c ∧ l = lineAfter before := by
  refine ⟨fun l => ⟨fun h => ?_, ?_⟩, fun c l => ⟨fun h => ?_, ?_⟩⟩
  · obtain ⟨before, rest, hcomes, hstring⟩ := exists_comesToQuote h nofun
    obtain ⟨hclose, hl⟩ := string_eq_unterminated_iff.mp hstring
    exact ⟨before, rest, hcomes, closeString_eq_none_iff.mp hclose, hl⟩
  · rintro ⟨before, rest, hcomes, hopen, hl⟩
    exact hcomes.tokens (string_eq_unterminated_iff.mpr ⟨closeString_eq_none_iff.mpr hopen, hl⟩)
  · obtain ⟨before, text, hcomes, hstring⟩ := exists_comesToQuote h nofun
    obtain ⟨y, rest, hclose, hmisspells, hl⟩ := string_eq_invalidEscape_iff.mp hstring
    obtain ⟨hy, rfl, hbreak⟩ := closeString_eq_some_iff_unclosed.mp hclose
    exact ⟨before, y, rest, hcomes, hy, hbreak, hmisspells, hl⟩
  · rintro ⟨before, y, rest, hcomes, hy, hbreak, hmisspells, hl⟩
    have hclose := closeString_eq_some_iff_unclosed.mpr ⟨hy, rfl, hbreak⟩
    exact hcomes.tokens (string_eq_invalidEscape_iff.mpr ⟨y, rest, hclose, hmisspells, hl⟩)

/-- A quote behind a backslash closes no string, and a backslash before another character is
complained of in a string that is closed. -/
theorem unclosed_strings_quote :
    scan "\n\"a\\\"" = .error (.unterminatedString 2) ∧
      scan "(\"a\\q\n\"" = .error (.invalidEscape 'q' 1) := by
  constructor
  · have hcomes : ComesToQuote "\n\"a\\\"".toList ['\n'] ['a', '\\', '"'] :=
      ⟨rfl, [], 1, _, 2, .nil, rfl⟩
    have hno : ¬ HasClosingQuote ['a', '\\', '"'] := by
      rintro ⟨y, hy, rest, htext⟩
      obtain hclose | ⟨z, -, more, hbreak⟩ := closeString_or_escapesBreak hy rest
      · rw [← htext] at hclose
        cases hclose
      · have hmem : '\n' ∈ ['a', '\\', '"'] := by
          rw [htext, hbreak]
          simp
        exact absurd hmem (by decide)
    exact ((unclosed_strings _).1 2).mpr ⟨_, _, hcomes, .inl hno, rfl⟩
  · have hcomes : ComesToQuote "(\"a\\q\n\"".toList ['('] (['a', '\\', 'q', '\n'] ++ ['"']) :=
      ⟨rfl, [⟨.leftParen, "(", none, 1⟩], 1, _, 1, .cons rfl rfl .nil, rfl⟩
    have hclose : closeString (['a', '\\', 'q', '\n'] ++ ['"']) =
        some (['a', '\\', 'q', '\n'], []) := rfl
    obtain ⟨hy, -, hbreak⟩ := closeString_eq_some_iff_unclosed.mp hclose
    have hq : Misspells ['a', '\\', 'q', '\n'] 'q' := .plain (by decide) (.here (by decide))
    exact ((unclosed_strings _).2 'q' 1).mpr ⟨_, _, _, hcomes, hy, hbreak, hq, rfl⟩

/-- A string with a closing quote that is taken for one without an end.  Its opening quote is the
only quote that the scan comes to. -/
theorem not_unclosed_break :
    let source := "\"a\\\nb\""
    let rest := ['a', '\\', '\n', 'b', '"']
    scan source = .error (.unterminatedString 1) ∧ ComesToQuote source.toList [] rest ∧
      HasClosingQuote rest ∧
      ∀ before rest', ComesToQuote source.toList before rest' → rest' = rest := by
  intro source rest
  have hclosing : HasClosingQuote rest :=
    ⟨['a', '\\', '\n', 'b'], cons_mem_quotable (by decide) (by decide) (escape_mem_quotable trivial
      (cons_mem_quotable (by decide) (by decide) nil_mem_quotable)), [], rfl⟩
  have hquote : skip 1 false source.toList = (1, '"' :: rest) := by cbv
  refine ⟨by cbv, ⟨by cbv, [], 1, _, 1, .nil, hquote⟩, hclosing, ?_⟩
  rintro before rest' ⟨-, ts, line, cs, start, hreads, hskip⟩
  cases hreads with
  | nil =>
      cases hquote.symm.trans hskip
      rfl
  | cons hskip' htoken _ =>
      cases hquote.symm.trans hskip'
      cases htoken

end Scan

end SmallLisp
