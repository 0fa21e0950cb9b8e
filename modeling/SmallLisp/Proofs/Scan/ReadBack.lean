/-
Text that is read as given tokens.

A text is written to be read back: it is read as the tokens that were meant, wherever it stands.
`ReadsAs` says so of a text and its tokens, up to their lines, which depend on the place.  What is
put behind has to be kept apart from the last token, and then texts that are read as tokens make
up a text that is read as all of them (`ReadsAs.append`).

A token that has been read is read again from its spelling.  A number is read from any spelling of
it, and what is shown of a string between double quotes is read as that string if it has no escapes
but those that programs know.
-/
import SmallLisp.Proofs.Decimal.Spelling
import SmallLisp.Proofs.Relabel.Lines
import SmallLisp.Proofs.Scan.Munch
import SmallLisp.Proofs.Scan.Strings

namespace SmallLisp

namespace Text

/-- Whether what is shown of a character between double quotes has a meaning in a program: not if it
is the null or shown by its code point. -/
def isSpellable (c : Char) : Bool :=
  c = '\t' || c = '\r' || c = '\n' || !isUnseen c

end Text

namespace Scan

open Relabelling (unlined)

/-! ### Texts and their tokens

`ReadsAs` asks for the text behind to be kept apart from a token.  So where two texts are put together the
second has to keep the first apart, whatever stands behind it in turn.
-/

/-- Text that is read as the given tokens up to their lines, on whatever line it begins, with any
text behind it that is kept apart from a token. -/
def ReadsAs (cs : List Char) (ts : List Token) : Prop :=
  ∀ (line : Nat) (x : List Char), Parted [] x → ∃ us line',
    tokens line (cs ++ x) = (tokens line' x).map (us ++ ·) ∧
      us.map unlined.token = ts.map unlined.token

theorem parted_cons {c : Char} (hpart : isSymbolPart c = false) (hpoint : c ≠ '.')
    (x : List Char) : Parted [] (c :: x) := by
  refine ⟨fun _ d hd => ?_, fun h => by cases h⟩
  cases hd
  exact ⟨hpart, hpoint⟩

variable {cs ds : List Char} {ts us : List Token}

theorem readsAs_nil : ReadsAs [] [] := by
  intro line x _
  refine ⟨[], line, ?_, rfl⟩
  cases h : tokens line x <;> simp [h, Except.map]

theorem ReadsAs.append (h : ReadsAs cs ts) (h' : ReadsAs ds us)
    (hparted : ∀ x, Parted [] x → Parted [] (ds ++ x)) : ReadsAs (cs ++ ds) (ts ++ us) := by
  intro line x hx
  obtain ⟨vs, line', hcs, hts⟩ := h line (ds ++ x) (hparted x hx)
  obtain ⟨ws, line'', hds, hus⟩ := h' line' x hx
  refine ⟨vs ++ ws, line'', ?_, by rw [List.map_append, List.map_append, hts, hus]⟩
  rw [List.append_assoc, hcs, hds]
  cases tokens line'' x <;> simp [Except.map]

/-- A character that belongs to no word or number keeps what follows apart. -/
theorem ReadsAs.append_cons (h : ReadsAs cs ts) {c : Char} (hpart : isSymbolPart c = false)
    (hpoint : c ≠ '.') (h' : ReadsAs (c :: ds) us) : ReadsAs (cs ++ c :: ds) (ts ++ us) :=
  h.append h' fun x _ => parted_cons hpart hpoint (ds ++ x)

/-- What is skipped before a token does not count. -/
theorem ReadsAs.skipped (h : ReadsAs cs ts) {c : Char} (hc : isGap c = true ∨ c = '\n') :
    ReadsAs (c :: cs) ts := by
  intro line x hx
  obtain rfl | hbreak := eq_or_ne c '\n'
  · obtain ⟨us, line', hcs, hts⟩ := h (line + 1) x hx
    exact ⟨us, line', (tokens_congr (by simp [skip])).trans hcs, hts⟩
  · have hgap := hc.resolve_right hbreak
    obtain ⟨us, line', hcs, hts⟩ := h line x hx
    exact ⟨us, line', (tokens_congr (by simp [skip, hbreak, hgap])).trans hcs, hts⟩

/-- Nothing is skipped where a token begins. -/
theorem skip_of_token {line : Nat} {c : Char} {cs : List Char} {r : Token × List Char}
    (h : token line c cs = .ok r) (start : Nat) (x : List Char) :
    skip start false (c :: x) = (start, c :: x) := by
  have hbreak : c ≠ '\n' := by
    rintro rfl
    cases h
  have hgap : isGap c = false := by
    rw [Bool.eq_false_iff, Ne, isGap]
    simp only [Bool.or_eq_true, decide_eq_true_eq]
    rintro (((rfl | rfl) | rfl) | rfl) <;> cases h
  have hcomment : c ≠ ';' := by
    rintro rfl
    cases h
  simp [skip, hbreak, hgap, hcomment]

/-- A sign needs nothing to keep it apart. -/
theorem ReadsAs.sign {c : Char} {kind : TokenKind} (hsign : sign? c = some kind) (line : Nat)
    (h : ReadsAs cs ts) : ReadsAs (c :: cs) (⟨kind, c.toString, none, line⟩ :: ts) := by
  intro start x hx
  have htoken : token (min start lastLine) c (cs ++ x) =
      .ok (⟨kind, c.toString, none, min start lastLine⟩, cs ++ x) := by
    simp [token, hsign]
  obtain ⟨us, line', hcs, hts⟩ := h (start + lineBreaks c.toString.toList) x hx
  refine ⟨⟨kind, c.toString, none, min start lastLine⟩ :: us, line', ?_, ?_⟩
  · rw [List.cons_append, tokens_of_token (skip_of_token htoken start _) htoken, hcs]
    cases tokens line' x <;> simp [Except.map]
  · rw [List.map_cons, List.map_cons, hts]
    rfl

/-- Text that is one token by itself. -/
theorem readsAs_of_token {c : Char} {t : Token}
    (h : ∀ line, token line c cs = .ok ({ t with line := line }, [])) : ReadsAs (c :: cs) [t] := by
  intro line x hx
  have htoken := token_append (h (min line lastLine)) hx
  refine ⟨[{ t with line := min line lastLine }], line + lineBreaks t.lexeme.toList, ?_, rfl⟩
  exact tokens_of_token (skip_of_token htoken line _) htoken

/-- A token is read from its spelling. -/
theorem Scanned.readsAs {t : Token} (h : Scanned t) : ReadsAs t.lexeme.toList [t] := by
  obtain ⟨line, c, cs, rest, htoken⟩ := h
  obtain ⟨ds, hlexeme, hself⟩ := token_of_lexeme htoken
  rw [hlexeme]
  exact readsAs_of_token hself

/-! ### Numbers

A number may be spelled with zeros that its value does not show.  Any spelling that has its value will do.
-/

/-- The spelling of a number is read as that number. -/
theorem number_of_spelling {whole fraction : List Char}
    (h : Decimal.Spelling cs whole fraction) (line : Nat) :
    number line cs = (⟨.number, String.ofList cs,
      some (.number (Decimal.ofDigits whole fraction).toFloat), line⟩, []) := by
  have hwhole : ∀ c ∈ whole, isDigit c = true := h.isDigit_whole
  rw [h.eq_append, number, List.takeWhile_append_of_pos hwhole, List.dropWhile_append_of_pos hwhole]
  cases fraction with
  | nil => simp [fraction?, number.token]
  | cons d fraction =>
      have hd : isDigit d = true := h.isDigit_fraction d List.mem_cons_self
      have hfraction : ∀ c ∈ fraction, isDigit c = true :=
        fun c hc => h.isDigit_fraction c (List.mem_cons_of_mem _ hc)
      have hpoint : isDigit '.' = false := rfl
      simp [fraction?, number.token, hd, hpoint, List.takeWhile_eq_self_iff.mpr hfraction,
        List.dropWhile_eq_nil_iff.mpr hfraction]

theorem readsAs_number {whole fraction : List Char} (h : Decimal.Spelling cs whole fraction)
    (line : Nat) : ReadsAs cs [⟨.number, String.ofList cs,
      some (.number (Decimal.ofDigits whole fraction).toFloat), line⟩] := by
  obtain ⟨c, ds, rfl⟩ : ∃ c ds, cs = c :: ds := by
    refine List.exists_cons_of_ne_nil ?_
    rw [h.eq_append]
    exact List.append_ne_nil_of_left_ne_nil h.whole_ne_nil _
  have hc : isDigit c = true := by
    obtain ⟨d, whole, rfl⟩ := List.exists_cons_of_ne_nil h.whole_ne_nil
    have hcd : c = d := (List.cons.inj h.eq_append).1
    rw [hcd]
    exact h.isDigit_whole d List.mem_cons_self
  refine readsAs_of_token fun line => ?_
  rw [token_number (isDigit_iff.mp hc), number_of_spelling h line]

/-- The value of a token is one that a decimal names. -/
theorem Scanned.exists_decimal {t : Token} (h : Scanned t) {x : Float}
    (hx : t.literal = some (.number x)) : ∃ d : Decimal, x = d.toFloat := by
  obtain ⟨line, c, cs, rest, h⟩ := h
  obtain ⟨kind, -, rfl, -⟩ | ⟨-, h⟩ | ⟨-, h⟩ | ⟨-, -, h⟩ := token_cases h
  · cases hx
  · rw [← show (number line (c :: cs)).1 = t by rw [h], number] at hx
    split at hx <;> cases hx <;> exact ⟨_, rfl⟩
  · obtain ⟨_, _, _, _, rfl⟩ := string_eq_ok_iff.mp h
    cases hx
  · cases h
    cases hx

/-! ### Strings

What is shown of a character is one of its spellings, or has no meaning in a program at all.  In the first
case the lemmas about spellings apply, character by character.
-/

/-- What is shown of a character is one of the ways to write it. -/
theorem quotedChar_mem_spellings {c : Char} (hc : Text.isSpellable c = true) :
    Text.quotedChar c ∈ spellings c := by
  simp only [Text.isSpellable, Bool.or_eq_true, decide_eq_true_eq] at hc
  have hnull : c ≠ '\x00' := by
    rintro rfl
    revert hc
    decide
  by_cases hescape : c = '\t' ∨ c = '\r' ∨ c = '\n' ∨ c = '\\' ∨ c = '"'
  · rcases hescape with rfl | rfl | rfl | rfl | rfl <;> decide
  · simp only [not_or] at hescape
    obtain ⟨htab, hreturn, hbreak, hbackslash, hquote⟩ := hescape
    have hseen : Text.isUnseen c = false := by simpa [htab, hreturn, hbreak] using hc
    have hshown : Text.quotedChar c = [c] := by
      simp [Text.quotedChar, hnull, htab, hreturn, hbreak, hbackslash, hquote, hseen]
    exact mem_spellings_iff.mpr (.inl ⟨hquote, hbackslash, hshown⟩)

theorem written_quoted (hcs : ∀ c ∈ cs, Text.isSpellable c = true) :
    Written cs (cs.map Text.quotedChar) :=
  List.forall₂_map_right_iff.mpr
    (List.forall₂_same.mpr fun c hc => quotedChar_mem_spellings (hcs c hc))

/-- What is shown of a string is read as that string. -/
theorem readsAs_quoted {s : String} (hs : ∀ c ∈ s.toList, Text.isSpellable c = true)
    (line : Nat) :
    ReadsAs (Text.quoted s).toList [⟨.string, Text.quoted s, some (.text s), line⟩] := by
  have hquoted : Text.quoted s = String.ofList (inQuotes (s.toList.map Text.quotedChar)) := by
    rw [← String.toList_inj, String.toList_ofList]
    simp [Text.quoted, inQuotes, List.flatMap_def]
  rw [hquoted, String.toList_ofList]
  refine readsAs_of_token fun line => ?_
  have hstring := string_written (written_quoted hs) line []
  rw [stringToken, String.ofList_toList] at hstring
  rw [token_quote, hstring]

end Scan

end SmallLisp
