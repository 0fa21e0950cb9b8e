/-
The scanner is what the rules for tokens say.

`Munch` is how a text is to be cut into tokens: white space and comments are dropped, and else the
longest match of the rules makes the next token, with the line that the text before it leads to.  It
ends at the end of the text, or where nothing matches, where the longest match is a string without an
end, or where it is a string with an escape that means nothing.

`Munch` knows nothing of the scanner, and the two agree (`scan_eq_iff`).  One half is by induction on
`Munch`: what it does next is what the scanner does next.  The other half is that `Munch` comes to an
end whatever the text.

A text that can be scanned is then made up of the spellings of its tokens, with white space and
comments between them.  What stands around a token does not matter to it: it is read from its
spelling alone (`token_of_lexeme`).
-/
import SmallLisp.Proofs.Scan.Longest

namespace SmallLisp

namespace Scan

open Computability

/-! ### Tokens by their rules

The scanner is compared with a procedure that knows nothing of it: take a longest match of a rule, make a
token of it, go on behind it.  These are its definitions, and none of them mentions a function of the
scanner but for the number that digits are worth.
-/

/-- The line that so much text leads to, as far as a line number goes. -/
def lineAfter (before : List Char) : Nat :=
  min (1 + before.count '\n') 4294967295

/-- What the inside of a string means. -/
inductive Spells : List Char → List Char → Prop where
  | nil : Spells [] []
  | plain {c : Char} {y text : List Char} (hc : c ≠ '\\') (h : Spells y text) :
      Spells (c :: y) (c :: text)
  | newline {y text : List Char} (h : Spells y text) : Spells ('\\' :: 'n' :: y) ('\n' :: text)
  | tab {y text : List Char} (h : Spells y text) : Spells ('\\' :: 't' :: y) ('\t' :: text)
  | carriageReturn {y text : List Char} (h : Spells y text) : Spells ('\\' :: 'r' :: y) ('\r' :: text)
  | backslash {y text : List Char} (h : Spells y text) : Spells ('\\' :: '\\' :: y) ('\\' :: text)
  | quote {y text : List Char} (h : Spells y text) : Spells ('\\' :: '"' :: y) ('"' :: text)

/-- The characters that mean something behind a backslash. -/
def meaningful : List Char := ['n', 't', 'r', '\\', '"']

/-- Whether the inside of a string has an escape that means nothing, and which is the first. -/
inductive Misspells : List Char → Char → Prop where
  | here {c : Char} {y : List Char} (hc : c ∉ meaningful) : Misspells ('\\' :: c :: y) c
  | plain {c d : Char} {y : List Char} (hc : c ≠ '\\') (h : Misspells y d) : Misspells (c :: y) d
  | escape {c d : Char} {y : List Char} (hc : c ∈ meaningful) (h : Misspells y d) :
      Misspells ('\\' :: c :: y) d

/-- The token that a lexeme of a rule makes on a line. -/
inductive Makes (line : Nat) : Rule → List Char → Token → Prop where
  | sign (kind : TokenKind) (lexeme : List Char) :
      Makes line (.sign kind) lexeme ⟨kind, String.ofList lexeme, none, line⟩
  | number (lexeme : List Char) :
      Makes line .number lexeme
        ⟨.number, String.ofList lexeme, some (.number (numeral lexeme).toFloat), line⟩
  | string {y text : List Char} (h : Spells y text) :
      Makes line .string ('"' :: (y ++ ['"']))
        ⟨.string, String.ofList ('"' :: (y ++ ['"'])), some (.text (String.ofList text)), line⟩
  | reserved {lexeme : List Char} {kind : TokenKind}
      (h : reservedWords.lookup (String.ofList lexeme) = some kind) :
      Makes line .word lexeme ⟨kind, String.ofList lexeme, none, line⟩
  | symbol {lexeme : List Char} (h : reservedWords.lookup (String.ofList lexeme) = none) :
      Makes line .word lexeme ⟨.symbol, String.ofList lexeme, none, line⟩

/-- How what is left of a text is cut into tokens, and with what outcome, where so much of the text
stands before it. -/
inductive Munch : List Char → List Char → Except ScanError (List Token) → Prop where
  | done (before : List Char) :
      Munch before [] (.ok [⟨.endOfInput, "", none, lineAfter before⟩])
  | blank {before rest : List Char} {c : Char} {r : Except ScanError (List Token)}
      (hc : c ∈ blanks) (h : Munch (before ++ [c]) rest r) : Munch before (c :: rest) r
  /-- A comment goes on to the next line break or to the end of the text. -/
  | comment {before cs rest : List Char} {r : Except ScanError (List Token)} (hcs : '\n' ∉ cs)
      (hend : ∀ c ∈ rest.head?, c = '\n') (h : Munch (before ++ ';' :: cs) rest r) :
      Munch before (';' :: cs ++ rest) r
  | token {before lexeme rest : List Char} {rule : Rule} {t : Token}
      {r : Except ScanError (List Token)} (hlongest : Longest rule (lexeme ++ rest) lexeme)
      (hmakes : Makes (lineAfter before) rule lexeme t) (h : Munch (before ++ lexeme) rest r) :
      Munch before (lexeme ++ rest) (r.map (t :: ·))
  | unexpected {before rest : List Char} {c : Char} (hblank : c ∉ blanks) (hcomment : c ≠ ';')
      (hnone : ∀ (rule : Rule) (lexeme : List Char), lexeme <+: c :: rest →
        lexeme ∉ rule.language) :
      Munch before (c :: rest) (.error (.unexpectedCharacter c (lineAfter before)))
  | openString {before text lexeme : List Char} (hlongest : Longest .openString text lexeme) :
      Munch before text (.error (.unterminatedString (lineAfter before)))
  | misspelt {before text y : List Char} {c : Char}
      (hlongest : Longest .string text ('"' :: (y ++ ['"']))) (hy : Misspells y c) :
      Munch before text (.error (.invalidEscape c (lineAfter before)))

/-! ### What the scanner makes of a longest match

One lemma for each rule, and one for each of the ways in which a string can be at fault.  The match is
given; that the scanner takes it and no other is what `Longest` was proved for.
-/

theorem unescape_of_spells {y text : List Char} (h : Spells y text) : unescape y = .ok text := by
  induction h with
  | nil => rfl
  | plain hc _ ih => rw [unescape_cons hc, ih]; rfl
  | newline _ ih | tab _ ih | carriageReturn _ ih | backslash _ ih | quote _ ih =>
      simp [unescape, escapes, List.lookup, ih, Except.map]

theorem unescape_of_misspells {y : List Char} {c : Char} (h : Misspells y c) :
    unescape y = .error c := by
  induction h with
  | @here c y hc =>
      have hlookup : escapes.lookup c = none := lookup_eq_none hc
      simp [unescape, hlookup]
  | plain hc _ ih => rw [unescape_cons hc, ih]; rfl
  | @escape c d y hc _ ih =>
      simp only [meaningful, List.mem_cons, List.not_mem_nil, or_false] at hc
      obtain rfl | rfl | rfl | rfl | rfl := hc <;>
        simp [unescape, escapes, List.lookup, ih, Except.map]

theorem spells_or_misspells {y : List Char} (hy : y ∈ inside) :
    (∃ text, Spells y text) ∨ ∃ c, Misspells y c := by
  refine quotable_induction (P := fun y => (∃ text, Spells y text) ∨ ∃ c, Misspells y c)
    (.inl ⟨[], .nil⟩) ?_ ?_ hy
  · rintro c y - hbackslash - (⟨text, ih⟩ | ⟨d, ih⟩)
    · exact .inl ⟨_, .plain hbackslash ih⟩
    · exact .inr ⟨d, .plain hbackslash ih⟩
  · intro c y _ _ ih
    by_cases hc : c ∈ meaningful
    · obtain ⟨text, ih⟩ | ⟨d, ih⟩ := ih
      · simp only [meaningful, List.mem_cons, List.not_mem_nil, or_false] at hc
        obtain rfl | rfl | rfl | rfl | rfl := hc
        · exact .inl ⟨_, .newline ih⟩
        · exact .inl ⟨_, .tab ih⟩
        · exact .inl ⟨_, .carriageReturn ih⟩
        · exact .inl ⟨_, .backslash ih⟩
        · exact .inl ⟨_, .quote ih⟩
      · exact .inr ⟨d, .escape hc ih⟩
    · exact .inr ⟨c, .here hc⟩

/-- A lexeme makes a token, unless it is a string without an end or one with a bad escape. -/
theorem exists_makes {rule : Rule} {lexeme : List Char} (h : lexeme ∈ rule.language) (line : Nat) :
    (∃ t, Makes line rule lexeme t) ∨ rule = .openString ∨
      ∃ y c, rule = .string ∧ lexeme = '"' :: (y ++ ['"']) ∧ Misspells y c := by
  match rule with
  | .sign kind => exact .inl ⟨_, .sign kind lexeme⟩
  | .number => exact .inl ⟨_, .number lexeme⟩
  | .openString => exact .inr (.inl rfl)
  | .string =>
      obtain ⟨y, hy, rfl⟩ := mem_string.mp h
      obtain ⟨text, hspells⟩ | ⟨c, hmisspells⟩ := spells_or_misspells hy
      · exact .inl ⟨_, .string hspells⟩
      · exact .inr (.inr ⟨y, c, rfl, rfl, hmisspells⟩)
  | .word =>
      rcases hreserved : reservedWords.lookup (String.ofList lexeme) with _ | kind
      · exact .inl ⟨_, .symbol hreserved⟩
      · exact .inl ⟨_, .reserved hreserved⟩

theorem closeString_of_longest {c : Char} {cs y rest : List Char} (hy : y ∈ inside)
    (htext : c :: cs = '"' :: (y ++ ['"']) ++ rest) :
    c = '"' ∧ closeString cs = some (y, rest) := by
  obtain ⟨rfl, rfl⟩ := List.cons.inj htext
  exact ⟨rfl, closeString_eq_some_iff.mpr ⟨hy, by simp⟩⟩

theorem mem_inside_of_longest {text y : List Char}
    (h : Longest .string text ('"' :: (y ++ ['"']))) : y ∈ inside := by
  obtain ⟨z, hz, heq⟩ := mem_string.mp h.mem
  obtain rfl : y = z := List.append_cancel_right (List.cons.inj heq).2
  exact hz

/-- **The scanner makes of a longest match the token that it should.** -/
theorem token_of_longest {line : Nat} {rule : Rule} {c : Char} {cs lexeme rest : List Char}
    {t : Token} (h : Longest rule (c :: cs) lexeme) (hrest : c :: cs = lexeme ++ rest)
    (hmakes : Makes line rule lexeme t) : token line c cs = .ok (t, rest) := by
  have hc := h.begins
  match hmakes with
  | .sign kind _ =>
      obtain rfl := h.unique (longest_sign hc cs)
      obtain ⟨-, rfl⟩ := List.cons.inj hrest
      exact token_sign hc line cs
  | .number _ =>
      obtain ⟨lexeme', rest', hrest', hlongest, hnumber⟩ := exists_number hc cs
      obtain rfl := h.unique hlongest
      obtain rfl := List.append_cancel_left (hrest.symm.trans hrest')
      rw [token_number hc, hnumber]
  | .string hspells =>
      obtain ⟨rfl, hclose⟩ := closeString_of_longest (mem_inside_of_longest h) hrest
      rw [token_quote]
      exact string_eq_ok_iff.mpr ⟨_, _, hclose, unescape_of_spells hspells, rfl⟩
  | .reserved hreserved =>
      obtain rfl := h.unique (longest_word hc cs)
      have hdrop := List.append_cancel_left (List.takeWhile_append_dropWhile.trans hrest)
      rw [token_word hc, word, reserved?_eq, hreserved, hdrop]
      rfl
  | .symbol hreserved =>
      obtain rfl := h.unique (longest_word hc cs)
      have hdrop := List.append_cancel_left (List.takeWhile_append_dropWhile.trans hrest)
      rw [token_word hc, word, reserved?_eq, hreserved, hdrop]
      rfl

theorem toList_lexeme {line : Nat} {rule : Rule} {lexeme : List Char} {t : Token}
    (h : Makes line rule lexeme t) : t.lexeme.toList = lexeme := by
  rcases h with _ | _ | _ | _ | _ <;> exact String.toList_ofList

theorem token_of_openString {line : Nat} {c : Char} {cs lexeme : List Char}
    (h : Longest .openString (c :: cs) lexeme) :
    token line c cs = .error (.unterminatedString line) := by
  obtain rfl : c = '"' := h.begins
  rw [token_quote, string, closeString_of_longest_openString h]

theorem token_of_misspells {line : Nat} {c d : Char} {cs y : List Char}
    (h : Longest .string (c :: cs) ('"' :: (y ++ ['"']))) (hy : Misspells y d) :
    token line c cs = .error (.invalidEscape d line) := by
  obtain ⟨rest, hrest, -⟩ := h.exists_rest
  obtain ⟨rfl, hclose⟩ := closeString_of_longest (mem_inside_of_longest h) hrest
  rw [token_quote, string, hclose]
  simp only [unescape_of_misspells hy]

theorem token_of_none {line : Nat} {c : Char} {cs : List Char}
    (h : ∀ (rule : Rule) (lexeme : List Char), lexeme <+: c :: cs → lexeme ∉ rule.language) :
    token line c cs = .error (.unexpectedCharacter c line) := by
  have hfront : [c] <+: c :: cs := ⟨cs, rfl⟩
  have hsign : sign? c = none :=
    sign?_eq_none fun kind hkind => h (.sign kind) [c] hfront ⟨c, hkind, rfl⟩
  have hdigit : isDigit c = false := Bool.eq_false_iff.mpr fun hdigit => by
    refine h .number [c] hfront (mem_number.mpr ⟨[c], ⟨List.cons_ne_nil c [], ?_⟩, .inl rfl⟩)
    exact List.forall_mem_singleton.mpr (isDigit_iff.mp hdigit)
  have hquote : c ≠ '"' := by
    rintro rfl
    exact h .openString ['"'] hfront (mem_openString.mpr ⟨[], nil_mem_quotable, rfl⟩)
  have hstart : isSymbolStart c = false := Bool.eq_false_iff.mpr fun hstart => by
    refine h .word [c] hfront (mem_one_mul_kstar.mpr ⟨c, [], rfl, isSymbolStart_iff.mp hstart, ?_⟩)
    exact List.forall_mem_nil _
  simp [token, hsign, hdigit, hquote, hstart]

/-! ### A token by itself

The lexeme of a token is a text in its own right.  It is its own longest match, so it is read as that
token again, on whatever line it stands.
-/

/-- A longest match is a longest match of itself. -/
theorem Longest.self {rule : Rule} {text lexeme : List Char} (h : Longest rule text lexeme) :
    Longest rule lexeme lexeme where
  isPrefix := List.prefix_refl lexeme
  mem := h.mem
  longest rule' lexeme' hfront := h.longest rule' lexeme' (hfront.trans h.isPrefix)

/-- What the scanner takes is a longest match, and the token is what that makes. -/
theorem exists_longest_of_token {line : Nat} {c : Char} {cs rest : List Char} {t : Token}
    (h : token line c cs = .ok (t, rest)) :
    ∃ rule lexeme, Longest rule (c :: cs) lexeme ∧ Makes line rule lexeme t := by
  by_cases hsome : ∃ (rule : Rule) (x : List Char), x <+: c :: cs ∧ x ∈ rule.language
  · obtain ⟨_, _, hfront, hmem⟩ := hsome
    obtain ⟨rule, lexeme, hlongest⟩ := exists_longest hfront hmem
    obtain ⟨rest', hrest, -⟩ := hlongest.exists_rest
    obtain ⟨t', hmakes⟩ | rfl | ⟨y, d, rfl, rfl, hy⟩ := exists_makes hlongest.mem line
    · cases (token_of_longest hlongest hrest hmakes).symm.trans h
      exact ⟨rule, lexeme, hlongest, hmakes⟩
    · cases (token_of_openString hlongest).symm.trans h
    · cases (token_of_misspells hlongest hy).symm.trans h
  · have hnone : token line c cs = .error (.unexpectedCharacter c line) :=
      token_of_none fun rule x hfront hmem => hsome ⟨rule, x, hfront, hmem⟩
    cases hnone.symm.trans h

/-- A lexeme makes the same token on every line. -/
theorem Makes.onLine {line : Nat} {rule : Rule} {lexeme : List Char} {t : Token}
    (h : Makes line rule lexeme t) (line' : Nat) :
    Makes line' rule lexeme { t with line := line' } := by
  cases h with
  | sign => exact .sign ..
  | number => exact .number _
  | string h => exact .string h
  | reserved h => exact .reserved h
  | symbol h => exact .symbol h

/-- **A token is read from its spelling alone.** -/
theorem token_of_lexeme {line : Nat} {c : Char} {cs rest : List Char} {t : Token}
    (h : token line c cs = .ok (t, rest)) :
    ∃ ds, t.lexeme.toList = c :: ds ∧
      ∀ line', token line' c ds = .ok ({ t with line := line' }, []) := by
  obtain ⟨rule, lexeme, hlongest, hmakes⟩ := exists_longest_of_token h
  obtain ⟨d, ds, rfl, -⟩ := rule.exists_begins hlongest.mem
  obtain ⟨rfl, -⟩ := List.cons_prefix_cons.mp hlongest.isPrefix
  refine ⟨ds, toList_lexeme hmakes, fun line' => ?_⟩
  exact token_of_longest hlongest.self (List.append_nil _).symm (hmakes.onLine line')

/-! ### What is dropped

White space and comments are no tokens, and no token begins with what they begin with.  So dropping them
one at a time, as the rules do, is dropping all of them at once, as the scanner does.
-/

theorem skip_of_mem_blanks {c : Char} (hc : c ∈ blanks) (before cs : List Char) :
    skip (1 + before.count '\n') false (c :: cs) =
      skip (1 + (before ++ [c]).count '\n') false cs := by
  simp only [blanks, List.mem_cons, List.not_mem_nil, or_false] at hc
  obtain rfl | rfl | rfl | rfl | rfl := hc <;> simp [skip, isGap, Nat.add_assoc]

theorem skip_comment {cs rest : List Char} (hcs : '\n' ∉ cs) (hend : ∀ c ∈ rest.head?, c = '\n')
    (line : Nat) : skip line true (cs ++ rest) = skip line false rest := by
  induction cs with
  | nil =>
      rcases rest with _ | ⟨c, rest⟩
      · rfl
      · obtain rfl := hend c rfl
        simp [skip]
  | cons c cs ih =>
      obtain ⟨hc, hcs⟩ := not_or.mp (mt List.mem_cons.mpr hcs)
      rw [List.cons_append, skip, if_neg (Ne.symm hc), Bool.true_or, if_pos rfl, ih hcs]

theorem skip_of_not_mem {c : Char} (hblank : c ∉ blanks) (hcomment : c ≠ ';') (line : Nat)
    (cs : List Char) : skip line false (c :: cs) = (line, c :: cs) := by
  simp only [blanks, List.mem_cons, List.not_mem_nil, or_false, not_or] at hblank
  simp [skip, isGap, hblank, hcomment]

/-- No token begins with what is dropped. -/
theorem Rule.Begins.not_dropped {rule : Rule} {c : Char} (h : rule.Begins c) :
    c ∉ blanks ∧ c ≠ ';' := by
  have hdropped : c ∉ [' ', '\t', '\r', '\n', '\x0c', ';'] := by
    intro hc
    simp only [List.mem_cons, List.not_mem_nil, or_false] at hc
    cases rule with
    | sign kind =>
        obtain rfl | rfl | rfl | rfl | rfl | rfl := hc <;> cases h
    | number =>
        have h : Digit c := h
        obtain rfl | rfl | rfl | rfl | rfl | rfl := hc <;> exact absurd h (by decide)
    | string | openString =>
        obtain rfl : c = '"' := h
        exact absurd hc (by decide)
    | word =>
        have h : WordStart c := h
        obtain rfl | rfl | rfl | rfl | rfl | rfl := hc <;> exact absurd h (by decide)
  refine ⟨fun hc => hdropped (List.mem_append_left [';'] hc), ?_⟩
  rintro rfl
  exact hdropped (by decide)

theorem skip_of_longest {rule : Rule} {c : Char} {cs lexeme : List Char}
    (h : Longest rule (c :: cs) lexeme) (line : Nat) :
    skip line false (c :: cs) = (line, c :: cs) :=
  skip_of_not_mem h.begins.not_dropped.1 h.begins.not_dropped.2 line cs

/-! ### The scanner and the rules

One direction is by induction on the procedure.  The other needs only that the procedure has an outcome
for every text, as the scanner can have no other by the first.
-/

theorem exists_cons_of_longest {rule : Rule} {text lexeme : List Char}
    (h : Longest rule text lexeme) : ∃ c cs, text = c :: cs := by
  obtain ⟨rest, rfl, -⟩ := h.exists_rest
  obtain ⟨c, cs, rfl, -⟩ := rule.exists_begins h.mem
  exact ⟨c, cs ++ rest, rfl⟩

/-- What is to be done is what the scanner does. -/
theorem tokens_of_munch {before rest : List Char} {r : Except ScanError (List Token)}
    (h : Munch before rest r) : tokens (1 + before.count '\n') rest = r := by
  induction h with
  | done before => exact tokens_of_end rfl
  | blank hc _ ih => rw [tokens_congr (skip_of_mem_blanks hc _ _), ih]
  | @comment before cs rest r hcs hend _ ih =>
      rw [← ih]
      refine tokens_congr ?_
      have hcount : (before ++ ';' :: cs).count '\n' = before.count '\n' := by
        rw [List.count_append, List.count_cons_of_ne (by decide), List.count_eq_zero.mpr hcs,
          Nat.add_zero]
      rw [hcount, List.cons_append]
      exact skip_comment hcs hend _
  | @token before lexeme rest rule t r hlongest hmakes _ ih =>
      obtain ⟨c, cs, htext⟩ := exists_cons_of_longest hlongest
      have hlexeme := toList_lexeme hmakes
      rw [htext] at hlongest ⊢
      have htoken := token_of_longest hlongest htext.symm hmakes
      rw [tokens_of_token (skip_of_longest hlongest _) htoken, hlexeme, ← ih, List.count_append,
        lineBreaks, Nat.add_assoc]
  | unexpected hblank hcomment hnone =>
      exact tokens_of_error (skip_of_not_mem hblank hcomment _ _) (token_of_none hnone)
  | openString hlongest =>
      obtain ⟨c, cs, rfl⟩ := exists_cons_of_longest hlongest
      exact tokens_of_error (skip_of_longest hlongest _) (token_of_openString hlongest)
  | misspelt hlongest hy =>
      obtain ⟨c, cs, rfl⟩ := exists_cons_of_longest hlongest
      exact tokens_of_error (skip_of_longest hlongest _) (token_of_misspells hlongest hy)

/-- A comment ends before the first line break. -/
theorem exists_comment (cs : List Char) :
    ∃ body rest, cs = body ++ rest ∧ '\n' ∉ body ∧ ∀ c ∈ rest.head?, c = '\n' := by
  refine ⟨cs.takeWhile (· ≠ '\n'), cs.dropWhile (· ≠ '\n'),
    List.takeWhile_append_dropWhile.symm, fun h => ?_, fun c hc => ?_⟩
  · simpa using List.mem_takeWhile_imp h
  · have hhead := List.head?_dropWhile_not (· ≠ '\n') cs
    rw [hc] at hhead
    simpa using hhead

/-- There is something to be done with every text. -/
theorem exists_munch (before rest : List Char) : ∃ r, Munch before rest r := by
  induction hn : rest.length using Nat.strong_induction_on generalizing before rest with
  | _ n ih =>
      rcases rest with _ | ⟨c, cs⟩
      · exact ⟨_, .done before⟩
      · by_cases hblank : c ∈ blanks
        · obtain ⟨r, hr⟩ := ih cs.length (by simp [← hn]) (before ++ [c]) cs rfl
          exact ⟨r, .blank hblank hr⟩
        · by_cases hcomment : c = ';'
          · subst hcomment
            obtain ⟨body, rest, rfl, hbody, hend⟩ := exists_comment cs
            have hlt : rest.length < n := by
              simp only [List.length_cons, List.length_append] at hn
              omega
            obtain ⟨r, hr⟩ := ih rest.length hlt (before ++ ';' :: body) rest rfl
            exact ⟨r, .comment hbody hend hr⟩
          · by_cases hsome : ∃ (rule : Rule) (x : List Char), x <+: c :: cs ∧ x ∈ rule.language
            · obtain ⟨_, _, hfront, hmem⟩ := hsome
              obtain ⟨rule, lexeme, hlongest⟩ := exists_longest hfront hmem
              obtain ⟨rest, hrest, hlt⟩ := hlongest.exists_rest
              obtain ⟨t, hmakes⟩ | rfl | ⟨y, d, rfl, rfl, hy⟩ :=
                exists_makes hlongest.mem (lineAfter before)
              · obtain ⟨r, hr⟩ := ih rest.length (by omega) (before ++ lexeme) rest rfl
                rw [hrest] at hlongest ⊢
                exact ⟨_, .token hlongest hmakes hr⟩
              · exact ⟨_, .openString hlongest⟩
              · exact ⟨_, .misspelt hlongest hy⟩
            · refine ⟨_, .unexpected hblank hcomment fun rule x hfront hmem => ?_⟩
              exact hsome ⟨rule, x, hfront, hmem⟩

theorem scan_eq_iff {source : String} {r : Except ScanError (List Token)} :
    scan source = r ↔ Munch [] source.toList r := by
  constructor
  · rintro rfl
    obtain ⟨r, hr⟩ := exists_munch [] source.toList
    have hscan : scan source = r := tokens_of_munch hr
    rwa [hscan]
  · intro h
    exact tokens_of_munch h

/-! ### What a text that can be scanned is made of

The tokens with their gaps give the text back, and each stands on the line that the text before it leads
to.  Both are read off a scan that has succeeded, by induction on `Reads`.
-/

/-- White space and comments. -/
def trivia : Language Char :=
  (one (· ∈ blanks) + {[';']} * (one (· ≠ '\n'))∗)∗

theorem nil_mem_trivia : [] ∈ trivia :=
  Language.nil_mem_kstar _

theorem cons_mem_trivia {c : Char} (hc : c ∈ blanks) {gap : List Char} (h : gap ∈ trivia) :
    c :: gap ∈ trivia :=
  append_mem_kstar (a := [c]) (.inl ⟨c, hc, rfl⟩) h

theorem comment_mem_trivia {cs gap : List Char} (hcs : ∀ c ∈ cs, c ≠ '\n') (h : gap ∈ trivia) :
    ';' :: cs ++ gap ∈ trivia :=
  append_mem_kstar (a := ';' :: cs) (.inr ⟨[';'], rfl, cs, mem_one_kstar.mpr hcs, rfl⟩) h

/-- What is skipped is white space and comments, the first of which may have begun before. -/
theorem exists_gap {line start : Nat} {inComment : Bool} {cs rest : List Char}
    (h : skip line inComment cs = (start, rest)) :
    ∃ comment gap, (∀ c ∈ comment, c ≠ '\n') ∧ (inComment = false → comment = []) ∧
      gap ∈ trivia ∧ cs = comment ++ gap ++ rest := by
  fun_induction skip line inComment cs with
  | case1 => cases h; exact ⟨[], [], by simp, fun _ => rfl, nil_mem_trivia, rfl⟩
  | case2 line inComment cs ih =>
      obtain ⟨comment, gap, -, hcomment, hgap, rfl⟩ := ih h
      obtain rfl := hcomment rfl
      exact ⟨[], '\n' :: gap, by simp, fun _ => rfl, cons_mem_trivia (by decide) hgap, rfl⟩
  | case3 line inComment c cs hbreak hskipped ih =>
      obtain ⟨comment, gap, hline, hcomment, hgap, rfl⟩ := ih h
      cases inComment with
      | true =>
          have hline : ∀ d ∈ c :: comment, d ≠ '\n' := List.forall_mem_cons.mpr ⟨hbreak, hline⟩
          exact ⟨c :: comment, gap, hline, by simp, hgap, rfl⟩
      | false =>
          obtain rfl := hcomment rfl
          have hc : c ∈ blanks := by
            simp only [Bool.false_or, isGap, Bool.or_eq_true, decide_eq_true_eq] at hskipped
            obtain ((rfl | rfl) | rfl) | rfl := hskipped <;> decide
          exact ⟨[], c :: gap, by simp, fun _ => rfl, cons_mem_trivia hc hgap, rfl⟩
  | case4 line inComment cs hbreak hskipped ih =>
      obtain ⟨comment, gap, hline, -, hgap, rfl⟩ := ih h
      exact ⟨[], ';' :: comment ++ gap, by simp, fun _ => rfl, comment_mem_trivia hline hgap,
        by simp⟩
  | case5 => cases h; exact ⟨[], [], by simp, fun _ => rfl, nil_mem_trivia, rfl⟩

theorem exists_gap_of_skip {line start : Nat} {cs rest : List Char}
    (h : skip line false cs = (start, rest)) : ∃ gap ∈ trivia, cs = gap ++ rest := by
  obtain ⟨comment, gap, -, hcomment, hgap, rfl⟩ := exists_gap h
  obtain rfl := hcomment rfl
  exact ⟨gap, hgap, rfl⟩

theorem le_of_skip {line start : Nat} {cs rest : List Char}
    (h : skip line false cs = (start, rest)) : line ≤ start := by
  have hcount := lineBreaks_skip h
  obtain ⟨gap, -, rfl⟩ := exists_gap_of_skip h
  rw [lineBreaks_append] at hcount
  omega

/-- The text of tokens, each with what stands before it. -/
def woven (gaps : List (List Char)) (ts : List Token) : List Char :=
  (List.zipWith (fun gap t => gap ++ t.lexeme.toList) gaps ts).flatten

theorem Reads.exists_gaps {line line' : Nat} {cs cs' : List Char} {ts : List Token}
    (h : Reads line cs ts line' cs') :
    ∃ gaps, gaps.length = ts.length ∧ (∀ gap ∈ gaps, gap ∈ trivia) ∧ cs = woven gaps ts ++ cs' := by
  induction h with
  | nil => exact ⟨[], rfl, by simp, rfl⟩
  | cons hskip htoken _ ih =>
      obtain ⟨gap, hgap, rfl⟩ := exists_gap_of_skip hskip
      obtain ⟨gaps, hlength, hgaps, rfl⟩ := ih
      refine ⟨gap :: gaps, congrArg (· + 1) hlength, List.forall_mem_cons.mpr ⟨hgap, hgaps⟩, ?_⟩
      rw [← token_text htoken]
      simp [woven]

theorem line_of_token {line : Nat} {c : Char} {cs rest : List Char} {t : Token}
    (h : token line c cs = .ok (t, rest)) : t.line = line := by
  obtain ⟨kind, -, rfl, rfl⟩ | ⟨-, hnumber⟩ | ⟨rfl, hstring⟩ | ⟨-, -, hword⟩ := token_cases h
  · rfl
  · unfold number at hnumber
    simp only at hnumber
    split at hnumber <;>
    · cases hnumber
      rfl
  · obtain ⟨_, _, _, _, rfl⟩ := string_eq_ok_iff.mp hstring
    rfl
  · cases hword
    rfl

/-- The lines of tokens lie between those where they begin and end, and are in order. -/
theorem Reads.lines {line line' : Nat} {cs cs' : List Char} {ts : List Token}
    (h : Reads line cs ts line' cs') :
    line ≤ line' ∧ (∀ t ∈ ts, min line lastLine ≤ t.line ∧ t.line ≤ min line' lastLine) ∧
      ts.Pairwise fun t u => t.line ≤ u.line := by
  induction h with
  | nil => exact ⟨Nat.le_refl _, by simp, .nil⟩
  | cons hskip htoken _ ih =>
      obtain ⟨hle, hbetween, hsorted⟩ := ih
      have hstart := le_of_skip hskip
      have hline := line_of_token htoken
      refine ⟨by omega, fun u hu => ?_, List.pairwise_cons.mpr ⟨fun u hu => ?_, hsorted⟩⟩
      · obtain rfl | hu := List.mem_cons.mp hu
        · omega
        · have := hbetween u hu
          omega
      · have := hbetween u hu
        omega

/-- **The scanner cuts a text as the rules say.**  If it can be cut, there is one mark of the end, on
the line that the whole text leads to; the spellings of the tokens, with white space and comments
between them, are the text; and their lines are in order. -/
theorem scan_is_munch (source : String) :
    (∀ r, scan source = r ↔ Munch [] source.toList r) ∧
    ∀ ts, scan source = .ok ts → ∃ (body : List Token) (gaps : List (List Char)) (last : List Char),
      ts = body ++ [⟨.endOfInput, "", none, lineAfter source.toList⟩] ∧
      (∀ t ∈ body, t.kind ≠ .endOfInput) ∧
      gaps.length = body.length ∧ (∀ gap ∈ last :: gaps, gap ∈ trivia) ∧
      source.toList = woven gaps body ++ last ∧
      ts.Pairwise fun t u => t.line ≤ u.line := by
  refine ⟨fun r => scan_eq_iff, fun ts hts => ?_⟩
  obtain ⟨body, line, rest, last, hreads, hend, hscan⟩ | ⟨_, _, _, _, -, -, hscan⟩ :=
    tokens_cases 1 source.toList
  · obtain rfl : ts = body ++ [Token.endAt (min last lastLine)] :=
      Except.ok.inj (hts.symm.trans hscan)
    obtain ⟨gaps, hlength, hgaps, htext⟩ := hreads.exists_gaps
    obtain ⟨gap, hgap, hrest⟩ := exists_gap_of_skip hend
    have hlast : last = 1 + lineBreaks source.toList := by
      rw [← hreads.lineBreaks, ← lineBreaks_skip hend]
      exact (Nat.add_zero last).symm
    obtain ⟨-, hbetween, hsorted⟩ := hreads.lines
    refine ⟨body, gaps, gap, ?_, hreads.kind_ne_endOfInput, hlength,
      List.forall_mem_cons.mpr ⟨hgap, hgaps⟩, ?_, ?_⟩
    · rw [hlast]
      rfl
    · rw [List.append_nil] at hrest
      rw [← hrest, ← htext]
    · refine List.pairwise_append.mpr ⟨hsorted, List.pairwise_singleton _ _, fun t ht u hu => ?_⟩
      obtain rfl := List.mem_singleton.mp hu
      have hle := le_of_skip hend
      have := (hbetween t ht).2
      show t.line ≤ min last lastLine
      omega
  · have hfails : scan source = .error _ := hscan
    rw [hts] at hfails
    cases hfails

/-- A comment, a string over two lines, a symbol with a minus in it and a minus by itself. -/
theorem scan_is_munch_two_lines :
    let source := "(set x-1 \"a;\n\\t\") ; b\n- let"
    let string : Token := ⟨.string, "\"a;\n\\t\"", some (.text "a;\n\t"), 1⟩
    let ts : List Token := [⟨.leftParen, "(", none, 1⟩, ⟨.keyword .assign, "set", none, 1⟩,
      ⟨.symbol, "x-1", none, 1⟩, string, ⟨.rightParen, ")", none, 2⟩,
      ⟨.operator .minus, "-", none, 3⟩, ⟨.keyword .bind, "let", none, 3⟩,
      ⟨.endOfInput, "", none, 3⟩]
    scan source = .ok ts ∧ Munch [] source.toList (.ok ts) ∧
      ∃ (body : List Token) (gaps : List (List Char)) (last : List Char),
        gaps.length = body.length ∧ source.toList = woven gaps body ++ last := by
  intro source string ts
  have hscan : scan source = .ok ts := by cbv
  obtain ⟨hmunch, hlaid⟩ := scan_is_munch source
  obtain ⟨body, gaps, last, -, -, hlength, -, htext, -⟩ := hlaid ts hscan
  exact ⟨hscan, (hmunch _).mp hscan, body, gaps, last, hlength, htext⟩

end Scan

end SmallLisp
