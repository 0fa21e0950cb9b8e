/-
What the scanner takes is the longest match.

The scanner looks at the first character and then takes characters as long as they fit.  For each
rule one theorem says that this is the longest match, and which token it makes.  The reason is the
same for all of them: of the beginnings of a text that the rule allows, the one that the scanner
takes is as long as any other.  For words and numbers that is because it takes all the characters of
a class; for strings because the inside of a string can be read in one way only, so that there is one
quote that can end it.

A text has one longest match at most (`Longest.unique`), so what the scanner takes is what the rules
say, and it has one if any of its beginnings is a token (`exists_longest`).
-/
import Mathlib.Data.List.TakeWhile
import SmallLisp.Proofs.Scan.Rules

namespace SmallLisp

namespace Scan

/-! ### The scanner's classes of characters

The scanner looks at code points and the rules name sets of characters.  After these lemmas only the sets
are spoken of.
-/

theorem isDigit_iff {c : Char} : isDigit c = true ↔ Digit c := by
  simp [isDigit, Char.isDigit, Digit, Char.le_def]

theorem isAlpha_iff {c : Char} : c.isAlpha = true ↔ Letter c := by
  simp [Char.isAlpha, Char.isUpper, Char.isLower, Letter, Char.le_def]

theorem isSymbolStart_iff {c : Char} : isSymbolStart c = true ↔ WordStart c := by
  simp [isSymbolStart, isAlpha_iff, WordStart, or_assoc]

theorem isSymbolPart_iff {c : Char} : isSymbolPart c = true ↔ WordPart c := by
  simp [isSymbolPart, isSymbolStart_iff, isDigit_iff, WordPart, or_assoc]

theorem sign?_eq (c : Char) : sign? c = signs.lookup c := by
  by_cases hc : c ∈ signs.map Prod.fst
  · simp only [signs, List.map_cons, List.map_nil, List.mem_cons, List.not_mem_nil, or_false] at hc
    obtain rfl | rfl | rfl | rfl | rfl | rfl | rfl | rfl | rfl := hc <;> rfl
  · rw [lookup_eq_none hc]
    simp only [signs, List.map_cons, List.map_nil, List.mem_cons, List.not_mem_nil, or_false,
      not_or] at hc
    simp [sign?, Operator.ofSign?, Operator.all, Operator.sign, hc, eq_comm]

theorem sign?_eq_none {c : Char} (h : ∀ kind, signs.lookup c ≠ some kind) : sign? c = none :=
  (sign?_eq c).trans (Option.eq_none_iff_forall_ne_some.mpr h)

theorem reserved?_eq (w : String) : TokenKind.reserved? w = reservedWords.lookup w := by
  by_cases hw : w ∈ reservedWords.map Prod.fst
  · simp only [reservedWords, List.map_cons, List.map_nil, List.mem_cons, List.not_mem_nil,
      or_false] at hw
    obtain rfl | rfl | rfl | rfl | rfl | rfl | rfl | rfl | rfl | rfl := hw <;> rfl
  · rw [lookup_eq_none hw]
    simp only [reservedWords, List.map_cons, List.map_nil, List.mem_cons, List.not_mem_nil,
      or_false, not_or] at hw
    simp [TokenKind.reserved?, Keyword.ofWord?, Keyword.all, Keyword.word, hw, eq_comm]

/-! ### Longest matches

A longest match is unique, and there is one where there is any match, as a text has only so many
beginnings.  Where the first character settles the rule, the others need not be looked at.
-/

namespace Longest

variable {rule rule' : Rule} {text x x' : List Char}

theorem unique (h : Longest rule text x) (h' : Longest rule' text x') : x = x' := by
  have hle := h.longest rule' x' h'.isPrefix h'.mem
  have hle' := h'.longest rule x h.isPrefix h.mem
  exact (List.prefix_of_prefix_length_le h.isPrefix h'.isPrefix hle').eq_of_length
    (Nat.le_antisymm hle' hle)

/-- A longest match leaves less of a text. -/
theorem exists_rest (h : Longest rule text x) :
    ∃ rest, text = x ++ rest ∧ rest.length < text.length := by
  obtain ⟨rest, rfl⟩ := h.isPrefix
  obtain ⟨c, cs, rfl, -⟩ := rule.exists_begins h.mem
  exact ⟨rest, rfl, by simp only [List.length_append, List.length_cons]; omega⟩

theorem begins {c : Char} {cs : List Char} (h : Longest rule (c :: cs) x) : rule.Begins c := by
  obtain ⟨d, ds, rfl, hd⟩ := rule.exists_begins h.mem
  obtain ⟨rfl, -⟩ := List.cons_prefix_cons.mp h.isPrefix
  exact hd

end Longest

/-- If a text begins with a token, it has a longest match. -/
theorem exists_longest {rule : Rule} {text x : List Char} (hfront : x <+: text)
    (hmem : x ∈ rule.language) : ∃ rule x, Longest rule text x := by
  induction hk : text.length - x.length using Nat.strong_induction_on generalizing rule x with
  | _ k ih =>
      by_cases hlongest : ∃ rule' x', x' <+: text ∧ x' ∈ Rule.language rule' ∧ x.length < x'.length
      · obtain ⟨rule', x', hfront', hmem', hlt⟩ := hlongest
        have hle := hfront'.length_le
        exact ih (text.length - x'.length) (by omega) hfront' hmem' rfl
      · refine ⟨rule, x, hfront, hmem, fun rule' x' hfront' hmem' => ?_⟩
        exact Nat.le_of_not_lt fun hlt => hlongest ⟨rule', x', hfront', hmem', hlt⟩

/-- Where the first character settles the rule, only the tokens of that rule count. -/
theorem longest_of_begins {rule : Rule} {c : Char} {cs x : List Char} (hc : rule.Begins c)
    (hquote : c ≠ '"') (hfront : x <+: c :: cs) (hmem : x ∈ rule.language)
    (hmax : ∀ x', x' <+: c :: cs → x' ∈ rule.language → x'.length ≤ x.length) :
    Longest rule (c :: cs) x := by
  refine ⟨hfront, hmem, fun rule' x' hfront' hmem' => ?_⟩
  obtain ⟨d, ds, rfl, hd⟩ := rule'.exists_begins hmem'
  obtain ⟨rfl, -⟩ := List.cons_prefix_cons.mp hfront'
  obtain rfl := Rule.eq_of_begins hquote hc hd
  exact hmax _ hfront' hmem'

/-- Characters of a class that a text begins with are among those that are taken. -/
theorem length_le_takeWhile {p : Char → Bool} {x text : List Char} (hx : ∀ c ∈ x, p c = true)
    (h : x <+: text) : x.length ≤ (text.takeWhile p).length := by
  obtain ⟨rest, rfl⟩ := h
  rw [List.takeWhile_append_of_pos hx, List.length_append]
  exact Nat.le_add_right _ _

/-! ### Signs -/

theorem longest_sign {c : Char} {kind : TokenKind} (h : signs.lookup c = some kind)
    (cs : List Char) : Longest (.sign kind) (c :: cs) [c] := by
  refine longest_of_begins h (sign_apart h).2.1 ⟨cs, rfl⟩ ⟨c, h, rfl⟩ fun x' _ hx' => ?_
  obtain ⟨d, -, rfl⟩ := hx'
  exact Nat.le_refl _

theorem token_sign {c : Char} {kind : TokenKind} (h : signs.lookup c = some kind) (line : Nat)
    (cs : List Char) :
    token line c cs = .ok (⟨kind, String.ofList [c], none, line⟩, cs) := by
  rw [token, sign?_eq, h]
  rfl

/-! ### Words

A word is what is taken up to the first character that cannot go on with it.  Reserved words are words as
long as any; whether a word is one of them is asked afterwards.
-/

theorem longest_word {c : Char} (hc : WordStart c) (cs : List Char) :
    Longest .word (c :: cs) ((c :: cs).takeWhile isSymbolPart) := by
  have hpart : isSymbolPart c = true :=
    isSymbolPart_of_isSymbolStart (isSymbolStart_iff.mpr hc)
  refine longest_of_begins (show Rule.word.Begins c from hc) ?_ (List.takeWhile_prefix _) ?_
    fun x' hfront hx' => ?_
  · rintro rfl
    exact absurd hc (by decide)
  · rw [List.takeWhile_cons_of_pos hpart]
    refine mem_one_mul_kstar.mpr ⟨c, _, rfl, hc, fun d hd => ?_⟩
    exact isSymbolPart_iff.mp (List.mem_takeWhile_imp hd)
  · refine length_le_takeWhile (fun d hd => isSymbolPart_iff.mpr ?_) hfront
    obtain ⟨d', ds, rfl, hd', hds⟩ := mem_one_mul_kstar.mp hx'
    obtain rfl | hd := List.mem_cons.mp hd
    · exact .inl hd'
    · exact hds d hd

theorem token_word {c : Char} (hc : WordStart c) (line : Nat) (cs : List Char) :
    token line c cs = .ok (word line (c :: cs)) := by
  have hsign : sign? c = none := sign?_eq_none fun kind hkind => (sign_apart hkind).2.2 hc
  have hdigit : isDigit c = false :=
    Bool.eq_false_iff.mpr fun h => digit_apart (isDigit_iff.mp h) hc
  have hquote : c ≠ '"' := by
    rintro rfl
    exact absurd hc (by decide)
  simp [token, hsign, hdigit, hquote, isSymbolStart_iff.mpr hc]

/-! ### Numbers

Digits are taken up to the first other character.  A point is taken with them only if a digit stands
behind it, so there are two cases, with a point and without, and in each the longest match has to be
compared with one of the other kind.
-/

/-- The number that digits with at most one point among them spell. -/
def numeral (lexeme : List Char) : Decimal :=
  .ofDigits (lexeme.takeWhile (· ≠ '.')) ((lexeme.dropWhile (· ≠ '.')).drop 1)

theorem ne_point_of_digits {whole : List Char} (h : ∀ c ∈ whole, isDigit c = true) :
    ∀ c ∈ whole, decide (c ≠ '.') = true := by
  intro c hc
  refine decide_eq_true ?_
  rintro rfl
  exact absurd (h _ hc) (by decide)

theorem numeral_whole {whole : List Char} (h : ∀ c ∈ whole, isDigit c = true) :
    numeral whole = .ofDigits whole [] := by
  have hpoint := ne_point_of_digits h
  rw [numeral, List.takeWhile_eq_self_iff.mpr hpoint, List.dropWhile_eq_nil_iff.mpr hpoint]
  rfl

theorem numeral_fraction {whole : List Char} (h : ∀ c ∈ whole, isDigit c = true)
    (fraction : List Char) : numeral (whole ++ '.' :: fraction) = .ofDigits whole fraction := by
  have hpoint := ne_point_of_digits h
  rw [numeral, List.takeWhile_append_of_pos hpoint, List.dropWhile_append_of_pos hpoint]
  simp

theorem not_isDigit_of_fraction? {d : Char} {ds : List Char} (h : fraction? ('.' :: d :: ds) = none) :
    isDigit d = false := by
  simpa [fraction?] using h

theorem exists_of_fraction? {cs fraction rest : List Char}
    (h : fraction? cs = some (fraction, rest)) :
    ∃ d ds, cs = '.' :: d :: ds ∧ isDigit d = true ∧ fraction = (d :: ds).takeWhile isDigit ∧
      rest = (d :: ds).dropWhile isDigit := by
  unfold fraction? at h
  split at h
  · rename_i d ds
    split at h
    · rename_i hd
      cases h
      exact ⟨d, ds, rfl, hd, (List.takeWhile_cons_of_pos hd).symm,
        (List.dropWhile_cons_of_pos hd).symm⟩
    · cases h
  · cases h

/-- What digits are taken from a text that goes on with a point behind digits. -/
theorem span_point {whole : List Char} (h : ∀ c ∈ whole, isDigit c = true) (rest : List Char) :
    (whole ++ '.' :: rest).takeWhile isDigit = whole ∧
      (whole ++ '.' :: rest).dropWhile isDigit = '.' :: rest := by
  rw [List.takeWhile_append_of_pos h, List.dropWhile_append_of_pos h]
  constructor
  · exact List.append_nil whole
  · rfl

theorem token_number {c : Char} (hc : Digit c) (line : Nat) (cs : List Char) :
    token line c cs = .ok (number line (c :: cs)) := by
  have hsign : sign? c = none := sign?_eq_none fun kind hkind => (sign_apart hkind).1 hc
  simp [token, hsign, isDigit_iff.mpr hc]

theorem ne_quote_of_digit {c : Char} (hc : Digit c) : c ≠ '"' := by
  rintro rfl
  exact absurd hc (by decide)

/-- The digits that a text begins with, and that are at least one. -/
theorem digits_takeWhile {c : Char} (hc : isDigit c = true) (cs : List Char) :
    (c :: cs).takeWhile isDigit ≠ [] ∧ ∀ d ∈ (c :: cs).takeWhile isDigit, Digit d := by
  constructor
  · rw [List.takeWhile_cons_of_pos hc]
    exact List.cons_ne_nil _ _
  · exact fun d hd => isDigit_iff.mp (List.mem_takeWhile_imp hd)

theorem isDigit_of_digits {x : List Char} (h : ∀ d ∈ x, Digit d) : ∀ d ∈ x, isDigit d = true :=
  fun d hd => isDigit_iff.mpr (h d hd)

/-- Without a point and a digit behind them, digits are the longest number. -/
theorem longest_whole {c : Char} (hc : Digit c) {cs : List Char}
    (hfraction : fraction? ((c :: cs).dropWhile isDigit) = none) :
    Longest .number (c :: cs) ((c :: cs).takeWhile isDigit) := by
  refine longest_of_begins (show Rule.number.Begins c from hc) (ne_quote_of_digit hc)
    (List.takeWhile_prefix _) ?_ fun x' hfront hx' => ?_
  · exact mem_number.mpr ⟨_, digits_takeWhile (isDigit_iff.mpr hc) cs, .inl rfl⟩
  · obtain ⟨whole, ⟨-, hwhole⟩, rfl | ⟨fraction, ⟨hne, hdigits⟩, rfl⟩⟩ := mem_number.mp hx'
    · exact length_le_takeWhile (isDigit_of_digits hwhole) hfront
    · obtain ⟨more, hmore⟩ := hfront
      obtain ⟨d, ds, rfl⟩ := List.exists_cons_of_ne_nil hne
      have htext : c :: cs = whole ++ '.' :: d :: (ds ++ more) := by simp [← hmore]
      rw [htext, (span_point (isDigit_of_digits hwhole) _).2] at hfraction
      have hd := isDigit_of_digits hdigits d List.mem_cons_self
      rw [not_isDigit_of_fraction? hfraction] at hd
      cases hd

/-- With them, the digits behind the point belong to it. -/
theorem longest_fraction {c d : Char} (hc : Digit c) {cs ds : List Char}
    (hdrop : (c :: cs).dropWhile isDigit = '.' :: d :: ds) (hd : isDigit d = true) :
    Longest .number (c :: cs)
      ((c :: cs).takeWhile isDigit ++ '.' :: (d :: ds).takeWhile isDigit) := by
  have htext : (c :: cs).takeWhile isDigit ++ '.' :: d :: ds = c :: cs := by
    rw [← hdrop, List.takeWhile_append_dropWhile]
  refine longest_of_begins (show Rule.number.Begins c from hc) (ne_quote_of_digit hc)
    ⟨(d :: ds).dropWhile isDigit, ?_⟩ ?_ fun x' hfront hx' => ?_
  · rw [List.append_assoc, List.cons_append, List.takeWhile_append_dropWhile, htext]
  · exact mem_number.mpr
      ⟨_, digits_takeWhile (isDigit_iff.mpr hc) cs, .inr ⟨_, digits_takeWhile hd ds, rfl⟩⟩
  · obtain ⟨whole, ⟨-, hwhole⟩, rfl | ⟨fraction, ⟨-, hdigits⟩, rfl⟩⟩ := mem_number.mp hx'
    · have hle := length_le_takeWhile (isDigit_of_digits hwhole) hfront
      rw [List.length_append]
      omega
    · obtain ⟨more, hmore⟩ := hfront
      have hspan := span_point (isDigit_of_digits hwhole) (fraction ++ more)
      rw [show whole ++ '.' :: (fraction ++ more) = c :: cs by simp [← hmore]] at hspan
      have hds : fraction ++ more = d :: ds := (List.cons.inj (hspan.2.symm.trans hdrop)).2
      have hle := length_le_takeWhile (isDigit_of_digits hdigits) ⟨more, hds⟩
      simp only [hspan.1, List.length_append, List.length_cons]
      omega

/-- The scanner takes the longest number, and it is worth what it spells. -/
theorem exists_number {c : Char} (hc : Digit c) (cs : List Char) :
    ∃ lexeme rest, c :: cs = lexeme ++ rest ∧ Longest .number (c :: cs) lexeme ∧
      ∀ line, number line (c :: cs) =
        (⟨.number, String.ofList lexeme, some (.number (numeral lexeme).toFloat), line⟩, rest) := by
  have hwhole := isDigit_of_digits (digits_takeWhile (isDigit_iff.mpr hc) cs).2
  rcases hfraction : fraction? ((c :: cs).dropWhile isDigit) with _ | ⟨fraction, rest⟩
  · refine ⟨_, _, List.takeWhile_append_dropWhile.symm, longest_whole hc hfraction,
      fun line => ?_⟩
    rw [numeral_whole hwhole, number]
    simp only [hfraction]
    rfl
  · obtain ⟨d, ds, hdrop, hd, rfl, rfl⟩ := exists_of_fraction? hfraction
    refine ⟨_, (d :: ds).dropWhile isDigit, ?_, longest_fraction hc hdrop hd, fun line => ?_⟩
    · rw [List.append_assoc, List.cons_append, List.takeWhile_append_dropWhile, ← hdrop,
        List.takeWhile_append_dropWhile]
    · rw [numeral_fraction hwhole, number]
      simp only [hfraction]
      rfl

/-! ### Strings

A string has two rules, one with an end and one without.  The scanner looks for the first quote that no
backslash precedes; the rules say what the inside consists of.  That these agree is shown by induction on
the inside.
-/

/-- The inside of a string is read as a whole. -/
theorem closeString_append_of_mem {y : List Char} (hy : y ∈ inside) (z : List Char) :
    closeString (y ++ z) = (closeString z).map fun (more, rest) => (y ++ more, rest) := by
  refine quotable_induction (P := fun y => closeString (y ++ z) =
    (closeString z).map fun (more, rest) => (y ++ more, rest)) ?_ ?_ ?_ hy
  · simp
  · intro c y hquote hbackslash _ ih
    rw [List.cons_append, closeString_cons hquote hbackslash, ih, Option.map_map]
    rfl
  · intro c y hc _ ih
    rw [List.cons_append, List.cons_append, closeString_escape hc, ih, Option.map_map]
    rfl

theorem mem_inside_of_closeString {cs y rest : List Char}
    (h : closeString cs = some (y, rest)) : y ∈ inside := by
  fun_induction closeString cs generalizing y with
  | case1 => cases h
  | case2 => cases h; exact nil_mem_quotable
  | case3 => cases h
  | case4 c cs hc ih =>
      obtain ⟨p, hp, heq⟩ := Option.map_eq_some_iff.1 h
      cases heq
      exact escape_mem_quotable hc (ih hp)
  | case5 => cases h
  | case6 c cs hquote hescape hlone ih =>
      obtain ⟨p, hp, heq⟩ := Option.map_eq_some_iff.1 h
      cases heq
      exact cons_mem_quotable hquote (ne_backslash hescape hlone) (ih hp)

/-- A string is closed where its first quote stands that is no part of the inside. -/
theorem closeString_eq_some_iff {cs y rest : List Char} :
    closeString cs = some (y, rest) ↔ y ∈ inside ∧ cs = y ++ '"' :: rest := by
  constructor
  · intro h
    exact ⟨mem_inside_of_closeString h, (closeString_text h).symm⟩
  · rintro ⟨hy, rfl⟩
    rw [closeString_append_of_mem hy, closeString]
    simp

theorem longest_string {cs y rest : List Char} (h : closeString cs = some (y, rest)) :
    Longest .string ('"' :: cs) ('"' :: (y ++ ['"'])) := by
  obtain ⟨hy, rfl⟩ := closeString_eq_some_iff.mp h
  refine ⟨⟨rest, by simp⟩, mem_string.mpr ⟨y, hy, rfl⟩, fun rule' x' hfront hx' => ?_⟩
  have hinside {z more : List Char} (hz : z ∈ inside) (hcs : y ++ '"' :: rest = z ++ more) :
      z.length ≤ y.length := by
    rw [hcs, closeString_append_of_mem hz] at h
    obtain ⟨p, -, heq⟩ := Option.map_eq_some_iff.mp h
    obtain ⟨rfl, -⟩ := Prod.mk.inj heq
    simp
  obtain ⟨d, ds, rfl, hd⟩ := rule'.exists_begins hx'
  obtain ⟨rfl, hds⟩ := List.cons_prefix_cons.mp hfront
  match rule', hd with
  | .string, _ =>
      obtain ⟨z, hz, heq⟩ := mem_string.mp hx'
      obtain ⟨-, rfl⟩ := List.cons.inj heq
      obtain ⟨more, hmore⟩ := hds
      have := hinside hz (by rw [← hmore, List.append_assoc])
      simp only [List.length_cons, List.length_append]
      omega
  | .openString, _ =>
      obtain ⟨z, hz, heq⟩ := mem_openString.mp hx'
      obtain ⟨-, rfl⟩ := List.cons.inj heq
      obtain ⟨more, hmore⟩ := hds
      have := hinside hz hmore.symm
      simp only [List.length_cons, List.length_append]
      omega
  | .sign kind, hd => exact absurd rfl (sign_apart hd).2.1
  | .number, hd => exact absurd (show Digit '"' from hd) (by decide)
  | .word, hd => exact absurd (show WordStart '"' from hd) (by decide)

/-- A string without an end is no string. -/
theorem closeString_of_longest_openString {cs x : List Char}
    (h : Longest .openString ('"' :: cs) x) : closeString cs = none := by
  refine Option.eq_none_iff_forall_ne_some.mpr fun ⟨y, rest⟩ hclose => ?_
  obtain ⟨z, hz, rfl⟩ := mem_openString.mp h.mem
  have heq := h.unique (longest_string hclose)
  obtain ⟨-, rfl⟩ := List.cons.inj heq
  have hlong := closeString_append_of_mem hz rest
  obtain ⟨-, rfl⟩ := closeString_eq_some_iff.mp hclose
  rw [show y ++ ['"'] ++ rest = y ++ '"' :: rest by simp, hclose] at hlong
  obtain ⟨p, -, heq⟩ := Option.map_eq_some_iff.mp hlong.symm
  have := congrArg List.length (Prod.mk.inj heq).1
  simp at this

end Scan

end SmallLisp
