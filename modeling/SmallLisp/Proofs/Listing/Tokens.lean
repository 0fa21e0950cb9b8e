/-
What a listing of tokens says.

A listing shows of every token its line, its kind and its lexeme, with a line break behind them.
Lexemes are shown as they were written.  That goes for strings as well, and a string may go on over
several lines: a listing has one line more for every line break in one (`length_lines_entries`).  So
it has one line for every token exactly if there are no such strings, and only then can it be read
line by line.

As a whole it can be read back in any case (`shown?`, `ReadBack`).  Up to the lexeme the parts of an
entry are told apart by spaces, since neither numbers nor labels have any.  A lexeme without a line
break goes on to the line break behind it.  A string, which is the only one that can have line
breaks (`Plain`), goes on to the quote that closes it, as it does in a program.
-/
import SmallLisp.Listing
import SmallLisp.Proofs.Scan.Munch
import SmallLisp.Proofs.Text.Lines

namespace SmallLisp

/-- The kind with a given label. -/
def TokenKind.ofLabel? (label : String) : Option TokenKind :=
  all.find? fun kind => kind.label = label

theorem TokenKind.ofLabel?_label (kind : TokenKind) : ofLabel? kind.label = some kind := by
  cases kind with
  | operator op => cases op <;> rfl
  | keyword word => cases word <;> rfl
  | _ => rfl

theorem TokenKind.isAlpha_of_mem_label (kind : TokenKind) :
    ∀ c ∈ kind.label.toList, c.isAlpha = Bool.true := by
  cases kind with
  | operator op => cases op <;> simp [label, Operator.label]
  | keyword word => cases word <;> simp [label, Keyword.label]
  | _ => simp [label]

namespace Listing

/-! ### Reading an entry

A listing is no input of any program, so how to read it is said here: a reader for one entry that knows the
format and nothing of the tokens that have been written.
-/

/-- What a listing shows of a token. -/
structure Shown where
  line : Nat
  kind : TokenKind
  lexeme : String
deriving DecidableEq, Repr

/-- What a listing shows of a given token. -/
def shown (t : Token) : Shown :=
  ⟨t.line, t.kind, t.lexeme⟩

/-- The string at the start of a text, and what is behind it. -/
def quoted? : List Char → Option (List Char × List Char)
  | '"' :: cs => (Scan.closeString cs).map fun (inside, rest) => ('"' :: (inside ++ ['"']), rest)
  | _ => none

/-- The lexeme of a kind at the start of a text, and what is behind it. -/
def lexeme? (kind : TokenKind) (text : List Char) : Option (List Char × List Char) :=
  if kind = .string then quoted? text
  else some (text.takeWhile (· ≠ '\n'), text.dropWhile (· ≠ '\n'))

/-- What is behind the two spaces at the start of a text. -/
def gap? : List Char → Option (List Char)
  | ' ' :: ' ' :: cs => some cs
  | _ => none

/-- What is behind the line break at the start of a text. -/
def break? : List Char → Option (List Char)
  | '\n' :: cs => some cs
  | _ => none

/-- Reads what is shown of a token, and the line break behind it. -/
def shown? (text : List Char) : Option (Shown × List Char) := do
  let text := text.dropWhile (· = ' ')
  let line := Decimal.natOfDigits (text.takeWhile Char.isDigit)
  let text ← gap? (text.dropWhile Char.isDigit)
  let kind ← TokenKind.ofLabel? (String.ofList (text.takeWhile (· ≠ ' ')))
  let text ← gap? (text.dropWhile (· ≠ ' '))
  let (lexeme, text) ← lexeme? kind text
  let text ← break? text
  return (⟨line, kind, String.ofList lexeme⟩, text)

/-- What is read of a whole listing, one entry after the other. -/
inductive ReadBack : List Char → List Shown → Prop where
  | nil : ReadBack [] []
  | cons {text rest : List Char} {x : Shown} {xs : List Shown} (h : shown? text = some (x, rest))
      (hs : ReadBack rest xs) : ReadBack text (x :: xs)

/-- There is one way only to read a listing. -/
theorem ReadBack.unique {text : List Char} {xs ys : List Shown} (h : ReadBack text xs)
    (h' : ReadBack text ys) : xs = ys := by
  induction h generalizing ys with
  | nil =>
      cases h' with
      | nil => rfl
      | cons hentry => cases hentry
  | cons hentry _ ih =>
      cases h' with
      | nil => cases hentry
      | cons hentry' hs' =>
          cases hentry.symm.trans hentry'
          rw [ih hs']

/-! ### What is shown of a token

An entry can be read if one can see where the lexeme ends.  For a string this is the closing quote, for
all others the end of the line.
-/

/-- Whether a lexeme ends where its kind says: a string with its closing quote, and any other with
its line. -/
def Plain (t : Token) : Prop :=
  if t.kind = .string then ∃ inside ∈ Scan.inside, t.lexeme.toList = '"' :: (inside ++ ['"'])
  else '\n' ∉ t.lexeme.toList

/-- A lexeme of characters of a class without the line break is on one line. -/
theorem break_notMem {p : Char → Prop} (hp : ¬p '\n') {x : List Char} (h : ∀ c ∈ x, p c) :
    '\n' ∉ x :=
  fun hbreak => hp (h _ hbreak)

theorem break_notMem_number {x : List Char} (h : x ∈ Scan.Rule.number.language) : '\n' ∉ x := by
  have hdigit : ¬Scan.Digit '\n' := by decide
  obtain ⟨whole, ⟨-, hwhole⟩, rfl | ⟨fraction, ⟨-, hfraction⟩, rfl⟩⟩ := Scan.mem_number.mp h
  · exact break_notMem hdigit hwhole
  · simp [break_notMem hdigit hwhole, break_notMem hdigit hfraction]

theorem break_notMem_word {x : List Char} (h : x ∈ Scan.Rule.word.language) : '\n' ∉ x := by
  have hpart : ¬Scan.WordPart '\n' := mt Scan.isSymbolPart_iff.mpr (by decide)
  obtain ⟨c, cs, rfl, hc, hcs⟩ := Scan.mem_one_mul_kstar.mp h
  exact break_notMem hpart (List.forall_mem_cons.mpr ⟨.inl hc, hcs⟩)

theorem plain_of_break_notMem {t : Token} {lexeme : List Char} (hkind : t.kind ≠ .string)
    (hlexeme : t.lexeme.toList = lexeme) (h : '\n' ∉ lexeme) : Plain t := by
  rwa [Plain, if_neg hkind, hlexeme]

theorem ne_string_of_reserved {w : String} {kind : TokenKind}
    (h : Scan.reservedWords.lookup w = some kind) : kind ≠ .string := by
  obtain ⟨before, after, htable, -⟩ := List.lookup_eq_some_iff.mp h
  have hmem : (w, kind) ∈ Scan.reservedWords := by simp [htable]
  have hkinds : ∀ p ∈ Scan.reservedWords, p.2 ≠ .string := by decide
  exact hkinds _ hmem

/-- **What a lexeme of a rule makes is plain.** -/
theorem plain_of_makes {line : Nat} {rule : Scan.Rule} {lexeme : List Char} {t : Token}
    (hmem : lexeme ∈ rule.language) (h : Scan.Makes line rule lexeme t) : Plain t := by
  have hlexeme : t.lexeme.toList = lexeme := Scan.toList_lexeme h
  cases h with
  | sign kind =>
      obtain ⟨c, hc, rfl⟩ := hmem
      have hsign : Scan.sign? c = some kind := (Scan.sign?_eq c).trans hc
      have hkind : kind ≠ .string := by
        obtain rfl | rfl | ⟨op, rfl⟩ := Scan.sign?_cases hsign <;> simp
      have hbreak : c ≠ '\n' := by
        rintro rfl
        cases hsign
      exact plain_of_break_notMem hkind hlexeme (by simpa using hbreak.symm)
  | number => exact plain_of_break_notMem (by simp) hlexeme (break_notMem_number hmem)
  | @string y text hspells =>
      obtain ⟨z, hz, heq⟩ := Scan.mem_string.mp hmem
      obtain rfl : y = z := List.append_cancel_right (List.cons.inj heq).2
      rw [Plain, if_pos rfl]
      exact ⟨y, hz, hlexeme⟩
  | reserved hreserved =>
      exact plain_of_break_notMem (ne_string_of_reserved hreserved) hlexeme (break_notMem_word hmem)
  | symbol => exact plain_of_break_notMem (by simp) hlexeme (break_notMem_word hmem)

theorem plain_of_scan {source : String} {ts : List Token} (h : scan source = .ok ts) :
    ∀ t ∈ ts, Plain t := by
  obtain ⟨us, _, _, last, hreads, -, rfl⟩ := Scan.exists_reads_of_ok h
  intro t ht
  obtain ht | ht := List.mem_append.mp ht
  · obtain ⟨line, c, cs, rest, htoken⟩ := hreads.scanned t ht
    obtain ⟨rule, lexeme, hlongest, hmakes⟩ := Scan.exists_longest_of_token htoken
    exact plain_of_makes hlongest.mem hmakes
  · obtain rfl := List.mem_singleton.mp ht
    exact plain_of_break_notMem (by simp [Token.endAt]) rfl (by simp [Token.endAt])

/-! ### Reading what is shown

The number is behind its spaces, the label behind two more, the lexeme behind two more, then the line
break.  What comes after the entry is arbitrary, so entries can be read one after the other.
-/

theorem span_of_forall {p : Char → Bool} {cs : List Char} (h : ∀ c ∈ cs, p c = true)
    (rest : List Char) (hrest : ∀ c ∈ rest.head?, p c = false) :
    (cs ++ rest).takeWhile p = cs ∧ (cs ++ rest).dropWhile p = rest := by
  rw [List.takeWhile_append_of_pos h, List.dropWhile_append_of_pos h]
  cases rest with
  | nil => simp
  | cons c rest => simp [hrest c rfl]

theorem toList_toString (n : Nat) : (toString n).toList = Nat.toDigits 10 n :=
  Nat.toList_repr

/-- A number as it is shown, two spaces in front included. -/
def aligned (n : Nat) : List Char :=
  ' ' :: ' ' :: (Nat.toDigits 10 n).leftpad 4 ' '

/-- What is shown of a token, without the line break. -/
def entry (t : Token) : List Char :=
  aligned t.line ++ ' ' :: ' ' :: (t.kind.label.toList ++ ' ' :: ' ' :: t.lexeme.toList)

theorem column_eq (n : Nat) : column n = String.ofList ((toString n).toList.leftpad 4 ' ') := by
  rw [column, List.leftpad, String.ofList_append, String.ofList_toList, String.length_toList]

theorem toList_tokenLine (t : Token) : (tokenLine t).toList = entry t ++ ['\n'] := by
  simp only [tokenLine, column_eq, toList_toString]
  simp [entry, aligned]

theorem isDigit_of_mem_toDigits (n : Nat) : ∀ c ∈ Nat.toDigits 10 n, c.isDigit = true :=
  fun _ hc => Nat.isDigit_of_mem_toDigits (by decide) (by decide) hc

/-- The digits of a number are behind all spaces. -/
theorem dropWhile_aligned (n : Nat) (cs : List Char) :
    (aligned n ++ cs).dropWhile (· = ' ') = Nat.toDigits 10 n ++ cs := by
  have hne : Nat.toDigits 10 n ≠ [] := Nat.toDigits_ne_nil
  obtain ⟨d, ds, hdigits⟩ := List.exists_cons_of_ne_nil hne
  have hd : d.isDigit = true := isDigit_of_mem_toDigits n d (by simp [hdigits])
  have hspace : d ≠ ' ' := by
    rintro rfl
    cases hd
  simp [aligned, List.leftpad, hdigits, hspace]

/-- The lexeme of a plain token ends before the line break of its entry. -/
theorem lexeme?_of_plain {t : Token} (h : Plain t) (rest : List Char) :
    lexeme? t.kind (t.lexeme.toList ++ '\n' :: rest) = some (t.lexeme.toList, '\n' :: rest) := by
  by_cases hkind : t.kind = .string
  · rw [Plain, if_pos hkind] at h
    obtain ⟨inside, hinside, hlexeme⟩ := h
    have hclose : Scan.closeString (inside ++ '"' :: '\n' :: rest) = some (inside, '\n' :: rest) :=
      Scan.closeString_eq_some_iff.mpr ⟨hinside, rfl⟩
    simp [lexeme?, hkind, hlexeme, quoted?, hclose]
  · rw [Plain, if_neg hkind] at h
    have hforall : ∀ c ∈ t.lexeme.toList, decide (c ≠ '\n') = true := by
      intro c hc
      simp only [decide_eq_true_eq]
      rintro rfl
      exact h hc
    obtain ⟨htake, hdrop⟩ := span_of_forall hforall ('\n' :: rest) (by simp)
    rw [lexeme?, if_neg hkind, htake, hdrop]

/-- **What is shown of a plain token is read back, whatever comes after it.** -/
theorem shown?_entry {t : Token} (h : Plain t) (rest : List Char) :
    shown? (entry t ++ '\n' :: rest) = some (shown t, rest) := by
  have hlabel : ∀ c ∈ t.kind.label.toList, decide (c ≠ ' ') = true := by
    intro c hc
    simp only [decide_eq_true_eq]
    rintro rfl
    cases t.kind.isAlpha_of_mem_label _ hc
  have hline (cs : List Char) :=
    span_of_forall (isDigit_of_mem_toDigits t.line) (' ' :: cs) (by simp)
  have hkind (cs : List Char) := span_of_forall hlabel (' ' :: cs) (by simp)
  have hnat : Decimal.natOfDigits (Nat.toDigits 10 t.line) = t.line := Nat.ofDigitChars_ten_toDigits
  simp only [shown?, entry, List.append_assoc, List.cons_append, dropWhile_aligned, (hline _).1,
    (hline _).2, gap?, (hkind _).1, (hkind _).2, String.ofList_toList, TokenKind.ofLabel?_label,
    lexeme?_of_plain h, break?, Option.bind_eq_bind, Option.bind_some, hnat]
  rfl

/-- What is shown of tokens, with the line breaks. -/
def entries (ts : List Token) : List Char :=
  ts.flatMap fun t => entry t ++ ['\n']

theorem entries_cons (t : Token) (ts : List Token) :
    entries (t :: ts) = entry t ++ '\n' :: entries ts := by
  simp [entries]

theorem tokens_eq {source : String} {ts : List Token} (h : scan source = .ok ts) :
    tokens source = .ok (String.ofList (entries ts)) := by
  have htext : String.join (ts.map tokenLine) = String.ofList (entries ts) := by
    rw [← String.toList_inj, String.toList_join, String.toList_ofList, List.flatMap_map]
    simp [entries, toList_tokenLine]
  rw [tokens, h, ← htext]
  rfl

theorem readBack_entries {ts : List Token} (h : ∀ t ∈ ts, Plain t) :
    ReadBack (entries ts) (ts.map shown) := by
  induction ts with
  | nil => exact .nil
  | cons t ts ih =>
      obtain ⟨ht, hts⟩ := List.forall_mem_cons.mp h
      rw [entries_cons]
      exact .cons (shown?_entry ht (entries ts)) (ih hts)

/-! ### Lines

An entry has a line break at its end and those of its lexeme.  So there is one line for each token exactly
if no lexeme has any.
-/

/-- Only lexemes have line breaks. -/
theorem count_entry (t : Token) : (entry t).count '\n' = Scan.lineBreaks t.lexeme.toList := by
  have hdigits : '\n' ∉ Nat.toDigits 10 t.line := fun hbreak => by
    cases isDigit_of_mem_toDigits _ _ hbreak
  have hlabel : '\n' ∉ t.kind.label.toList := fun hbreak => by
    cases t.kind.isAlpha_of_mem_label _ hbreak
  simp [entry, aligned, List.leftpad, List.count_replicate, List.count_eq_zero.mpr hdigits,
    List.count_eq_zero.mpr hlabel, Scan.lineBreaks]

theorem length_lines_entries (ts : List Token) :
    (Text.lines (String.ofList (entries ts)).toUTF8).length =
      ts.length + (ts.map fun t => Scan.lineBreaks t.lexeme.toList).sum := by
  induction ts with
  | nil => rw [entries, List.flatMap_nil, Text.lines_nil]; rfl
  | cons t ts ih =>
      rw [entries_cons, Text.length_lines, ih, count_entry, List.map_cons, List.sum_cons,
        List.length_cons]
      omega

/-- Whether no string goes on over several lines. -/
def Unbroken (ts : List Token) : Prop :=
  ∀ t ∈ ts, t.kind = .string → '\n' ∉ t.lexeme.toList

theorem Unbroken.break_notMem {ts : List Token} (h : Unbroken ts) (hplain : ∀ t ∈ ts, Plain t) :
    ∀ t ∈ ts, '\n' ∉ t.lexeme.toList := by
  intro t ht
  by_cases hkind : t.kind = .string
  · exact h t ht hkind
  · have hbreak := hplain t ht
    rwa [Plain, if_neg hkind] at hbreak

theorem lines_entries {ts : List Token} (h : ∀ t ∈ ts, '\n' ∉ t.lexeme.toList) :
    Text.lines (String.ofList (entries ts)).toUTF8 = ts.map fun t => (tokenLine t).toUTF8 := by
  induction ts with
  | nil => exact Text.lines_nil
  | cons t ts ih =>
      obtain ⟨ht, hts⟩ := List.forall_mem_cons.mp h
      have hentry : '\n' ∉ entry t := by
        rw [← List.count_eq_zero, count_entry]
        exact List.count_eq_zero.mpr ht
      rw [entries_cons, Text.lines_line hentry, ih hts, ← toList_tokenLine, String.ofList_toList]
      rfl

/-- Reads a line by itself. -/
def line? (line : ByteArray) : Option Shown := do
  let text ← String.fromUTF8? line
  match shown? text.toList with
  | some (x, []) => some x
  | _ => none

theorem line?_tokenLine {t : Token} (h : Plain t) :
    line? (tokenLine t).toUTF8 = some (shown t) := by
  have hentry := shown?_entry h []
  rw [line?, Text.fromUTF8?_toUTF8]
  simp [toList_tokenLine, hentry]

/-- **A listing has one line for every token exactly if no string goes on over several lines.**
There is one line more for every line break in a string.  If there are none, the lines are those of
the tokens one after the other, and each can be read by itself.  Any listing can be read back as a
whole, and in one way only. -/
theorem tokens_listed {source : String} {ts : List Token} (h : scan source = .ok ts) :
    ∃ out, tokens source = .ok out ∧
      (∀ xs, ReadBack out.toList xs ↔ xs = ts.map shown) ∧
      (Text.lines out.toUTF8).length =
        ts.length + (ts.map fun t => Scan.lineBreaks t.lexeme.toList).sum ∧
      ((Text.lines out.toUTF8).length = ts.length ↔ Unbroken ts) ∧
      (Unbroken ts →
        (Text.lines out.toUTF8 = ts.map fun t =>
          ("  " ++ String.ofList ((toString t.line).toList.leftpad 4 ' ') ++ "  " ++ t.kind.label ++
            "  " ++ t.lexeme ++ "\n").toUTF8) ∧
        (Text.lines out.toUTF8).map line? = ts.map fun t => some (shown t)) := by
  have hplain : ∀ t ∈ ts, Plain t := plain_of_scan h
  have hlength := length_lines_entries ts
  refine ⟨_, tokens_eq h, fun xs => ?_, hlength, ⟨fun hone => ?_, fun hunbroken => ?_⟩,
    fun hunbroken => ?_⟩
  · rw [String.toList_ofList]
    constructor
    · intro hxs
      exact hxs.unique (readBack_entries hplain)
    · rintro rfl
      exact readBack_entries hplain
  · intro t ht _
    have hsum : (ts.map fun t => Scan.lineBreaks t.lexeme.toList).sum = 0 := by omega
    exact List.count_eq_zero.mp (List.sum_eq_zero_iff.mp hsum _ (List.mem_map_of_mem ht))
  · rw [lines_entries (hunbroken.break_notMem hplain), List.length_map]
  · rw [lines_entries (hunbroken.break_notMem hplain), List.map_map]
    refine ⟨?_, List.map_congr_left fun t ht => line?_tokenLine (hplain t ht)⟩
    simp only [tokenLine, column_eq]

/-- A line break that is spelled with a backslash breaks no line of the listing. -/
theorem tokens_listed_escape :
    let source := "(f\n\"a\\n\")"
    let ts : List Token := [⟨.leftParen, "(", none, 1⟩, ⟨.symbol, "f", none, 1⟩,
      ⟨.string, "\"a\\n\"", some (.text "a\n"), 2⟩, ⟨.rightParen, ")", none, 2⟩,
      ⟨.endOfInput, "", none, 2⟩]
    scan source = .ok ts ∧ Unbroken ts ∧
      ∃ out, tokens source = .ok out ∧ (Text.lines out.toUTF8).length = 5 ∧
        (Text.lines out.toUTF8).map line? = [some ⟨1, .leftParen, "("⟩, some ⟨1, .symbol, "f"⟩,
          some ⟨2, .string, "\"a\\n\""⟩, some ⟨2, .rightParen, ")"⟩,
          some ⟨2, .endOfInput, ""⟩] := by
  intro source ts
  have hscan : scan source = .ok ts := by cbv
  have hunbroken : Unbroken ts := by
    intro t ht
    simp only [ts, List.mem_cons, List.not_mem_nil, or_false] at ht
    obtain rfl | rfl | rfl | rfl | rfl := ht <;> simp
  obtain ⟨out, hout, -, -, hlength, hlines⟩ := tokens_listed hscan
  exact ⟨hscan, hunbroken, out, hout, hlength.mpr hunbroken, (hlines hunbroken).2⟩

/-- A string over two lines takes two lines of the listing, and neither can be read by itself. -/
theorem not_tokens_listed_by_line :
    let source := "\"a\nb\""
    let ts : List Token := [⟨.string, source, some (.text "a\nb"), 1⟩, ⟨.endOfInput, "", none, 2⟩]
    scan source = .ok ts ∧
      ∃ out, tokens source = .ok out ∧ (Text.lines out.toUTF8).length = ts.length + 1 ∧
        (Text.lines out.toUTF8).map line? = [none, none, some ⟨2, .endOfInput, ""⟩] := by
  intro source ts
  have hscan : scan source = .ok ts := by cbv
  exact ⟨hscan, _, tokens_eq hscan, by cbv, by cbv⟩

end Listing

end SmallLisp
