/-
Strings and their spellings.

Two passes read a string.  The first finds the quote that closes it, the second makes a text of what
stands before that quote, and each of them has its own idea of what goes with a backslash.  They
have to agree, or a string would end too early or mean something else than was written.

A text is written as a string character by character, each in one of its ways (`spellings`).  No way
to write a character closes the string it stands in, and each means that character, whatever stands
behind it; so by induction on the text both passes give back what was written.  Conversely what the
first pass takes for the inside of a string is cut into plain characters and escapes
(`quotable_induction`), and if the second pass finds a meaning for all of them, each piece is one of
the ways to write a character.

Line breaks that are written as such count as lines of the program.
-/
import SmallLisp.Proofs.Scan.Longest

namespace SmallLisp

namespace Scan

/-! ### Spellings

A text has many spellings: a line break, for one, may be written as it is or with a backslash.  `Written` is
the relation, character by character.
-/

/-- The ways to write a character in a string. -/
def spellings (c : Char) : List (List Char) :=
  if c = '\\' then [['\\', '\\']]
  else if c = '"' then [['\\', '"']]
  else if c = '\n' then [['\n'], ['\\', 'n']]
  else if c = '\t' then [['\t'], ['\\', 't']]
  else if c = '\r' then [['\r'], ['\\', 'r']]
  else [[c]]

/-- Whether a text is written out, each character in one of its ways. -/
abbrev Written (text : List Char) (ws : List (List Char)) : Prop :=
  List.Forall₂ (fun c w => w ∈ spellings c) text ws

/-- What is written, between quotes. -/
def inQuotes (ws : List (List Char)) : List Char :=
  '"' :: (ws.flatten ++ ['"'])

variable {c : Char} {w text : List Char} {ws : List (List Char)}

theorem lookup_escapes_iff {d : Char} : escapes.lookup d = some c ↔ (d, c) ∈ escapes := by
  constructor
  · intro h
    by_cases hd : d ∈ escapes.map Prod.fst
    · simp only [escapes, List.map_cons, List.map_nil, List.mem_cons, List.not_mem_nil,
        or_false] at hd
      obtain rfl | rfl | rfl | rfl | rfl := hd <;> cases h <;> decide
    · rw [lookup_eq_none hd] at h
      cases h
  · intro h
    simp only [escapes, List.mem_cons, Prod.mk.injEq, List.not_mem_nil, or_false] at h
    obtain ⟨rfl, rfl⟩ | ⟨rfl, rfl⟩ | ⟨rfl, rfl⟩ | ⟨rfl, rfl⟩ | ⟨rfl, rfl⟩ := h <;> rfl

/-- A character is written as it is, unless it is a quote or a backslash, or behind a backslash by
what stands for it there. -/
theorem mem_spellings_iff : w ∈ spellings c ↔
    (c ≠ '"' ∧ c ≠ '\\' ∧ w = [c]) ∨ ∃ d, (d, c) ∈ escapes ∧ w = ['\\', d] := by
  unfold spellings escapes
  split_ifs <;> simp_all

/-- No escape is spelled by a line break. -/
theorem ne_break_of_mem_escapes {d : Char} (h : (d, c) ∈ escapes) : d ≠ '\n' := by
  rintro rfl
  simp [escapes] at h

/-- The line breaks in a string are those that are written as they are. -/
theorem lineBreaks_written (h : Written text ws) : lineBreaks ws.flatten = ws.count ['\n'] := by
  induction h with
  | nil => rfl
  | @cons c w _ ws hw _ ih =>
      rw [List.flatten_cons, lineBreaks_append, ih, List.count_cons, Nat.add_comm]
      congr 1
      obtain ⟨-, -, rfl⟩ | ⟨d, hd, rfl⟩ := mem_spellings_iff.mp hw
      · simp [lineBreaks, List.count_cons]
      · simp [lineBreaks, ne_break_of_mem_escapes hd]

theorem lineBreaks_inQuotes (h : Written text ws) : lineBreaks (inQuotes ws) = ws.count ['\n'] := by
  rw [← lineBreaks_written h]
  simp [lineBreaks, inQuotes]

/-! ### From the text to its spelling and back

One lemma for a single character and each of the passes, with any text behind, and then the induction on
the text.  For the other direction the induction is on what the first pass has taken.
-/

/-- A spelling does not close the string that it stands in. -/
theorem closeString_spelling (h : w ∈ spellings c) (cs : List Char) :
    closeString (w ++ cs) = (closeString cs).map fun (inside, rest) => (w ++ inside, rest) := by
  obtain ⟨hquote, hbackslash, rfl⟩ | ⟨d, hd, rfl⟩ := mem_spellings_iff.mp h
  · exact closeString_cons hquote hbackslash cs
  · exact closeString_escape (ne_break_of_mem_escapes hd) cs

/-- A spelling means the character that it spells. -/
theorem unescape_spelling (h : w ∈ spellings c) (cs : List Char) :
    unescape (w ++ cs) = (unescape cs).map (c :: ·) := by
  obtain ⟨-, hbackslash, rfl⟩ | ⟨d, hd, rfl⟩ := mem_spellings_iff.mp h
  · exact unescape_cons hbackslash cs
  · rw [List.cons_append, List.cons_append, List.nil_append, unescape, lookup_escapes_iff.mpr hd]

theorem closeString_written (h : Written text ws) (rest : List Char) :
    closeString (ws.flatten ++ '"' :: rest) = some (ws.flatten, rest) := by
  induction h with
  | nil => rfl
  | cons hw _ ih =>
      rw [List.flatten_cons, List.append_assoc, closeString_spelling hw, ih]
      rfl

theorem unescape_written (h : Written text ws) : unescape ws.flatten = .ok text := by
  induction h with
  | nil => rfl
  | cons hw _ ih =>
      rw [List.flatten_cons, unescape_spelling hw, ih]
      rfl

/-- **What has a meaning between quotes is written out, character by character.** -/
theorem exists_written {y : List Char} (hy : y ∈ inside) (h : unescape y = .ok text) :
    ∃ ws, Written text ws ∧ y = ws.flatten := by
  refine quotable_induction (P := fun y => ∀ text, unescape y = .ok text →
    ∃ ws, Written text ws ∧ y = ws.flatten) ?_ ?_ ?_ hy text h
  · rintro text ⟨⟩
    exact ⟨[], .nil, rfl⟩
  · intro c y hquote hbackslash _ ih text h
    rw [unescape_cons hbackslash] at h
    cases hy : unescape y with
    | error d => rw [hy] at h; cases h
    | ok text =>
        rw [hy] at h
        cases h
        obtain ⟨ws, hws, rfl⟩ := ih text hy
        exact ⟨[c] :: ws, .cons (mem_spellings_iff.mpr (.inl ⟨hquote, hbackslash, rfl⟩)) hws, rfl⟩
  · intro d y _ _ ih text h
    rw [unescape] at h
    cases hd : escapes.lookup d with
    | none => rw [hd] at h; cases h
    | some c =>
        rw [hd] at h
        cases hy : unescape y with
        | error d => rw [hy] at h; cases h
        | ok text =>
            rw [hy] at h
            cases h
            obtain ⟨ws, hws, rfl⟩ := ih text hy
            have hmem := mem_spellings_iff.mpr (.inr ⟨d, lookup_escapes_iff.mp hd, rfl⟩)
            exact ⟨['\\', d] :: ws, .cons hmem hws, rfl⟩

/-! ### Tokens of strings

A string is made into a token with its quotes, its line and the text that it spells.  That a token is a string
is known from its first character.
-/

/-- The token of a text that is written as a string. -/
def stringToken (text : List Char) (ws : List (List Char)) (line : Nat) : Token :=
  ⟨.string, String.ofList (inQuotes ws), some (.text (String.ofList text)), line⟩

theorem string_written (h : Written text ws) (line : Nat) (rest : List Char) :
    string line (ws.flatten ++ '"' :: rest) = .ok (stringToken text ws line, rest) :=
  string_eq_ok_iff.mpr ⟨_, _, closeString_written h rest, unescape_written h, rfl⟩

theorem exists_of_string {line : Nat} {cs rest : List Char} {t : Token}
    (h : string line cs = .ok (t, rest)) :
    ∃ text ws, Written text ws ∧ t = stringToken text ws line := by
  obtain ⟨y, text, hclose, htext, rfl⟩ := string_eq_ok_iff.mp h
  obtain ⟨ws, hws, rfl⟩ := exists_written (mem_inside_of_closeString hclose) htext
  exact ⟨text, ws, hws, rfl⟩

/-- Only strings are read as strings. -/
theorem Scanned.exists_written {t : Token} (h : Scanned t) (hkind : t.kind = .string) :
    ∃ text ws line, Written text ws ∧ t = stringToken text ws line := by
  obtain ⟨line, c, cs, rest, htoken⟩ := h
  obtain ⟨kind, hsign, rfl, -⟩ | ⟨-, hnumber⟩ | ⟨-, hstring⟩ | ⟨-, -, hword⟩ := token_cases htoken
  · obtain rfl | rfl | ⟨op, rfl⟩ := sign?_cases hsign <;> cases hkind
  · rw [← show (number line (c :: cs)).1 = t by rw [hnumber], number] at hkind
    split at hkind <;> cases hkind
  · obtain ⟨text, ws, hws, rfl⟩ := exists_of_string hstring
    exact ⟨text, ws, line, hws, rfl⟩
  · rw [← show (word line (c :: cs)).1 = t by rw [hword]] at hkind
    obtain h | ⟨k, h⟩ | h | h := kind_word_cases line (c :: cs) <;> cases h.symm.trans hkind

/--
**A string is read as the text that it spells, and every string that is read spells its text.**

The first part is about any text and any choice of spellings for its characters, as a program by
itself; the second about the strings in any program.
-/
theorem strings_spelled :
    (∀ (v : String) (ws : List (List Char)), Written v.toList ws →
      scan (String.ofList (inQuotes ws)) =
        .ok [⟨.string, String.ofList (inQuotes ws), some (.text v), 1⟩,
          ⟨.endOfInput, "", none, min (1 + ws.count ['\n']) 4294967295⟩]) ∧
    ∀ (source : String) (ts : List Token), scan source = .ok ts → ∀ t ∈ ts, t.kind = .string →
      ∃ (v : String) (ws : List (List Char)), t.literal = some (.text v) ∧ Written v.toList ws ∧
        t.lexeme = String.ofList (inQuotes ws) := by
  constructor
  · intro v ws hws
    have htoken : token (min 1 lastLine) '"' (ws.flatten ++ ['"']) =
        .ok (stringToken v.toList ws 1, []) :=
      (token_quote ..).trans (string_written hws 1 [])
    have hskip : skip 1 false (inQuotes ws) = (1, inQuotes ws) := by simp [inQuotes, skip, isGap]
    rw [scan, String.toList_ofList, tokens_of_token hskip htoken, tokens_of_end rfl]
    simp only [stringToken, String.toList_ofList, lineBreaks_inQuotes hws, String.ofList_toList]
    rfl
  · intro source ts hts t ht hkind
    obtain ⟨body, line, rest, last, hreads, -, rfl⟩ := exists_reads_of_ok hts
    obtain ht | ht := List.mem_append.mp ht
    · obtain ⟨text, ws, line, hws, rfl⟩ := (hreads.scanned t ht).exists_written hkind
      refine ⟨String.ofList text, ws, rfl, ?_, rfl⟩
      rwa [String.toList_ofList]
    · obtain rfl := List.mem_singleton.mp ht
      cases hkind

/-- A backslash and a quote next to each other, and a line break in both of its ways. -/
theorem strings_spelled_breaks :
    let v := "\\\"\n\nté"
    let ws : List (List Char) :=
      [['\\', '\\'], ['\\', '"'], ['\\', 'n'], ['\n'], ['t'], ['é']]
    let source := "\"\\\\\\\"\\n\nté\""
    let t : Token := ⟨.string, source, some (.text v), 1⟩
    Written v.toList ws ∧ String.ofList (inQuotes ws) = source ∧
      scan source = .ok [t, ⟨.endOfInput, "", none, 2⟩] ∧
      ∃ v' ws', t.literal = some (.text v') ∧ Written v'.toList ws' ∧
        t.lexeme = String.ofList (inQuotes ws') := by
  intro v ws source t
  have hws : Written v.toList ws := by decide
  have hscan := strings_spelled.1 v ws hws
  exact ⟨hws, rfl, hscan, strings_spelled.2 _ _ hscan t List.mem_cons_self rfl⟩

end Scan

end SmallLisp
