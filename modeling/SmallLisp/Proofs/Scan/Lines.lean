/-
Scanning line by line.

A line break belongs to no token, except inside a string.  So a text that ends where a line ends
can be scanned by itself: what comes after the line break is scanned as if it were a text of its
own, on a later line.  `tokens_append_break` says so for a text that can be scanned, and the two
theorems after it for one that cannot: an error stays what it is, whatever follows, unless it is a
string without an end, which a line break does not mend.

Line numbers play no part in this but that of labels.  `tokens_later` moves a whole scan to a later
line: nothing changes but the lines themselves.  Both together give `scan_across_break`: the scan of
two texts in one, out of the scans of the two.
-/
import Mathlib
import SmallLisp.Proofs.Scan.Reads

namespace SmallLisp

namespace Scan

/-! ### A token is the text it was read from

The spelling of a token is kept as it stood.  So line breaks can be counted in the spelling where they
would be counted in the text.
-/

theorem fraction?_text {cs digits rest : List Char} (h : fraction? cs = some (digits, rest)) :
    '.' :: digits ++ rest = cs := by
  unfold fraction? at h
  split at h
  · split at h
    · cases h
      simp
    · cases h
  · cases h

theorem number_text {line : Nat} {cs rest : List Char} {t : Token}
    (h : number line cs = (t, rest)) : t.lexeme.toList ++ rest = cs := by
  unfold number at h
  simp only at h
  split at h
  · cases h
    simp [number.token]
  · rename_i digits rest' hfraction
    cases h
    have htext := fraction?_text hfraction
    simp only [number.token, String.toList_ofList, List.append_assoc]
    rw [htext, List.takeWhile_append_dropWhile]

theorem word_text {line : Nat} {cs rest : List Char} {t : Token}
    (h : word line cs = (t, rest)) : t.lexeme.toList ++ rest = cs := by
  unfold word at h
  cases h
  simp

theorem closeString_text {cs inside rest : List Char} (h : closeString cs = some (inside, rest)) :
    inside ++ '"' :: rest = cs := by
  fun_induction closeString cs generalizing inside with
  | case1 => cases h
  | case2 => cases h; rfl
  | case3 => cases h
  | case4 _ _ _ ih =>
      obtain ⟨p, hp, heq⟩ := Option.map_eq_some_iff.1 h
      cases heq
      simp [ih hp]
  | case5 => cases h
  | case6 _ _ _ _ _ ih =>
      obtain ⟨p, hp, heq⟩ := Option.map_eq_some_iff.1 h
      cases heq
      simp [ih hp]

theorem string_text {line : Nat} {cs rest : List Char} {t : Token}
    (h : string line cs = .ok (t, rest)) : t.lexeme.toList ++ rest = '"' :: cs := by
  obtain ⟨inside, text, hclose, -, rfl⟩ := string_eq_ok_iff.mp h
  simp [← closeString_text hclose]

/-- The spelling of a token and what follows it are the text it was read from. -/
theorem token_text {line : Nat} {c : Char} {cs rest : List Char} {t : Token}
    (h : token line c cs = .ok (t, rest)) : t.lexeme.toList ++ rest = c :: cs := by
  obtain ⟨kind, -, rfl, rfl⟩ | ⟨-, hnumber⟩ | ⟨rfl, hstring⟩ | ⟨-, -, hword⟩ := token_cases h
  · simp
  · exact number_text hnumber
  · exact string_text hstring
  · exact word_text hword

/-! ### No token that is read marks the end of input

The mark of the end is made when nothing is left.  Two scans can be joined by dropping the mark of the
first, since that is the only one there is.
-/

/-- A sign is a parenthesis or an operator. -/
theorem sign?_cases {c : Char} {kind : TokenKind} (h : sign? c = some kind) :
    kind = .leftParen ∨ kind = .rightParen ∨ ∃ op, kind = .operator op := by
  unfold sign? at h
  split at h
  · cases h
    exact .inl rfl
  · split at h
    · cases h
      exact .inr (.inl rfl)
    · obtain ⟨op, -, rfl⟩ := Option.map_eq_some_iff.1 h
      exact .inr (.inr ⟨op, rfl⟩)

/-- A word is a symbol, a keyword, `true` or `nil`. -/
theorem kind_word_cases (line : Nat) (cs : List Char) :
    (word line cs).1.kind = .symbol ∨ (∃ k, (word line cs).1.kind = .keyword k) ∨
      (word line cs).1.kind = .true ∨ (word line cs).1.kind = .nil := by
  unfold word TokenKind.reserved?
  simp only
  split
  · exact .inr (.inl ⟨_, rfl⟩)
  · split
    · exact .inr (.inr (.inl rfl))
    · split
      · exact .inr (.inr (.inr rfl))
      · exact .inl rfl

theorem kind_ne_endOfInput {line : Nat} {c : Char} {cs rest : List Char} {t : Token}
    (h : token line c cs = .ok (t, rest)) : t.kind ≠ .endOfInput := by
  obtain ⟨kind, hsign, rfl, -⟩ | ⟨-, hnumber⟩ | ⟨-, hstring⟩ | ⟨-, -, hword⟩ := token_cases h
  · obtain rfl | rfl | ⟨op, rfl⟩ := sign?_cases hsign <;> simp
  · rw [← show (number line (c :: cs)).1 = t by rw [hnumber], number]
    split <;> simp [number.token]
  · obtain ⟨_, _, _, _, rfl⟩ := string_eq_ok_iff.mp hstring
    simp
  · rw [← show (word line (c :: cs)).1 = t by rw [hword]]
    obtain hkind | ⟨k, hkind⟩ | hkind | hkind := kind_word_cases line (c :: cs) <;> simp [hkind]

theorem Reads.kind_ne_endOfInput {line line' : Nat} {cs cs' : List Char} {ts : List Token}
    (h : Reads line cs ts line' cs') : ∀ t ∈ ts, t.kind ≠ .endOfInput := by
  induction h with
  | nil => simp
  | cons _ htoken _ ih =>
      intro t ht
      rcases List.mem_cons.mp ht with rfl | ht
      · exact Scan.kind_ne_endOfInput htoken
      · exact ih t ht

/-! ### Counting lines

The scanner counts while it skips and adds what the token has.  Over several tokens this is the count of
the line breaks in the text, as no part of it is left out and none is counted twice.
-/

theorem lineBreaks_append (cs ds : List Char) :
    lineBreaks (cs ++ ds) = lineBreaks cs + lineBreaks ds :=
  List.count_append

theorem lineBreaks_skip {line start : Nat} {inComment : Bool} {cs rest : List Char}
    (h : skip line inComment cs = (start, rest)) :
    start + lineBreaks rest = line + lineBreaks cs := by
  fun_induction skip line inComment cs with
  | case1 => cases h; rfl
  | case2 line inComment cs ih =>
      rw [ih h]
      simp [lineBreaks]
      omega
  | case3 line inComment c cs hbreak hgap ih =>
      rw [ih h]
      simp [lineBreaks, hbreak]
  | case4 line inComment cs hbreak hgap ih =>
      rw [ih h]
      simp [lineBreaks]
  | case5 => cases h; rfl

/-- Tokens and the gaps between them leave no line break uncounted. -/
theorem Reads.lineBreaks {line line' : Nat} {cs cs' : List Char} {ts : List Token}
    (h : Reads line cs ts line' cs') :
    line' + Scan.lineBreaks cs' = line + Scan.lineBreaks cs := by
  induction h with
  | nil => rfl
  | cons hskip htoken _ ih =>
      rw [ih, ← lineBreaks_skip hskip, ← token_text htoken, lineBreaks_append]
      omega

/-! ### Across a line break

A line break ends a comment and parts any two tokens, so the scan of the first part comes to its end where
it came to it before.  The only thing that goes on over it is a string.
-/

/-- **A text that can be scanned is scanned by itself, and what follows on the next line by
itself.** -/
theorem tokens_append_break {line : Nat} {cs : List Char} {us : List Token}
    (h : tokens line cs = .ok us) :
    ∃ ts line' cs', Reads line cs ts line' cs' ∧
      us = ts ++ [Token.endAt (min (line + lineBreaks cs) lastLine)] ∧
      ∀ x, tokens line (cs ++ '\n' :: x) =
        (tokens (line + lineBreaks cs + 1) x).map (ts ++ ·) := by
  obtain ⟨ts, line', cs', last, hreads, hend, rfl⟩ := exists_reads_of_ok h
  have hlast : last = line + lineBreaks cs := by
    rw [← hreads.lineBreaks, ← lineBreaks_skip hend]
    simp [lineBreaks]
  refine ⟨ts, line', cs', hreads, by rw [hlast], fun x => ?_⟩
  -- At the end of the first text no comment is left open.
  have hskip : skip line' false (cs' ++ '\n' :: x) = skip (last + 1) false x :=
    skip_append_break hend x
  rw [tokens_of_reads (hreads.append (parted_break cs' x)), tokens_congr hskip, hlast]

/-- An error in a text is the same with other lines behind it, unless a string has no end. -/
theorem tokens_append_break_error {line : Nat} {cs : List Char} {e : ScanError}
    (h : tokens line cs = .error e) (he : ∀ l, e ≠ .unterminatedString l) (x : List Char) :
    tokens line (cs ++ '\n' :: x) = .error e := by
  obtain ⟨ts, line', cs', hreads, hstuck⟩ := exists_reads_of_error h
  obtain ⟨start, c, following, hskip, htoken⟩ := hstuck.append he ('\n' :: x)
  rw [tokens_of_reads (hreads.append (parted_break cs' x)), tokens_of_error hskip htoken]
  rfl

/-- A string that a text leaves open is still open after a line break. -/
theorem tokens_append_break_open {line l : Nat} {cs : List Char}
    (h : tokens line cs = .error (.unterminatedString l)) :
    ∃ l', tokens line (cs ++ ['\n']) = .error (.unterminatedString l') := by
  obtain ⟨ts, line', cs', hreads, hstuck⟩ := exists_reads_of_error h
  obtain ⟨inside, hinside⟩ := hstuck.inString
  obtain ⟨l', hl'⟩ := hinside.append_break.tokens
  refine ⟨l', ?_⟩
  rw [tokens_of_reads (hreads.append (parted_break cs' [])), hl']
  rfl

/-- A text that can be scanned with a line break behind it can be scanned. -/
theorem exists_tokens_of_append_break {line : Nat} {cs : List Char} {us : List Token}
    (h : tokens line (cs ++ ['\n']) = .ok us) : ∃ us, tokens line cs = .ok us := by
  cases hcs : tokens line cs with
  | ok us => exact ⟨us, rfl⟩
  | error e =>
      by_cases hopen : ∃ l, e = .unterminatedString l
      · obtain ⟨l, rfl⟩ := hopen
        obtain ⟨l', hl'⟩ := tokens_append_break_open hcs
        rw [hl'] at h
        cases h
      · rw [tokens_append_break_error hcs fun l hl => hopen ⟨l, hl⟩] at h
        cases h

end Scan

/-! ### On later lines

The line only goes along.  It is capped where it is written into a token, not while it is counted, so a
shift by some lines is a shift before the cap.
-/

/-- A token so many lines further down. -/
def Token.later (k : Nat) (t : Token) : Token :=
  { t with line := min (t.line + k) Scan.lastLine }

/-- An error so many lines further down. -/
def ScanError.later (k : Nat) : ScanError → ScanError
  | unexpectedCharacter c line => unexpectedCharacter c (min (line + k) Scan.lastLine)
  | unterminatedString line => unterminatedString (min (line + k) Scan.lastLine)
  | invalidEscape c line => invalidEscape c (min (line + k) Scan.lastLine)

namespace Scan

/-- The outcome of a scan so many lines further down. -/
def moved {α : Type} (k : Nat) (f : α → α) : Except ScanError α → Except ScanError α
  | .ok a => .ok (f a)
  | .error e => .error (e.later k)

theorem skip_later (line k : Nat) (inComment : Bool) (cs : List Char) :
    skip (line + k) inComment cs = ((skip line inComment cs).1 + k, (skip line inComment cs).2) := by
  fun_induction skip line inComment cs with
  | case1 => rfl
  | case2 line inComment cs ih =>
      simp only [skip]
      rw [show line + k + 1 = line + 1 + k by omega]
      exact ih
  | case3 line inComment c cs hbreak hgap ih => simpa [skip, hbreak, hgap] using ih
  | case4 line inComment cs hbreak hgap ih => simpa [skip, hbreak, hgap] using ih
  | case5 line inComment c cs hbreak hgap hcomment => simp [skip, hbreak, hgap, hcomment]

theorem min_later (start k : Nat) :
    min (min start lastLine + k) lastLine = min (start + k) lastLine := by
  omega

theorem string_later (start k : Nat) (cs : List Char) :
    string (min (start + k) lastLine) cs =
      moved k (fun r => (r.1.later k, r.2)) (string (min start lastLine) cs) := by
  unfold string
  split
  · simp [moved, ScanError.later, min_later]
  · split <;> simp [moved, ScanError.later, Token.later, min_later]

theorem number_later (start k : Nat) (cs : List Char) :
    number (min (start + k) lastLine) cs =
      ((number (min start lastLine) cs).1.later k, (number (min start lastLine) cs).2) := by
  unfold number
  simp only
  split <;> simp [number.token, Token.later, min_later]

/-- A token keeps all but its line. -/
theorem token_later (start k : Nat) (c : Char) (cs : List Char) :
    token (min (start + k) lastLine) c cs =
      moved k (fun r => (r.1.later k, r.2)) (token (min start lastLine) c cs) := by
  unfold token
  split
  · simp [moved, Token.later, min_later]
  · split
    · rw [number_later]
      rfl
    · split
      · exact string_later start k cs
      · split
        · simp [word, moved, Token.later, min_later]
        · simp [moved, ScanError.later, min_later]

/-- **A scan that begins later is the same scan on later lines.** -/
theorem tokens_later (line k : Nat) (cs : List Char) :
    tokens (line + k) cs = moved k (List.map (.later k)) (tokens line cs) := by
  fun_induction tokens line cs with
  | case1 line cs last hskip =>
      have hskip' : skip (line + k) false cs = (last + k, []) := by rw [skip_later, hskip]
      rw [tokens_of_end hskip']
      simp [moved, Token.later, Token.endAt, min_later]
  | case2 line cs start c following hskip e htoken =>
      have hskip' : skip (line + k) false cs = (start + k, c :: following) := by
        rw [skip_later, hskip]
      have htoken' : token (min (start + k) lastLine) c following = .error (e.later k) := by
        rw [token_later, htoken]
        rfl
      rw [tokens_of_error hskip' htoken']
      rfl
  | case3 line cs start c following hskip t rest htoken hlt ih =>
      have hskip' : skip (line + k) false cs = (start + k, c :: following) := by
        rw [skip_later, hskip]
      have htoken' : token (min (start + k) lastLine) c following = .ok (t.later k, rest) := by
        rw [token_later, htoken]
        rfl
      rw [tokens_of_token hskip' htoken']
      rw [show start + k + lineBreaks (t.later k).lexeme.toList =
        start + lineBreaks t.lexeme.toList + k by simp [Token.later]; omega, ih]
      cases tokens (start + lineBreaks t.lexeme.toList) rest <;> rfl

/-! ### Two texts in one

The two parts meet: the first is scanned by itself, and what follows on the next line is scanned as the
second part is, on later lines.
-/

/-- **Scanning a text of two parts with a line break between them is scanning the parts.**

If the first part can be scanned, its tokens come first as they are, its mark of the end goes, and
the tokens of the second part follow, or its error, all of them so many lines further down. -/
theorem scan_across_break {s₁ : String} {us : List Token} (h : scan s₁ = .ok us) :
    ∃ ts, us = ts ++ [Token.endAt (min (1 + lineBreaks s₁.toList) lastLine)] ∧
      (∀ t ∈ ts, t.kind ≠ .endOfInput) ∧ ∀ s₂,
        (∀ vs, scan s₂ = .ok vs →
          scan (s₁ ++ "\n" ++ s₂) = .ok (ts ++ vs.map (.later (lineBreaks s₁.toList + 1)))) ∧
        (∀ e, scan s₂ = .error e →
          scan (s₁ ++ "\n" ++ s₂) = .error (e.later (lineBreaks s₁.toList + 1))) := by
  obtain ⟨ts, _, _, hreads, hus, hbreak⟩ := tokens_append_break h
  have hjoined (s₂ : String) : scan (s₁ ++ "\n" ++ s₂) =
      (moved (lineBreaks s₁.toList + 1) (List.map (.later (lineBreaks s₁.toList + 1)))
        (scan s₂)).map (ts ++ ·) := by
    rw [scan, show (s₁ ++ "\n" ++ s₂).toList = s₁.toList ++ '\n' :: s₂.toList by simp, hbreak,
      Nat.add_assoc, tokens_later]
    rfl
  refine ⟨ts, hus, hreads.kind_ne_endOfInput, fun s₂ => ⟨fun vs hvs => ?_, fun e he => ?_⟩⟩
  · rw [hjoined, hvs]
    rfl
  · rw [hjoined, he]
    rfl

/-- A comment and a string with a line break before the join, a number and an error behind it. -/
theorem scan_across_break_comment :
    let s₁ := "(f \"a\nb\"); c"
    let ts : List Token := [⟨.leftParen, "(", none, 1⟩, ⟨.symbol, "f", none, 1⟩,
      ⟨.string, "\"a\nb\"", some (.text "a\nb"), 1⟩, ⟨.rightParen, ")", none, 2⟩]
    scan s₁ = .ok (ts ++ [⟨.endOfInput, "", none, 2⟩]) ∧
      scan (s₁ ++ "\n" ++ "x\n;") =
        .ok (ts ++ [⟨.symbol, "x", none, 3⟩, ⟨.endOfInput, "", none, 4⟩]) ∧
      scan (s₁ ++ "\n" ++ "\n#") = .error (.unexpectedCharacter '#' 4) := by
  intro s₁ ts
  have hscan : scan s₁ = .ok (ts ++ [⟨.endOfInput, "", none, 2⟩]) := by cbv
  obtain ⟨ts', hts', -, hjoined⟩ := scan_across_break hscan
  obtain ⟨rfl, -⟩ := List.append_inj' hts' rfl
  refine ⟨hscan, ?_, ?_⟩
  · rw [(hjoined "x\n;").1 [⟨.symbol, "x", none, 1⟩, ⟨.endOfInput, "", none, 2⟩] (by cbv)]
    cbv
  · rw [(hjoined "\n#").2 (.unexpectedCharacter '#' 2) (by cbv)]
    cbv

end Scan

end SmallLisp
