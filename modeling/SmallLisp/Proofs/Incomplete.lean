/-
Texts that are reported as incomplete.

A session keeps a text for as long as it is reported as incomplete, so two things are asked of that
report.  It must not be missing: the beginning of a program, cut off at the end of a line, may never
be refused.  And it must be true: there should be something that completes the text.

The first holds without exception (`readForms_prefix`).  A line break parts the tokens before it
from what follows, so the cut either leaves a string open or leaves the first tokens of the program,
and the parser refuses no token that it does not refuse in the whole program.

The second holds of every text that is a row of tokens, since the parser can always be satisfied.
It does not hold of every text that ends inside a string: scanning looks at all of a text before
parsing looks at any of it, and at the end of a string before it looks at what the string says.  So
such a text is reported as incomplete even where nothing can mend it, because a token before the
string is out of place, or because a backslash in the string has no meaning.  There are no other
reasons (`exists_completion_iff`).
-/
import Mathlib
import SmallLisp.Interpreter
import SmallLisp.Proofs.Parse.Completion
import SmallLisp.Proofs.Scan.Lines

namespace SmallLisp

/-! ### Reading a text in two stages

What is read of a text is what its tokens make, unless it cannot be scanned.  With a line break at the end,
the tokens of the text are the first tokens of every text that goes on with it.
-/

theorem readForms_of_scan_error {s : String} {e : ScanError} (h : scan s = .error e) :
    readForms s = .error (.scan e) := by
  simp [readForms, h, Except.mapError, bind, Except.bind]

theorem readForms_of_scan {s : String} {ts : List Token} (h : scan s = .ok ts) :
    readForms s = (parse ts).mapError .parse := by
  simp [readForms, h, Except.mapError, bind, Except.bind]

theorem readForms_eq_ok_iff {s : String} {forms : List Expr} :
    readForms s = .ok forms ↔ ∃ ts, scan s = .ok ts ∧ parse ts = .ok forms := by
  constructor
  · intro h
    cases hscan : scan s with
    | error e => rw [readForms_of_scan_error hscan] at h; cases h
    | ok ts =>
        rw [readForms_of_scan hscan] at h
        cases hparse : parse ts with
        | error e => rw [hparse] at h; cases h
        | ok forms' => rw [hparse] at h; cases h; exact ⟨ts, rfl, hparse⟩
  · rintro ⟨ts, hscan, hparse⟩
    rw [readForms_of_scan hscan, hparse]
    rfl

theorem scan_append (s t : String) : scan (s ++ t) = Scan.tokens 1 (s.toList ++ t.toList) := by
  simp [scan]

namespace Scan

theorem Reads.endless {line line' : Nat} {cs cs' : List Char} {ts : List Token}
    (h : Reads line cs ts line' cs') : Parse.Endless ts :=
  h.kind_ne_endOfInput

end Scan

open Parse (Endless Ended Reading)

/-- The beginning of a program that is a row of tokens is a program or incomplete. -/
theorem readForms_of_takeAll {s : String} {ts : List Token} {r : Reading} {line : Nat}
    (hts : Endless ts) (hscan : scan s = .ok (ts ++ [Token.endAt line]))
    (h : Reading.takeAll .initial ts = .ok r) :
    (∃ forms, readForms s = .ok forms) ∨
      ∃ f, readForms s = .error f ∧ f.isIncomplete = true := by
  rw [readForms_of_scan hscan,
    Parse.parse_of_takeAll hts (Parse.ended_endAt line) h]
  cases hfinish : r.finish (Parse.endToken [Token.endAt line]) with
  | ok forms => exact Or.inl ⟨forms, rfl⟩
  | error e => exact Or.inr ⟨.parse e, rfl, Parse.isIncomplete_of_finish hfinish⟩

theorem toList_line (q : String) : (q ++ "\n").toList = q.toList ++ ['\n'] := by
  simp

/-- **A text that can be scanned leaves its tokens in front of those of the lines behind it.** -/
theorem scan_line {s : String} {us : List Token} (h : scan s = .ok us) :
    ∃ ts k, Endless ts ∧ us = ts ++ [Token.endAt (min k Scan.lastLine)] ∧
      ∀ t : String, scan (s ++ "\n" ++ t) = (Scan.tokens (1 + k) t.toList).map (ts ++ ·) := by
  obtain ⟨ts, line', cs', hreads, hus, happend⟩ := Scan.tokens_append_break h
  refine ⟨ts, 1 + Scan.lineBreaks s.toList, hreads.endless, hus, fun t => ?_⟩
  rw [scan_append, toList_line, List.append_assoc, List.singleton_append, happend,
    show 1 + (1 + Scan.lineBreaks s.toList) = 1 + Scan.lineBreaks s.toList + 1 by omega]

/-- The first lines of a program are a program or incomplete. -/
theorem readForms_of_line {q t : String} {forms : List Expr}
    (hforms : readForms (q ++ "\n" ++ t) = .ok forms) :
    (∃ forms, readForms (q ++ "\n") = .ok forms) ∨
      ∃ f, readForms (q ++ "\n") = .error f ∧ f.isIncomplete = true := by
  obtain ⟨all, hscan, hparse⟩ := readForms_eq_ok_iff.mp hforms
  cases hfirst : scan q with
  | ok us =>
      obtain ⟨ts, k, hts, -, happend⟩ := scan_line hfirst
      -- The tokens of the first lines are the first tokens of the program.
      rw [happend] at hscan
      obtain ⟨later, -, rfl⟩ := exists_of_map_eq_ok hscan
      obtain ⟨r, htake, -⟩ := Parse.takeAll_of_parse hts hparse
      have hline := happend ""
      rw [String.append_empty, Scan.tokens_of_end rfl] at hline
      exact readForms_of_takeAll hts hline htake
  | error e =>
      rw [scan] at hfirst
      by_cases hopen : ∃ l, e = .unterminatedString l
      · obtain ⟨l, rfl⟩ := hopen
        obtain ⟨l', hl'⟩ := Scan.tokens_append_break_open hfirst
        have hline : scan (q ++ "\n") = .error (.unterminatedString l') := by
          rw [scan, toList_line, hl']
        exact Or.inr ⟨_, readForms_of_scan_error hline, rfl⟩
      · rw [scan_append, toList_line, List.append_assoc, List.singleton_append,
          Scan.tokens_append_break_error hfirst fun l hl => hopen ⟨l, hl⟩] at hscan
        cases hscan

/--
**No beginning of a program is refused at the end of a line.**

If a text that ends with a line break can be continued to a program, then it is a program itself or
is reported as incomplete.
-/
theorem readForms_prefix (s t : String) (hs : s.toList.getLast? = some '\n')
    (hprogram : ∃ forms, readForms (s ++ t) = .ok forms) :
    (∃ forms, readForms s = .ok forms) ∨
      ∃ f, readForms s = .error f ∧ f.isIncomplete = true := by
  obtain ⟨cs, hcs⟩ := List.getLast?_eq_some_iff.mp hs
  have hline : s = String.ofList cs ++ "\n" := by
    rw [← String.toList_inj, hcs, toList_line, String.toList_ofList]
  obtain ⟨forms, hforms⟩ := hprogram
  rw [hline] at hforms ⊢
  exact readForms_of_line hforms

/-- A line that ends inside a string inside a list. -/
theorem readForms_prefix_string :
    "(f \"a\n".toList.getLast? = some '\n' ∧ (∃ forms, readForms ("(f \"a\n" ++ "b\")") = .ok forms) ∧
      ((∃ forms, readForms "(f \"a\n" = .ok forms) ∨
        ∃ f, readForms "(f \"a\n" = .error f ∧ f.isIncomplete = true) := by
  have hprogram : readForms ("(f \"a\n" ++ "b\")") =
      .ok [.list (.symbol ⟨.symbol, "f", none, 1⟩) [.datum (.text "a\nb")]] := by cbv
  exact ⟨by decide, ⟨_, hprogram⟩, readForms_prefix _ _ (by decide) ⟨_, hprogram⟩⟩

/-! ### Strings that are left open

The parser sees no string that has no end.  That one can follow the tokens before it is asked of the parser
with another string in its place, since strings are alike to it.
-/

/-- A text that ends inside a string: the tokens before it, and what has been read of it. -/
def EndsInString (s : String) (ts : List Token) (inside : List Char) : Prop :=
  ∃ line rest, Scan.Reads 1 s.toList ts line rest ∧ Scan.InString line rest inside

/-- Whether every backslash has a meaning, if it has a character after it. -/
def escapesKnown : List Char → Bool
  | [] => true
  | '\\' :: c :: cs => (Scan.escapes.lookup c).isSome && escapesKnown cs
  | _ :: cs => escapesKnown cs

/-- A string without characters. -/
def emptyString : Token :=
  ⟨.string, "\"\"", some (.text ""), 1⟩

/-- Whether a string can follow some tokens: the parser does not refuse it, nor any of them. -/
def AdmitsString (ts : List Token) : Prop :=
  ∀ e, parse (ts ++ [emptyString]) = .error e → e.isIncomplete = true

namespace Scan

/-- A string that can be read has known escapes in front. -/
theorem escapesKnown_of_unescape {cs more text : List Char}
    (h : unescape (cs ++ more) = .ok text) : escapesKnown cs = true := by
  fun_induction escapesKnown cs generalizing text with
  | case1 => rfl
  | case2 c cs ih =>
      rw [List.cons_append, List.cons_append, unescape] at h
      cases hlookup : escapes.lookup c with
      | none => rw [hlookup] at h; cases h
      | some meaning =>
          rw [hlookup] at h
          obtain ⟨text', hrest, -⟩ := exists_of_map_eq_ok h
          simp [ih hrest]
  | case3 c cs hescape ih =>
      cases cs with
      | nil => rfl
      | cons d cs =>
          have hc : c ≠ '\\' := fun hc => hescape d cs hc rfl
          rw [List.cons_append, unescape_cons hc] at h
          obtain ⟨text', hrest, -⟩ := exists_of_map_eq_ok h
          exact ih hrest

/-- A string with known escapes can be closed and read. -/
theorem exists_close {cs : List Char} (hclose : closeString cs = none)
    (hknown : escapesKnown cs = true) :
    ∃ quote inside text, unescape inside = .ok text ∧
      ∀ x, closeString (cs ++ quote ++ x) = some (inside, x) := by
  fun_induction closeString cs with
  | case1 => exact ⟨['"'], [], [], rfl, fun x => rfl⟩
  | case2 => cases hclose
  | case3 => cases hknown
  | case4 c cs hc ih =>
      rw [escapesKnown, Bool.and_eq_true] at hknown
      obtain ⟨quote, inside, text, htext, hquote⟩ := ih (Option.map_eq_none_iff.1 hclose) hknown.2
      obtain ⟨meaning, hmeaning⟩ := Option.isSome_iff_exists.mp hknown.1
      refine ⟨quote, '\\' :: c :: inside, meaning :: text, ?_, fun x => ?_⟩
      · rw [unescape, hmeaning, htext]
        rfl
      · rw [List.cons_append, List.cons_append, List.cons_append, List.cons_append,
          closeString_escape hc, hquote]
        rfl
  | case5 =>
      -- The backslash at the end becomes an escape for itself.
      exact ⟨['\\', '"'], ['\\', '\\'], ['\\'], rfl, fun x => rfl⟩
  | case6 c cs hquote hescape hlone ih =>
      have hc := ne_backslash hescape hlone
      have hknown' : escapesKnown cs = true := by
        rwa [escapesKnown] at hknown
        exact fun d ds hd => absurd hd hc
      obtain ⟨quote, inside, text, htext, hquote'⟩ := ih (Option.map_eq_none_iff.1 hclose) hknown'
      refine ⟨quote, c :: inside, c :: text, ?_, fun x => ?_⟩
      · rw [unescape_cons hc, htext]
        rfl
      · rw [List.cons_append, List.cons_append, closeString_cons hquote hc, hquote']
        rfl

end Scan

namespace Parse

/-- Strings are alike to the parser: it reads one where it reads the other. -/
theorem take_string {r r' : Reading} {t t' : Token} {s : String} (ht : t.kind = .string)
    (ht' : t'.kind = .string) (hvalue' : t'.literal = some (.text s)) (h : r.take t = .ok r') :
    ∃ r'', r.take t' = .ok r'' := by
  obtain ⟨found, ⟨definition, forms⟩⟩ := r
  cases definition with
  | none => exact ⟨_, take_leaf (.text ht' hvalue') found (by simp [Admits, IsDefine])⟩
  | some d =>
      -- No definition awaits a string.
      cases d <;> simp [Reading.take, step, inDefinition, expect, ht, Reading.settle] at h

theorem takeAll_string {r : Reading} {ts : List Token} {t : Token} (t' : Token) {s : String}
    (ht : t.kind = .string) (ht' : t'.kind = .string) (hvalue' : t'.literal = some (.text s))
    (h : Reading.takeAll .initial (ts ++ [t]) = .ok r) :
    ∃ r', Reading.takeAll .initial (ts ++ [t']) = .ok r' := by
  obtain ⟨r₀, hts, hlast⟩ := Reading.exists_of_takeAll_append h
  obtain ⟨r₁, htake, -⟩ := Reading.exists_of_takeAll_cons hlast
  obtain ⟨r₂, hr₂⟩ := take_string ht ht' hvalue' htake
  refine ⟨r₂, ?_⟩
  rw [Reading.takeAll_append_ok hts, Reading.takeAll_cons_ok hr₂]
  rfl

end Parse

theorem endless_append_string {ts : List Token} {string : Token} (h : Endless ts)
    (hstring : string.kind = .string) : Endless (ts ++ [string]) := by
  intro t ht
  rcases List.mem_append.mp ht with ht | ht
  · exact h t ht
  · simp [List.mem_singleton.mp ht, hstring]

/-- A string can follow tokens exactly if the parser reads it after them. -/
theorem admitsString_iff {ts : List Token} (hts : Endless ts) :
    AdmitsString ts ↔ ∃ r, Reading.takeAll .initial (ts ++ [emptyString]) = .ok r := by
  have hendless : Endless (ts ++ [emptyString]) := endless_append_string hts rfl
  have hparse : parse (ts ++ [emptyString]) = parse (ts ++ [emptyString] ++ []) := by
    rw [List.append_nil]
  rw [AdmitsString, hparse]
  constructor
  · intro h
    cases hresult : parse (ts ++ [emptyString] ++ []) with
    | ok forms =>
        obtain ⟨r, hr, -⟩ := Parse.takeAll_of_parse hendless hresult
        exact ⟨r, hr⟩
    | error e =>
        exact Parse.takeAll_of_isIncomplete hendless hresult (h e hresult)
  · rintro ⟨r, hr⟩ e he
    rw [Parse.parse_of_takeAll hendless Parse.ended_nil hr] at he
    exact Parse.isIncomplete_of_finish he

/-! ### What can be completed

There are two ways to be incomplete, and in each the completion is written down: for tokens the words that
are missing, for a string its end and then those words.
-/

/-- A row of tokens that ends too early has a continuation. -/
theorem exists_completion_of_parse {s : String} {ts : List Token} {e : ParseError}
    (hscan : scan s = .ok ts) (hparse : parse ts = .error e) (he : e.isIncomplete = true) :
    ∃ t forms, readForms (s ++ t) = .ok forms := by
  obtain ⟨ts', line', cs', hreads, rfl, happend⟩ := Scan.tokens_append_break hscan
  have hts := hreads.endless
  obtain ⟨r, hr⟩ := Parse.takeAll_of_isIncomplete hts hparse he
  obtain ⟨forms, hforms⟩ := Parse.parse_completion hts hr
    (min (1 + Scan.lineBreaks s.toList + 1) Scan.lastLine)
  refine ⟨String.ofList ('\n' :: Parse.Filler.text r.current.completion), forms, ?_⟩
  rw [readForms_eq_ok_iff]
  refine ⟨_, ?_, hforms⟩
  rw [scan_append, String.toList_ofList, happend, Scan.tokens_text, List.append_assoc]
  rfl

/-- How a text that ends inside a string is scanned with more text behind it. -/
theorem EndsInString.scan_append {s : String} {ts : List Token} {inside : List Char}
    (h : EndsInString s ts inside) :
    ∃ line, ∀ t : String, scan (s ++ t) =
      match Scan.string (min line Scan.lastLine) (inside ++ t.toList) with
      | .error e => .error e
      | .ok (string, rest) =>
        (Scan.tokens (line + Scan.lineBreaks string.lexeme.toList) rest).map
          (ts ++ string :: ·) := by
  obtain ⟨line, rest, hreads, start, hskip, -⟩ := h
  refine ⟨start, fun t => ?_⟩
  have hparted := Scan.parted_of_skip hskip (by decide) t.toList
  have hskip' := Scan.skip_append hskip t.toList
  rw [SmallLisp.scan_append, Scan.tokens_of_reads (hreads.append hparted)]
  cases hstring : Scan.string (min start Scan.lastLine) (inside ++ t.toList) with
  | error e =>
      rw [Scan.tokens_of_error hskip' ((Scan.token_quote ..).trans hstring)]
      rfl
  | ok r =>
      obtain ⟨string, rest'⟩ := r
      rw [Scan.tokens_of_token hskip' ((Scan.token_quote ..).trans hstring)]
      simp only
      cases Scan.tokens (start + Scan.lineBreaks string.lexeme.toList) rest' <;> rfl

theorem EndsInString.endless {s : String} {ts : List Token} {inside : List Char}
    (h : EndsInString s ts inside) : Endless ts := by
  obtain ⟨line, rest, hreads, -⟩ := h
  exact hreads.endless

/-- A string that is left open has a continuation if it is in place and its escapes are known. -/
theorem exists_completion_of_string {s : String} {ts : List Token} {inside : List Char}
    (h : EndsInString s ts inside) (hadmits : AdmitsString ts)
    (hknown : escapesKnown inside = true) : ∃ t forms, readForms (s ++ t) = .ok forms := by
  have hclose : Scan.closeString inside = none := by
    obtain ⟨_, _, _, _, _, hclose⟩ := h
    exact hclose
  obtain ⟨quote, inside', text, htext, hquote⟩ := Scan.exists_close hclose hknown
  obtain ⟨line, hscan⟩ := h.scan_append
  -- The string, once it is closed, can stand where the parser reads any string.
  let string : Token := ⟨.string, String.ofList ('"' :: inside' ++ ['"']),
    some (.text (String.ofList text)), min line Scan.lastLine⟩
  have hendless : Endless (ts ++ [string]) := endless_append_string h.endless rfl
  obtain ⟨r₀, hr₀⟩ := (admitsString_iff h.endless).mp hadmits
  obtain ⟨r, hr⟩ := Parse.takeAll_string string rfl rfl rfl hr₀
  -- What is then still open is closed by its completion.
  have hstring : Scan.string (min line Scan.lastLine)
      (inside ++ (quote ++ Parse.Filler.text r.current.completion)) =
        .ok (string, Parse.Filler.text r.current.completion) := by
    rw [← List.append_assoc]
    exact Scan.string_eq_ok_iff.mpr ⟨inside', text, hquote _, htext, rfl⟩
  obtain ⟨forms, hforms⟩ := Parse.parse_completion hendless hr
    (min (line + Scan.lineBreaks string.lexeme.toList) Scan.lastLine)
  refine ⟨String.ofList (quote ++ Parse.Filler.text r.current.completion), forms, ?_⟩
  rw [readForms_eq_ok_iff]
  refine ⟨_, ?_, hforms⟩
  rw [hscan, String.toList_ofList, hstring]
  simp only [Scan.tokens_text, Except.map, List.append_assoc, List.cons_append, List.nil_append]

/-- What has a continuation has its open string in place, with known escapes. -/
theorem of_completion {s t : String} {ts : List Token} {inside : List Char} {forms : List Expr}
    (h : EndsInString s ts inside) (hforms : readForms (s ++ t) = .ok forms) :
    AdmitsString ts ∧ escapesKnown inside = true := by
  have hclose : Scan.closeString inside = none := by
    obtain ⟨_, _, _, _, _, hclose⟩ := h
    exact hclose
  obtain ⟨all, hall, hparse⟩ := readForms_eq_ok_iff.mp hforms
  obtain ⟨line, hscan⟩ := h.scan_append
  rw [hscan] at hall
  cases hstring : Scan.string (min line Scan.lastLine) (inside ++ t.toList) with
  | error e => rw [hstring] at hall; cases hall
  | ok result =>
      obtain ⟨string, rest⟩ := result
      obtain ⟨inside', text, hclose', htext, rfl⟩ := Scan.string_eq_ok_iff.mp hstring
      obtain ⟨more, rfl⟩ := Scan.prefix_of_closeString hclose hclose'
      refine ⟨?_, Scan.escapesKnown_of_unescape htext⟩
      rw [hstring] at hall
      obtain ⟨later, -, rfl⟩ := exists_of_map_eq_ok hall
      rw [← List.singleton_append, ← List.append_assoc] at hparse
      obtain ⟨r, hr, -⟩ := Parse.takeAll_of_parse (endless_append_string h.endless rfl) hparse
      exact (admitsString_iff h.endless).mpr (Parse.takeAll_string emptyString rfl rfl rfl hr)

/-- An incomplete text ends inside a string or is a row of tokens that ends too early. -/
theorem incomplete_cases {s : String} {f : Failure} (h : readForms s = .error f)
    (hf : f.isIncomplete = true) :
    (∃ ts inside, EndsInString s ts inside) ∨
      ∃ ts e, scan s = .ok ts ∧ parse ts = .error e ∧ e.isIncomplete = true := by
  rcases Scan.tokens_cases 1 s.toList with
    ⟨ts, line, rest, last, hreads, hend, heq⟩ | ⟨ts, line, rest, e, hreads, hstuck, heq⟩
  · right
    rw [readForms_of_scan heq] at h
    cases hparse : parse (ts ++ [Token.endAt (min last Scan.lastLine)]) with
    | ok forms => rw [hparse] at h; cases h
    | error e =>
        rw [hparse] at h
        cases h
        exact ⟨_, e, heq, hparse, hf⟩
  · left
    rw [readForms_of_scan_error heq] at h
    cases h
    cases e with
    | unterminatedString l =>
        obtain ⟨inside, hinside⟩ := hstuck.inString
        exact ⟨ts, inside, line, rest, hreads, hinside⟩
    | unexpectedCharacter c l => cases hf
    | invalidEscape c l => cases hf

/--
**Which incomplete texts can be completed.**

A text that is reported as incomplete can be continued to a program unless it ends inside a string
that no continuation mends: one that is out of place, or is preceded by a token that is, or that has
a backslash without a meaning in it.
-/
theorem exists_completion_iff (s : String) (f : Failure) (h : readForms s = .error f)
    (hf : f.isIncomplete = true) :
    (∃ t forms, readForms (s ++ t) = .ok forms) ↔
      ∀ ts inside, EndsInString s ts inside → AdmitsString ts ∧ escapesKnown inside = true := by
  constructor
  · rintro ⟨t, forms, hforms⟩ ts inside hstring
    exact of_completion hstring hforms
  · intro hmendable
    rcases incomplete_cases h hf with ⟨ts, inside, hstring⟩ | ⟨ts, e, hscan, hparse, he⟩
    · obtain ⟨hadmits, hknown⟩ := hmendable ts inside hstring
      exact exists_completion_of_string hstring hadmits hknown
    · exact exists_completion_of_parse hscan hparse he

/-- An open list with an open string in it. -/
theorem exists_completion_iff_open :
    readForms "(\"a" = .error (.scan (.unterminatedString 1)) ∧
      ((∃ t forms, readForms ("(\"a" ++ t) = .ok forms) ↔
        ∀ ts inside, EndsInString "(\"a" ts inside →
          AdmitsString ts ∧ escapesKnown inside = true) := by
  have h : readForms "(\"a" = .error (.scan (.unterminatedString 1)) := by cbv
  exact ⟨h, exists_completion_iff _ _ h rfl⟩

/-- A string that has a backslash before a line break is reported as incomplete, even where it has a
closing quote, and nothing completes it. -/
theorem not_exists_completion_backslash_break :
    (∃ f, readForms "\"a\\\nb\"" = .error f ∧ f.isIncomplete = true) ∧
      ∀ t forms, readForms ("\"a\\\nb\"" ++ t) ≠ .ok forms := by
  have hstring : EndsInString "\"a\\\nb\"" [] ['a', '\\', '\n', 'b', '"'] :=
    ⟨1, _, .nil, 1, by decide, by decide⟩
  refine ⟨⟨.scan (.unterminatedString 1), by cbv, rfl⟩, fun t forms h => ?_⟩
  obtain ⟨-, hknown⟩ := of_completion hstring h
  revert hknown
  decide

end SmallLisp
