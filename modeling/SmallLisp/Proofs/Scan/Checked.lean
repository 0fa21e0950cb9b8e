/-
The scanner relies on what lexemes look like.

Cut by the rules, a text falls into lexemes, and the rule of a lexeme is all that is known of it when a
token is made.  Three things are taken for granted there.  Comments and strings without an end make no
token, so they have been dealt with before.  A string has a quote at either end, so both can be taken
off, by bytes.  No backslash is the last character between them.

`Lexes` takes none of this for granted: where one of the three fails, it ends in a `Fault`.
`lexes_iff` says that there never is one, and that without it the tokens are those of the scanner.
-/
import SmallLisp.Proofs.Scan.Munch

namespace SmallLisp

namespace Scan

/-! ### Making tokens with checks

The scan is written once more, with every conversion that could fail written as one that does.  Places are
counted in bytes, so cutting a text is such a conversion as well.
-/

/-- What would go wrong with a lexeme that did not look as its rule says. -/
inductive Fault where
  /-- A comment or a string without an end, where a token is to be made. -/
  | unreachable
  /-- Quotes that cannot be taken off. -/
  | outOfBounds
  /-- A backslash with nothing behind it. -/
  | loneBackslash
deriving DecidableEq

/-- What a text is cut into: comments and lexemes of the rules. -/
inductive Raw where
  | comment
  | rule (r : Rule)

/-- How many bytes a text takes. -/
def bytes (cs : List Char) : Nat :=
  (cs.map Char.utf8Size).sum

/-- The parts of a text before and after so many bytes, if a character begins or the text ends
there. -/
def cutAt : Nat → List Char → Option (List Char × List Char)
  | 0, cs => some ([], cs)
  | _ + 1, [] => none
  | offset + 1, c :: cs =>
    if c.utf8Size ≤ offset + 1 then
      (cutAt (offset + 1 - c.utf8Size) cs).map fun (front, back) => (c :: front, back)
    else none

/-- The part of a text between two places, which are counted in bytes. -/
def slice (start stop : Nat) (cs : List Char) : Option (List Char) :=
  (cutAt stop cs).bind fun (front, _) => (cutAt start front).map Prod.snd

/-- `unescape`, with a check for a backslash that has nothing behind it. -/
def decode : List Char → Except Fault (Except Char (List Char))
  | [] => .ok (.ok [])
  | '\\' :: [] => .error .loneBackslash
  | '\\' :: c :: cs =>
    match escapes.lookup c with
    | some meaning => (decode cs).map fun text => text.map (meaning :: ·)
    | none => .ok (.error c)
  | c :: cs => (decode cs).map fun text => text.map (c :: ·)

/-- The token that a lexeme makes, or the complaint about its escapes. -/
def convert (line : Nat) (lexeme : List Char) : Raw → Except Fault (Except ScanError Token)
  | .rule (.sign kind) => .ok (.ok ⟨kind, String.ofList lexeme, none, line⟩)
  | .rule .number =>
    .ok (.ok ⟨.number, String.ofList lexeme, some (.number (numeral lexeme).toFloat), line⟩)
  | .rule .string =>
    match slice 1 (bytes lexeme - 1) lexeme with
    | none => .error .outOfBounds
    | some inside =>
      (decode inside).map fun
        | .ok text =>
          .ok ⟨.string, String.ofList lexeme, some (.text (String.ofList text)), line⟩
        | .error c => .error (.invalidEscape c line)
  | .rule .word =>
    .ok (.ok ⟨(TokenKind.reserved? (String.ofList lexeme)).getD .symbol, String.ofList lexeme, none,
      line⟩)
  | .comment | .rule .openString => .error .unreachable

/-- What becomes of a lexeme: the tokens that it makes, none or one, or the end of the scan. -/
def handle (line : Nat) (lexeme : List Char) (raw : Raw) :
    Except Fault (Except ScanError (List Token)) :=
  match raw with
  | .comment => .ok (.ok [])
  | .rule .openString => .ok (.error (.unterminatedString line))
  | raw => (convert line lexeme raw).map fun t => t.map ([·])

/-- Whether a text begins with a comment, or with the longest match of a rule. -/
def Matches (text lexeme : List Char) : Raw → Prop
  | .comment => ∃ body rest, lexeme = ';' :: body ∧ text = lexeme ++ rest ∧ '\n' ∉ body ∧
      ∀ c ∈ rest.head?, c = '\n'
  | .rule r => Longest r text lexeme

theorem Longest.matches {rule : Rule} {text lexeme : List Char} (h : Longest rule text lexeme) :
    Matches text lexeme (.rule rule) :=
  h

/-- How what is left of a text is scanned with the checks, where so much of the text stands before
it. -/
inductive Lexes : List Char → List Char → Except Fault (Except ScanError (List Token)) → Prop where
  | done (before : List Char) :
      Lexes before [] (.ok (.ok [⟨.endOfInput, "", none, lineAfter before⟩]))
  | blank {before rest : List Char} {c : Char} {r : Except Fault (Except ScanError (List Token))}
      (hc : c ∈ blanks) (h : Lexes (before ++ [c]) rest r) : Lexes before (c :: rest) r
  | goOn {before lexeme rest : List Char} {raw : Raw} {ts : List Token}
      {r : Except Fault (Except ScanError (List Token))}
      (hmatches : Matches (lexeme ++ rest) lexeme raw)
      (hhandle : handle (lineAfter before) lexeme raw = .ok (.ok ts))
      (h : Lexes (before ++ lexeme) rest r) :
      Lexes before (lexeme ++ rest) (r.map fun outcome => outcome.map (ts ++ ·))
  | stop {before text lexeme : List Char} {raw : Raw} {e : ScanError}
      (hmatches : Matches text lexeme raw)
      (hhandle : handle (lineAfter before) lexeme raw = .ok (.error e)) :
      Lexes before text (.ok (.error e))
  | fault {before text lexeme : List Char} {raw : Raw} {f : Fault}
      (hmatches : Matches text lexeme raw)
      (hhandle : handle (lineAfter before) lexeme raw = .error f) : Lexes before text (.error f)
  | unexpected {before rest : List Char} {c : Char} (hblank : c ∉ blanks) (hcomment : c ≠ ';')
      (hnone : ∀ (rule : Rule) (lexeme : List Char), lexeme <+: c :: rest →
        lexeme ∉ rule.language) :
      Lexes before (c :: rest) (.ok (.error (.unexpectedCharacter c (lineAfter before))))

/-! ### The checks succeed

The quotes of a string are one byte each, and no backslash is left without a character.  The second is a
matter of the rule for strings, the first of where the text is cut.
-/

theorem cutAt_append (front back : List Char) :
    cutAt (bytes front) (front ++ back) = some (front, back) := by
  induction front with
  | nil => cases back <;> rfl
  | cons c front ih =>
      have hbytes : bytes (c :: front) = c.utf8Size + bytes front := rfl
      obtain ⟨n, hn⟩ := Nat.exists_eq_succ_of_ne_zero (Nat.ne_of_gt (Char.utf8Size_pos c))
      rw [hbytes, hn, Nat.succ_add, List.cons_append, cutAt, if_pos (by omega),
        show n + bytes front + 1 - c.utf8Size = bytes front by omega, ih]
      rfl

/-- **The quotes of a string can be taken off.** -/
theorem slice_quoted (y : List Char) :
    slice 1 (bytes ('"' :: (y ++ ['"'])) - 1) ('"' :: (y ++ ['"'])) = some y := by
  have hstop : bytes ('"' :: (y ++ ['"'])) - 1 = bytes ('"' :: y) := by
    simp only [bytes, List.map_cons, List.map_append, List.map_nil, List.sum_cons,
      List.sum_append, List.sum_nil, show ('"').utf8Size = 1 from rfl]
    omega
  have hback := cutAt_append ('"' :: y) ['"']
  have hfront := cutAt_append ['"'] y
  rw [List.cons_append] at hback
  rw [slice, hstop, hback, Option.bind_some]
  exact congrArg (Option.map Prod.snd) hfront

theorem decode_cons {c : Char} (hc : c ≠ '\\') (cs : List Char) :
    decode (c :: cs) = (decode cs).map fun text => text.map (c :: ·) := by
  rw [decode]
  · rintro rfl
    exact absurd rfl hc
  · rintro _ _ rfl
    exact absurd rfl hc

/-- **No backslash is the last character inside a string.** -/
theorem decode_of_mem {y : List Char} (hy : y ∈ inside) : decode y = .ok (unescape y) := by
  refine quotable_induction (P := fun y => decode y = .ok (unescape y)) rfl ?_ ?_ hy
  · intro c y _ hbackslash _ ih
    rw [decode_cons hbackslash, unescape_cons hbackslash, ih]
    rfl
  · intro c y _ _ ih
    rw [decode, unescape]
    rcases escapes.lookup c with _ | meaning
    · rfl
    · simp only [ih]
      rfl

/-! ### What becomes of a longest match

A match of a rule makes a token or ends the scan, and with the checks it makes the same.
-/

theorem convert_string {y : List Char} (hy : y ∈ inside) (line : Nat) :
    convert line ('"' :: (y ++ ['"'])) (.rule .string) =
      match unescape y with
      | .ok text =>
        .ok (.ok ⟨.string, String.ofList ('"' :: (y ++ ['"'])), some (.text (String.ofList text)), line⟩)
      | .error c => .ok (.error (.invalidEscape c line)) := by
  rw [convert, slice_quoted]
  simp only [decode_of_mem hy]
  rcases unescape y with c | text <;> rfl

/-- A lexeme that is no comment and no string without an end makes a token or a complaint. -/
theorem handle_rule {rule : Rule} (hrule : rule ≠ .openString) (line : Nat) (lexeme : List Char) :
    handle line lexeme (.rule rule) =
      (convert line lexeme (.rule rule)).map fun t => t.map ([·]) := by
  match rule, hrule with
  | .sign _, _ | .number, _ | .string, _ | .word, _ => rfl

theorem handle_of_makes {rule : Rule} {text lexeme : List Char} {line : Nat} {t : Token}
    (h : Longest rule text lexeme) (hmakes : Makes line rule lexeme t) :
    handle line lexeme (.rule rule) = .ok (.ok [t]) := by
  match hmakes with
  | .sign kind _ | .number _ => rfl
  | .string hspells =>
      rw [handle_rule (by simp), convert_string (mem_inside_of_longest h), unescape_of_spells hspells]
      rfl
  | .reserved hreserved | .symbol hreserved =>
      rw [handle_rule (by simp), convert, reserved?_eq, hreserved]
      rfl

theorem handle_of_misspells {text y : List Char} {c : Char} (line : Nat)
    (h : Longest .string text ('"' :: (y ++ ['"']))) (hy : Misspells y c) :
    handle line ('"' :: (y ++ ['"'])) (.rule .string) = .ok (.error (.invalidEscape c line)) := by
  rw [handle_rule (by simp), convert_string (mem_inside_of_longest h), unescape_of_misspells hy]
  rfl

/-- **A longest match makes a token, or ends the scan as the rules say.** -/
theorem handle_cases {rule : Rule} {text lexeme : List Char} (h : Longest rule text lexeme)
    (line : Nat) :
    (∃ t, Makes line rule lexeme t ∧ handle line lexeme (.rule rule) = .ok (.ok [t])) ∨
      (rule = .openString ∧
        handle line lexeme (.rule rule) = .ok (.error (.unterminatedString line))) ∨
      ∃ y c, rule = .string ∧ lexeme = '"' :: (y ++ ['"']) ∧ Misspells y c ∧
        handle line lexeme (.rule rule) = .ok (.error (.invalidEscape c line)) := by
  obtain ⟨t, hmakes⟩ | rfl | ⟨y, c, rfl, rfl, hy⟩ := exists_makes h.mem line
  · exact .inl ⟨t, hmakes, handle_of_makes h hmakes⟩
  · exact .inr (.inl ⟨rfl, rfl⟩)
  · exact .inr (.inr ⟨y, c, rfl, rfl, hy, handle_of_misspells line h hy⟩)

/-! ### The scanner with checks and without

Both directions are by induction on the procedure: each step without checks is a step with them, and
conversely, as a fault would have to be one of the cases that have been excluded.
-/

theorem lexes_of_munch {before rest : List Char} {r : Except ScanError (List Token)}
    (h : Munch before rest r) : Lexes before rest (.ok r) := by
  induction h with
  | done before => exact .done before
  | blank hc _ ih => exact .blank hc ih
  | @comment before cs rest r hcs hend _ ih =>
      have hmatches : Matches (';' :: cs ++ rest) (';' :: cs) .comment :=
        ⟨cs, rest, rfl, rfl, hcs, hend⟩
      have hgoOn := Lexes.goOn hmatches rfl ih
      rcases r with e | ts <;> exact hgoOn
  | token hlongest hmakes _ ih =>
      exact .goOn hlongest.matches (handle_of_makes hlongest hmakes) ih
  | unexpected hblank hcomment hnone => exact .unexpected hblank hcomment hnone
  | openString hlongest => exact .stop hlongest.matches rfl
  | misspelt hlongest hy =>
      exact .stop hlongest.matches (handle_of_misspells _ hlongest hy)

theorem munch_of_lexes {before rest : List Char}
    {r : Except Fault (Except ScanError (List Token))} (h : Lexes before rest r) :
    ∃ outcome, r = .ok outcome ∧ Munch before rest outcome := by
  induction h with
  | done before => exact ⟨_, rfl, .done before⟩
  | blank hc _ ih =>
      obtain ⟨outcome, rfl, hmunch⟩ := ih
      exact ⟨outcome, rfl, .blank hc hmunch⟩
  | @goOn before lexeme rest raw ts r hmatches hhandle _ ih =>
      obtain ⟨outcome, rfl, hmunch⟩ := ih
      match raw with
      | .comment =>
          obtain ⟨body, rest', rfl, htext, hbody, hend⟩ := hmatches
          obtain rfl := List.append_cancel_left htext
          obtain rfl : [] = ts := Except.ok.inj (Except.ok.inj hhandle)
          refine ⟨outcome, ?_, .comment hbody hend hmunch⟩
          rcases outcome with e | us <;> rfl
      | .rule rule =>
          obtain ⟨t, hmakes, heq⟩ | ⟨-, heq⟩ | ⟨_, _, -, -, -, heq⟩ :=
            handle_cases hmatches (lineAfter before)
          · obtain rfl : [t] = ts := Except.ok.inj (Except.ok.inj (heq.symm.trans hhandle))
            exact ⟨_, rfl, .token hmatches hmakes hmunch⟩
          · cases heq.symm.trans hhandle
          · cases heq.symm.trans hhandle
  | @stop before text lexeme raw e hmatches hhandle =>
      match raw with
      | .comment => cases hhandle
      | .rule rule =>
          obtain ⟨_, -, heq⟩ | ⟨rfl, heq⟩ | ⟨y, c, rfl, rfl, hy, heq⟩ :=
            handle_cases hmatches (lineAfter before)
          · cases heq.symm.trans hhandle
          · cases heq.symm.trans hhandle
            exact ⟨_, rfl, .openString hmatches⟩
          · cases heq.symm.trans hhandle
            exact ⟨_, rfl, .misspelt hmatches hy⟩
  | @fault before text lexeme raw f hmatches hhandle =>
      match raw with
      | .comment => cases hhandle
      | .rule rule =>
          obtain ⟨_, -, heq⟩ | ⟨-, heq⟩ | ⟨_, _, -, -, -, heq⟩ :=
            handle_cases hmatches (lineAfter before) <;> cases heq.symm.trans hhandle
  | unexpected hblank hcomment hnone => exact ⟨_, rfl, .unexpected hblank hcomment hnone⟩

/-- **A text is scanned without a fault**, and with the checks it is scanned as without them. -/
theorem lexes_iff {source : String} {r : Except Fault (Except ScanError (List Token))} :
    Lexes [] source.toList r ↔ r = .ok (scan source) := by
  constructor
  · intro h
    obtain ⟨outcome, rfl, hmunch⟩ := munch_of_lexes h
    rw [scan_eq_iff.mpr hmunch]
  · rintro rfl
    exact lexes_of_munch (scan_eq_iff.mp rfl)

end Scan

end SmallLisp
