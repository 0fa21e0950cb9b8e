/-
Layout and comments do not matter.

The tokens of a program are spelled again, one after the other, with white space and comments
between them that may be quite other than they were.  What is read is the same tokens, each on the
line where it has come to stand.

Three facts make it true.  A token is read from its spelling alone, whatever text it was found in
(`token_of_lexeme`), because a longest match is a longest match of itself.  A separator is skipped
to its end, since every comment in it comes with the line break that ends it; a comment may hold
quotes, parentheses and semicolons, and no token goes on into a blank or a semicolon.  And where
there is something between two tokens, the first is kept apart from the second.

The induction is on the tokens, with the text that stands before them all, which is what their lines
depend on.
-/
import SmallLisp.Proofs.Scan.ReadBack

namespace SmallLisp

namespace Scan

open Computability

/-! ### Separators

Separators are a language, and the induction on a separator takes a blank or a comment off it.  A comment
without its line break would take the next token with it, and is not among them.
-/

/-- What keeps tokens apart: white space, and comments each with the line break that ends it. -/
def separators : Language Char :=
  (one (· ∈ blanks) + {[';']} * (one (· ≠ '\n'))∗ * {['\n']})∗

theorem nil_mem_separators : [] ∈ separators :=
  Language.nil_mem_kstar _

theorem cons_mem_separators {c : Char} (hc : c ∈ blanks) {w : List Char} (hw : w ∈ separators) :
    c :: w ∈ separators :=
  append_mem_kstar (a := [c]) (.inl ⟨c, hc, rfl⟩) hw

theorem comment_mem_separators {cs : List Char} (hcs : ∀ c ∈ cs, c ≠ '\n') {w : List Char}
    (hw : w ∈ separators) : ';' :: cs ++ ['\n'] ++ w ∈ separators :=
  append_mem_kstar
    (.inr ⟨';' :: cs, ⟨[';'], rfl, cs, mem_one_kstar.mpr hcs, rfl⟩, ['\n'], rfl, rfl⟩) hw

theorem separators_induction {P : List Char → Prop} (nil : P [])
    (blank : ∀ c w, c ∈ blanks → P w → P (c :: w))
    (comment : ∀ cs w, '\n' ∉ cs → P w → P (';' :: cs ++ '\n' :: w)) {w : List Char}
    (h : w ∈ separators) : P w := by
  refine kstar_induction nil ?_ h
  rintro _ (⟨c, hc, rfl⟩ | ⟨_, ⟨_, rfl, cs, hcs, rfl⟩, _, rfl, rfl⟩) w - hw
  · exact blank c w hc hw
  · have hline : '\n' ∉ cs := fun hmem => mem_one_kstar.mp hcs _ hmem rfl
    simpa using comment cs w hline hw

/-- A separator is skipped. -/
theorem skip_separator {w : List Char} (h : w ∈ separators) (before x : List Char) :
    skip (1 + before.count '\n') false (w ++ x) =
      skip (1 + (before ++ w).count '\n') false x := by
  refine separators_induction (P := fun w => ∀ before, skip (1 + before.count '\n') false (w ++ x) =
      skip (1 + (before ++ w).count '\n') false x) ?_ ?_ ?_ h before
  · simp
  · intro c w hc ih before
    rw [List.cons_append, skip_of_mem_blanks hc, ih]
    simp
  · intro cs w hcs ih before
    have hcomment : skip (1 + before.count '\n') false (';' :: (cs ++ '\n' :: (w ++ x))) =
        skip (1 + before.count '\n') false ('\n' :: (w ++ x)) :=
      skip_comment hcs (fun c hc => (Option.mem_some.mp hc).symm) _
    rw [List.append_assoc, List.cons_append, List.cons_append, hcomment,
      skip_of_mem_blanks (by decide), ih]
    simp [List.count_eq_zero.mpr hcs]

/-- No token goes on into a separator. -/
theorem parted_separator {w : List Char} (h : w ∈ separators) (hw : w ≠ []) (x : List Char) :
    Parted [] (w ++ x) := by
  have hdropped (c : Char) (hc : c ∈ ';' :: blanks) : isSymbolPart c = false ∧ c ≠ '.' := by
    simp only [blanks, List.mem_cons, List.not_mem_nil, or_false] at hc
    obtain rfl | rfl | rfl | rfl | rfl | rfl := hc <;> decide
  refine separators_induction (P := fun w => w ≠ [] → Parted [] (w ++ x)) ?_ ?_ ?_ h hw
  · exact fun hw => absurd rfl hw
  · intro c w hc _ _
    obtain ⟨hpart, hpoint⟩ := hdropped c (List.mem_cons_of_mem _ hc)
    exact parted_cons hpart hpoint _
  · intro cs w _ _ _
    obtain ⟨hpart, hpoint⟩ := hdropped ';' List.mem_cons_self
    exact parted_cons hpart hpoint _

/-! ### The text of tokens with separators

Each token has a separator in front and the last one has another behind.  The line of a token depends on all
the text before it, so that text is carried along.
-/

/-- What stands before a token, if each has something before it. -/
def textBefore (gaps : List (List Char)) (ts : List Token) (i : Nat) : List Char :=
  woven (gaps.take i) (ts.take i) ++ gaps.getD i []

/-- Tokens on the lines where they come to stand, with some text before them all. -/
def relined (before : List Char) (gaps : List (List Char)) (ts : List Token) : List Token :=
  ts.mapIdx fun i t => { t with line := lineAfter (before ++ textBefore gaps ts i) }

theorem woven_cons (gap : List Char) (gaps : List (List Char)) (t : Token) (ts : List Token) :
    woven (gap :: gaps) (t :: ts) = gap ++ t.lexeme.toList ++ woven gaps ts :=
  rfl

theorem relined_cons (before gap : List Char) (gaps : List (List Char)) (t : Token)
    (ts : List Token) : relined before (gap :: gaps) (t :: ts) =
      { t with line := lineAfter (before ++ gap) } ::
        relined (before ++ gap ++ t.lexeme.toList) gaps ts := by
  unfold relined
  rw [List.mapIdx_cons]
  simp [textBefore, woven]

variable {gaps : List (List Char)} {last : List Char} {ts : List Token}

/-- What begins with a separator, or is nothing at all, is kept apart from a token before it. -/
theorem parted_woven (hlength : gaps.length = ts.length)
    (hgaps : ∀ gap ∈ last :: gaps, gap ∈ separators) (hapart : ∀ gap ∈ gaps, gap ≠ []) :
    Parted [] (woven gaps ts ++ last) := by
  obtain ⟨hlast, hgaps⟩ := List.forall_mem_cons.mp hgaps
  cases gaps with
  | nil =>
      rw [woven, List.zipWith_nil_left, List.flatten_nil, List.nil_append]
      rcases eq_or_ne last [] with rfl | hne
      · exact ⟨by simp, by simp⟩
      · have hparted := parted_separator hlast hne []
        rwa [List.append_nil] at hparted
  | cons gap gaps =>
      obtain ⟨t, ts, rfl⟩ := List.exists_cons_of_length_eq_add_one hlength.symm
      rw [woven_cons, List.append_assoc, List.append_assoc]
      exact parted_separator (hgaps gap List.mem_cons_self) (hapart gap List.mem_cons_self) _

/-! ### Reading it

With all that is kept apart, one token is read after the other.  What has to be computed is the line, and
that depends on everything before.
-/

/-- **A token is read from its spelling behind a separator**, on the line where it stands. -/
theorem tokens_separator_token {t : Token} (ht : Scanned t) {gap x : List Char}
    (hgap : gap ∈ separators) (hx : Parted [] x) (before : List Char) :
    tokens (1 + before.count '\n') (gap ++ t.lexeme.toList ++ x) =
      (tokens (1 + (before ++ gap ++ t.lexeme.toList).count '\n') x).map
        ({ t with line := lineAfter (before ++ gap) } :: ·) := by
  obtain ⟨line, c, cs, rest, htoken⟩ := ht
  obtain ⟨ds, hlexeme, hself⟩ := token_of_lexeme htoken
  have hself' := token_append (hself (lineAfter (before ++ gap))) hx
  have hskip := skip_separator hgap before (t.lexeme.toList ++ x)
  rw [List.append_assoc, tokens_congr hskip, hlexeme, List.cons_append,
    tokens_of_token (skip_of_token hself' _ _) hself', ← hlexeme, List.nil_append, lineBreaks,
    Nat.add_assoc, ← List.count_append]

/-- Tokens are read from their spellings behind separators, with any text before. -/
theorem tokens_woven (hts : ∀ t ∈ ts, Scanned t) (hlength : gaps.length = ts.length)
    (hgaps : ∀ gap ∈ last :: gaps, gap ∈ separators) (hapart : ∀ gap ∈ gaps.tail, gap ≠ [])
    (before : List Char) :
    tokens (1 + before.count '\n') (woven gaps ts ++ last) =
      .ok (relined before gaps ts ++
        [⟨.endOfInput, "", none, lineAfter (before ++ (woven gaps ts ++ last))⟩]) := by
  induction ts generalizing gaps before with
  | nil =>
      obtain rfl := List.length_eq_zero_iff.mp hlength
      have hskip := skip_separator (hgaps last List.mem_cons_self) before []
      rw [List.append_nil] at hskip
      exact tokens_of_end hskip
  | cons t ts ih =>
      obtain ⟨gap, gaps, rfl⟩ := List.exists_cons_of_length_eq_add_one hlength
      obtain ⟨ht, hts⟩ := List.forall_mem_cons.mp hts
      obtain ⟨hlast, hgap, hgaps⟩ : last ∈ separators ∧ gap ∈ separators ∧
          ∀ gap ∈ gaps, gap ∈ separators := by simpa using hgaps
      have hgaps' := List.forall_mem_cons.mpr ⟨hlast, hgaps⟩
      have hlength' : gaps.length = ts.length := Nat.succ.inj hlength
      have hparted := parted_woven hlength' hgaps' hapart
      rw [woven_cons, List.append_assoc _ _ last, tokens_separator_token ht hgap hparted,
        ih hts hlength' hgaps' (fun g hg => hapart g (List.mem_of_mem_tail hg)), relined_cons]
      simp [Except.map]

/--
**The tokens of a program are the same however it is laid out.**

A separator may stand before the first token and behind the last, and one has to stand between any
two.
-/
theorem scan_woven {source : String} {e : Token} (h : scan source = .ok (ts ++ [e]))
    (hlength : gaps.length = ts.length) (hgaps : ∀ gap ∈ last :: gaps, gap ∈ separators)
    (hapart : ∀ gap ∈ gaps.tail, gap ≠ []) :
    scan (String.ofList (woven gaps ts ++ last)) =
      .ok ((ts.mapIdx fun i t => { t with line := lineAfter (textBefore gaps ts i) }) ++
        [⟨.endOfInput, "", none, lineAfter (woven gaps ts ++ last)⟩]) := by
  obtain ⟨body, _, _, _, hreads, -, heq⟩ := exists_reads_of_ok h
  obtain ⟨rfl, -⟩ := List.append_inj' heq rfl
  have hwoven := tokens_woven hreads.scanned hlength hgaps hapart []
  rw [scan, String.toList_ofList]
  exact hwoven

/-- A symbol that ends in a minus, a string over two lines, a minus by itself and a reserved word,
all next to each other at first; then with comments in which there are quotes and parentheses. -/
theorem scan_woven_comments :
    let source := "(x-\"\\\"\n\"-)if"
    let spread := ";\"\n(\nx- \"\\\"\n\" ;)\n-\t)\nif "
    let gaps := [[';', '"', '\n'], ['\n'], [' '], [' ', ';', ')', '\n'], ['\t'], ['\n']]
    let ts : List Token := [⟨.leftParen, "(", none, 1⟩, ⟨.symbol, "x-", none, 1⟩,
      ⟨.string, "\"\\\"\n\"", some (.text "\"\n"), 1⟩, ⟨.operator .minus, "-", none, 2⟩,
      ⟨.rightParen, ")", none, 2⟩, ⟨.keyword .ifElse, "if", none, 2⟩]
    scan source = .ok (ts ++ [⟨.endOfInput, "", none, 2⟩]) ∧
      (∀ gap ∈ [' '] :: gaps, gap ∈ separators) ∧
      String.ofList (woven gaps ts ++ [' ']) = spread ∧
      scan spread = .ok ((ts.zipWith (fun t line => { t with line := line }) [2, 3, 3, 5, 5, 6]) ++
        [⟨.endOfInput, "", none, 6⟩]) := by
  intro source spread gaps ts
  have hscan : scan source = .ok (ts ++ [⟨.endOfInput, "", none, 2⟩]) := by cbv
  have hblank (c : Char) (hc : c ∈ blanks) : [c] ∈ separators :=
    cons_mem_separators hc nil_mem_separators
  have hcomment (c : Char) (hc : c ≠ '\n') : [';', c, '\n'] ∈ separators :=
    comment_mem_separators (List.forall_mem_singleton.mpr hc) nil_mem_separators
  have hgaps : ∀ gap ∈ [' '] :: gaps, gap ∈ separators := by
    simp only [gaps, List.forall_mem_cons]
    exact ⟨hblank ' ' (by decide), hcomment '"' (by decide), hblank '\n' (by decide),
      hblank ' ' (by decide), cons_mem_separators (by decide) (hcomment ')' (by decide)),
      hblank '\t' (by decide), hblank '\n' (by decide), List.forall_mem_nil _⟩
  have hspread : String.ofList (woven gaps ts ++ [' ']) = spread := by cbv
  refine ⟨hscan, hgaps, hspread, ?_⟩
  rw [← hspread, scan_woven hscan rfl hgaps (by decide)]
  cbv

end Scan

end SmallLisp
