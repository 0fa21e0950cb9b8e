/-
The rules for tokens, as languages, and the longest match.

The scanner decides by the first character what it reads, and then takes characters as long as they
fit.  The rules here say nothing of that: each is the language of its tokens, put together from
classes of characters.  A text may begin with tokens of several rules and of several lengths, and
the longest of them all counts (`Longest`).

The first character of a token settles its rule, except that a quote can begin a string or a string
without an end (`Rule.eq_of_begins`).
-/
import Mathlib.Computability.Language
import SmallLisp.Proofs.Scan.Lines

namespace SmallLisp

namespace Scan

open Computability

/-! ### Classes of characters

The sets of characters that the rules are built from, written out.
-/

def Digit (c : Char) : Prop :=
  '0' ≤ c ∧ c ≤ '9'

def Letter (c : Char) : Prop :=
  'A' ≤ c ∧ c ≤ 'Z' ∨ 'a' ≤ c ∧ c ≤ 'z'

/-- What a symbol may begin with. -/
def WordStart (c : Char) : Prop :=
  Letter c ∨ c ∈ ['_', '!', '?', '$', '%', '&', '^', '~']

/-- What a symbol may go on with. -/
def WordPart (c : Char) : Prop :=
  WordStart c ∨ Digit c ∨ c = '-'

instance (c : Char) : Decidable (Digit c) :=
  inferInstanceAs (Decidable (_ ∧ _))

instance (c : Char) : Decidable (Letter c) :=
  inferInstanceAs (Decidable (_ ∨ _))

instance (c : Char) : Decidable (WordStart c) :=
  inferInstanceAs (Decidable (_ ∨ _))

/-- What may stand between tokens. -/
def blanks : List Char := [' ', '\t', '\r', '\n', '\x0c']

/-- The tokens that are one sign. -/
def signs : List (Char × TokenKind) :=
  [('(', .leftParen), (')', .rightParen), ('+', .operator .plus), ('-', .operator .minus),
    ('*', .operator .star), ('/', .operator .slash), ('=', .operator .equal),
    ('<', .operator .less), ('>', .operator .greater)]

/-- The words that are no symbols. -/
def reservedWords : List (String × TokenKind) :=
  [("define", .keyword .define), ("if", .keyword .ifElse), ("begin", .keyword .begin),
    ("let", .keyword .bind), ("set", .keyword .assign), ("and", .keyword .and),
    ("or", .keyword .or), ("not", .keyword .not), ("true", .true), ("nil", .nil)]

/-! ### Rules

Each rule is a regular language.  A longest match is one of whatever rule, so that nothing is said of an
order among the rules.
-/

/-- The words of one character of a class. -/
def one (p : Char → Prop) : Language Char :=
  {x | ∃ c, p c ∧ x = [c]}

/-- What may stand between the quotes of a string: characters other than quotes and backslashes, and
backslashes each with a character behind that is no line break. -/
def inside : Language Char :=
  (one (fun c => c ≠ '"' ∧ c ≠ '\\') + {['\\']} * one (· ≠ '\n'))∗

/-- What a token may be. -/
inductive Rule where
  | sign (kind : TokenKind)
  | number
  | string
  /-- A string without an end. -/
  | openString
  /-- A symbol or a reserved word. -/
  | word
deriving DecidableEq

/-- The tokens of a rule. -/
def Rule.language : Rule → Language Char
  | sign kind => one fun c => signs.lookup c = some kind
  | number => one Digit * (one Digit)∗ * (1 + {['.']} * (one Digit * (one Digit)∗))
  | string => {['"']} * inside * {['"']}
  | openString => {['"']} * inside
  | word => one WordStart * (one WordPart)∗

/-- Whether a text begins with a token of a rule and with no longer one, of whatever rule. -/
structure Longest (rule : Rule) (text lexeme : List Char) : Prop where
  isPrefix : lexeme <+: text
  mem : lexeme ∈ rule.language
  longest : ∀ (rule' : Rule) (lexeme' : List Char), lexeme' <+: text → lexeme' ∈ rule'.language →
    lexeme'.length ≤ lexeme.length

/-! ### Members of the languages

How members are built, for those languages that are met below.  For the inside of a string there is an
induction that follows its backslashes.
-/

/-- What holds of the empty word, and of a word of the language in front of others, holds of all. -/
theorem kstar_induction {l : Language Char} {P : List Char → Prop} (nil : P [])
    (append : ∀ a ∈ l, ∀ b ∈ l∗, P b → P (a ++ b)) {x : List Char} (h : x ∈ l∗) : P x := by
  obtain ⟨L, rfl, hL⟩ := h
  induction L with
  | nil => exact nil
  | cons a L ih =>
      have hL' : ∀ b ∈ L, b ∈ l := fun b hb => hL b (List.mem_cons_of_mem _ hb)
      exact append a (hL a List.mem_cons_self) L.flatten ⟨L, rfl, hL'⟩ (ih hL')

theorem append_mem_kstar {l : Language Char} {a b : List Char} (ha : a ∈ l) (hb : b ∈ l∗) :
    a ++ b ∈ l∗ := by
  rw [← Language.one_add_self_mul_kstar_eq_kstar]
  exact .inr (Language.append_mem_mul ha hb)

theorem mem_one_kstar {p : Char → Prop} {x : List Char} : x ∈ (one p)∗ ↔ ∀ c ∈ x, p c := by
  constructor
  · intro h
    refine kstar_induction (P := fun x => ∀ c ∈ x, p c) (fun c hc => absurd hc List.not_mem_nil) ?_ h
    rintro _ ⟨c, hc, rfl⟩ b - hb
    exact List.forall_mem_cons.mpr ⟨hc, hb⟩
  · intro h
    induction x with
    | nil => exact Language.nil_mem_kstar _
    | cons c x ih =>
        obtain ⟨hc, hx⟩ := List.forall_mem_cons.mp h
        exact append_mem_kstar (a := [c]) ⟨c, hc, rfl⟩ (ih hx)

theorem mem_one_mul_kstar {p q : Char → Prop} {x : List Char} :
    x ∈ one p * (one q)∗ ↔ ∃ c cs, x = c :: cs ∧ p c ∧ ∀ d ∈ cs, q d := by
  constructor
  · rintro ⟨_, ⟨c, hc, rfl⟩, cs, hcs, rfl⟩
    exact ⟨c, cs, rfl, hc, mem_one_kstar.mp hcs⟩
  · rintro ⟨c, cs, rfl, hc, hcs⟩
    exact Language.append_mem_mul (a := [c]) ⟨c, hc, rfl⟩ (mem_one_kstar.mpr hcs)

/-- Digits, at least one. -/
theorem mem_digits {x : List Char} :
    x ∈ one Digit * (one Digit)∗ ↔ x ≠ [] ∧ ∀ c ∈ x, Digit c := by
  rw [mem_one_mul_kstar]
  constructor
  · rintro ⟨c, cs, rfl, hc, hcs⟩
    exact ⟨List.cons_ne_nil c cs, List.forall_mem_cons.mpr ⟨hc, hcs⟩⟩
  · rintro ⟨hne, h⟩
    obtain ⟨c, cs, rfl⟩ := List.exists_cons_of_ne_nil hne
    obtain ⟨hc, hcs⟩ := List.forall_mem_cons.mp h
    exact ⟨c, cs, rfl, hc, hcs⟩

theorem mem_number {x : List Char} : x ∈ Rule.number.language ↔
    ∃ whole, (whole ≠ [] ∧ ∀ c ∈ whole, Digit c) ∧
      (x = whole ∨ ∃ fraction, (fraction ≠ [] ∧ ∀ c ∈ fraction, Digit c) ∧
        x = whole ++ '.' :: fraction) := by
  constructor
  · rintro ⟨whole, hwhole, tail, htail, rfl⟩
    refine ⟨whole, mem_digits.mp hwhole, ?_⟩
    obtain rfl | ⟨_, rfl, fraction, hfraction, rfl⟩ := htail
    · exact .inl (List.append_nil whole)
    · exact .inr ⟨fraction, mem_digits.mp hfraction, rfl⟩
  · rintro ⟨whole, hwhole, rfl | ⟨fraction, hfraction, rfl⟩⟩
    · exact ⟨x, mem_digits.mpr hwhole, [], .inl rfl, List.append_nil x⟩
    · exact ⟨whole, mem_digits.mpr hwhole, '.' :: fraction,
        .inr ⟨['.'], rfl, fraction, mem_digits.mpr hfraction, rfl⟩, rfl⟩

theorem mem_string {x : List Char} :
    x ∈ Rule.string.language ↔ ∃ y ∈ inside, x = '"' :: (y ++ ['"']) := by
  constructor
  · rintro ⟨_, ⟨_, rfl, y, hy, rfl⟩, _, rfl, rfl⟩
    exact ⟨y, hy, rfl⟩
  · rintro ⟨y, hy, rfl⟩
    exact ⟨'"' :: y, ⟨['"'], rfl, y, hy, rfl⟩, ['"'], rfl, rfl⟩

theorem mem_openString {x : List Char} :
    x ∈ Rule.openString.language ↔ ∃ y ∈ inside, x = '"' :: y := by
  constructor
  · rintro ⟨_, rfl, y, hy, rfl⟩
    exact ⟨y, hy, rfl⟩
  · rintro ⟨y, hy, rfl⟩
    exact ⟨['"'], rfl, y, hy, rfl⟩

/-- What may stand between quotes if a backslash takes a character of a class with it.  For `inside`
these are all but line breaks. -/
def quotable (p : Char → Prop) : Language Char :=
  (one (fun c => c ≠ '"' ∧ c ≠ '\\') + {['\\']} * one p)∗

theorem nil_mem_quotable {p : Char → Prop} : [] ∈ quotable p :=
  Language.nil_mem_kstar _

theorem cons_mem_quotable {p : Char → Prop} {c : Char} (hquote : c ≠ '"') (hbackslash : c ≠ '\\')
    {y : List Char} (hy : y ∈ quotable p) : c :: y ∈ quotable p :=
  append_mem_kstar (a := [c]) (.inl ⟨c, ⟨hquote, hbackslash⟩, rfl⟩) hy

theorem escape_mem_quotable {p : Char → Prop} {c : Char} (hc : p c) {y : List Char}
    (hy : y ∈ quotable p) : '\\' :: c :: y ∈ quotable p :=
  append_mem_kstar (a := ['\\', c]) (.inr ⟨['\\'], rfl, [c], ⟨c, hc, rfl⟩, rfl⟩) hy

/-- What holds of nothing, and is kept by a plain character and by an escape in front, holds of all
that may stand between quotes. -/
theorem quotable_induction {p : Char → Prop} {P : List Char → Prop} (nil : P [])
    (plain : ∀ c y, c ≠ '"' → c ≠ '\\' → y ∈ quotable p → P y → P (c :: y))
    (escape : ∀ c y, p c → y ∈ quotable p → P y → P ('\\' :: c :: y)) {y : List Char}
    (h : y ∈ quotable p) : P y := by
  refine kstar_induction nil ?_ h
  rintro _ (⟨c, ⟨hquote, hbackslash⟩, rfl⟩ | ⟨_, rfl, _, ⟨c, hc, rfl⟩, rfl⟩) y hy hP
  · exact plain c y hquote hbackslash hy hP
  · exact escape c y hc hy hP

/-! ### The first character

Languages overlap little: what a token begins with settles the rule, unless it is a quote.  This is what
makes longest matches easy to compare.
-/

theorem lookup_eq_none {α β : Type} [BEq α] [LawfulBEq α] {a : α} {table : List (α × β)}
    (h : a ∉ table.map Prod.fst) : table.lookup a = none := by
  refine List.lookup_eq_none_iff.mpr fun p hp => bne_iff_ne.mpr ?_
  rintro rfl
  exact h (List.mem_map_of_mem hp)

/-- What the tokens of a rule begin with. -/
def Rule.Begins : Rule → Char → Prop
  | sign kind, c => signs.lookup c = some kind
  | number, c => Digit c
  | string, c | openString, c => c = '"'
  | word, c => WordStart c

theorem Rule.exists_begins {rule : Rule} {x : List Char} (h : x ∈ rule.language) :
    ∃ c cs, x = c :: cs ∧ rule.Begins c := by
  match rule with
  | sign kind =>
      obtain ⟨c, hc, rfl⟩ := h
      exact ⟨c, [], rfl, hc⟩
  | number =>
      obtain ⟨_, ⟨_, ⟨c, hc, rfl⟩, cs, -, rfl⟩, tail, -, rfl⟩ := h
      exact ⟨c, cs ++ tail, rfl, hc⟩
  | string =>
      obtain ⟨y, -, rfl⟩ := mem_string.mp h
      exact ⟨'"', y ++ ['"'], rfl, rfl⟩
  | openString =>
      obtain ⟨y, -, rfl⟩ := mem_openString.mp h
      exact ⟨'"', y, rfl, rfl⟩
  | word =>
      obtain ⟨c, cs, rfl, hc, -⟩ := mem_one_mul_kstar.mp h
      exact ⟨c, cs, rfl, hc⟩

/-- A sign begins nothing else. -/
theorem sign_apart {c : Char} {kind : TokenKind} (h : signs.lookup c = some kind) :
    ¬ Digit c ∧ c ≠ '"' ∧ ¬ WordStart c := by
  have hc : c ∈ signs.map Prod.fst := by
    by_contra hc
    rw [lookup_eq_none hc] at h
    cases h
  simp only [signs, List.map_cons, List.map_nil, List.mem_cons, List.not_mem_nil, or_false] at hc
  obtain rfl | rfl | rfl | rfl | rfl | rfl | rfl | rfl | rfl := hc <;> decide

/-- A digit begins no word. -/
theorem digit_apart {c : Char} (h : Digit c) : ¬ WordStart c := by
  obtain ⟨hlow, hhigh⟩ := h
  rintro ((⟨hletter, -⟩ | ⟨hletter, -⟩) | hc)
  · exact absurd (Char.le_trans hletter hhigh) (by decide)
  · exact absurd (Char.le_trans hletter hhigh) (by decide)
  · simp only [List.mem_cons, List.not_mem_nil, or_false] at hc
    obtain rfl | rfl | rfl | rfl | rfl | rfl | rfl | rfl := hc <;>
      exact absurd (And.intro hlow hhigh) (by decide)

/-- The first character settles the rule, unless it is a quote. -/
theorem Rule.eq_of_begins {rule rule' : Rule} {c : Char} (hquote : c ≠ '"')
    (h : rule.Begins c) (h' : rule'.Begins c) : rule' = rule := by
  match rule, rule', h, h' with
  | sign kind, sign kind', h, h' =>
      obtain rfl : kind = kind' := Option.some_inj.mp (h.symm.trans h')
      rfl
  | number, number, _, _ | word, word, _, _ => rfl
  | string, _, h, _ | openString, _, h, _ | _, string, _, h | _, openString, _, h =>
      exact absurd h hquote
  | sign _, number, h, h' | number, sign _, h', h => exact absurd h' (sign_apart h).1
  | sign _, word, h, h' | word, sign _, h', h => exact absurd h' (sign_apart h).2.2
  | number, word, h, h' | word, number, h', h => exact absurd h' (digit_apart h)

end Scan

end SmallLisp
