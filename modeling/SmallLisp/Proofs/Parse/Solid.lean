/-
Tokens that spell what they are, and what is read of them.

A number or a string that comes from a text has a value of its kind (`solid_of_scan`).  Tokens of
these two kinds without such a value are the only ones that are in place and yet cannot be read.  So of
a text the parser reads every token or refuses it, and it never complains that a literal has the
wrong type (`detail_of_solid`).

The trees that it makes are those of the grammar, and in none of them is there a list with the word
`define` for its head: in that place the word opens a definition.
-/
import SmallLisp.Proofs.Parse.Grammar
import SmallLisp.Proofs.Scan.Lines

namespace SmallLisp

/-- Whether a number or a string has a value of its kind. -/
structure Token.Solid (t : Token) : Prop where
  number : t.kind = .number → ∃ x, t.literal = some (.number x)
  string : t.kind = .string → ∃ s, t.literal = some (.text s)

/-! ### Tokens of a text

The scanner computes the value when it makes the token, so this is read off from the cases of `token`.
-/

namespace Scan

theorem solid_of_token {line : Nat} {c : Char} {cs rest : List Char} {t : Token}
    (h : token line c cs = .ok (t, rest)) : t.Solid := by
  obtain ⟨kind, hsign, rfl, -⟩ | ⟨-, hnumber⟩ | ⟨-, hstring⟩ | ⟨-, -, hword⟩ := token_cases h
  · obtain rfl | rfl | ⟨op, rfl⟩ := sign?_cases hsign <;> exact ⟨by simp, by simp⟩
  · rw [← show (number line (c :: cs)).1 = t by rw [hnumber], number]
    split <;> exact ⟨fun _ => ⟨_, rfl⟩, by simp [number.token]⟩
  · obtain ⟨_, text, _, _, rfl⟩ := string_eq_ok_iff.mp hstring
    exact ⟨by simp, fun _ => ⟨_, rfl⟩⟩
  · rw [← show (word line (c :: cs)).1 = t by rw [hword]]
    constructor <;> intro hkind <;>
      obtain hword | ⟨k, hword⟩ | hword | hword := kind_word_cases line (c :: cs) <;>
      cases hword.symm.trans hkind

theorem Reads.solid {line line' : Nat} {cs cs' : List Char} {ts : List Token}
    (h : Reads line cs ts line' cs') : ∀ t ∈ ts, t.Solid := by
  induction h with
  | nil => simp
  | cons _ htoken _ ih => exact List.forall_mem_cons.mpr ⟨solid_of_token htoken, ih⟩

/-- **The numbers and strings of a text have values of their kinds.** -/
theorem solid_of_scan {source : String} {ts : List Token} (h : scan source = .ok ts) :
    ∀ t ∈ ts, t.Solid := by
  obtain ⟨body, line, rest, last, hreads, -, rfl⟩ := exists_reads_of_ok h
  refine List.forall_mem_append.mpr ⟨hreads.solid, List.forall_mem_singleton.mpr ?_⟩
  exact ⟨nofun, nofun⟩

end Scan

namespace Parse

/-! ### What is read of them

A step is `hollow` where a literal has no value, and refusals have texts other than the one about its type.
`Sure` says so of a step, and holds of each as long as the tokens are solid.
-/

/-- Whether a token has been read or has been refused, and not for the type of its literal. -/
def Step.Sure : Step → Prop
  | .more _ | .done _ => True
  | .refuse detail => detail ≠ "unexpected literal type"
  | .hollow => False

theorem unexpected_ne (name : String) : "unexpected token: " ++ name ≠ "unexpected literal type" := by
  intro h
  have h := congrArg (List.drop 11) (congrArg String.toList h)
  rw [String.toList_append] at h
  simp at h

theorem sure_complete (e : Expr) (forms : List OpenForm) : (complete e forms).Sure := by
  rcases forms with _ | ⟨_ | _ | _, forms⟩ <;> trivial

theorem sure_start {t : Token} (h : t.Solid) (forms : List OpenForm) : (start t forms).Sure := by
  unfold start
  split
  · trivial
  · exact sure_complete ..
  · exact sure_complete ..
  · exact sure_complete ..
  · exact sure_complete ..
  · exact sure_complete ..
  · rename_i hkind
    obtain ⟨x, hx⟩ := h.number hkind
    rw [hx]
    exact sure_complete ..
  · rename_i hkind
    obtain ⟨text, htext⟩ := h.string hkind
    rw [htext]
    exact sure_complete ..
  · exact unexpected_ne t.lexeme
  · exact unexpected_ne t.lexeme

theorem sure_inForms {t : Token} (h : t.Solid) (forms : List OpenForm) :
    (inForms t forms).Sure := by
  rcases forms with _ | ⟨_ | _ | _, forms⟩ <;> simp only [inForms]
  · exact sure_start h _
  · split
    · trivial
    · exact sure_start h _
  · split
    · exact sure_complete ..
    · exact sure_start h _
  · exact sure_start h _

theorem sure_expect {kind : TokenKind} {detail : String} {t : Token} {next : Step}
    (hdetail : detail ≠ "unexpected literal type") (hnext : next.Sure) :
    (expect kind detail t next).Sure := by
  unfold expect
  split
  · exact hnext
  · exact hdetail

theorem sure_inDefinition (t : Token) (forms : List OpenForm) (d : OpenDefinition) :
    (inDefinition t forms d).Sure := by
  cases d with
  | signature =>
      simp only [inDefinition]
      split
      · trivial
      · exact sure_expect (by decide) trivial
  | nestedName => exact sure_expect (by decide) trivial
  | openParams nested name => exact sure_expect (by decide) trivial
  | params nested name read =>
      simp only [inDefinition]
      split
      · split <;> trivial
      · exact sure_expect (by decide) trivial
  | closeSignature name params => exact sure_expect (by decide) trivial
  | close name params body => exact sure_expect (by decide) (sure_complete ..)

/-- **Every solid token is read or refused.** -/
theorem sure_step {t : Token} (h : t.Solid) (s : State) : (step t s).Sure := by
  obtain ⟨definition, forms⟩ := s
  cases definition with
  | none => exact sure_inForms h forms
  | some d => exact sure_inDefinition t forms d

theorem missing_ne (s : State) : s.missing ≠ "unexpected literal type" := by
  unfold State.missing
  split
  · rename_i d _
    cases d <;> simp [OpenDefinition.missing]
  · decide
  · exact unexpected_ne _

theorem detail_of_take {r : Reading} {t : Token} {detail : String} (ht : t.Solid)
    (h : r.take t = .error detail) : detail ≠ "unexpected literal type" := by
  have hsure := sure_step ht r.current
  unfold Reading.take at h
  generalize step t r.current = result at h hsure
  match result, hsure with
  | .more _, _ | .done _, _ => cases h
  | .refuse _, hsure =>
      cases h
      exact hsure

theorem detail_of_takeAll {r : Reading} {ts : List Token} {e : ParseError}
    (hts : ∀ t ∈ ts, t.Solid) (h : r.takeAll ts = .error e) :
    e.detail ≠ "unexpected literal type" := by
  obtain ⟨hmem, _, hrefused⟩ := Reading.exists_of_takeAll_error h
  exact detail_of_take (hts e.token hmem) hrefused

theorem detail_of_finish {r : Reading} {t : Token} {e : ParseError}
    (h : r.finish t = .error e) : e.detail ≠ "unexpected literal type" := by
  unfold Reading.finish at h
  split at h
  · cases h
  · cases h
    exact missing_ne _

/-- **The parser does not complain about the type of a literal**, if the tokens are solid. -/
theorem detail_of_solid {ts : List Token} {e : ParseError} (hts : ∀ t ∈ ts, t.Solid)
    (h : parse ts = .error e) : e.detail ≠ "unexpected literal type" := by
  rw [parse_eq_readAll, readAll] at h
  cases htake : Reading.takeAll .initial (beforeEnd ts) with
  | error e' =>
      rw [htake] at h
      cases h
      exact detail_of_takeAll (fun t ht => hts t (List.takeWhile_subset _ ht)) htake
  | ok r =>
      rw [htake] at h
      exact detail_of_finish h

end Parse

/-! ### Lists with `define` for their head

The grammar has no such list.  So this is an induction on trees, and nothing is asked of the reader.
-/

/-- Whether there is a list in an expression that has the word `define` for its head. -/
inductive Expr.HeadedByDefine : Expr → Prop where
  | here {head : Expr} {operands : List Expr} (h : Parse.IsDefine head) :
      HeadedByDefine (.list head operands)
  | head {head : Expr} {operands : List Expr} (h : HeadedByDefine head) :
      HeadedByDefine (.list head operands)
  | operand {head e : Expr} {operands : List Expr} (he : e ∈ operands) (h : HeadedByDefine e) :
      HeadedByDefine (.list head operands)
  | body {name : Token} {params : List Token} {body : Expr} (h : HeadedByDefine body) :
      HeadedByDefine (.define name params body)

namespace Parse

theorem grammaticalAll_iff {es : List Expr} : GrammaticalAll es ↔ ∀ e ∈ es, Grammatical e := by
  induction es with
  | nil => simp [GrammaticalAll]
  | cons e es ih => rw [GrammaticalAll, ih, List.forall_mem_cons]

/-- A tree of the grammar has no list with `define` for its head. -/
theorem Grammatical.not_headedByDefine {e : Expr} (h : Grammatical e) : ¬ e.HeadedByDefine := by
  intro hheaded
  induction hheaded with
  | here hdefine => exact h.1 hdefine
  | head _ ih => exact ih h.2.1
  | operand he _ ih => exact ih (grammaticalAll_iff.mp h.2.2 _ he)
  | body _ ih => exact ih h.2.2

end Parse

end SmallLisp
