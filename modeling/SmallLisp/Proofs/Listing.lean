/-
Reading back a listing of forms.

The listing of a program has each form on a line of its own, and it is a program as well.  Its forms
are those that were listed, though its tokens are not the old ones: numbers are spelled in the
shortest way, a string is spelled with other escapes, and every definition has a nested signature.
So the tokens of a form are not compared at all.  What is printed of a form is read as tokens that
spell it (`exists_readsAs_print`), by induction on how the form was spelled before, and the parser
inverts spelling.

The names and keywords in a form are tokens of the old program, and this is where that is needed:
they are words.  Numbers come from decimals for the same reason, so none is negative or undefined.

Two kinds of data have no spelling to print.  A number can be too large for a finite one, and what is
printed of it is a symbol.  And the text of a string is shown as descriptions show it, where a
character that cannot be seen has an escape that programs do not know.
-/
import SmallLisp.Listing
import SmallLisp.Proofs.Incomplete
import SmallLisp.Proofs.Parse.Grammar
import SmallLisp.Proofs.Scan.ReadBack

namespace SmallLisp

open Parse (Spells SpellsAll SpellsSignature Names Leaf)
open Relabelling (unlined)
open Scan (ReadsAs Scanned readsAs_nil)

/-! ### Data with a spelling

Not every datum is printed as something that is read as it.  Infinity and what is no number have no
literal, and some characters are printed with escapes that the language does not have.
-/

/-- Whether what is printed of a datum spells it: a number is finite, and every escape in a string is
one that programs know. -/
def Datum.isSpellable : Datum → Bool
  | .number x => x.isFinite
  | .text s => s.toList.all Text.isSpellable
  | _ => true

namespace Expr

mutual

/-- Whether what is printed of every datum in an expression spells it. -/
def isSpellable : Expr → Bool
  | datum d => d.isSpellable
  | symbol _ => true
  | operator _ => true
  | keyword _ => true
  | list head operands => head.isSpellable && areSpellable operands
  | define _ _ body => body.isSpellable

/-- `isSpellable` of every element. -/
def areSpellable : List Expr → Bool
  | [] => true
  | e :: es => e.isSpellable && areSpellable es

end

/-! ### Printed text, part by part

The printer hands the text along and appends to it.  For the proofs it is a function of the expression, and
its text is put in front of whatever follows.
-/

mutual

theorem printTo_eq (text : String) (e : Expr) : e.printTo text = text ++ e.print := by
  match e with
  | datum _ => simp [print, printTo]
  | symbol _ => simp [print, printTo]
  | operator _ => simp [print, printTo]
  | keyword _ => simp [print, printTo]
  | list head operands =>
      rw [print, printTo, printTo, printTo_eq (text ++ "(") head, printTo_eq ("" ++ "(") head,
        operandsTo_eq _ operands, operandsTo_eq (_ ++ head.print) operands]
      simp [String.append_assoc]
  | define name params body =>
      rw [print, printTo, printTo, printTo_eq _ body, printTo_eq ("" ++ _ ++ _ ++ _ ++ _ ++ _) body]
      simp [String.append_assoc]

theorem operandsTo_eq (text : String) (es : List Expr) :
    operandsTo text es = text ++ operandsTo "" es := by
  match es with
  | [] => simp [operandsTo]
  | e :: es =>
      rw [operandsTo, operandsTo, printTo_eq (text ++ " ") e, printTo_eq ("" ++ " ") e,
        operandsTo_eq _ es, operandsTo_eq (_ ++ e.print) es]
      simp [String.append_assoc]

end

theorem toList_print_list (head : Expr) (operands : List Expr) :
    (list head operands).print.toList =
      '(' :: (head.print.toList ++ ((operandsTo "" operands).toList ++ [')'])) := by
  rw [print, printTo, printTo_eq, operandsTo_eq]
  simp

theorem toList_print_define (name : Token) (params : List Token) (body : Expr) :
    (define name params body).print.toList =
      '(' :: ("define".toList ++ ' ' :: '(' :: (name.lexeme.toList ++ ' ' :: '(' ::
        ((nameList params).toList ++ ')' :: ')' :: ' ' :: (body.print.toList ++ [')'])))) := by
  rw [print, printTo, printTo_eq]
  simp

theorem toList_operandsTo (e : Expr) (es : List Expr) :
    (operandsTo "" (e :: es)).toList = ' ' :: (e.print.toList ++ (operandsTo "" es).toList) := by
  rw [operandsTo, printTo_eq, operandsTo_eq]
  simp

/-- Operands begin with a space if there are any. -/
theorem parted_operands (es : List Expr) {x : List Char} (hx : Scan.Parted [] x) :
    Scan.Parted [] ((operandsTo "" es).toList ++ x) := by
  cases es with
  | nil => simpa [operandsTo] using hx
  | cons e es =>
      rw [toList_operandsTo]
      exact Scan.parted_cons rfl (by decide) _

end Expr

/-! ### What is printed is read

The text of an expression is scanned piece by piece.  Between two pieces stands a space or a parenthesis,
which keeps them apart; so what each piece is read as can be said by itself.
-/

/-- The token of an opening parenthesis. -/
def Token.opening : Token :=
  ⟨.leftParen, '('.toString, none, 0⟩

/-- The token of a closing parenthesis. -/
def Token.closing : Token :=
  ⟨.rightParen, ')'.toString, none, 0⟩

/-- The token of the word that begins a definition. -/
def Token.defining : Token :=
  ⟨.keyword .define, "define", none, 0⟩

theorem readsAs_defining : ReadsAs "define".toList [.defining] :=
  Scanned.readsAs ⟨0, 'd', "efine".toList, [], rfl⟩

namespace Scan

variable {cs ds : List Char} {ts us : List Token}

theorem ReadsAs.spaced (h : ReadsAs cs ts) : ReadsAs (' ' :: cs) ts :=
  h.skipped (.inl rfl)

theorem ReadsAs.opening (h : ReadsAs cs ts) : ReadsAs ('(' :: cs) (.opening :: ts) :=
  h.sign rfl 0

theorem ReadsAs.closing (h : ReadsAs cs ts) : ReadsAs (')' :: cs) (.closing :: ts) :=
  h.sign rfl 0

end Scan

/-- What is printed of an expression of one token is one token. -/
theorem exists_readsAs_leaf {t : Token} {e : Expr} (h : Leaf t e) (ht : Scanned t)
    (he : e.isSpellable = true) : ∃ u, Leaf u e ∧ ReadsAs e.print.toList [u] := by
  cases h with
  | number hkind hvalue =>
      obtain ⟨d, hd⟩ := ht.exists_decimal hvalue
      obtain ⟨whole, fraction, hspelling, hx⟩ := Decimal.exists_spelling_text hd he
      have hread := Scan.readsAs_number hspelling 0
      rw [hx] at hread
      exact ⟨_, .number rfl rfl, by simpa [Expr.print, Expr.printTo, Datum.source] using hread⟩
  | text hkind hvalue =>
      have hread := Scan.readsAs_quoted (List.all_eq_true.mp he) 0
      exact ⟨_, .text rfl rfl, by simpa [Expr.print, Expr.printTo, Datum.source] using hread⟩
  | true hkind =>
      exact ⟨⟨.true, "true", none, 0⟩, .true rfl, Scanned.readsAs ⟨0, 't', "rue".toList, [], rfl⟩⟩
  | nil hkind =>
      exact ⟨⟨.nil, "nil", none, 0⟩, .nil rfl, Scanned.readsAs ⟨0, 'n', "il".toList, [], rfl⟩⟩
  | symbol hkind =>
      refine ⟨t, .symbol hkind, ?_⟩
      simpa [Expr.print, Expr.printTo] using ht.readsAs
  | operator hkind =>
      refine ⟨t, .operator hkind, ?_⟩
      simpa [Expr.print, Expr.printTo] using ht.readsAs
  | keyword hkind =>
      refine ⟨t, .keyword hkind, ?_⟩
      simpa [Expr.print, Expr.printTo] using ht.readsAs

/-- Names are read with single spaces between them. -/
theorem readsAs_nameList {params : List Token} (hscanned : ∀ t ∈ params, Scanned t) :
    ReadsAs (Expr.nameList params).toList params := by
  induction params with
  | nil => exact readsAs_nil
  | cons p params ih =>
      have hp := (hscanned p List.mem_cons_self).readsAs
      cases params with
      | nil => simpa [Expr.nameList] using hp
      | cons q params =>
          have hrest := ih fun t ht => hscanned t (List.mem_cons_of_mem _ ht)
          simpa [Expr.nameList] using hp.append_cons rfl (by decide) hrest.spaced

/-- The names in a signature. -/
theorem Parse.SpellsSignature.names {name : Token} {params sig : List Token}
    (h : SpellsSignature name params sig) :
    name.kind = .symbol ∧ Names params ∧ name ∈ sig ∧ ∀ t ∈ params, t ∈ sig := by
  cases h with
  | flat hname _ hparams _ => exact ⟨hname, hparams, by simp, fun t ht => by simp [ht]⟩
  | nested _ hname _ hparams _ _ => exact ⟨hname, hparams, by simp, fun t ht => by simp [ht]⟩

mutual

/-- **What is printed of an expression is read as tokens that spell it.** -/
theorem exists_readsAs_print {e : Expr} {ts : List Token} (h : Spells e ts)
    (hts : ∀ t ∈ ts, Scanned t) (he : e.isSpellable = true) :
    ∃ us, Spells e us ∧ ReadsAs e.print.toList us := by
  match h with
  | .leaf hleaf =>
      obtain ⟨u, hu, hread⟩ := exists_readsAs_leaf hleaf (hts _ List.mem_cons_self) he
      exact ⟨[u], .leaf hu, hread⟩
  | @Spells.list l r head operands hs os hl hdefine hhead hoperands hr =>
      rw [Expr.isSpellable, Bool.and_eq_true] at he
      obtain ⟨us, hus, hhead'⟩ := exists_readsAs_print hhead (fun t ht => hts t (by simp [ht])) he.1
      obtain ⟨vs, hvs, hoperands'⟩ :=
        exists_readsAs_operands hoperands (fun t ht => hts t (by simp [ht])) he.2
      refine ⟨.opening :: us ++ vs ++ [.closing], .list rfl hdefine hus hvs rfl, ?_⟩
      have hend : ReadsAs ((Expr.operandsTo "" operands).toList ++ [')']) (vs ++ [.closing]) :=
        hoperands'.append_cons rfl (by decide) readsAs_nil.closing
      have hall := hhead'.append hend fun x _ => by
        rw [List.append_assoc]
        exact Expr.parted_operands operands (Scan.parted_cons rfl (by decide) x)
      rw [Expr.toList_print_list, List.append_assoc]
      exact hall.opening
  | @Spells.define l word r name params sig bs body hl hword hsig hbody hr =>
      rw [Expr.isSpellable] at he
      obtain ⟨us, hus, hbody'⟩ := exists_readsAs_print hbody (fun t ht => hts t (by simp [ht])) he
      obtain ⟨hname, hparams, hmem, hmems⟩ := hsig.names
      have hname' : ReadsAs name.lexeme.toList [name] :=
        (hts name (by simp [hmem])).readsAs
      have hparams' : ReadsAs (Expr.nameList params).toList params :=
        readsAs_nameList fun t ht => hts t (by simp [hmems t ht])
      refine ⟨.opening :: .defining :: (.opening :: name :: .opening :: params ++
        [.closing, .closing]) ++ us ++ [.closing],
        .define rfl rfl (.nested rfl hname rfl hparams rfl rfl) hus rfl, ?_⟩
      have hend := hbody'.append_cons rfl (by decide) readsAs_nil.closing
      have hrest := hparams'.append_cons rfl (by decide) hend.spaced.closing.closing
      have hsig := hname'.append_cons rfl (by decide) hrest.opening.spaced
      have hall := readsAs_defining.append_cons rfl (by decide) hsig.opening.spaced
      rw [Expr.toList_print_define]
      simpa using hall.opening

/-- What is printed of operands, each with a space before it, is read as tokens that spell them. -/
theorem exists_readsAs_operands {es : List Expr} {ts : List Token} (h : SpellsAll es ts)
    (hts : ∀ t ∈ ts, Scanned t) (hes : Expr.areSpellable es = true) :
    ∃ us, SpellsAll es us ∧ ReadsAs (Expr.operandsTo "" es).toList us := by
  match h with
  | .nil => exact ⟨[], .nil, readsAs_nil⟩
  | @SpellsAll.cons e es ts us he hes' =>
      rw [Expr.areSpellable, Bool.and_eq_true] at hes
      obtain ⟨vs, hvs, hread⟩ := exists_readsAs_print he (fun t ht => hts t (by simp [ht])) hes.1
      obtain ⟨ws, hws, hread'⟩ := exists_readsAs_operands hes' (fun t ht => hts t (by simp [ht])) hes.2
      refine ⟨vs ++ ws, .cons hvs hws, ?_⟩
      rw [Expr.toList_operandsTo]
      exact (hread.append hread' fun x hx => Expr.parted_operands es hx).spaced

end

/-! ### The listing of a program

The lines of the forms are put together, the scanner and the parser are composed, and lines are erased
since a listing has its own.
-/

/-- The lines of forms are read as tokens that spell them. -/
theorem exists_readsAs_lines {fs : List Expr} {ts : List Token} (h : SpellsAll fs ts)
    (hts : ∀ t ∈ ts, Scanned t) (hfs : Expr.areSpellable fs = true) :
    ∃ us, SpellsAll fs us ∧ ReadsAs (String.join (fs.map Listing.formLine)).toList us := by
  rw [String.toList_join]
  induction fs generalizing ts with
  | nil => exact ⟨[], .nil, readsAs_nil⟩
  | cons e fs ih =>
      rw [Expr.areSpellable, Bool.and_eq_true] at hfs
      cases h with
      | cons he hes =>
          obtain ⟨us, hus, hread⟩ := exists_readsAs_print he (fun t ht => hts t (by simp [ht])) hfs.1
          obtain ⟨vs, hvs, hread'⟩ := ih hes (fun t ht => hts t (by simp [ht])) hfs.2
          refine ⟨us ++ vs, .cons hus hvs, ?_⟩
          have hline := (hread.append_cons rfl (by decide) (hread'.skipped (.inr rfl))).spaced.spaced
          simpa [Listing.formLine] using hline

/-- Text whose tokens spell a program is read as that program, up to lines. -/
theorem readForms_of_readsAs {s : String} {fs : List Expr} {ts : List Token}
    (hread : ReadsAs s.toList ts) (h : SpellsAll fs ts) :
    ∃ fs', readForms s = .ok fs' ∧ unlined.exprs fs' = unlined.exprs fs := by
  obtain ⟨us, line, htokens, hus⟩ := hread 1 [] ⟨by simp, by simp⟩
  have hend : Scan.tokens line [] = .ok [Token.endAt (min line Scan.lastLine)] :=
    Scan.tokens_of_end rfl
  rw [hend, List.append_nil] at htokens
  have hparse := Parse.parse_of_spellsAll h (Parse.ended_endAt (min line Scan.lastLine))
  have hsame : (us ++ [Token.endAt (min line Scan.lastLine)]).map unlined.token =
      (ts ++ [Token.endAt (min line Scan.lastLine)]).map unlined.token := by
    rw [List.map_append, List.map_append, hus]
  obtain ⟨fs', hparse', hfs'⟩ := parse_unlined hsame hparse
  exact ⟨fs', readForms_eq_ok_iff.mpr ⟨_, htokens, hparse'⟩, hfs'⟩

namespace Listing

/-- The forms of a program can be read back from their listing, up to lines. -/
def ReadsBack (source : String) (fs : List Expr) : Prop :=
  ∃ text fs', forms source = .ok text ∧ readForms text = .ok fs' ∧
    unlined.exprs fs' = unlined.exprs fs

theorem forms_of_readForms {source : String} {fs : List Expr} (h : readForms source = .ok fs) :
    forms source = .ok (String.join (fs.map formLine)) := by
  rw [forms, h]
  rfl

/--
**The listing of a program is read back as that program.**

This holds of every program whose numbers are finite and whose strings are shown with no escapes but
those that programs know.  The forms that are read are the forms that were listed, less the lines of
their tokens.
-/
theorem readsBack (source : String) (fs : List Expr) (h : readForms source = .ok fs)
    (hfs : Expr.areSpellable fs = true) : ReadsBack source fs := by
  obtain ⟨all, hscan, hparse⟩ := readForms_eq_ok_iff.mp h
  obtain ⟨ts, line', cs', last, hreads, -, heq⟩ | ⟨_, _, _, _, -, -, heq⟩ :=
    Scan.tokens_cases 1 source.toList
  · rw [scan, heq] at hscan
    cases hscan
    rw [Parse.parse_eq_ok_iff, Parse.beforeEnd_append hreads.endless,
      Parse.beforeEnd_of_ended (Parse.ended_endAt _), List.append_nil] at hparse
    obtain ⟨us, hus, hread⟩ := exists_readsAs_lines hparse hreads.scanned hfs
    obtain ⟨fs', hforms', hfs'⟩ := readForms_of_readsAs hread hus
    exact ⟨_, fs', forms_of_readForms h, hforms', hfs'⟩
  · rw [scan, heq] at hscan
    cases hscan

/-- A definition with a flat signature, a number with a zero too many and a string with a tab. -/
theorem readsBack_definition :
    ∃ fs, readForms "(define f (x) (+ x 1.50))\n\"a\\\"\tb\"" = .ok fs ∧
      Expr.areSpellable fs = true ∧ ReadsBack "(define f (x) (+ x 1.50))\n\"a\\\"\tb\"" fs := by
  have h : readForms "(define f (x) (+ x 1.50))\n\"a\\\"\tb\"" = .ok
      [.define ⟨.symbol, "f", none, 1⟩ [⟨.symbol, "x", none, 1⟩]
        (.list (.operator ⟨.operator .plus, "+", none, 1⟩)
          [.symbol ⟨.symbol, "x", none, 1⟩, .datum (.number (Decimal.toFloat ⟨150, -2⟩))]),
      .datum (.text "a\"\tb")] := by
    with_unfolding_all rfl
  refine ⟨_, h, ?spellable, readsBack _ _ h ?spellable⟩
  decide +kernel

/-! ### What cannot be read back

The exceptions are really such.  For each of them there is a program whose listing is read as another
program, or not at all.
-/

/-- A two and so many zeros. -/
def numeral (zeros : Nat) : String :=
  String.ofList ('2' :: List.replicate zeros '0')

theorem spelling_numeral (zeros : Nat) :
    Decimal.Spelling (numeral zeros).toList ('2' :: List.replicate zeros '0') [] := by
  refine ⟨by simp, ?_, by simp, by simp [numeral]⟩
  intro c hc
  obtain rfl | hc := List.mem_cons.mp hc
  · rfl
  · rw [List.eq_of_mem_replicate hc]
    rfl

theorem readForms_numeral (zeros : Nat) :
    readForms (numeral zeros) =
      .ok [.datum (.number (Decimal.toFloat ⟨2 * 10 ^ zeros, 0⟩))] := by
  have hvalue : Decimal.ofDigits ('2' :: List.replicate zeros '0') [] = ⟨2 * 10 ^ zeros, 0⟩ := by
    rw [Decimal.ofDigits, List.append_nil]
    exact congrArg (Decimal.mk · 0) (Decimal.natOfDigits_append_zeros ['2'] zeros)
  have hread := Scan.readsAs_number (spelling_numeral zeros) 0
  rw [hvalue] at hread
  obtain ⟨fs, hfs, heq⟩ := readForms_of_readsAs hread (.single (.leaf (.number rfl rfl)))
  rw [hfs]
  generalize Decimal.toFloat ⟨2 * 10 ^ zeros, 0⟩ = x at heq
  -- No other forms are a single number once their lines are taken away.
  rcases fs with _ | ⟨e, _ | ⟨e', fs⟩⟩
  · cases heq
  · cases e <;> simp_all [Relabelling.exprs, Relabelling.expr]
  · simp [Relabelling.exprs] at heq

theorem not_readsBack_of_error {source : String} {fs : List Expr} {f : Failure}
    (h : readForms source = .ok fs) (hf : readForms (String.join (fs.map formLine)) = .error f) :
    ¬ ReadsBack source fs := by
  rintro ⟨text, fs', htext, hfs', -⟩
  rw [forms_of_readForms h] at htext
  cases htext
  rw [hf] at hfs'
  cases hfs'

/-- A number that is too large is read back as a symbol, and a null or a delete in a string is not
read back at all. -/
theorem not_readsBack :
    (∃ fs, readForms (numeral 308) = .ok fs ∧ ¬ ReadsBack (numeral 308) fs) ∧
      (∃ fs, readForms "\"\x00\"" = .ok fs ∧ ¬ ReadsBack "\"\x00\"" fs) ∧
      ∃ fs, readForms "\"\x7f\"" = .ok fs ∧ ¬ ReadsBack "\"\x7f\"" fs := by
  have hnull : readForms "\"\x00\"" = .ok [.datum (.text "\x00")] := by cbv
  have hdelete : readForms "\"\x7f\"" = .ok [.datum (.text "\x7f")] := by cbv
  refine ⟨⟨_, readForms_numeral 308, ?_⟩,
    ⟨_, hnull, not_readsBack_of_error (f := .scan (.invalidEscape '0' 1)) hnull (by cbv)⟩,
    ⟨_, hdelete, not_readsBack_of_error (f := .scan (.invalidEscape 'u' 1)) hdelete
      (by with_unfolding_all rfl)⟩⟩
  rintro ⟨text, fs', htext, hfs', heq⟩
  have hinf : Decimal.Layout.plain.text (Decimal.toFloat ⟨2 * 10 ^ 308, 0⟩) = "inf" := by
    decide +kernel
  have hsymbol : readForms "  inf\n" = .ok [.symbol ⟨.symbol, "inf", none, 1⟩] := by cbv
  rw [forms_of_readForms (readForms_numeral 308), List.map_singleton, formLine, Expr.print, Expr.printTo,
    Datum.source, hinf] at htext
  cases htext
  rw [show String.join ["  " ++ ("" ++ "inf") ++ "\n"] = "  inf\n" by cbv, hsymbol] at hfs'
  cases hfs'
  cases heq

end Listing

end SmallLisp
