/-
A session does what the whole text does.

A session runs a text piece by piece: it gathers lines until they are complete, runs them, and
begins again with nothing.  Whoever runs the text as a whole reads all of it first.  If that
succeeds, the session comes to the same: the same store and the same last value, up to the lines of
tokens, which are counted from the beginning of each piece.

The induction is on the text that is still to come.  Its invariant is that what has been gathered
and what is to come are together a program that runs from the store the session has, while what has
been gathered is no program by itself.  A further line either leaves the text incomplete or makes it
a program (`readForms_of_line`), and in that case what comes after it is a program on its own
(`readForms_append_line`), which runs from the new store as it would have run in its place.
-/
import SmallLisp.Proofs.Cut
import SmallLisp.Proofs.Session.Transcript

namespace SmallLisp

open Relabelling (unlined)

/-! ### Blank text

A session drops blank text without reading it.  More counts as blank than what the scanner skips, but no
token begins with any of these characters either.
-/

namespace Scan

theorem outside_of_isSpace {c : Char} (h : Text.isSpace c = true) :
    c.toNat ≤ 32 ∨ 127 ≤ c.toNat := by
  simp only [Text.isSpace, Bool.or_eq_true, Bool.and_eq_true, decide_eq_true_eq] at h
  omega

/-- No token begins with white space. -/
theorem token_of_isSpace {c : Char} (h : Text.isSpace c = true) (line : Nat) (cs : List Char) :
    token line c cs = .error (.unexpectedCharacter c line) := by
  have houtside := outside_of_isSpace h
  have hval : c.val.toNat = c.toNat := rfl
  have hne (d : Char) (hd : 32 < d.toNat ∧ d.toNat < 127) : c ≠ d := by
    rintro rfl
    omega
  have hsign : sign? c = none := by
    unfold sign?
    rw [if_neg (hne '(' (by decide)), if_neg (hne ')' (by decide)), Option.map_eq_none_iff,
      Operator.ofSign?, List.find?_eq_none]
    intro op _
    have hop : 32 < op.sign.toNat ∧ op.sign.toNat < 127 := by cases op <;> decide
    simpa using Ne.symm (hne op.sign hop)
  have hdigit : isDigit c = false := by
    rw [Bool.eq_false_iff]
    intro hdigit
    simp [isDigit, Char.isDigit, UInt32.le_iff_toNat_le] at hdigit
    omega
  have halpha : c.isAlpha = false := by
    rw [Bool.eq_false_iff]
    intro halpha
    simp [Char.isAlpha, Char.isUpper, Char.isLower, UInt32.le_iff_toNat_le] at halpha
    omega
  have hstart : isSymbolStart c = false := by
    simp [isSymbolStart, halpha, hne '_' (by decide), hne '!' (by decide), hne '?' (by decide),
      hne '$' (by decide), hne '%' (by decide), hne '&' (by decide), hne '^' (by decide),
      hne '~' (by decide)]
  rw [token, hsign]
  simp only
  rw [hdigit, hstart, if_neg (by simp), if_neg (hne '"' (by decide)), if_neg (by simp)]

theorem mem_of_skip {line start : Nat} {inComment : Bool} {c : Char} {cs following : List Char}
    (h : skip line inComment cs = (start, c :: following)) : c ∈ cs := by
  fun_induction skip line inComment cs with
  | case1 => cases h
  | case2 _ _ _ ih => exact List.mem_cons_of_mem _ (ih h)
  | case3 _ _ _ _ _ _ ih => exact List.mem_cons_of_mem _ (ih h)
  | case4 _ _ _ _ _ ih => exact List.mem_cons_of_mem _ (ih h)
  | case5 => cases h; exact List.mem_cons_self

end Scan

/-- A text of nothing but gaps and comments has no forms. -/
theorem readForms_of_skip {s : String} {last : Nat}
    (h : Scan.skip 1 false s.toList = (last, [])) : readForms s = .ok [] := by
  refine readForms_eq_ok_iff.mpr ⟨_, Scan.tokens_of_end h, ?_⟩
  rw [Parse.parse_eq_ok_iff_takeAll,
    Parse.beforeEnd_of_ended (Parse.ended_endAt _)]
  rfl

theorem readForms_empty : readForms "" = .ok [] :=
  readForms_of_skip rfl

/-- A blank text has no forms, or has white space in it that no program can have. -/
theorem readForms_of_isBlank {s : String} (h : Text.isBlank s = true) :
    readForms s = .ok [] ∨
      ∃ c line, readForms s = .error (.scan (.unexpectedCharacter c line)) := by
  rcases hskip : Scan.skip 1 false s.toList with ⟨start, _ | ⟨c, following⟩⟩
  · exact Or.inl (readForms_of_skip hskip)
  · have hc := List.all_eq_true.mp h c (Scan.mem_of_skip hskip)
    exact Or.inr ⟨_, _, readForms_of_scan_error
      (Scan.tokens_of_error hskip (Scan.token_of_isSpace hc _ _))⟩

namespace Repl

/-! ### One line

What becomes of a text, for the two cases in which it is the beginning of a program.  The third case, a text
that is refused, does not come up where the whole is a program.
-/

/-- A text that is a program is run. -/
theorem answer_of_readForms (i : Interpreter) {pending : String} {forms : List Expr}
    {s s' : Store} {v : Value} (hread : readForms pending = .ok forms)
    (hrun : i.run forms s = (.ok v, s')) :
    ∃ a, answer i pending s = (a, s') ∧ a.kept pending = "" ∧ (∀ f, a ≠ .failure f) ∧
      a.value? = if forms.isEmpty then none else some v := by
  unfold answer
  by_cases hblank : Text.isBlank pending = true
  · rw [if_pos hblank]
    have hforms : forms = [] := by
      rcases readForms_of_isBlank hblank with h | ⟨c, line, h⟩
      · rw [hread] at h
        exact Except.ok.inj h
      · rw [hread] at h
        cases h
    subst hforms
    rw [Interpreter.run_nil] at hrun
    cases hrun
    exact ⟨.blank, rfl, rfl, by simp, rfl⟩
  · rw [if_neg hblank, hread]
    simp only [hrun]
    refine ⟨.value forms v, rfl, rfl, by simp, ?_⟩
    cases forms <;> rfl

/-- A text that is incomplete is kept. -/
theorem answer_of_isIncomplete (i : Interpreter) {pending : String} {f : Failure} (s : Store)
    (hread : readForms pending = .error f) (hf : f.isIncomplete = true) :
    answer i pending s = (.more, s) := by
  unfold answer
  by_cases hblank : Text.isBlank pending = true
  · rcases readForms_of_isBlank hblank with h | ⟨c, line, h⟩
    · rw [hread] at h
      cases h
    · rw [hread] at h
      cases h
      cases hf
  · rw [if_neg hblank, hread]
    simp only
    rw [if_pos hf]

/-- The last value that has been computed from forms. -/
def lastValue (answers : List Answer) : Option Value :=
  (answers.filterMap Answer.value?).getLast?

theorem lastValue_cons (a : Answer) (answers : List Answer) :
    lastValue (a :: answers) = (lastValue answers).or a.value? := by
  unfold lastValue
  cases ha : a.value? with
  | none => rw [List.filterMap_cons_none ha, Option.or_none]
  | some v =>
      rw [List.filterMap_cons_some ha, List.getLast?_cons]
      cases (answers.filterMap Answer.value?).getLast? <;> rfl

/-! ### All lines

`ComesTo` says what has to be shown of the lines that are left, given what has been gathered before them.
One line is put in front at a time.
-/

/-- Whether a session that is fed the lines of a text shows no failure, keeps no text back, leaves
this store and computes this value last, up to lines. -/
def ComesTo (i : Interpreter) (st : State) (cs : List Char) (last : Option Value) (s₁ : Store) :
    Prop :=
  ∃ texts answers s₂,
    Text.lines (String.ofList cs).toUTF8 = texts.map String.toUTF8 ∧
      transcript i st texts = (answers, ⟨"", s₂⟩) ∧ (∀ f, .failure f ∉ answers) ∧
      unlined.store s₂ = unlined.store s₁ ∧
      (lastValue answers).map unlined.value = last.map unlined.value

theorem ComesTo.nil (i : Interpreter) (s : Store) : ComesTo i ⟨"", s⟩ [] none s :=
  ⟨[], [], s, Text.lines_nil, rfl, by simp, rfl, rfl⟩

/-- One line, and then the others. -/
theorem ComesTo.line {i : Interpreter} {st st' : State} {cs rest : List Char} {line : String}
    {a : Answer} {last last' : Option Value} {s₁ s₂ : Store}
    (hlines : Text.lines (String.ofList cs).toUTF8 =
      line.toUTF8 :: Text.lines (String.ofList rest).toUTF8)
    (htake : take i (Text.withoutBreak line) st = (a, st')) (ha : ∀ f, a ≠ .failure f)
    (h : ComesTo i st' rest last s₂) (hstore : unlined.store s₂ = unlined.store s₁)
    (hlast : (last.map unlined.value).or (a.value?.map unlined.value) =
      last'.map unlined.value) :
    ComesTo i st cs last' s₁ := by
  obtain ⟨texts, answers, s₃, htexts, htranscript, hfailure, hstore', hlast'⟩ := h
  refine ⟨line :: texts, a :: answers, s₃, ?_, ?_, ?_, hstore'.trans hstore, ?_⟩
  · rw [hlines, htexts, List.map_cons]
  · rw [transcript_cons, htake, htranscript]
  · intro f hf
    rcases List.mem_cons.mp hf with hf | hf
    · exact ha f hf.symm
    · exact hfailure f hf
  · rw [lastValue_cons, Option.map_or, hlast', hlast]

/-- The induction: what has been gathered is no program, but it is one with what is to come. -/
theorem comesTo_of_run (i : Interpreter) (cs : List Char) (hcr : ¬['\r', '\n'] <:+: cs)
    (gathered : String) (hgathered : gathered = "" ∨ ∀ forms, readForms gathered ≠ .ok forms)
    {forms : List Expr} (hread : readForms (gathered ++ String.ofList cs) = .ok forms)
    {s s₁ : Store} {v : Value} (hrun : i.run forms s = (.ok v, s₁)) :
    ComesTo i ⟨gathered, s⟩ cs (if forms.isEmpty then none else some v) s₁ := by
  induction hlength : cs.length using Nat.strongRecOn generalizing cs gathered forms s s₁ v with
  | _ n ih =>
    by_cases hne : cs = []
    · subst hne
      rw [String.ofList_nil, String.append_empty] at hread
      rcases hgathered with rfl | hgathered
      · rw [readForms_empty] at hread
        cases hread
        cases hrun
        exact .nil i s
      · exact absurd hread (hgathered forms)
    · obtain ⟨line, l, rest, hlines, hbreak, hlt, hsuffix, hcs⟩ := Text.exists_first_line hne hcr
      have hcr' : ¬['\r', '\n'] <:+: rest := fun h => hcr (h.trans hsuffix.isInfix)
      -- The last line is given a line break if it has none.
      have hall : readForms (gathered ++ String.ofList l ++ "\n" ++ String.ofList rest) =
          .ok forms := by
        rcases hcs with rfl | ⟨rfl, rfl⟩
        · have htext : gathered ++ String.ofList l ++ "\n" ++ String.ofList rest =
              gathered ++ String.ofList (l ++ '\n' :: rest) := by
            simp [← String.toList_inj]
          rw [htext, hread]
        · rw [String.ofList_nil, String.append_empty, readForms_line hread]
      rcases readForms_of_line hall with ⟨first, hfirst⟩ | ⟨f, hf, hincomplete⟩
      · -- The line completes a program: it is run, and the rest is a program of its own.
        obtain ⟨others, others', rfl, hothers', hsame⟩ := readForms_append_line hfirst hall
        obtain ⟨v', s', v'', hrun_first, hrun_others, rfl⟩ := i.run_append hrun
        obtain ⟨w, s₂, hrun', hw, hs₂⟩ := i.run_unlined hsame rfl hrun_others
        obtain ⟨a, ha, hkept, hfailure, hvalue⟩ := answer_of_readForms i hfirst hrun_first
        have hrest := ih rest.length (hlength ▸ hlt) rest hcr' "" (Or.inl rfl)
          (by rw [String.empty_append]; exact hothers') hrun' rfl
        refine hrest.line (a := a) hlines ?_ hfailure hs₂ ?_
        · rw [hbreak, take]
          simp only [ha, hkept]
        · rw [hvalue]
          cases others with
          | nil =>
              cases others' with
              | nil => simp
              | cons e' others' => cases hsame
          | cons e others =>
              cases others' with
              | nil => cases hsame
              | cons e' others' => simp [hw]
      · -- The line leaves the text incomplete: it is kept.
        have hkept := answer_of_isIncomplete i s hf hincomplete
        have hrest := ih rest.length (hlength ▸ hlt) rest hcr'
          (gathered ++ String.ofList l ++ "\n") (Or.inr (by rw [hf]; simp)) hall hrun rfl
        refine hrest.line (a := .more) hlines ?_ (by simp) rfl ?_
        · rw [hbreak, take]
          simp only [hkept]
          rfl
        · exact Option.or_none

/--
**A session agrees with the run of the whole text.**

A text without a carriage return before a line break is given to a session, and it is a program that
runs without an error.  Then the session shows no failure and keeps nothing back, it leaves the
same store up to lines, and the last value that it computes from forms is the value of the program,
which is `nil` if there are no forms.
-/
theorem run_of_runSource (i : Interpreter) (source : String)
    (hcr : ¬['\r', '\n'] <:+: source.toList) (s s₁ : Store) (v : Value)
    (h : i.runSource source s = (.ok v, s₁)) :
    ∃ forms texts answers s₂,
      readForms source = .ok forms ∧
        Text.lines source.toUTF8 = texts.map String.toUTF8 ∧
        transcript i ⟨"", s⟩ texts = (answers, ⟨"", s₂⟩) ∧
        run i source.toUTF8 s =
          (prompt ++ String.join (answers.map Answer.text) ++ "\n", .ok (), s₂) ∧
        (∀ f, .failure f ∉ answers) ∧
        unlined.store s₂ = unlined.store s₁ ∧
        (forms = [] → lastValue answers = none ∧ v = .nil) ∧
        (forms ≠ [] → ∃ w, lastValue answers = some w ∧ unlined.value w = unlined.value v) := by
  have hsource : String.ofList source.toList = source := String.ofList_toList
  unfold Interpreter.runSource at h
  cases hread : readForms source with
  | error f => rw [hread] at h; cases h
  | ok forms =>
      rw [hread] at h
      simp only at h
      rcases hrun : i.run forms s with ⟨e | v', s'⟩
      · rw [hrun] at h
        cases h
      · rw [hrun] at h
        cases h
        obtain ⟨texts, answers, s₂, htexts, htranscript, hfailure, hstore, hlast⟩ :=
          comesTo_of_run i source.toList hcr "" (Or.inl rfl)
            (by rw [String.empty_append, hsource]; exact hread) hrun
        rw [hsource] at htexts
        refine ⟨forms, texts, answers, s₂, rfl, htexts, htranscript, ?_, hfailure, hstore, ?_, ?_⟩
        · rw [run, htexts, lines_eq_transcript, htranscript]
          rfl
        · rintro rfl
          rw [Interpreter.run_nil] at hrun
          cases hrun
          exact ⟨Option.map_eq_none_iff.mp hlast, rfl⟩
        · intro hforms
          rw [if_neg (by simpa using hforms)] at hlast
          exact Option.map_eq_some_iff.mp hlast

/-- A definition on two lines and a call on a third are run as two pieces. -/
theorem run_of_runSource_define :
    let source := "(define f (x)\n  x)\n(f true)\n"
    let i : Interpreter := ⟨0, 1⟩
    let s : Store := ⟨#[⟨[], []⟩], 0⟩
    ¬['\r', '\n'] <:+: source.toList ∧ (i.runSource source s).1 = .ok (.ofBool true) ∧
      ∃ (answers : List Answer) (s₂ : Store),
        run i source.toUTF8 s =
          (prompt ++ String.join (answers.map Answer.text) ++ "\n", .ok (), s₂) ∧
        (∀ f, .failure f ∉ answers) ∧
        unlined.store s₂ = unlined.store (i.runSource source s).2 := by
  intro source i s
  have hcr : ¬['\r', '\n'] <:+: source.toList := fun h =>
    absurd (h.subset List.mem_cons_self) (by decide)
  have hvalue : (i.runSource source s).1 = .ok (.ofBool true) := by cbv
  obtain ⟨_, _, answers, s₂, -, -, -, hshown, hfailure, hstore, -⟩ :=
    run_of_runSource i source hcr s _ _ (Prod.ext hvalue rfl)
  exact ⟨hcr, hvalue, answers, s₂, hshown, hfailure, hstore⟩

end Repl

end SmallLisp
