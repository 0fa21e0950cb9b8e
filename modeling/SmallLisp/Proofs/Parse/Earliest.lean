/-
Where the parser stops.

The parser goes on as long as what it has read can still become a program, and no further.  So the
place where it stops says where the mistake is: what stands before it is the beginning of some
program, and with the token behind it no longer is.

Both halves come from the state in which the reader stops.  Every state has a completion, so what
has been read is the beginning of a program.  A token that a state refuses is refused whatever
follows it, and the end of input is followed by nothing, so neither is part of any continuation.
What has to be shown besides is that the cursor stands where the reader stops (`Stops`), since a
complaint about a token does not say which of several equal tokens it is about.

A number or a string without a value is in place and yet cannot be read.  Such tokens come from no
text, and are left out here.
-/
import SmallLisp.Proofs.Parse.Completion
import SmallLisp.Proofs.Parse.Solid

namespace SmallLisp.Parse

/-- Tokens that mark no end of input, and have values if they are numbers or strings. -/
def Proper (ts : List Token) : Prop :=
  ∀ t ∈ ts, t.kind ≠ .endOfInput ∧ t.Solid

/-- Whether a row of tokens is the beginning of a program. -/
def Viable (ts : List Token) : Prop :=
  ∃ us forms, parse (ts ++ us) = .ok forms

theorem Proper.endless {ts : List Token} (h : Proper ts) : Endless ts :=
  fun t ht => (h t ht).1

theorem Proper.left {ts us : List Token} (h : Proper (ts ++ us)) : Proper ts :=
  fun t ht => h t (List.mem_append_left us ht)

theorem Proper.right {ts us : List Token} (h : Proper (ts ++ us)) : Proper us :=
  fun t ht => h t (List.mem_append_right ts ht)

theorem proper_filler (line : Nat) (ws : List Filler) : Proper (ws.map (Filler.token line)) := by
  intro t ht
  obtain ⟨w, -, rfl⟩ := List.mem_map.mp ht
  cases w <;> exact ⟨nofun, nofun, nofun⟩

/-! ### The cursor goes with the reader

The reader is a fold over tokens and has no place.  `Passes` and `Stops` give it one: how far the cursor has
gone, and that it stands at the token which is complained about.
-/

/-- Whether a cursor has gone over a row of tokens, from one place to another. -/
structure Passes (c : Cursor) (ts : List Token) (c' : Cursor) : Prop where
  before_eq : c'.before = ts.reverse ++ c.before
  after_eq : c.after = ts ++ c'.after

theorem Passes.refl (c : Cursor) : Passes c [] c :=
  ⟨rfl, rfl⟩

theorem Passes.trans {c c' c'' : Cursor} {ts us : List Token} (h : Passes c ts c')
    (h' : Passes c' us c'') : Passes c (ts ++ us) c'' where
  before_eq := by
    rw [h'.before_eq, h.before_eq, List.reverse_append, List.append_assoc]
  after_eq := by
    rw [h.after_eq, h'.after_eq, List.append_assoc]

/-- The cursor has gone over one token more. -/
theorem Passes.cons {before after : List Token} {t : Token} {ts : List Token} {c : Cursor}
    (h : Passes ⟨t :: before, after⟩ ts c) : Passes ⟨before, t :: after⟩ (t :: ts) c := by
  have hfirst : Passes ⟨before, t :: after⟩ [t] ⟨t :: before, after⟩ := ⟨rfl, rfl⟩
  exact hfirst.trans h

/-- Whether a reader that stands at a cursor can go no further, and complains: the token there is
out of place, or it is the end of input where an expression is open. -/
structure Stops (r : Reading) (c : Cursor) (e : ParseError) : Prop where
  token_eq : e.token = c.peek
  refused : c.peek.kind ≠ .endOfInput → r.take c.peek = .error e.detail
  unfinished : c.peek.kind = .endOfInput → r.current ≠ .initial

/-- One expression: the cursor goes over the tokens that the reader takes, and stops with it. -/
theorem passes_run {s : State} {before after : List Token} (hafter : Proper after)
    (hs : s ≠ .initial ∨ (Cursor.mk before after).atEnd = false) (found : List Expr) :
    match run s before after with
    | (.ok e, c) => ∃ ts, Passes ⟨before, after⟩ ts c ∧
        Reading.takeAll ⟨found, s⟩ ts = .ok ⟨found ++ [e], .initial⟩
    | (.error e, c) => ∃ ts r, Passes ⟨before, after⟩ ts c ∧
        Reading.takeAll ⟨found, s⟩ ts = .ok r ∧ Stops r c e := by
  induction after generalizing s before with
  | nil =>
      refine ⟨[], ⟨found, s⟩, .refl _, rfl, rfl, fun hend => absurd rfl hend, fun _ => ?_⟩
      obtain hs | hs := hs
      · exact hs
      · simp [Cursor.atEnd, Cursor.peek, Cursor.standIn, Token.endAt] at hs
  | cons t after ih =>
      obtain ⟨ht, hsolid⟩ := hafter t List.mem_cons_self
      have hrest : Proper after := fun u hu => hafter u (List.mem_cons_of_mem t hu)
      unfold run
      rw [if_neg ht]
      have hsure := sure_step hsolid s
      cases hstep : step t s with
      | more s' =>
          have htake : Reading.take ⟨found, s⟩ t = .ok ⟨found, s'⟩ := by
            rw [Reading.take, hstep]; rfl
          have hs' : s' ≠ .initial ∨ (Cursor.mk (t :: before) after).atEnd = false :=
            .inl (step_ne_initial hstep)
          have hnext := ih hrest hs'
          simp only
          revert hnext
          rcases run s' (t :: before) after with ⟨e | e, c⟩
          · rintro ⟨ts, r, hpasses, hread, hstops⟩
            exact ⟨t :: ts, r, hpasses.cons, by rw [Reading.takeAll_cons_ok htake, hread], hstops⟩
          · rintro ⟨ts, hpasses, hread⟩
            exact ⟨t :: ts, hpasses.cons, by rw [Reading.takeAll_cons_ok htake, hread]⟩
      | done e =>
          have htake : Reading.take ⟨found, s⟩ t = .ok ⟨found ++ [e], .initial⟩ := by
            rw [Reading.take, hstep]; rfl
          exact ⟨[t], (Passes.refl _).cons, Reading.takeAll_cons_ok htake []⟩
      | refuse detail =>
          refine ⟨[], ⟨found, s⟩, .refl _, rfl, rfl, fun _ => ?_, fun hend => absurd hend ht⟩
          show Reading.take ⟨found, s⟩ t = .error detail
          rw [Reading.take, hstep]
          rfl
      | hollow =>
          rw [hstep] at hsure
          exact hsure.elim

/-- A whole program: the cursor stops where the reader stops. -/
theorem passes_program {c c' : Cursor} {e : ParseError} (hafter : Proper c.after)
    (h : program c = (.error e, c')) (found : List Expr) :
    ∃ ts r, Passes c ts c' ∧ Reading.takeAll ⟨found, .initial⟩ ts = .ok r ∧ Stops r c' e := by
  fun_induction program c generalizing found with
  | case1 => cases h
  | case2 c hend e' next hrun =>
      cases h
      have hpasses := passes_run (s := ⟨none, []⟩) hafter (.inr (by simpa using hend)) found
      rw [show run ⟨none, []⟩ c.before c.after = (.error e, c') from hrun] at hpasses
      exact hpasses
  | case3 c hend e' next hrun _ es last hrec ih =>
      have hpasses := passes_run (s := ⟨none, []⟩) hafter (.inr (by simpa using hend)) found
      rw [show run ⟨none, []⟩ c.before c.after = (.ok e', next) from hrun] at hpasses
      obtain ⟨ts, hpasses, hread⟩ := hpasses
      obtain ⟨rfl, rfl⟩ : es = .error e ∧ last = c' := by
        cases es <;> cases h
        exact ⟨rfl, rfl⟩
      have hnext : Proper next.after := (hpasses.after_eq ▸ hafter).right
      obtain ⟨us, r, hpasses', hread', hstops⟩ := ih hnext hrec (found ++ [e'])
      refine ⟨ts ++ us, r, hpasses.trans hpasses', ?_, hstops⟩
      exact (Reading.takeAll_append_ok hread us).trans hread'

/-! ### What stands before and behind it

The two halves.  The completion of the state is a continuation for what stands before; with the token that
is refused there is none, as the fold stops there whatever comes after.
-/

/-- What has been read has a continuation that is a program. -/
theorem viable_of_takeAll {ts : List Token} {r : Reading} (hts : Endless ts)
    (h : Reading.takeAll .initial ts = .ok r) :
    ∃ us, Proper us ∧ ∃ forms, parse (ts ++ us) = .ok forms := by
  obtain ⟨found, hfound⟩ := takeAll_completion 0 r
  have hproper := proper_filler 0 r.current.completion
  refine ⟨r.current.completion.map (Filler.token 0), hproper, found, ?_⟩
  have hendless : Endless (ts ++ r.current.completion.map (Filler.token 0)) := by
    intro t ht
    obtain ht | ht := List.mem_append.mp ht
    · exact hts t ht
    · exact hproper.endless t ht
  have hall := (Reading.takeAll_append_ok h _).trans hfound
  rw [← List.append_nil (ts ++ _), parse_of_takeAll hendless ended_nil hall]
  rfl

/-- Where the reader stops, no continuation of the token there is a program. -/
theorem Stops.hopeless {ts : List Token} {r : Reading} {c : Cursor} {e : ParseError}
    (hts : Endless ts) (hread : Reading.takeAll .initial ts = .ok r) (h : Stops r c e)
    (us : List Token) (forms : List Expr) : parse (ts ++ e.token :: us) ≠ .ok forms := by
  intro hparse
  rw [h.token_eq] at hparse
  by_cases hend : c.peek.kind = .endOfInput
  · have hended : Ended (c.peek :: us) := by simpa [Ended] using hend
    rw [parse_of_takeAll hts hended hread] at hparse
    exact h.unfinished hend (by rw [Reading.finish_eq_ok hparse])
  · obtain ⟨r', hread', hrest⟩ := takeAll_of_parse hts hparse
    obtain rfl := Except.ok.inj (hread.symm.trans hread')
    rw [readAll_cons r hend, h.refused hend] at hrest
    cases hrest

/-! ### The place of a mistake

The halves are put together for a program.  If it is the end of input that is complained about, the place is
behind all of the tokens.
-/

/-- What is known of the place where a program is refused. -/
structure RefusedAt (ts : List Token) (e : ParseError) (c : Cursor) : Prop where
  /-- The cursor stands among the tokens, and what it stands before is what is complained about. -/
  tokens_eq : ts = c.before.reverse ++ c.after
  token_eq : e.token = c.peek
  /-- What stands before the cursor is the beginning of a program. -/
  viable : ∃ us, Proper us ∧ ∃ forms, parse (c.before.reverse ++ us) = .ok forms
  /-- With the token that is complained about it is the beginning of none. -/
  hopeless : ¬ Viable (c.before.reverse ++ [e.token])

theorem refusedAt_of_program {ts : List Token} (hts : Proper ts) {e : ParseError} {c : Cursor}
    (h : program (.ofList ts) = (.error e, c)) : RefusedAt ts e c := by
  obtain ⟨us, r, hpasses, hread, hstops⟩ := passes_program hts h []
  have hafter : ts = us ++ c.after := hpasses.after_eq
  have hbefore : c.before.reverse = us := by
    rw [hpasses.before_eq]
    simp [Cursor.ofList]
  have hus : Endless us := (hafter ▸ hts).left.endless
  refine ⟨by rw [hbefore]; exact hafter, hstops.token_eq, ?_, ?_⟩
  · rw [hbefore]
    exact viable_of_takeAll hus hread
  · rintro ⟨rest, forms, hparse⟩
    rw [hbefore, List.append_assoc] at hparse
    exact hstops.hopeless hus hread rest forms hparse

/-- Only at the end of a row of tokens is the end of input complained about. -/
theorem RefusedAt.after_eq_nil {ts : List Token} {e : ParseError} {c : Cursor} (hts : Proper ts)
    (h : RefusedAt ts e c) (he : e.token = Cursor.standIn) : c.after = [] := by
  have hafter : Proper c.after := (h.tokens_eq ▸ hts).right
  cases hnext : c.after with
  | nil => rfl
  | cons t rest =>
      have ht : t = Cursor.standIn := by rw [← he, h.token_eq, Cursor.peek, hnext]; rfl
      have hkind := (hafter t (by simp [hnext])).1
      rw [ht] at hkind
      exact absurd rfl hkind

/-- **A mistake is reported at the first token that makes it one.**  What stands before the cursor
of a program that is refused is the beginning of some program, and together with the token there it
is the beginning of none.  The end of input is complained about just when all that there is is the
beginning of a program, and is no program. -/
theorem refused_at_once {ts : List Token} (h : Proper ts) :
    (∀ e, parse ts = .error e → ∃ c, program (.ofList ts) = (.error e, c) ∧ RefusedAt ts e c) ∧
      ((∃ detail, parse ts = .error ⟨Cursor.standIn, detail⟩) ↔
        Viable ts ∧ ∀ forms, parse ts ≠ .ok forms) := by
  have hplace : ∀ e, parse ts = .error e →
      ∃ c, program (.ofList ts) = (.error e, c) ∧ RefusedAt ts e c := by
    intro e he
    have hprogram : program (.ofList ts) = (.error e, (program (.ofList ts)).2) := by
      rw [← he]; rfl
    exact ⟨_, hprogram, refusedAt_of_program h hprogram⟩
  refine ⟨hplace, ?_, ?_⟩
  · rintro ⟨detail, herror⟩
    obtain ⟨c, -, hat⟩ := hplace _ herror
    obtain ⟨us, -, forms, hparse⟩ := hat.viable
    have hts := hat.tokens_eq
    rw [hat.after_eq_nil h rfl, List.append_nil] at hts
    refine ⟨⟨us, forms, hts ▸ hparse⟩, fun forms hok => ?_⟩
    rw [herror] at hok
    cases hok
  · rintro ⟨⟨us, forms, hparse⟩, hno⟩
    cases herror : parse ts with
    | ok forms => exact absurd herror (hno forms)
    | error e =>
        obtain ⟨c, -, hat⟩ := hplace e herror
        have htoken := hat.token_eq
        cases hafter : c.after with
        | nil =>
            rw [Cursor.peek, hafter] at htoken
            exact ⟨e.detail, by rw [← show e.token = Cursor.standIn from htoken]⟩
        | cons t rest =>
            -- With the token that is complained about, `ts ++ us` would have no continuation.
            rw [Cursor.peek, hafter] at htoken
            refine absurd ⟨rest ++ us, forms, ?_⟩ hat.hopeless
            rw [hat.tokens_eq, hafter] at hparse
            rw [show e.token = t from htoken]
            simpa using hparse

/-- `(define (f x` is refused at its last token, as the parameters have no parenthesis, and
`(define (` at the end of input. -/
theorem refused_at_once_signature :
    let l : Token := ⟨.leftParen, "(", none, 1⟩
    let word : Token := ⟨.keyword .define, "define", none, 1⟩
    let f : Token := ⟨.symbol, "f", none, 1⟩
    let x : Token := ⟨.symbol, "x", none, 2⟩
    let e : ParseError := ⟨x, "expect '(' before parameter list"⟩
    Proper [l, word, l, f, x] ∧ parse [l, word, l, f, x] = .error e ∧
      (∃ c, program (.ofList [l, word, l, f, x]) = (.error e, c) ∧
        RefusedAt [l, word, l, f, x] e c) ∧
      Proper [l, word, l] ∧ Viable [l, word, l] ∧ ∀ forms, parse [l, word, l] ≠ .ok forms := by
  intro l word f x e
  have hproper : Proper [l, word, l, f, x] := by
    intro t ht
    simp only [List.mem_cons, List.not_mem_nil, or_false] at ht
    rcases ht with rfl | rfl | rfl | rfl | rfl <;> exact ⟨by simp, by simp, by simp⟩
  have hshort : Proper [l, word, l] :=
    have hsplit : Proper ([l, word, l] ++ [f, x]) := hproper
    hsplit.left
  have hrefused : parse [l, word, l, f, x] = .error e := by rw [parse_eq_readAll]; rfl
  have hends : parse [l, word, l] = .error ⟨Cursor.standIn, "expect function name"⟩ := by
    rw [parse_eq_readAll]; rfl
  exact ⟨hproper, hrefused, (refused_at_once hproper).1 e hrefused, hshort,
    (refused_at_once hshort).2.mp ⟨_, hends⟩⟩

end SmallLisp.Parse
