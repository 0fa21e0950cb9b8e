/-
How far the parser goes.

A host can ask a parser for expressions one at a time or for the rest of the program, in any order,
and go on after a failure from where that left the cursor.  Wherever it gets to in this way, the
cursor has gone over a beginning of the tokens, and over no token that marks the end of input
(`Within`): every call goes over a row of tokens that is in place behind the last one (`Passes`).
An expression that has been read is spelled by that row, so it has taken a token at least.

What stands from the first end of input on is looked at but never read.  Two rows of tokens that are
the same before it lead to the same expressions, the same places and the same complaints, but for
the token that marks the end (`SameButEnd`).
-/
import SmallLisp.Proofs.Parse.Earliest

namespace SmallLisp.Parse

/-! ### What one call goes over

A call takes a row of tokens in front of the cursor and stops at the end of input.  If it succeeds the row
spells what it has read; if it fails the row is what it has given up.
-/

theorem endless_nil : Endless [] :=
  fun _ ht => absurd ht List.not_mem_nil

theorem endless_singleton {t : Token} (ht : t.kind ≠ .endOfInput) : Endless [t] := by
  simpa [Endless] using ht

/-- The reader goes forward, and not over the end of input. -/
theorem exists_passes_run (s : State) (before after : List Token) :
    ∃ ts, Passes ⟨before, after⟩ ts (run s before after).2 ∧ Endless ts := by
  induction after generalizing s before with
  | nil => exact ⟨[], .refl _, endless_nil⟩
  | cons t after ih =>
      unfold run
      by_cases ht : t.kind = .endOfInput
      · rw [if_pos ht]
        exact ⟨[], .refl _, endless_nil⟩
      · rw [if_neg ht]
        cases step t s with
        | more s' =>
            obtain ⟨ts, hpasses, hts⟩ := ih s' (t :: before)
            exact ⟨t :: ts, hpasses.cons, List.forall_mem_cons.mpr ⟨ht, hts⟩⟩
        | done e => exact ⟨[t], (Passes.refl _).cons, endless_singleton ht⟩
        | refuse detail => exact ⟨[], .refl _, endless_nil⟩
        | hollow => exact ⟨[t], (Passes.refl _).cons, endless_singleton ht⟩

/-- The tokens that the cursor goes over are those that make up the expression. -/
theorem takeAll_of_run {s : State} {before after : List Token} {e : Expr} {c : Cursor}
    (h : run s before after = (.ok e, c)) :
    ∃ ts, Passes ⟨before, after⟩ ts c ∧
      Reading.takeAll ⟨[], s⟩ ts = .ok ⟨[e], .initial⟩ := by
  induction after generalizing s before with
  | nil => cases h
  | cons t after ih =>
      unfold run at h
      by_cases ht : t.kind = .endOfInput
      · rw [if_pos ht] at h
        cases h
      · rw [if_neg ht] at h
        cases hstep : step t s with
        | more s' =>
            rw [hstep] at h
            obtain ⟨ts, hpasses, hread⟩ := ih h
            have htake : Reading.take ⟨[], s⟩ t = .ok ⟨[], s'⟩ := by rw [Reading.take, hstep]; rfl
            exact ⟨t :: ts, hpasses.cons, (Reading.takeAll_cons_ok htake ts).trans hread⟩
        | done e' =>
            rw [hstep] at h
            cases h
            have htake : Reading.take ⟨[], s⟩ t = .ok ⟨[e], .initial⟩ := by
              rw [Reading.take, hstep]; rfl
            exact ⟨[t], (Passes.refl _).cons, Reading.takeAll_cons_ok htake []⟩
        | refuse detail => rw [hstep] at h; cases h
        | hollow => rw [hstep] at h; cases h

theorem ne_nil_of_spells {e : Expr} {ts : List Token} (h : Spells e ts) : ts ≠ [] := by
  cases h <;> simp

/-- **An expression that has been read is spelled by the tokens that the cursor has gone over.** -/
theorem exists_spells_of_expression {c c' : Cursor} {e : Expr}
    (h : expression c = (.ok e, c')) : ∃ ts, Passes c ts c' ∧ Spells e ts := by
  obtain ⟨ts, hpasses, hread⟩ := takeAll_of_run h
  cases spellsAll_of_takeAll hread with
  | @cons _ _ ts us he hes =>
      cases hes
      rw [List.append_nil] at hpasses
      exact ⟨ts, hpasses, he⟩

theorem exists_passes_expression (c : Cursor) :
    ∃ ts, Passes c ts (expression c).2 ∧ Endless ts :=
  exists_passes_run ⟨none, []⟩ c.before c.after

theorem exists_passes_program (c : Cursor) : ∃ ts, Passes c ts (program c).2 ∧ Endless ts := by
  fun_induction program c with
  | case1 c hend => exact ⟨[], .refl c, endless_nil⟩
  | case2 c hend e next h =>
      have hfirst := exists_passes_expression c
      rwa [h] at hfirst
  | case3 c hend e next h hlt es last hrec ih =>
      obtain ⟨ts, hpasses, hts⟩ := exists_passes_expression c
      obtain ⟨us, hpasses', hus⟩ := ih
      rw [h] at hpasses
      rw [hrec] at hpasses'
      refine ⟨ts ++ us, hpasses.trans hpasses', fun t ht => ?_⟩
      obtain ht | ht := List.mem_append.mp ht
      · exact hts t ht
      · exact hus t ht

/-! ### Any sequence of calls

The cursor stays among the tokens up to the end of input, whatever is asked and however it turns out.  One
step is `exists_passes_leave`; the sequence is a fold over it.
-/

/-- What a host asks of a parser: the next expression, or the rest of the program. -/
inductive Call where
  | expression
  | program

/-- Where a call leaves the cursor, whether it fails or not. -/
def Call.leave : Call → Cursor → Cursor
  | expression, c => (Parse.expression c).2
  | program, c => (Parse.program c).2

/-- Where the cursor is after some calls. -/
def reach (ts : List Token) (calls : List Call) : Cursor :=
  calls.foldl (fun c call => call.leave c) (.ofList ts)

theorem exists_passes_leave (call : Call) (c : Cursor) :
    ∃ ts, Passes c ts (call.leave c) ∧ Endless ts := by
  cases call with
  | expression => exact exists_passes_expression c
  | program => exact exists_passes_program c

/-- Whether a cursor stands among some tokens, and not behind their end. -/
structure Within (ts : List Token) (c : Cursor) : Prop where
  tokens_eq : ts = c.before.reverse ++ c.after
  endless : Endless c.before

theorem Within.passes {ts us : List Token} {c c' : Cursor} (h : Within ts c)
    (hpasses : Passes c us c') (hus : Endless us) : Within ts c' where
  tokens_eq := by
    rw [h.tokens_eq, hpasses.after_eq, hpasses.before_eq]
    simp
  endless := by
    intro t ht
    rw [hpasses.before_eq] at ht
    obtain ht | ht := List.mem_append.mp ht
    · exact hus t (List.mem_reverse.mp ht)
    · exact h.endless t ht

theorem within_foldl {ts : List Token} {c : Cursor} (h : Within ts c) (calls : List Call) :
    Within ts (calls.foldl (fun c call => call.leave c) c) := by
  induction calls generalizing c with
  | nil => exact h
  | cons call calls ih =>
      obtain ⟨us, hpasses, hus⟩ := exists_passes_leave call c
      exact ih (h.passes hpasses hus)

/-- **No sequence of calls leads behind the end of input.** -/
theorem within_reach (ts : List Token) (calls : List Call) : Within ts (reach ts calls) :=
  have hstart : Within ts (.ofList ts) := ⟨rfl, endless_nil⟩
  within_foldl hstart calls

/-- The place of a cursor is at most that of the first end of input. -/
theorem Within.length_before_le {ts : List Token} {c : Cursor} (h : Within ts c) :
    c.before.length ≤ ts.findIdx fun t => t.kind = .endOfInput := by
  have hbefore : c.before.reverse.findIdx (fun t => t.kind = .endOfInput) = c.before.length := by
    rw [List.findIdx_eq_length_of_false, List.length_reverse]
    intro t ht
    simpa using h.endless t (List.mem_reverse.mp ht)
  rw [h.tokens_eq, List.findIdx_append, hbefore, List.length_reverse,
    if_neg (Nat.lt_irrefl _)]
  exact Nat.le_add_left _ _

theorem Within.endToken_eq {ts : List Token} {c : Cursor} (h : Within ts c) :
    endToken c.after = endToken ts := by
  have hbefore : Endless c.before.reverse := fun t ht => h.endless t (List.mem_reverse.mp ht)
  rw [h.tokens_eq, endToken_append hbefore]

/-! ### What stands behind the end of input

Two rows of tokens with the same beginning up to the end are read alike.  What stands behind shows only in
the token at which an error at the end points.
-/

/-- Whether two outcomes are the same, but for the token that marks the end where they complain
about it. -/
inductive SameButEnd {α : Type} (t t' : Token) :
    Except ParseError α → Except ParseError α → Prop where
  | ok (a : α) : SameButEnd t t' (.ok a) (.ok a)
  | inside {e : ParseError} (h : e.token.kind ≠ .endOfInput) :
      SameButEnd t t' (.error e) (.error e)
  | atEnd (detail : String) : SameButEnd t t' (.error ⟨t, detail⟩) (.error ⟨t', detail⟩)

theorem SameButEnd.map {α β : Type} {t t' : Token} {x x' : Except ParseError α} (f : α → β)
    (h : SameButEnd t t' x x') : SameButEnd t t' (x.map f) (x'.map f) := by
  cases h with
  | ok a => exact .ok (f a)
  | inside h => exact .inside h
  | atEnd detail => exact .atEnd detail

/-- Whether two cursors stand at the same place, with the same tokens up to the end of input. -/
structure SamePlace (c c' : Cursor) : Prop where
  before_eq : c.before = c'.before
  beforeEnd_eq : beforeEnd c.after = beforeEnd c'.after

theorem beforeEnd_cons {t : Token} (ht : t.kind ≠ .endOfInput) (ts : List Token) :
    beforeEnd (t :: ts) = t :: beforeEnd ts :=
  beforeEnd_append (endless_singleton ht) ts

theorem endToken_cons {t : Token} (ht : t.kind ≠ .endOfInput) (ts : List Token) :
    endToken (t :: ts) = endToken ts :=
  endToken_append (endless_singleton ht) ts

theorem ended_of_beforeEnd {ts : List Token} (h : beforeEnd ts = []) : Ended ts := by
  cases ts with
  | nil => exact ended_nil
  | cons t ts =>
      rintro _ ⟨⟩
      by_contra ht
      rw [beforeEnd_cons ht] at h
      cases h

theorem exists_of_beforeEnd {us ts : List Token} {t : Token} (h : beforeEnd us = t :: ts) :
    t.kind ≠ .endOfInput ∧ ∃ rest, us = t :: rest ∧ beforeEnd rest = ts := by
  cases us with
  | nil => cases h
  | cons u rest =>
      by_cases hu : u.kind = .endOfInput
      · have hended : Ended (u :: rest) := by simpa [Ended] using hu
        rw [beforeEnd_of_ended hended] at h
        cases h
      · rw [beforeEnd_cons hu] at h
        cases h
        exact ⟨hu, rest, rfl, rfl⟩

/-- At the end the reader complains about the token that marks it. -/
theorem run_of_ended {ts : List Token} (h : Ended ts) (s : State) (before : List Token) :
    run s before ts = (.error ⟨endToken ts, s.missing⟩, ⟨before, ts⟩) := by
  cases ts with
  | nil => rfl
  | cons t ts =>
      have ht : t.kind = .endOfInput := h t rfl
      rw [run, if_pos ht, endToken, List.dropWhile_cons_of_neg (by simp [ht])]
      rfl

theorem Passes.endToken_eq {c c' : Cursor} {ts : List Token} (h : Passes c ts c')
    (hts : Endless ts) : endToken c'.after = endToken c.after := by
  rw [h.after_eq, endToken_append hts]

/-- What the reader comes to depends on the tokens before the end only. -/
theorem same_run (s : State) (before : List Token) {after after' : List Token}
    (h : beforeEnd after = beforeEnd after') :
    SameButEnd (endToken after) (endToken after') (run s before after).1 (run s before after').1 ∧
      SamePlace (run s before after).2 (run s before after').2 := by
  induction hts : beforeEnd after generalizing s before after after' with
  | nil =>
      rw [run_of_ended (ended_of_beforeEnd hts), run_of_ended (ended_of_beforeEnd (h ▸ hts))]
      exact ⟨.atEnd _, rfl, h⟩
  | cons t ts ih =>
      obtain ⟨ht, rest, rfl, hrest⟩ := exists_of_beforeEnd hts
      obtain ⟨-, rest', rfl, hrest'⟩ := exists_of_beforeEnd (h ▸ hts)
      have hsame : beforeEnd rest = beforeEnd rest' := hrest.trans hrest'.symm
      rw [run, run, if_neg ht, if_neg ht, endToken_cons ht, endToken_cons ht]
      cases step t s with
      | more s' => exact ih s' (t :: before) hsame hrest
      | done e => exact ⟨.ok e, rfl, hsame⟩
      | refuse detail => exact ⟨.inside ht, rfl, h⟩
      | hollow => exact ⟨.inside ht, rfl, hsame⟩

theorem same_expression {c c' : Cursor} (h : SamePlace c c') :
    SameButEnd (endToken c.after) (endToken c'.after) (expression c).1 (expression c').1 ∧
      SamePlace (expression c).2 (expression c').2 := by
  unfold expression
  rw [← h.before_eq]
  exact same_run _ _ h.beforeEnd_eq

/-! ### One expression after the other

Reading a program is reading expressions until the end or an error.  The equations of this loop are stated,
so that what holds of one call can be carried through it.
-/

theorem program_end {c : Cursor} (h : c.atEnd = true) : program c = (.ok [], c) := by
  rw [program, if_pos h]

theorem program_error {c next : Cursor} {e : ParseError} (hend : c.atEnd = false)
    (h : expression c = (.error e, next)) : program c = (.error e, next) := by
  rw [program, if_neg (by simp [hend])]
  split <;> simp_all

theorem program_ok {c next : Cursor} {e : Expr} (hend : c.atEnd = false)
    (h : expression c = (.ok e, next)) :
    program c = ((program next).1.map (e :: ·), (program next).2) := by
  rw [program, if_neg (by simp [hend])]
  split <;> simp_all

theorem atEnd_eq (c : Cursor) : c.atEnd = (beforeEnd c.after).isEmpty := by
  obtain ⟨before, _ | ⟨t, after⟩⟩ := c
  · rfl
  · by_cases ht : t.kind = .endOfInput <;> simp [Cursor.atEnd, Cursor.peek, beforeEnd, ht]

theorem SamePlace.atEnd_eq {c c' : Cursor} (h : SamePlace c c') : c'.atEnd = c.atEnd := by
  rw [Parse.atEnd_eq, Parse.atEnd_eq, h.beforeEnd_eq]

theorem same_program {c c' : Cursor} (h : SamePlace c c') :
    SameButEnd (endToken c.after) (endToken c'.after) (program c).1 (program c').1 ∧
      SamePlace (program c).2 (program c').2 := by
  fun_induction program c generalizing c' with
  | case1 c hend =>
      rw [program_end (h.atEnd_eq.trans hend)]
      exact ⟨.ok [], h⟩
  | case2 c hend e next hfirst =>
      have hend' : c'.atEnd = false := h.atEnd_eq.trans (by simpa using hend)
      obtain ⟨hout, hplace⟩ := same_expression h
      rcases hfirst' : expression c' with ⟨e' | e', next'⟩
      · rw [hfirst, hfirst'] at hout hplace
        rw [program_error hend' hfirst']
        exact ⟨hout.map fun e => [e], hplace⟩
      · rw [hfirst, hfirst'] at hout
        cases hout
  | case3 c hend e next hfirst hlt es last hrec ih =>
      have hend' : c'.atEnd = false := h.atEnd_eq.trans (by simpa using hend)
      obtain ⟨hout, hplace⟩ := same_expression h
      obtain ⟨ts, hpasses, hts⟩ := exists_passes_expression c
      obtain ⟨ts', hpasses', hts'⟩ := exists_passes_expression c'
      rcases hfirst' : expression c' with ⟨e' | e', next'⟩
      · rw [hfirst, hfirst'] at hout
        cases hout
      · rw [hfirst] at hout hplace hpasses
        rw [hfirst'] at hout hplace hpasses'
        cases hout
        obtain ⟨hrest, hlast⟩ := ih hplace
        rw [hpasses.endToken_eq hts, hpasses'.endToken_eq hts', hrec] at hrest
        rw [hrec] at hlast
        rw [program_ok hend' hfirst']
        exact ⟨hrest.map (e :: ·), hlast⟩

theorem samePlace_reach {ts us : List Token} (h : beforeEnd us = beforeEnd ts)
    (calls : List Call) : SamePlace (reach ts calls) (reach us calls) := by
  have hfold {c c' : Cursor} (hplace : SamePlace c c') :
      SamePlace (calls.foldl (fun c call => call.leave c) c)
        (calls.foldl (fun c call => call.leave c) c') := by
    induction calls generalizing c c' with
    | nil => exact hplace
    | cons call calls ih =>
        cases call with
        | expression => exact ih (same_expression hplace).2
        | program => exact ih (same_program hplace).2
  exact hfold ⟨rfl, h.symm⟩

end SmallLisp.Parse
