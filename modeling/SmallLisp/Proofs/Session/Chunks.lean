/-
A session runs every form once.

A session reads what it has gathered again after every line, and once more at the end of input.
Nothing is evaluated on the way: a text that cannot be read leaves the store and the counter of
active calls as they are, whatever it begins with.  So the lines of a session fall into chunks, of
which each is unfinished until its last line, and what remains of the session is one run of every
chunk that can be read.

The lines are cut without a look at the session (`CutInto`), and there is one way to do it.  Line by
line, the session then has in hand what the cut has not finished, and its store is that after the
programs of the chunks (`Follows`).
-/
import Mathlib.Data.List.Infix
import SmallLisp.Proofs.Eval.Nesting
import SmallLisp.Proofs.Session.Agreement
import SmallLisp.Proofs.Session.Shared

namespace SmallLisp

/-- Evaluates forms in order, up to the first that fails.  What they have done to the store stays. -/
def Interpreter.effects (i : Interpreter) (s : Store) : List Expr → Store
  | [] => s
  | e :: es =>
    match i.evaluate i.globals e s with
    | (.ok _, s) => i.effects s es
    | (.error _, s) => s

theorem Interpreter.snd_run (i : Interpreter) (forms : List Expr) (s : Store) :
    (i.run forms s).2 = i.effects s forms := by
  induction forms generalizing s with
  | nil => rfl
  | cons e es ih =>
      rw [snd_run_cons, effects]
      rcases i.evaluate i.globals e s with ⟨e | v, s'⟩
      · rfl
      · exact ih s'

namespace Repl

/-! ### Chunks of lines

What a session does is said without the session: its lines fall into chunks, and a chunk ends with the
first line after which nothing is open any more.
-/

/-- Lines as one text. -/
def gathered (lines : List String) : String :=
  String.join (lines.map (· ++ "\n"))

/-- Whether a text stops inside a string or before a form is complete. -/
def unfinished (text : String) : Bool :=
  match readForms text with
  | .ok _ => false
  | .error f => f.isIncomplete

/-- The texts that lines grow into, one for each line. -/
def growing (lines : List String) : List String :=
  lines.inits.tail.map gathered

/-- Lines that belong together: they are unfinished until the last one. -/
structure Chunk (lines : List String) : Prop where
  nonempty : lines ≠ []
  whole : unfinished (gathered lines) = false
  begun : ∀ ls, ls <+: lines → ls ≠ [] → ls ≠ lines → unfinished (gathered ls) = true

/-- Lines that fall into chunks, with some left over that stay unfinished. -/
structure CutInto (lines : List String) (chunks : List (List String)) (rest : List String) :
    Prop where
  lines_eq : lines = chunks.flatten ++ rest
  chunk : ∀ c ∈ chunks, Chunk c
  unclosed : ∀ ls, ls <+: rest → ls ≠ [] → unfinished (gathered ls) = true

/-- The programs among the chunks. -/
def programs (chunks : List (List String)) : List (List Expr) :=
  chunks.filterMap fun c => (readForms (gathered c)).toOption

theorem gathered_concat (lines : List String) (line : String) :
    gathered (lines ++ [line]) = gathered lines ++ line ++ "\n" := by
  simp [gathered, String.append_assoc]

theorem growing_concat (lines : List String) (line : String) :
    growing (lines ++ [line]) = growing lines ++ [gathered (lines ++ [line])] := by
  cases lines <;> simp [growing, List.inits_append]

theorem length_growing (lines : List String) : (growing lines).length = lines.length := by
  simp [growing]

/-! ### Cutting lines

A line is added to a chunk or ends it, so there is a way to cut any lines and there is only one.
-/

theorem CutInto.nil : CutInto [] [] [] :=
  ⟨rfl, by simp, fun ls hls hne => absurd (List.prefix_nil.mp hls) hne⟩

variable {lines rest : List String} {chunks : List (List String)}

/-- A line after which the text is still unfinished is left over with the others. -/
theorem CutInto.more (h : CutInto lines chunks rest) {line : String}
    (hline : unfinished (gathered (rest ++ [line])) = true) :
    CutInto (lines ++ [line]) chunks (rest ++ [line]) where
  lines_eq := by rw [h.lines_eq, List.append_assoc]
  chunk := h.chunk
  unclosed := by
    intro ls hls hne
    obtain rfl | hls := List.prefix_concat_iff.mp hls
    · exact hline
    · exact h.unclosed ls hls hne

/-- A line after which the text is not unfinished ends a chunk. -/
theorem CutInto.close (h : CutInto lines chunks rest) {line : String}
    (hline : unfinished (gathered (rest ++ [line])) = false) :
    CutInto (lines ++ [line]) (chunks ++ [rest ++ [line]]) [] where
  lines_eq := by simp [h.lines_eq]
  chunk := by
    intro c hc
    obtain hc | hc := List.mem_append.mp hc
    · exact h.chunk c hc
    · obtain rfl := List.mem_singleton.mp hc
      refine ⟨by simp, hline, fun ls hls hne hproper => ?_⟩
      obtain rfl | hls := List.prefix_concat_iff.mp hls
      · exact absurd rfl hproper
      · exact h.unclosed ls hls hne
  unclosed := CutInto.nil.unclosed

/-- Of two chunks that the same lines begin with, none is longer. -/
theorem Chunk.eq_of_isPrefix {c c' : List String} (hc : Chunk c) (hc' : Chunk c')
    (hle : c <+: c') : c = c' := by
  by_contra hne
  have := hc'.begun c hle hc.nonempty hne
  simp [hc.whole] at this

/-- **There is one way to cut lines into chunks.** -/
theorem CutInto.unique {chunks' : List (List String)} {rest' : List String}
    (h : CutInto lines chunks rest) (h' : CutInto lines chunks' rest') :
    chunks' = chunks ∧ rest' = rest := by
  -- A chunk is no beginning of lines that stay unfinished.
  have hbegins {c : List String} {ls more : List String} (hc : Chunk c)
      (hls : ∀ l, l <+: ls → l ≠ [] → unfinished (gathered l) = true) : ls ≠ c ++ more := by
    rintro rfl
    have := hls c (List.prefix_append c more) hc.nonempty
    simp [hc.whole] at this
  induction chunks generalizing lines chunks' with
  | nil =>
      cases chunks' with
      | nil => exact ⟨rfl, by simpa using h'.lines_eq.symm.trans h.lines_eq⟩
      | cons c' cs' =>
          have hlines := h.lines_eq.symm.trans h'.lines_eq
          rw [List.flatten_nil, List.nil_append, List.flatten_cons, List.append_assoc] at hlines
          exact absurd hlines (hbegins (h'.chunk c' List.mem_cons_self) h.unclosed)
  | cons c cs ih =>
      have hc := h.chunk c List.mem_cons_self
      have hcs : lines = c ++ (cs.flatten ++ rest) := by simpa using h.lines_eq
      cases chunks' with
      | nil =>
          have hlines := h'.lines_eq.symm.trans hcs
          exact absurd hlines (hbegins hc h'.unclosed)
      | cons c' cs' =>
          have hc' := h'.chunk c' List.mem_cons_self
          have hcs' : lines = c' ++ (cs'.flatten ++ rest') := by simpa using h'.lines_eq
          have hfirst : c' = c := by
            obtain hle | hle := List.prefix_or_prefix_of_prefix
              (hcs ▸ List.prefix_append c _) (hcs' ▸ List.prefix_append c' _)
            · exact (hc.eq_of_isPrefix hc' hle).symm
            · exact hc'.eq_of_isPrefix hc hle
          subst hfirst
          obtain ⟨rfl, rfl⟩ := ih
            ⟨rfl, fun d hd => h.chunk d (List.mem_cons_of_mem _ hd), h.unclosed⟩
            ⟨List.append_cancel_left (hcs.symm.trans hcs'),
              fun d hd => h'.chunk d (List.mem_cons_of_mem _ hd), h'.unclosed⟩
          exact ⟨rfl, rfl⟩

/-! ### What becomes of a text

A text that is tried is held back, refused, or run, and one that is run may fail in a form.  `reply` writes
down what is seen of each of these, and `after` what becomes of the store.
-/

/-- The store after a text has been tried: that after its forms, if it can be read. -/
def after (i : Interpreter) (s : Store) (text : String) : Store :=
  match readForms text with
  | .ok forms => i.effects s forms
  | .error _ => s

/-- What is reported of a text, and the prompt after that. -/
def reply (i : Interpreter) (s : Store) (text : String) : String × String :=
  if unfinished text then ("", ". ")
  else if Text.isBlank text then ("", "> ")
  else
    match (i.runSource text s).1 with
    | .ok v => (if v.isNil then "" else v.text ++ "\n", "> ")
    | .error f => (f.message ++ "\n", "> ")

/-- The replies to texts that are tried one after the other. -/
def replies (i : Interpreter) (s : Store) : List String → List (String × String)
  | [] => []
  | text :: texts => reply i s text :: replies i (after i s text) texts

/-- The texts that are run in a session that is cut this way: one for every line, unless it is
blank, and what is left over once more. -/
def tried (chunks : List (List String)) (rest : List String) : List String :=
  ((chunks ++ [rest]).flatMap growing).filter (!Text.isBlank ·) ++
    if rest.isEmpty then [] else [gathered rest]

theorem runSource_eq (i : Interpreter) (text : String) (s : Store) :
    (i.runSource text s).2 = after i s text := by
  unfold Interpreter.runSource after
  cases readForms text with
  | error f => rfl
  | ok forms =>
      simp only
      rw [← i.snd_run]
      rcases i.run forms s with ⟨e | v, s'⟩ <;> rfl

theorem unfinished_eq_true_iff {text : String} :
    unfinished text = true ↔ ∃ f, readForms text = .error f ∧ f.isIncomplete = true := by
  unfold unfinished
  cases readForms text <;> simp

theorem after_of_unfinished (i : Interpreter) (s : Store) {text : String}
    (h : unfinished text = true) : after i s text = s := by
  obtain ⟨f, hf, -⟩ := unfinished_eq_true_iff.mp h
  rw [after, hf]

theorem after_of_isBlank (i : Interpreter) (s : Store) {text : String}
    (h : Text.isBlank text = true) : after i s text = s := by
  obtain hread | ⟨c, line, hread⟩ := readForms_of_isBlank h
  · simp only [after, hread, Interpreter.effects]
  · simp only [after, hread]

/-- The programs of one more chunk. -/
theorem foldl_programs_concat (i : Interpreter) (s : Store) (chunks : List (List String))
    (c : List String) :
    (programs (chunks ++ [c])).foldl i.effects s =
      after i ((programs chunks).foldl i.effects s) (gathered c) := by
  unfold programs after
  rw [List.filterMap_append, List.foldl_append]
  cases hread : readForms (gathered c) <;> simp [hread, Except.toOption]

theorem isBlank_of_unfinished {text : String} (h : unfinished text = true) :
    Text.isBlank text = false := by
  obtain ⟨f, hf, hincomplete⟩ := unfinished_eq_true_iff.mp h
  rw [Bool.eq_false_iff]
  intro hblank
  obtain hread | ⟨c, line, hread⟩ := readForms_of_isBlank hblank
  · rw [hf] at hread
    cases hread
  · rw [hf] at hread
    cases hread
    cases hincomplete

/-- How a text is answered. -/
theorem answer_spec (i : Interpreter) (text : String) (s : Store) :
    (answer i text s).2 = after i s text ∧
      (answer i text s).1.text = (reply i s text).1 ++ (reply i s text).2 ∧
      (answer i text s).1.kept text = if unfinished text then text else "" := by
  unfold reply
  by_cases hunfinished : unfinished text = true
  · obtain ⟨f, hf, hincomplete⟩ := unfinished_eq_true_iff.mp hunfinished
    rw [answer_of_isIncomplete i s hf hincomplete, after_of_unfinished i s hunfinished,
      if_pos hunfinished, if_pos hunfinished]
    exact ⟨rfl, (String.empty_append).symm, rfl⟩
  · rw [if_neg hunfinished, if_neg hunfinished, ← runSource_eq]
    unfold answer
    by_cases hblank : Text.isBlank text = true
    · rw [if_pos hblank, if_pos hblank, runSource_eq, after_of_isBlank i s hblank]
      exact ⟨rfl, (String.empty_append).symm, rfl⟩
    · rw [if_neg hblank, if_neg hblank]
      unfold unfinished at hunfinished
      unfold Interpreter.runSource
      cases hread : readForms text with
      | error f =>
          rw [hread] at hunfinished
          simp only at hunfinished ⊢
          rw [if_neg hunfinished]
          exact ⟨trivial, rfl, rfl⟩
      | ok forms =>
          simp only
          rcases i.run forms s with ⟨e | v, s'⟩ <;> exact ⟨rfl, rfl, rfl⟩

/-! ### Line by line

The induction is on the lines and it is from the right: `Follows` says where a session stands after some
lines, and a step adds the next one.
-/

theorem replies_append (i : Interpreter) (s : Store) (texts more : List String) :
    replies i s (texts ++ more) =
      replies i s texts ++ replies i (texts.foldl (after i) s) more := by
  induction texts generalizing s with
  | nil => rfl
  | cons text texts ih => simp [replies, ih]

theorem transcript_concat (i : Interpreter) (st : State) (texts : List String) (text : String) :
    transcript i st (texts ++ [text]) =
      ((transcript i st texts).1 ++
          [(take i (Text.withoutBreak text) (transcript i st texts).2).1],
        (take i (Text.withoutBreak text) (transcript i st texts).2).2) := by
  induction texts generalizing st with
  | nil => rfl
  | cons first texts ih => simp only [List.cons_append, transcript_cons, ih]

/-- Where a session stands after lines that are cut this way. -/
structure Follows (i : Interpreter) (s : Store) (texts : List String)
    (chunks : List (List String)) (rest : List String) : Prop where
  cut : CutInto (texts.map Text.withoutBreak) chunks rest
  /-- It has in hand what is left over, and the store is that after the texts it has tried. -/
  state : (transcript i ⟨"", s⟩ texts).2 =
    ⟨gathered rest, ((chunks ++ [rest]).flatMap growing).foldl (after i) s⟩
  /-- What these have done is what the programs among them do. -/
  store : ((chunks ++ [rest]).flatMap growing).foldl (after i) s =
    (programs chunks).foldl i.effects s
  /-- Every line has been answered with the reply to the text that was in hand then. -/
  shown : (transcript i ⟨"", s⟩ texts).1.map Answer.text =
    (replies i s ((chunks ++ [rest]).flatMap growing)).map fun r => r.1 ++ r.2

variable {i : Interpreter} {s : Store} {texts : List String}

theorem Follows.begin (i : Interpreter) (s : Store) : Follows i s [] [] [] :=
  ⟨.nil, rfl, rfl, rfl⟩

/-- One more line. -/
theorem Follows.step (h : Follows i s texts chunks rest) (text : String) :
    ∃ chunks rest, Follows i s (texts ++ [text]) chunks rest := by
  obtain ⟨hcut, hstate, hprograms, hshown⟩ := h
  have htext : gathered rest ++ Text.withoutBreak text ++ "\n" =
      gathered (rest ++ [Text.withoutBreak text]) := (gathered_concat ..).symm
  generalize hline : Text.withoutBreak text = line at htext
  -- The texts that have been tried, with the one that is in hand now.
  have htried : (chunks ++ [rest ++ [line]]).flatMap growing =
      (chunks ++ [rest]).flatMap growing ++ [gathered (rest ++ [line])] := by
    simp [growing_concat]
  obtain ⟨hstore, hanswer, hkept⟩ := answer_spec i (gathered (rest ++ [line]))
    (((chunks ++ [rest]).flatMap growing).foldl (after i) s)
  have htake : take i line (transcript i ⟨"", s⟩ texts).2 =
      ((answer i (gathered (rest ++ [line]))
          (((chunks ++ [rest]).flatMap growing).foldl (after i) s)).1,
        ⟨if unfinished (gathered (rest ++ [line])) then gathered (rest ++ [line]) else "",
          ((chunks ++ [rest ++ [line]]).flatMap growing).foldl (after i) s⟩) := by
    rw [hstate, take]
    simp only [htext]
    rw [hkept, hstore, htried, List.foldl_concat]
  have hshown' : (transcript i ⟨"", s⟩ (texts ++ [text])).1.map Answer.text =
      (replies i s ((chunks ++ [rest ++ [line]]).flatMap growing)).map fun r => r.1 ++ r.2 := by
    rw [transcript_concat, hline, htake, htried, replies_append]
    simp only [List.map_append, List.map_cons, List.map_nil, hshown, hanswer, replies]
  have hlines : (texts ++ [text]).map Text.withoutBreak =
      texts.map Text.withoutBreak ++ [line] := by
    rw [List.map_append, List.map_singleton, hline]
  by_cases hunfinished : unfinished (gathered (rest ++ [line])) = true
  · refine ⟨chunks, rest ++ [line], hlines ▸ hcut.more hunfinished, ?_, ?_, hshown'⟩
    · rw [transcript_concat, hline, htake, if_pos hunfinished]
    · rw [htried, List.foldl_concat, after_of_unfinished i _ hunfinished, hprograms]
  · have hfinished : unfinished (gathered (rest ++ [line])) = false := by simpa using hunfinished
    have hnothing : (chunks ++ [rest ++ [line]] ++ [[]]).flatMap growing =
        (chunks ++ [rest ++ [line]]).flatMap growing := by
      simp [growing]
    refine ⟨chunks ++ [rest ++ [line]], [], hlines ▸ hcut.close hfinished, ?_, ?_, ?_⟩
    · rw [transcript_concat, hline, htake, if_neg hunfinished, hnothing]
      rfl
    · rw [hnothing, htried, List.foldl_concat, hprograms, foldl_programs_concat]
    · rw [hnothing, hshown']

theorem exists_follows (i : Interpreter) (s : Store) (texts : List String) :
    ∃ chunks rest, Follows i s texts chunks rest := by
  induction texts using List.reverseRecOn with
  | nil => exact ⟨[], [], .begin i s⟩
  | append_singleton texts text ih =>
      obtain ⟨chunks, rest, h⟩ := ih
      exact h.step text

/-! ### The whole session

At the end of input what is left over is tried once more, as a text that will not go on.  It cannot
succeed, so an error is reported, and the store stays as it was.
-/

/-- Blank texts may be left out where texts are tried one after the other. -/
theorem foldl_after_filter (i : Interpreter) (s : Store) (texts : List String) :
    (texts.filter (!Text.isBlank ·)).foldl (after i) s = texts.foldl (after i) s := by
  rw [List.foldl_filter]
  congr 1
  funext s text
  cases hblank : Text.isBlank text with
  | true => simp [after_of_isBlank i s hblank]
  | false => simp

theorem snd_runSources (i : Interpreter) (texts : List String) (s : Store) :
    (i.runSources texts s).2 = texts.foldl (after i) s := by
  induction texts generalizing s with
  | nil => rfl
  | cons text texts ih =>
      rw [List.foldl_cons, ← ih, ← runSource_eq]
      rfl

theorem CutInto.unfinished_rest (h : CutInto lines chunks rest) (hrest : rest ≠ []) :
    unfinished (gathered rest) = true :=
  h.unclosed rest (List.prefix_refl rest) hrest

/-- The texts that are run in a session change the store as the programs among them do. -/
theorem Follows.tried (h : Follows i s texts chunks rest) :
    (i.runSources (tried chunks rest) s).2 = (programs chunks).foldl i.effects s := by
  rw [snd_runSources, Repl.tried, List.foldl_append, foldl_after_filter, h.store]
  cases hrest : rest with
  | nil => rfl
  | cons line lines =>
      rw [← hrest, if_neg (by simp [hrest]), List.foldl_cons, List.foldl_nil,
        after_of_unfinished i _ (h.cut.unfinished_rest (by simp [hrest]))]

theorem exists_message_scan (e : ScanError) :
    ∃ (n : Nat) (problem : String), e.message = "[line " ++ toString n ++ "] Error" ++ problem := by
  have hmark : "] Error: " = "] Error" ++ ": " := by rfl
  unfold ScanError.message
  rw [hmark]
  exact ⟨e.line, _, by rw [← String.append_assoc, String.append_assoc]⟩

theorem exists_message_parse (e : ParseError) :
    ∃ (n : Nat) (problem : String), e.message = "[line " ++ toString n ++ "] Error" ++ problem := by
  have hmark : "] Error " = "] Error" ++ " " := by rfl
  refine ⟨e.token.line, " " ++ e.token.place ++ ": " ++ e.detail, ?_⟩
  rw [ParseError.message, Token.report, hmark]
  simp only [← String.append_assoc]

/-- What stops too early is reported as an error, on some line. -/
theorem message_of_isIncomplete {f : Failure} (h : f.isIncomplete = true) :
    ∃ (n : Nat) (problem : String), f.message = "[line " ++ toString n ++ "] Error" ++ problem := by
  cases f with
  | scan e => exact exists_message_scan e
  | parse e => exact exists_message_parse e
  | read | eval | output => cases h

/-- How a session ends. -/
theorem Follows.finish (h : Follows i s texts chunks rest) :
    ∃ ending, finish i (transcript i ⟨"", s⟩ texts).2 =
        (ending, ⟨"", (programs chunks).foldl i.effects s⟩) ∧
      (rest = [] → ending = "\n") ∧
      (rest ≠ [] → ∃ f, readForms (gathered rest) = .error f ∧ f.isIncomplete = true ∧
        ending = f.message ++ "\n\n") := by
  rw [h.state, Repl.finish, h.store]
  by_cases hrest : rest = []
  · subst hrest
    exact ⟨_, rfl, fun _ => rfl, fun hne => absurd rfl hne⟩
  · have hunfinished := h.cut.unfinished_rest hrest
    obtain ⟨f, hf, hincomplete⟩ := unfinished_eq_true_iff.mp hunfinished
    have hreport : showFailure f ++ "\n" = f.message ++ "\n\n" := by
      rw [showFailure, String.append_assoc]
      rfl
    rw [if_neg (by simp [isBlank_of_unfinished hunfinished]), Interpreter.runSource, hf]
    exact ⟨_, rfl, fun he => absurd he hrest, fun _ => ⟨f, rfl, hincomplete, hreport⟩⟩

/-- A text that cannot be read changes neither the counter of active calls nor the store. -/
theorem eq_of_runsSource {limit calls calls' : Nat} {globals : ScopeId} {text : String}
    {f : Failure} {s s' : Store} {r : Except Failure Value} (hread : readForms text = .error f)
    (h : Eval.RunsSource limit globals calls text s r calls' s') :
    r = .error f ∧ calls' = calls ∧ s' = s := by
  cases h with
  | unread h =>
      obtain rfl := Except.error.inj (hread.symm.trans h)
      exact ⟨rfl, rfl, rfl⟩
  | ran h _ =>
      rw [hread] at h
      cases h

/--
**A session runs every form once.**

There is one way to cut the lines into chunks.  The store in the end is that after the programs among
the chunks, each of them run once, in order, up to its first error.  Every line is answered once,
according to the text that is in hand then: with the continuation prompt if it is unfinished, and
with a report and the prompt otherwise.  Lines that are left over are reported as an error.

All this goes for the counter of active calls as well: the texts that are run leave it at zero, and
one that cannot be read leaves it where it was, and the store too.
-/
theorem runs_each_form_once (i : Interpreter) {input : ByteArray} {texts : List String}
    (htexts : Text.lines input = texts.map String.toUTF8) (s : Store) :
    ∃ chunks rest ending,
      (∀ cs r, CutInto (texts.map Text.withoutBreak) cs r ↔ cs = chunks ∧ r = rest) ∧
      run i input s =
        ("> " ++ String.join
            ((replies i s ((chunks ++ [rest]).flatMap growing)).map fun r => r.1 ++ r.2) ++ ending,
          .ok (), (programs chunks).foldl i.effects s) ∧
      ((chunks ++ [rest]).flatMap growing).length = texts.length ∧
      (rest = [] → ending = "\n") ∧
      (rest ≠ [] → ∃ f, readForms (gathered rest) = .error f ∧ f.isIncomplete = true ∧
        ending = f.message ++ "\n\n" ∧
        ∃ (n : Nat) (problem : String),
          f.message = "[line " ++ toString n ++ "] Error" ++ problem) ∧
      (∃ rs, ∀ rs' counters s',
        Eval.RunsAll i.maxCalls i.globals (fun _ : Unit => 0) s
            ((tried chunks rest).map fun text => ((), text)) rs' counters s' ↔
          rs' = rs ∧ (counters = fun _ => 0) ∧ s' = (programs chunks).foldl i.effects s) ∧
      ∀ text f, readForms text = .error f → ∀ calls t r calls' t',
        Eval.RunsSource i.maxCalls i.globals calls text t r calls' t' →
          r = .error f ∧ calls' = calls ∧ t' = t := by
  obtain ⟨chunks, rest, hfollows⟩ := exists_follows i s texts
  obtain ⟨ending, hfinish, hdone, hleft⟩ := hfollows.finish
  refine ⟨chunks, rest, ending, fun cs r => ⟨hfollows.cut.unique, ?_⟩, ?_, ?_, hdone,
    fun hrest => ?_, ?_, fun text f hread calls t r calls' t' => eq_of_runsSource hread⟩
  · rintro ⟨rfl, rfl⟩
    exact hfollows.cut
  · rw [run, htexts, lines_eq_transcript, hfollows.shown, hfinish]
    rfl
  · rw [List.length_flatMap, ← List.length_map Text.withoutBreak, hfollows.cut.lines_eq]
    simp [length_growing, List.length_flatten]
  · obtain ⟨f, hread, hincomplete, hending⟩ := hleft hrest
    exact ⟨f, hread, hincomplete, hending, message_of_isIncomplete hincomplete⟩
  · refine ⟨(i.runSources (tried chunks rest) s).1, fun rs' counters s' => ?_⟩
    have hsources : ((tried chunks rest).map fun text => ((), text)).map Prod.snd =
        tried chunks rest := by
      simp
    rw [Eval.runsAll_iff i, hsources, ← hfollows.tried, Prod.ext_iff]
    constructor
    · rintro ⟨hcounters, hrs, hs'⟩
      exact ⟨hrs.symm, hcounters, hs'.symm⟩
    · rintro ⟨hrs, hcounters, hs'⟩
      exact ⟨hcounters, hrs.symm, hs'.symm⟩

/-- A syntax error behind a definition, another definition on two lines, and a call that is left
open, of which the last answer is the report. -/
theorem runs_each_form_once_left_over :
    let i : Interpreter := ⟨0, 1⟩
    let s : Store := ⟨#[⟨[], []⟩], 0⟩
    let texts := ["(define g () nil) )\n", "(define f ()\n", "  true)\n", "(f\n"]
    let input := (String.join texts).toUTF8
    let chunks := [["(define g () nil) )"], ["(define f ()", "  true)"]]
    let answers := replies i s ((chunks ++ [["(f"]]).flatMap growing)
    Text.lines input = texts.map String.toUTF8 ∧
      CutInto (texts.map Text.withoutBreak) chunks ["(f"] ∧
      programs chunks = [[.define ⟨.symbol, "f", none, 1⟩ [] (.datum (.bool true))]] ∧
      run i input s =
        ("> " ++ String.join (answers.map fun r => r.1 ++ r.2) ++
            "[line 2] Error at end: expect ')' after expression\n\n",
          .ok (), (programs chunks).foldl i.effects s) := by
  intro i s texts input chunks answers
  have htexts : Text.lines input = texts.map String.toUTF8 := by cbv
  have hcut : CutInto (texts.map Text.withoutBreak) chunks ["(f"] :=
    (((CutInto.nil.close (by cbv)).more (by cbv)).close (by cbv)).more (by cbv)
  have hopen : readForms (gathered ["(f"]) =
      .error (.parse ⟨.endAt 2, "expect ')' after expression"⟩) := by cbv
  obtain ⟨chunks', rest, ending, hunique, hrun, -, -, hleft, -⟩ := runs_each_form_once i htexts s
  obtain ⟨rfl, rfl⟩ := (hunique _ _).mp hcut
  obtain ⟨f, hread, -, hending, -⟩ := hleft (List.cons_ne_nil _ _)
  obtain rfl := Except.error.inj (hopen.symm.trans hread)
  have hreport : ending = "[line 2] Error at end: expect ')' after expression\n\n" := by
    rw [hending]
    rfl
  rw [hreport] at hrun
  exact ⟨htexts, hcut, by cbv, hrun⟩

end Repl

end SmallLisp
