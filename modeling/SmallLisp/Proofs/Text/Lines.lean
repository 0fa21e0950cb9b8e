/-
The lines of a text.

Lines are cut from bytes, at every byte that is a line break, and only then decoded.  In UTF-8 that
byte stands for nothing but a line break, so cutting the bytes of a text is cutting the text: its
first line is what comes before its first line break, with that line break, and the other lines are
those of what comes after.
-/
import SmallLisp.Text.Basic

namespace SmallLisp.Text

/-! ### The bytes of a text

Lines are cut in bytes, and the byte of a line break is part of no other character.  So cutting bytes is
cutting characters.
-/

/-- The bytes that spell some characters. -/
def encoded (cs : List Char) : List UInt8 :=
  cs.flatMap String.utf8EncodeChar

/-- A byte of at least 128 is not a line break. -/
theorem ofNat_ne_break {n : Nat} (h : 128 ≤ n) (h' : n < 256) : UInt8.ofNat n ≠ 10 := by
  intro heq
  have hn := congrArg UInt8.toNat heq
  rw [UInt8.toNat_ofNat_of_lt' h'] at hn
  have hbreak : (10 : UInt8).toNat = 10 := rfl
  omega

theorem break_notMem_encodeChar {c : Char} (hc : c ≠ '\n') : 10 ∉ String.utf8EncodeChar c := by
  unfold String.utf8EncodeChar
  simp only
  intro hmem
  split at hmem
  · -- A single byte is the number of its character.
    rename_i hsmall
    have hlt : c.val.toNat < UInt8.size := Nat.lt_of_le_of_lt hsmall (by decide)
    have hn := congrArg UInt8.toNat (List.mem_singleton.mp hmem)
    rw [UInt8.toNat_ofNat_of_lt' hlt] at hn
    exact hc (Char.ext (UInt32.toNat_inj.mp hn.symm))
  · split at hmem
    · simp only [List.mem_cons, List.not_mem_nil, or_false] at hmem
      rcases hmem with h | h <;> exact absurd h.symm (ofNat_ne_break (by omega) (by omega))
    · split at hmem
      · simp only [List.mem_cons, List.not_mem_nil, or_false] at hmem
        rcases hmem with h | h | h <;> exact absurd h.symm (ofNat_ne_break (by omega) (by omega))
      · simp only [List.mem_cons, List.not_mem_nil, or_false] at hmem
        rcases hmem with h | h | h | h <;>
          exact absurd h.symm (ofNat_ne_break (by omega) (by omega))

theorem break_notMem_encoded {cs : List Char} (h : '\n' ∉ cs) : 10 ∉ encoded cs := by
  intro hmem
  obtain ⟨c, hc, hbreak⟩ := List.mem_flatMap.mp hmem
  refine break_notMem_encodeChar (fun heq => ?_) hbreak
  exact h (heq ▸ hc)

theorem encoded_append (cs ds : List Char) : encoded (cs ++ ds) = encoded cs ++ encoded ds :=
  List.flatMap_append

theorem encoded_break (cs : List Char) : encoded ('\n' :: cs) = 10 :: encoded cs :=
  rfl

theorem encoded_ne_nil {cs : List Char} (h : cs ≠ []) : encoded cs ≠ [] := by
  cases cs with
  | nil => exact absurd rfl h
  | cons c cs =>
      intro hnil
      have hlength := String.length_utf8EncodeChar c
      rw [encoded, List.flatMap_cons] at hnil
      rw [(List.append_eq_nil_iff.mp hnil).1] at hlength
      have hpos := c.utf8Size_pos
      simp only [List.length_nil] at hlength
      omega

theorem toList_loop (bs : ByteArray) (i : Nat) (read : List UInt8) :
    ByteArray.toList.loop bs i read = read.reverse ++ bs.data.toList.drop i := by
  induction i, read using ByteArray.toList.loop.induct bs with
  | case1 i read h ih =>
      have hi : i < bs.data.toList.length := h
      have hget : bs.get! i = bs.data.toList[i] := getElem!_pos bs.data i h
      rw [ByteArray.toList.loop, if_pos h, ih, List.drop_eq_getElem_cons hi, hget]
      simp
  | case2 i read h =>
      have hi : bs.data.toList.length ≤ i := Nat.le_of_not_lt h
      rw [ByteArray.toList.loop, if_neg h, List.drop_eq_nil_of_le hi, List.append_nil]

theorem toUTF8_ofList (cs : List Char) : (String.ofList cs).toUTF8 = (encoded cs).toByteArray :=
  rfl

theorem toList_toUTF8 (cs : List Char) : (String.ofList cs).toUTF8.toList = encoded cs := by
  rw [ByteArray.toList, toList_loop, toUTF8_ofList, List.toList_data_toByteArray]
  rfl

/-- The bytes of a text are read as the text. -/
theorem fromUTF8?_toUTF8 (s : String) : String.fromUTF8? s.toUTF8 = some s := by
  unfold String.fromUTF8?
  exact dif_pos s.isValidUTF8

/-! ### Cutting bytes

The function that cuts keeps the bytes of the line that it is in.  These lemmas say what it comes to from
any of its states.
-/

theorem toBytes_eq (bs : List UInt8) : cutLines.toBytes bs.reverse = bs.toByteArray := by
  apply ByteArray.ext
  rw [← Array.toList_inj, List.toList_data_toByteArray]
  simp [cutLines.toBytes]

theorem cutLines_found (found : List ByteArray) (bs line : List UInt8) :
    cutLines line found bs = found.reverse ++ cutLines line [] bs := by
  induction bs generalizing line found with
  | nil => by_cases h : line.isEmpty <;> simp [cutLines, h]
  | cons b bs ih =>
      by_cases h : b = 10
      · rw [cutLines, cutLines, if_pos h, if_pos h, ih, ih [_]]
        simp
      · rw [cutLines, cutLines, if_neg h, if_neg h, ih]

theorem cutLines_append {bs : List UInt8} (h : 10 ∉ bs) (line cs : List UInt8)
    (found : List ByteArray) :
    cutLines line found (bs ++ cs) = cutLines (bs.reverse ++ line) found cs := by
  induction bs generalizing line with
  | nil => rfl
  | cons b bs ih =>
      rw [List.mem_cons, not_or] at h
      rw [List.cons_append, cutLines, if_neg (Ne.symm h.1), ih h.2]
      simp

/-! ### Cutting text

What the other modules use: a text is its first line and the lines of the rest.
-/

/-- **The first line of a text ends with its first line break.** -/
theorem lines_line {cs : List Char} (h : '\n' ∉ cs) (rest : List Char) :
    lines (String.ofList (cs ++ '\n' :: rest)).toUTF8 =
      (String.ofList (cs ++ ['\n'])).toUTF8 :: lines (String.ofList rest).toUTF8 := by
  unfold lines
  rw [toList_toUTF8, toList_toUTF8, encoded_append, encoded_break,
    cutLines_append (break_notMem_encoded h), List.append_nil, cutLines, if_pos rfl,
    cutLines_found, toUTF8_ofList, encoded_append, ← toBytes_eq, List.reverse_append]
  rfl

/-- A text without a line break is a single line, unless it is empty. -/
theorem lines_last {cs : List Char} (h : '\n' ∉ cs) (hne : cs ≠ []) :
    lines (String.ofList cs).toUTF8 = [(String.ofList cs).toUTF8] := by
  have hcut := cutLines_append (break_notMem_encoded h) [] [] []
  have hencoded : (encoded cs).reverse.isEmpty = false := by
    simpa using encoded_ne_nil hne
  unfold lines
  rw [toList_toUTF8, ← List.append_nil (encoded cs), hcut, List.append_nil, cutLines, hencoded,
    toBytes_eq, toUTF8_ofList]
  rfl

theorem lines_nil : lines (String.ofList []).toUTF8 = [] := by
  unfold lines
  rw [toList_toUTF8]
  rfl

/-- Every line break ends a line, and begins the lines of what comes after it. -/
theorem length_lines (cs rest : List Char) :
    (lines (String.ofList (cs ++ '\n' :: rest)).toUTF8).length =
      cs.count '\n' + 1 + (lines (String.ofList rest).toUTF8).length := by
  induction hn : cs.length using Nat.strongRecOn generalizing cs with
  | _ n ih =>
      by_cases hbreak : '\n' ∈ cs
      · obtain ⟨l, more, rfl, hl⟩ := List.eq_append_cons_of_mem hbreak
        have hlt : more.length < n := by simp at hn; omega
        have hcount : (l ++ '\n' :: more).count '\n' = more.count '\n' + 1 := by
          simp [List.count_eq_zero.mpr hl]
        rw [List.append_assoc, List.cons_append, lines_line hl, List.length_cons,
          ih _ hlt more rfl, hcount]
        omega
      · rw [lines_line hbreak, List.length_cons, List.count_eq_zero.mpr hbreak]
        omega

/-! ### The line break at the end of a line

A line that is read keeps its break, and is compared with a line that has none.
-/

theorem withoutBreak_last {cs : List Char} (h : '\n' ∉ cs) :
    withoutBreak (String.ofList cs) = String.ofList cs := by
  unfold withoutBreak
  split
  · rename_i heq
    rw [String.toList_ofList] at heq
    exact absurd (List.mem_reverse.mp (heq ▸ List.mem_cons_self)) h
  · rename_i heq
    rw [String.toList_ofList] at heq
    exact absurd (List.mem_reverse.mp (heq ▸ List.mem_cons_self)) h
  · rfl

/-- Only the line break is taken away if there is no carriage return before it. -/
theorem withoutBreak_line {cs : List Char} (h : cs.getLast? ≠ some '\r') :
    withoutBreak (String.ofList (cs ++ ['\n'])) = String.ofList cs := by
  unfold withoutBreak
  rw [String.toList_ofList, List.reverse_append]
  split
  · rename_i ds heq
    have hcs : cs.reverse = '\r' :: ds := List.tail_eq_of_cons_eq heq
    rw [← List.head?_reverse, hcs] at h
    exact absurd rfl h
  · rename_i ds heq
    rw [← List.tail_eq_of_cons_eq heq]
    simp
  · rename_i hbreak
    exact absurd rfl (hbreak cs.reverse)

/-- **The first line of a text and what comes after it**, where no carriage return stands before a
line break. -/
theorem exists_first_line {cs : List Char} (hne : cs ≠ []) (hcr : ¬['\r', '\n'] <:+: cs) :
    ∃ (line : String) (l rest : List Char),
      lines (String.ofList cs).toUTF8 = line.toUTF8 :: lines (String.ofList rest).toUTF8 ∧
        withoutBreak line = String.ofList l ∧ rest.length < cs.length ∧ rest <:+ cs ∧
          (cs = l ++ '\n' :: rest ∨ cs = l ∧ rest = []) := by
  by_cases hbreak : '\n' ∈ cs
  · obtain ⟨l, rest, rfl, hl⟩ := List.eq_append_cons_of_mem hbreak
    have hlast : l.getLast? ≠ some '\r' := by
      intro h
      obtain ⟨l', rfl⟩ := List.getLast?_eq_some_iff.mp h
      exact hcr ⟨l', rest, by simp⟩
    refine ⟨_, l, rest, lines_line hl rest, withoutBreak_line hlast, by simp; omega, ?_,
      Or.inl rfl⟩
    exact ⟨l ++ ['\n'], by simp⟩
  · have hpos := List.length_pos_iff.mpr hne
    refine ⟨_, cs, [], ?_, withoutBreak_last hbreak, hpos, List.nil_suffix, Or.inr ⟨rfl, rfl⟩⟩
    rw [lines_last hbreak hne, lines_nil]

end SmallLisp.Text
