/-
Cutting a program at the end of a line.

A program that is cut at the end of a line falls into two programs or is cut inside a form.  In the
first case its forms are those of the two parts, one after the other, where those of the second
stand on lines of their own; in the second case the first part is incomplete.  There is no third
case, so whoever takes a program line by line finds every place where it can be cut, and finds it by
asking whether what has been taken is incomplete.
-/
import SmallLisp.Proofs.Incomplete
import SmallLisp.Proofs.Relabel.Lines

namespace SmallLisp

open Relabelling (unlined)

/-- A text that is scanned on later lines is scanned on its own, up to lines. -/
theorem scan_of_tokens_later {k : Nat} {t : String} {later : List Token}
    (h : Scan.tokens (1 + k) t.toList = .ok later) :
    ∃ ts, scan t = .ok ts ∧ ts.map unlined.token = later.map unlined.token := by
  rw [Scan.tokens_later, ← scan] at h
  cases hscan : scan t with
  | error e => rw [hscan] at h; cases h
  | ok ts =>
      rw [hscan] at h
      cases h
      refine ⟨ts, rfl, ?_⟩
      rw [List.map_map]
      rfl

/-- **A program with lines behind it: they are a program too, and its forms are those of both.** -/
theorem readForms_append_line {q t : String} {forms all : List Expr}
    (hfirst : readForms (q ++ "\n") = .ok forms) (hall : readForms (q ++ "\n" ++ t) = .ok all) :
    ∃ rest rest', all = forms ++ rest ∧ readForms t = .ok rest' ∧
      unlined.exprs rest' = unlined.exprs rest := by
  obtain ⟨us, hscan, hparse⟩ := readForms_eq_ok_iff.mp hfirst
  obtain ⟨vs, hscan_all, hparse_all⟩ := readForms_eq_ok_iff.mp hall
  have hq : ∃ us, scan q = .ok us := by
    rw [scan, toList_line] at hscan
    exact Scan.exists_tokens_of_append_break hscan
  obtain ⟨us', hus'⟩ := hq
  obtain ⟨ts, k, hts, -, happend⟩ := scan_line hus'
  -- The first part is read to its end, with no form left open.
  have hline := happend ""
  rw [String.append_empty, hscan, Scan.tokens_of_end rfl] at hline
  cases hline
  obtain ⟨r, htake, hfinish⟩ := Parse.takeAll_of_parse hts hparse
  have hr : r = ⟨forms, .initial⟩ := Parse.Reading.finish_eq_ok hfinish
  -- So the forms of the second part are put behind those of the first.
  rw [happend] at hscan_all
  obtain ⟨later, hlater, rfl⟩ := exists_of_map_eq_ok hscan_all
  obtain ⟨r', htake', hrest⟩ := Parse.takeAll_of_parse hts hparse_all
  rw [htake] at htake'
  cases htake'
  rw [hr, Parse.readAll_found] at hrest
  obtain ⟨rest, hparse_later, hforms⟩ := exists_of_map_eq_ok hrest
  -- By itself the second part has the same tokens on other lines.
  obtain ⟨ts', hscan_t, hlines⟩ := scan_of_tokens_later hlater
  obtain ⟨rest', hparse_t, hrest'⟩ := parse_unlined hlines hparse_later
  exact ⟨rest, rest', hforms.symm, readForms_eq_ok_iff.mpr ⟨ts', hscan_t, hparse_t⟩, hrest'⟩

/-- A line break behind a program changes nothing. -/
theorem readForms_line {s : String} {forms : List Expr} (h : readForms s = .ok forms) :
    readForms (s ++ "\n") = .ok forms := by
  obtain ⟨us, hscan, hparse⟩ := readForms_eq_ok_iff.mp h
  obtain ⟨ts, k, hts, rfl, happend⟩ := scan_line hscan
  obtain ⟨r, htake, hfinish⟩ := Parse.takeAll_of_parse hts hparse
  have hr : r = ⟨forms, .initial⟩ := Parse.Reading.finish_eq_ok hfinish
  have hline := happend ""
  rw [String.append_empty, Scan.tokens_of_end rfl] at hline
  rw [readForms_of_scan hline,
    Parse.parse_of_takeAll hts (Parse.ended_endAt _) htake,
    hr]
  rfl

end SmallLisp
