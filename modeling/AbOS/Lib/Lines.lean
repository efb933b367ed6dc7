import Mathlib.Data.List.Basic
import Mathlib.Data.List.GetD
import Mathlib.Data.List.Induction

/-!
# Wrapped text

A text in lines, on a screen that is `w` characters wide: each line takes rows of `w` characters,
and a last one for the rest, which may be empty.  So a line of exactly `w` characters takes two
rows.

`exists_wrapped` says what one more character does to the last row; everything that prints
character by character can be compared with it.
-/

set_option autoImplicit false

namespace Lines

universe u

variable {α : Type u}

/-- The rows of one line. -/
def wrapLine (w : ℕ) (line : List α) : List (List α) :=
  (List.range (line.length / w + 1)).map fun i ↦ (line.drop (i * w)).take w

/-- The rows of a text whose lines end at `sep`. -/
def wrapped [BEq α] (w : ℕ) (sep : α) (text : List α) : List (List α) :=
  (text.splitOn sep).flatMap (wrapLine w)

/-- The last `n` of the rows, or all of them. -/
def last (n : ℕ) (rows : List (List α)) : List (List α) := rows.drop (rows.length - n)

theorem getD_last (n : ℕ) (rows : List (List α)) (r : ℕ) :
    (last n rows).getD r [] = rows.getD (rows.length - n + r) [] := by
  rw [last, List.getD_eq_getElem?_getD, List.getElem?_drop, List.getD_eq_getElem?_getD]

theorem getD_concat (l : List α) (a d : α) (i : ℕ) :
    (l ++ [a]).getD i d = if i = l.length then a else l.getD i d := by
  split
  · rename_i hi
    rw [hi, List.getD_append_right _ _ _ _ (Nat.le_refl _), Nat.sub_self]
    rfl
  · rcases Nat.lt_or_ge i l.length with hlt | hge
    · rw [List.getD_append _ _ _ _ hlt]
    · rw [List.getD_eq_default _ _ hge, List.getD_eq_default]
      rw [List.length_append, List.length_singleton]
      omega

variable {w : ℕ}

/-- The full rows of a line stay when it gets longer. -/
theorem map_wrapRow_append {n : ℕ} {line : List α} (h : n * w ≤ line.length) (more : List α) :
    ((List.range n).map fun i ↦ ((line ++ more).drop (i * w)).take w) =
      (List.range n).map fun i ↦ (line.drop (i * w)).take w := by
  refine List.map_congr_left fun i hi ↦ ?_
  have hrow : i * w + w ≤ line.length := by
    rw [← Nat.succ_mul]
    exact Nat.le_trans (Nat.mul_le_mul_right w (List.mem_range.mp hi)) h
  rw [List.drop_append_of_le_length (by omega),
    List.take_append_of_le_length (by rw [List.length_drop]; omega)]

/-- The full rows, and the rest. -/
theorem wrapLine_eq {q : ℕ} {line : List α} (hle : q * w ≤ line.length)
    (hlt : line.length < q * w + w) : wrapLine w line =
      ((List.range q).map fun i ↦ (line.drop (i * w)).take w) ++ [line.drop (q * w)] := by
  have hdiv : line.length / w = q :=
    Nat.div_eq_of_lt_le hle (by rw [Nat.succ_mul]; exact hlt)
  rw [wrapLine, hdiv, List.range_succ, List.map_append, List.map_singleton,
    List.take_of_length_le (by rw [List.length_drop]; omega)]

/-- **One more character in a line** goes to the end of its last row, and a full row is followed by
an empty one. -/
theorem exists_wrapLine (hw : 0 < w) (line : List α) : ∃ front row,
    wrapLine w line = front ++ [row] ∧ row.length < w ∧ ∀ c, wrapLine w (line ++ [c]) =
      if row.length + 1 = w then front ++ [row ++ [c], []] else front ++ [row ++ [c]] := by
  have hrest := Nat.div_add_mod' line.length w
  have hlt := Nat.mod_lt line.length hw
  generalize line.length / w = q at hrest
  have hle : q * w ≤ line.length := by omega
  refine ⟨(List.range q).map fun i ↦ (line.drop (i * w)).take w, line.drop (q * w),
    wrapLine_eq hle (by omega), by rw [List.length_drop]; omega, fun c ↦ ?_⟩
  have hlength : (line ++ [c]).length = line.length + 1 := List.length_append
  have hlast : (line ++ [c]).drop (q * w) = line.drop (q * w) ++ [c] :=
    List.drop_append_of_le_length hle
  rw [List.length_drop]
  split
  · -- the row is full
    have hnext : (q + 1) * w = line.length + 1 := by
      rw [Nat.succ_mul]
      omega
    rw [wrapLine_eq (q := q + 1) (by omega) (by omega), List.range_succ, List.map_append,
      map_wrapRow_append hle, List.map_singleton, hlast, List.take_of_length_le, hnext, ← hlength,
      List.drop_length, List.append_assoc]
    · rfl
    · rw [List.length_append, List.length_drop, List.length_singleton]
      omega
  · rw [wrapLine_eq (q := q) (by omega) (by omega), map_wrapRow_append hle, hlast]

variable [BEq α] [LawfulBEq α] {sep : α}

/-- What is added to a text without a separator belongs to its last line. -/
theorem exists_splitOn_append (sep : α) (text : List α) : ∃ front line, ∀ more, sep ∉ more →
    (text ++ more).splitOn sep = front ++ [line ++ more] := by
  induction text using List.reverseRecOn with
  | nil => exact ⟨[], [], fun more hmore ↦ List.splitOn_eq_singleton hmore⟩
  | append_singleton text c ih =>
    by_cases hc : c = sep
    · refine ⟨text.splitOn sep, [], fun more hmore ↦ ?_⟩
      rw [List.append_assoc, hc, List.singleton_append, List.splitOn_append_cons_self,
        List.splitOn_eq_singleton hmore, List.nil_append]
    · obtain ⟨front, line, h⟩ := ih
      refine ⟨front, line ++ [c], fun more hmore ↦ ?_⟩
      rw [List.append_assoc, List.append_assoc]
      exact h _ fun hmem ↦ (List.mem_cons.mp hmem).elim (fun he ↦ hc he.symm) hmore

/-- **One more character in a text.** -/
theorem exists_wrapped (hw : 0 < w) (sep : α) (text : List α) : ∃ front row,
    wrapped w sep text = front ++ [row] ∧ row.length < w ∧
      wrapped w sep (text ++ [sep]) = front ++ [row, []] ∧
      ∀ c, c ≠ sep → wrapped w sep (text ++ [c]) =
        if row.length + 1 = w then front ++ [row ++ [c], []] else front ++ [row ++ [c]] := by
  obtain ⟨lines, line, hsplit⟩ := exists_splitOn_append sep text
  obtain ⟨front, row, hrow, hlt, hnext⟩ := exists_wrapLine hw line
  have htext := hsplit [] List.not_mem_nil
  rw [List.append_nil, List.append_nil] at htext
  have hempty : wrapLine w ([] : List α) = [[]] := by
    rw [wrapLine, List.length_nil, Nat.zero_div, Nat.zero_add, List.range_one, List.map_singleton,
      List.drop_nil, List.take_nil]
  refine ⟨lines.flatMap (wrapLine w) ++ front, row, ?_, hlt, ?_, fun c hc ↦ ?_⟩
  · rw [wrapped, htext, List.flatMap_append, List.flatMap_singleton, hrow, List.append_assoc]
  · rw [wrapped, List.splitOn_append_cons_self, htext, List.splitOn_nil, List.flatMap_append,
      List.flatMap_append, List.flatMap_singleton, List.flatMap_singleton, hrow, hempty,
      List.append_assoc, List.append_assoc, List.append_assoc, List.singleton_append]
  · rw [wrapped, hsplit [c] fun hmem ↦ hc (List.mem_singleton.mp hmem).symm, List.flatMap_append,
      List.flatMap_singleton, hnext]
    split <;> rw [List.append_assoc]

end Lines
