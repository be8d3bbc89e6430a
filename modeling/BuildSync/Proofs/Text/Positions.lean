import BuildSync.Text.Edit

/-!
# Positions in a longer text

A text that stands behind another, and in front of a third, is cut and read at the same places as on
its own, moved by the width of what precedes it.

* `splitAt?_append`, `splitAt?_behind`: cuts in the front part of a text, and behind it.
* `slice?_within`, `stop_of_slice?`: what is between two positions.
* `newlinesBefore_width`, `newlinesBefore_within`: the number of the line of a position.
* `lineFront_first`, `lineFront_later`: what stands on the line of a position before it.
-/

namespace BuildSync.Text

/-! ## Cuts -/

/-- A cut in the front part of a text. -/
theorem splitAt?_append {n : Nat} {xs : List Char} (h : n ≤ width xs) (ys : List Char) :
    splitAt? n (xs ++ ys) = (splitAt? n xs).map fun (front, back) => (front, back ++ ys) := by
  fun_induction splitAt? n xs with
  | case1 => simp [splitAt?]
  | case2 => simp at h
  | case3 n c cs hc ih =>
    rw [List.cons_append, splitAt?, if_pos hc, ih (by simp at h; omega), Option.map_map,
      Option.map_map]
    rfl
  | case4 n c cs hc => rw [List.cons_append, splitAt?, if_neg hc]; rfl

/-- A cut behind the front part of a text. -/
theorem splitAt?_behind (xs : List Char) (n : Nat) (ys : List Char) :
    splitAt? (width xs + n) (xs ++ ys) =
      (splitAt? n ys).map fun (front, back) => (xs ++ front, back) := by
  induction xs with
  | nil => simp
  | cons c xs ih =>
    have hc := c.utf8Size_pos
    obtain ⟨m, hm⟩ : ∃ m, width (c :: xs) + n = m + 1 := ⟨width (c :: xs) + n - 1, by simp; omega⟩
    have hsub : m + 1 - c.utf8Size = width xs + n := by simp at hm; omega
    have hle : c.utf8Size ≤ m + 1 := by simp at hm; omega
    rw [hm, List.cons_append, splitAt?, if_pos hle, hsub, ih, Option.map_map]
    rfl

/-- The text between two positions is the same in a longer text. -/
theorem slice?_within (front text back : List Char) {start stop : Nat} (h : stop ≤ width text) :
    slice? (front ++ (text ++ back)) (width front + start) (width front + stop) =
      slice? text start stop := by
  unfold slice?
  by_cases hlt : stop < start
  · rw [if_pos hlt, if_pos (by omega)]
  · rw [if_neg hlt, if_neg (by omega), splitAt?_behind, splitAt?_append (by omega)]
    cases hs : splitAt? start text with
    | none => rfl
    | some cut =>
      obtain ⟨xs, ys⟩ := cut
      obtain ⟨rfl, rfl⟩ := splitAt?_eq_some hs
      have hsub : width front + stop - (width front + width xs) = stop - width xs := by omega
      rw [width_append] at h
      simp only [Option.map_some, Option.bind_some, hsub]
      rw [splitAt?_append (by omega), Option.map_map]
      rfl

theorem stop_of_slice? {cs held : List Char} {start stop : Nat}
    (h : slice? cs start stop = some held) : stop = start + width held := by
  unfold slice? at h
  split at h
  · cases h
  · obtain ⟨⟨_, rest⟩, -, h⟩ := Option.bind_eq_some_iff.1 h
    obtain ⟨⟨_, _⟩, hcut, rfl⟩ := Option.map_eq_some_iff.1 h
    have hwidth := (splitAt?_eq_some hcut).2
    dsimp only
    omega

/-! ## Lines -/

/-- The newlines before a position behind a text. -/
theorem newlinesBefore_append (xs : List Char) (n : Nat) (ys : List Char) :
    newlinesBefore (width xs + n) (xs ++ ys) = xs.count '\n' + newlinesBefore n ys := by
  induction xs with
  | nil => simp
  | cons c xs ih =>
    have hc := c.utf8Size_pos
    obtain ⟨m, hm⟩ : ∃ m, width (c :: xs) + n = m + 1 := ⟨width (c :: xs) + n - 1, by simp; omega⟩
    have hsub : m + 1 - c.utf8Size = width xs + n := by simp at hm; omega
    rw [hm, List.cons_append, newlinesBefore, hsub, ih, List.count_cons]
    simp only [beq_iff_eq]
    omega

theorem newlinesBefore_width (xs ys : List Char) :
    newlinesBefore (width xs) (xs ++ ys) = xs.count '\n' := by
  have hzero : newlinesBefore 0 ys = 0 := by cases ys <;> rfl
  simpa [hzero] using newlinesBefore_append xs 0 ys

/-- A position within a character is on the line on which the character is. -/
theorem newlinesBefore_within (xs : List Char) {c : Char} {n : Nat} (h : n < c.utf8Size)
    (ys : List Char) : newlinesBefore (width xs + n) (xs ++ c :: ys) = xs.count '\n' := by
  rw [newlinesBefore_append]
  cases n with
  | zero => rfl
  | succ n =>
    have hc : c ≠ '\n' := by
      rintro rfl
      exact absurd h (by simp [show ('\n' : Char).utf8Size = 1 from rfl])
    have hzero : newlinesBefore 0 ys = 0 := by cases ys <;> rfl
    rw [newlinesBefore, if_neg hc, Nat.sub_eq_zero_of_le (Nat.le_of_lt h), hzero]
    rfl

/-- The line of a position goes on from what is known of it. -/
theorem lineFrontFrom_append (line xs ys : List Char) (n : Nat) :
    ∃ line', lineFrontFrom line (width xs + n) (xs ++ ys) = lineFrontFrom line' n ys := by
  induction xs generalizing line with
  | nil => exact ⟨line, by simp⟩
  | cons c xs ih =>
    have hc := c.utf8Size_pos
    obtain ⟨m, hm⟩ : ∃ m, width (c :: xs) + n = m + 1 := ⟨width (c :: xs) + n - 1, by simp; omega⟩
    have hsub : m + 1 - c.utf8Size = width xs + n := by simp at hm; omega
    rw [hm, List.cons_append, lineFrontFrom, hsub]
    exact ih _

theorem lineFrontFrom_line {xs : List Char} (h : '\n' ∉ xs) (line ys : List Char) :
    lineFrontFrom line (width xs) (xs ++ ys) = line.reverse ++ xs := by
  induction xs generalizing line with
  | nil => cases ys <;> simp [lineFrontFrom]
  | cons c xs ih =>
    have hc := c.utf8Size_pos
    obtain ⟨n, hn⟩ : ∃ n, width (c :: xs) = n + 1 := ⟨width (c :: xs) - 1, by simp; omega⟩
    have hsub : n + 1 - c.utf8Size = width xs := by simp at hn; omega
    obtain ⟨hne, hxs⟩ := List.ne_and_not_mem_of_not_mem_cons h
    rw [hn, List.cons_append, lineFrontFrom, hsub, if_neg (Ne.symm hne), ih hxs]
    simp

/-- What stands on the first line before a position. -/
theorem lineFront_first {xs : List Char} (h : '\n' ∉ xs) (ys : List Char) :
    lineFront (xs ++ ys) (width xs) = xs :=
  lineFrontFrom_line h [] ys

/-- What stands on a later line before a position. -/
theorem lineFront_later (us : List Char) {vs : List Char} (h : '\n' ∉ vs) (ys : List Char) :
    lineFront (us ++ '\n' :: (vs ++ ys)) (width us + width ('\n' :: vs)) = vs := by
  obtain ⟨line, hline⟩ := lineFrontFrom_append [] us ('\n' :: (vs ++ ys)) (width ('\n' :: vs))
  have hw : width ('\n' :: vs) = width vs + 1 := by
    rw [width_cons, Nat.add_comm]
    rfl
  unfold lineFront
  rw [hline, hw, lineFrontFrom, if_pos rfl]
  exact lineFrontFrom_line h [] ys

/-- The last line of a text. -/
theorem exists_last_line (cs : List Char) :
    '\n' ∉ cs ∨ ∃ us vs, cs = us ++ '\n' :: vs ∧ '\n' ∉ vs := by
  by_cases h : '\n' ∈ cs
  · obtain ⟨as, bs, hcs, has⟩ := List.eq_append_cons_of_mem (List.mem_reverse.2 h)
    refine .inr ⟨bs.reverse, as.reverse, ?_, by simpa using has⟩
    rw [← List.reverse_reverse cs, hcs]
    simp
  · exact .inl h

end BuildSync.Text
