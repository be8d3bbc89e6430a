import Mathlib.Data.List.TakeWhile
import BuildSync.Text.Blank
import BuildSync.Text.Cut
import BuildSync.Proofs.Text.Splicing

/-!
# Lines of a text

* `trimStart_append`, `trimEndOf_append_of_all`, `exists_trim`, …: blanks at the ends of a text.
* `append_inj_width`: a text is cut at a byte in one way only.
* `IsNewline`: a newline at a byte; `IsNewline.mem`, `exists_isNewline`: where the newlines of a
  part of a text are.
* `BehindLine`: what can follow a line; `exists_line`, `line_inj`: the first line of a text;
  `line_induction`.
* `splice?_line`: edits that go across no end of a line.
-/

namespace BuildSync.Text

/-! ## Blanks -/

theorem trimStart_eq_nil {cs : List Char} : trimStart cs = [] ↔ ∀ c ∈ cs, isBlank c = true :=
  List.dropWhile_eq_nil_iff

theorem trimStart_append {xs : List Char} (h : trimStart xs ≠ []) (ys : List Char) :
    trimStart (xs ++ ys) = trimStart xs ++ ys := by
  unfold trimStart at h ⊢
  rw [List.dropWhile_append, if_neg (by simpa using h)]

theorem trimStart_append_of_eq_nil {xs : List Char} (h : trimStart xs = []) (ys : List Char) :
    trimStart (xs ++ ys) = trimStart ys := by
  unfold trimStart at h ⊢
  rw [List.dropWhile_append, if_pos (by simpa using h)]

theorem trimStart_cons_of_not {c : Char} (h : isBlank c = false) (cs : List Char) :
    trimStart (c :: cs) = c :: cs := by
  simp [trimStart, h]

theorem trimEndOf_append_of_all {p : Char → Bool} (xs : List Char) {ys : List Char}
    (h : ∀ c ∈ ys, p c = true) : trimEndOf p (xs ++ ys) = trimEndOf p xs := by
  unfold trimEndOf
  have hys : ys.reverse.dropWhile p = [] :=
    List.dropWhile_eq_nil_iff.2 fun c hc => h c (List.mem_reverse.1 hc)
  rw [List.reverse_append, List.dropWhile_append, hys, if_pos (by rfl)]

theorem trimEndOf_eq_self {p : Char → Bool} {cs : List Char}
    (h : ∀ c, cs.getLast? = some c → p c = false) : trimEndOf p cs = cs := by
  rcases List.eq_nil_or_concat cs with rfl | ⟨xs, c, rfl⟩
  · rfl
  · simp [trimEndOf, h c (by simp)]

/-- What is cut off at the end of a text is of the class. -/
theorem exists_trimEndOf (p : Char → Bool) (cs : List Char) :
    ∃ ends, cs = trimEndOf p cs ++ ends ∧ ∀ c ∈ ends, p c = true := by
  refine ⟨(cs.reverse.takeWhile p).reverse, ?_, fun c hc => ?_⟩
  · rw [trimEndOf, ← List.reverse_append, List.takeWhile_append_dropWhile, List.reverse_reverse]
  · exact List.mem_takeWhile_imp (List.mem_reverse.1 hc)

theorem trimEnd_append {ys : List Char} (h : trimEnd ys ≠ []) (xs : List Char) :
    trimEnd (xs ++ ys) = xs ++ trimEnd ys := by
  unfold trimEnd trimEndOf at *
  rw [List.reverse_append, List.dropWhile_append, if_neg (by simpa using h), List.reverse_append,
    List.reverse_reverse]

/-- What is cut off at the front of a text are blanks. -/
theorem exists_trimStart (cs : List Char) :
    ∃ lead, cs = lead ++ trimStart cs ∧ ∀ c ∈ lead, isBlank c = true :=
  ⟨cs.takeWhile isBlank, List.takeWhile_append_dropWhile.symm,
    fun _ hc => List.mem_takeWhile_imp hc⟩

/-- A text is what is left of it between blanks. -/
theorem exists_trim (cs : List Char) :
    ∃ lead ends, cs = lead ++ (trim cs ++ ends) ∧ (∀ c ∈ lead, isBlank c = true) ∧
      ∀ c ∈ ends, isBlank c = true := by
  obtain ⟨lead, hfront, hlead⟩ := exists_trimStart cs
  obtain ⟨ends, hback, hends⟩ := exists_trimEndOf isBlank (trimStart cs)
  refine ⟨lead, ends, ?_, hlead, hends⟩
  calc
    cs = lead ++ trimStart cs := hfront
    _ = lead ++ (trim cs ++ ends) := congrArg _ hback

theorem isBlank_of_trim {c : Char} {cs rest : List Char} (h : trim cs = c :: rest) :
    isBlank c = false := by
  obtain ⟨ends, hends⟩ := trimEndOf_isPrefix isBlank (trimStart cs)
  have hstart : trimStart cs = c :: (rest ++ ends) := by
    rw [← hends, ← List.cons_append, ← h]
    rfl
  have hnot := List.head?_dropWhile_not isBlank cs
  rw [← trimStart, hstart] at hnot
  simpa using hnot

theorem trim_eq_nil {cs : List Char} : trim cs = [] ↔ ∀ c ∈ cs, isBlank c = true := by
  constructor
  · intro h
    obtain ⟨lead, ends, hcs, hlead, hends⟩ := exists_trim cs
    rw [hcs, h, List.nil_append]
    exact List.forall_mem_append.2 ⟨hlead, hends⟩
  · intro h
    rw [trim, trimStart_eq_nil.2 h]
    rfl

theorem startsWith_iff {cs start : List Char} :
    startsWith cs start = true ↔ ∃ rest, cs = start ++ rest := by
  rw [startsWith, Option.isSome_iff_exists]
  simp only [strip?_eq_some_iff]

theorem endsWith_iff {cs final : List Char} : endsWith cs final = true ↔ final <:+ cs := by
  rw [endsWith, stripEnd?, Option.isSome_map, Option.isSome_iff_exists, ← List.reverse_prefix]
  simp only [strip?_eq_some_iff]
  exact exists_congr fun _ => eq_comm

/-! ## Cuts -/

theorem append_inj_width {xs ys us vs : List Char} (h : xs ++ ys = us ++ vs)
    (hw : width xs = width us) : xs = us ∧ ys = vs := by
  obtain ⟨zs, rfl, rfl⟩ := exists_between h (Nat.le_of_eq hw)
  rw [width_append] at hw
  cases zs with
  | nil => simp
  | cons c zs =>
    have := c.utf8Size_pos
    rw [width_cons] at hw
    omega

/-! ## Newlines -/

/-- A newline stands at the byte `p`. -/
def IsNewline (cs : List Char) (p : Nat) : Prop :=
  ∃ xs ys, cs = xs ++ '\n' :: ys ∧ p = width xs

theorem IsNewline.mem {xs ys zs : List Char} {p : Nat} (h : IsNewline (xs ++ (ys ++ zs)) p)
    (hle : width xs ≤ p) (hlt : p < width xs + width ys) : '\n' ∈ ys := by
  obtain ⟨us, vs, htext, rfl⟩ := h
  obtain ⟨front, rfl, hrest⟩ := exists_between htext hle
  rw [width_append] at hlt
  obtain ⟨back, rfl, hback⟩ := exists_between hrest.symm (by omega)
  cases back with
  | nil => simp at hlt
  | cons c back => simp_all

theorem exists_isNewline {ys : List Char} (h : '\n' ∈ ys) (xs zs : List Char) :
    ∃ p, IsNewline (xs ++ (ys ++ zs)) p ∧ width xs ≤ p ∧ p < width xs + width ys := by
  obtain ⟨us, vs, rfl⟩ := List.append_of_mem h
  refine ⟨width (xs ++ us), ⟨xs ++ us, vs ++ zs, by simp, rfl⟩, by simp, ?_⟩
  have := ('\n' : Char).utf8Size_pos
  simp only [width_append, width_cons]
  omega

/-- What can follow a line: nothing, or a newline. -/
def BehindLine (vs : List Char) : Prop :=
  vs = [] ∨ ∃ ts, vs = '\n' :: ts

theorem takeWhile_line {line vs : List Char} (h : '\n' ∉ line) (hv : BehindLine vs) :
    (line ++ vs).takeWhile (· ≠ '\n') = line := by
  have hline : ∀ c ∈ line, decide (c ≠ '\n') = true := fun c hc =>
    decide_eq_true fun hn => h (hn ▸ hc)
  rw [List.takeWhile_append_of_pos hline]
  obtain rfl | ⟨ts, rfl⟩ := hv <;> simp

theorem line_inj {line line' vs vs' : List Char} (h : '\n' ∉ line) (hv : BehindLine vs)
    (h' : '\n' ∉ line') (hv' : BehindLine vs') (heq : line ++ vs = line' ++ vs') :
    line = line' ∧ vs = vs' := by
  have hline : line = line' := by
    rw [← takeWhile_line h hv, heq, takeWhile_line h' hv']
  subst hline
  exact ⟨rfl, List.append_cancel_left heq⟩

theorem exists_line (cs : List Char) :
    ∃ line vs, cs = line ++ vs ∧ '\n' ∉ line ∧ BehindLine vs := by
  refine ⟨cs.takeWhile (· ≠ '\n'), cs.dropWhile (· ≠ '\n'), ?_, fun h => ?_, ?_⟩
  · exact List.takeWhile_append_dropWhile.symm
  · simpa using List.mem_takeWhile_imp h
  · cases hd : cs.dropWhile (· ≠ '\n') with
    | nil => exact .inl rfl
    | cons c vs =>
      have hnot := List.head?_dropWhile_not (· ≠ '\n') cs
      rw [hd] at hnot
      exact .inr ⟨vs, by simpa using hnot⟩

/-- A text is read line by line, down to the last one. -/
theorem line_induction {motive : List Char → Prop} (last : ∀ line, '\n' ∉ line → motive line)
    (first : ∀ line rest, '\n' ∉ line → motive rest → motive (line ++ '\n' :: rest))
    (cs : List Char) : motive cs := by
  induction hlength : cs.length using Nat.strong_induction_on generalizing cs with
  | h n ih =>
    obtain ⟨line, vs, rfl, hline, rfl | ⟨rest, rfl⟩⟩ := exists_line cs
    · rw [List.append_nil]
      exact last line hline
    · refine first line rest hline (ih rest.length ?_ rest rfl)
      rw [← hlength, List.length_append, List.length_cons]
      omega

/-- **A line that no edit goes across is spliced on its own**, and what follows goes on to follow
it. -/
theorem splice?_line {pos : Nat} {line vs out : List Char} {es : List Edit}
    (h : splice? pos (line ++ vs) es = some out) (hvs : BehindLine vs)
    (hes : ∀ e ∈ es, e.stop ≤ pos + width line ∨ pos + width line < e.start) :
    ∃ es₁ es₂ line' vs', es = es₁ ++ es₂ ∧ out = line' ++ vs' ∧ splice? pos line es₁ = some line' ∧
      splice? (pos + width line) vs es₂ = some vs' ∧ BehindLine vs' ∧
      (∀ e ∈ es₁, e.stop ≤ pos + width line) ∧ ∀ e ∈ es₂, pos + width line < e.start := by
  obtain ⟨es₁, es₂, rfl, h₁, h₂⟩ := (Fits.of_splice? h).1.exists_sides hes
  obtain ⟨line', vs', hline, hback, rfl⟩ := splice?_cut h h₁ fun e he => Nat.le_of_lt (h₂ e he)
  refine ⟨es₁, es₂, line', vs', rfl, rfl, hline, hback, ?_, h₁, h₂⟩
  obtain rfl | ⟨ts, rfl⟩ := hvs
  · cases es₂ with
    | nil =>
      cases hback
      exact .inl rfl
    | cons e es₂ =>
      obtain ⟨front, old, back, _, hnil, hstart, -⟩ := splice?_cons_eq_some.1 hback
      obtain ⟨rfl, -⟩ := List.append_eq_nil_iff.1 hnil.symm
      have := h₂ e List.mem_cons_self
      simp only [width_nil] at hstart
      omega
  · have hnew : width ['\n'] = 1 := rfl
    rw [← List.singleton_append] at hback
    obtain ⟨new, ts', hkept, -, rfl⟩ := @splice?_cut _ _ _ _ [] es₂ hback (by simp) fun e he => by
      have := h₂ e he
      omega
    cases hkept
    exact .inr ⟨ts', rfl⟩

end BuildSync.Text
