/-! # Spans of a text

Positions count UTF-8 bytes.

* `width`: how many bytes a text takes; it adds up over `++`.
* `splitAt?`: a text cut at a position, refused where the position falls inside a character
  (`splitAt?_eq_some_iff`).
* `slice?`: the text between two positions.
* `lineAt`: the line that a position is on, from one.
-/

namespace BuildSync.Text

/-- The number of bytes a text takes in UTF-8. -/
def width : List Char → Nat
  | [] => 0
  | c :: cs => c.utf8Size + width cs

/-- A text cut after its first `n` bytes, where a character ends there. -/
def splitAt? : Nat → List Char → Option (List Char × List Char)
  | 0, cs => some ([], cs)
  | _ + 1, [] => none
  | n + 1, c :: cs =>
    if c.utf8Size ≤ n + 1 then
      (splitAt? (n + 1 - c.utf8Size) cs).map fun (front, back) => (c :: front, back)
    else none

/-- The text from the byte `start` up to the byte `stop`. -/
def slice? (cs : List Char) (start stop : Nat) : Option (List Char) :=
  if stop < start then none
  else
    (splitAt? start cs).bind fun (_, rest) => (splitAt? (stop - start) rest).map Prod.fst

/-- How many line ends begin before the byte `n`. -/
def newlinesBefore : Nat → List Char → Nat
  | 0, _ => 0
  | _ + 1, [] => 0
  | n + 1, c :: cs =>
    (if c = '\n' then 1 else 0) + newlinesBefore (n + 1 - c.utf8Size) cs

/-- The line of the byte `n`, counted from one. -/
def lineAt (cs : List Char) (n : Nat) : Nat :=
  newlinesBefore n cs + 1

/-! ## Width -/

@[simp] theorem width_nil : width [] = 0 := rfl

@[simp] theorem width_cons (c : Char) (cs : List Char) :
    width (c :: cs) = c.utf8Size + width cs := rfl

@[simp] theorem width_append (xs ys : List Char) : width (xs ++ ys) = width xs + width ys := by
  induction xs with
  | nil => simp
  | cons c xs ih => simp [ih, Nat.add_assoc]

theorem width_pos {cs : List Char} (h : cs ≠ []) : 0 < width cs := by
  cases cs with
  | nil => exact absurd rfl h
  | cons c cs => exact Nat.add_pos_left c.utf8Size_pos _

/-! ## Cutting -/

theorem splitAt?_width (xs ys : List Char) : splitAt? (width xs) (xs ++ ys) = some (xs, ys) := by
  induction xs with
  | nil => cases ys <;> rfl
  | cons c xs ih =>
    have hc := c.utf8Size_pos
    obtain ⟨n, hn⟩ : ∃ n, width (c :: xs) = n + 1 := ⟨width (c :: xs) - 1, by simp; omega⟩
    have hsub : n + 1 - c.utf8Size = width xs := by simp at hn; omega
    have hle : c.utf8Size ≤ n + 1 := by simp at hn; omega
    rw [hn, List.cons_append]
    simp [splitAt?, hle, hsub, ih]

theorem splitAt?_eq_some {n : Nat} {cs xs ys : List Char} (h : splitAt? n cs = some (xs, ys)) :
    cs = xs ++ ys ∧ n = width xs := by
  fun_induction splitAt? n cs generalizing xs ys with
  | case1 cs => simp_all
  | case2 => simp at h
  | case3 n c cs hle ih =>
    obtain ⟨⟨front, back⟩, hp, he⟩ := Option.map_eq_some_iff.1 h
    obtain ⟨rfl, rfl⟩ := Prod.mk.inj he
    obtain ⟨rfl, hw⟩ := ih hp
    exact ⟨rfl, by simp; omega⟩
  | case4 => simp at h

/-- A cut succeeds exactly at the width of a front part. -/
theorem splitAt?_eq_some_iff {n : Nat} {cs xs ys : List Char} :
    splitAt? n cs = some (xs, ys) ↔ cs = xs ++ ys ∧ n = width xs :=
  ⟨splitAt?_eq_some, fun ⟨hcs, hn⟩ => hcs ▸ hn ▸ splitAt?_width xs ys⟩

theorem slice?_width (xs ys zs : List Char) :
    slice? (xs ++ ys ++ zs) (width xs) (width xs + width ys) = some ys := by
  simp [slice?, List.append_assoc, splitAt?_width, Nat.not_lt.2 (Nat.le_add_right _ _)]

end BuildSync.Text
