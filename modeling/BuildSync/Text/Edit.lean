import BuildSync.Text.Span

/-! # Edits of a text

* `Edit`: a span of bytes and what is to stand in its place.
* `splice?`: a text with a list of edits made in one pass; refused unless the spans ascend, are
  disjoint and lie between characters (`replace?_width` for one edit).
* `replace?`: one span replaced.
* `lineFront`, `lineIndent`: the line around a position.
-/

namespace BuildSync.Text

/-- A span of bytes with its replacement. -/
structure Edit where
  start : Nat
  stop : Nat
  text : List Char
deriving DecidableEq, Repr

/-- Edits are made in the order of their starts. -/
def Edit.le (a b : Edit) : Bool :=
  a.start ≤ b.start

/-- The text that begins at the byte `pos`, with the edits made. -/
def splice? (pos : Nat) (cs : List Char) : List Edit → Option (List Char)
  | [] => some cs
  | e :: edits =>
    if e.start < pos || e.stop < e.start then none
    else
      match splitAt? (e.start - pos) cs with
      | none => none
      | some (front, rest) =>
        match splitAt? (e.stop - e.start) rest with
        | none => none
        | some (_, back) => (splice? e.stop back edits).map (front ++ e.text ++ ·)

/-- A text with one span replaced. -/
def replace? (cs : List Char) (e : Edit) : Option (List Char) :=
  splice? 0 cs [e]

/-- What stands on the line of the byte `n` before it, given what came before on that line. -/
def lineFrontFrom (front : List Char) : Nat → List Char → List Char
  | 0, _ => front.reverse
  | _ + 1, [] => front.reverse
  | n + 1, c :: cs =>
    lineFrontFrom (if c = '\n' then [] else c :: front) (n + 1 - c.utf8Size) cs

/-- What stands on the line of the byte `n` before it. -/
def lineFront (cs : List Char) (n : Nat) : List Char :=
  lineFrontFrom [] n cs

/-- A space or a tab. -/
def isIndent (c : Char) : Bool :=
  c = ' ' || c = '\t'

/-- The text from the first character at or after the byte `n`. -/
def dropBytes : Nat → List Char → List Char
  | 0, cs => cs
  | _ + 1, [] => []
  | n + 1, c :: cs => dropBytes (n + 1 - c.utf8Size) cs

/-- The leading spaces and tabs of the line of the byte `n`. -/
def lineIndent (cs : List Char) (n : Nat) : List Char :=
  (lineFront cs n ++ dropBytes n cs).takeWhile isIndent

/-! ## Facts -/

@[simp] theorem splice?_nil (pos : Nat) (cs : List Char) : splice? pos cs [] = some cs := rfl

theorem dropBytes_width (xs ys : List Char) : dropBytes (width xs) (xs ++ ys) = ys := by
  induction xs with
  | nil => cases ys <;> rfl
  | cons c xs ih =>
    have hc := c.utf8Size_pos
    obtain ⟨n, hn⟩ : ∃ n, width (c :: xs) = n + 1 := ⟨width (c :: xs) - 1, by simp; omega⟩
    have hsub : n + 1 - c.utf8Size = width xs := by simp at hn; omega
    rw [hn, List.cons_append]
    simp [dropBytes, hsub, ih]

/-- A replacement keeps what is around its span. -/
theorem replace?_width (xs ys zs new : List Char) :
    replace? (xs ++ ys ++ zs) ⟨width xs, width xs + width ys, new⟩ = some (xs ++ new ++ zs) := by
  simp [replace?, splice?, List.append_assoc, splitAt?_width,
    Nat.not_lt.2 (Nat.le_add_right _ _)]

end BuildSync.Text
