/-! # Sorted lists without repetitions

* `dropRepeats`: an element equal to the one before it is left out; `dropRepeatsOf` compares keys.
* `sortedSet`: the elements of a list in order, each once (`mem_sortedSet`).
-/

namespace BuildSync

/-- Leaves out each element that equals the one before it. -/
def dropRepeats [DecidableEq α] : List α → List α
  | [] => []
  | [a] => [a]
  | a :: b :: rest => if a = b then dropRepeats (b :: rest) else a :: dropRepeats (b :: rest)

/-- Leaves out each element whose key is the key of the one kept before it, at first `last`. -/
def dropRepeatsAfter [DecidableEq β] (key : α → β) (last : β) : List α → List α
  | [] => []
  | a :: rest =>
    if last = key a then dropRepeatsAfter key last rest else a :: dropRepeatsAfter key (key a) rest

/-- Leaves out each element whose key is the key of the one kept before it. -/
def dropRepeatsOf [DecidableEq β] (key : α → β) : List α → List α
  | [] => []
  | a :: rest => a :: dropRepeatsAfter key (key a) rest

/-- The elements of a list in the order of `le`, equal neighbours taken once. -/
def sortedSet [DecidableEq α] (le : α → α → Bool) (xs : List α) : List α :=
  dropRepeats (xs.mergeSort le)

/-- Texts are ordered by their characters, which is also the order of their UTF-8 bytes. -/
def textLe (a b : String) : Bool :=
  decide (a ≤ b)

/-- Lists of texts are ordered by the first text in which they differ. -/
def textsLe (a b : List String) : Bool :=
  !List.lex b a fun x y => !textLe y x

/-- A list of texts in order, each once. -/
def sortedTexts (xs : List String) : List String :=
  sortedSet textLe xs

/-! ## Facts -/

@[simp] theorem mem_dropRepeats [DecidableEq α] {a : α} {xs : List α} :
    a ∈ dropRepeats xs ↔ a ∈ xs := by
  fun_induction dropRepeats xs with
  | case1 => simp
  | case2 => simp
  | case3 b rest ih => simp [ih]
  | case4 b c rest _ ih => simp [ih]

@[simp] theorem mem_sortedSet [DecidableEq α] {le : α → α → Bool} {a : α} {xs : List α} :
    a ∈ sortedSet le xs ↔ a ∈ xs := by
  simp [sortedSet]

theorem textLe_total (a b : String) : (textLe a b || textLe b a) = true := by
  simpa [textLe] using String.le_total a b

theorem textLe_trans (a b c : String) (hab : textLe a b = true) (hbc : textLe b c = true) :
    textLe a c = true := by
  simp only [textLe, decide_eq_true_eq] at *
  exact String.le_trans hab hbc

theorem textLe_antisymm {a b : String} (hab : textLe a b = true) (hba : textLe b a = true) :
    a = b := by
  simp only [textLe, decide_eq_true_eq] at *
  exact String.le_antisymm hab hba

end BuildSync
