/-! # Cutting a text at a separator

* `strip?`: what follows a fixed beginning (`strip?_eq_some_iff`).
* `cut?`: a text cut at the first place where a separator stands (`cut?_eq_some`).
* `splitOnChar`, `joined`: parts between separators, and back (`joined_splitOnChar`).
* `lastSegment`: what follows the last `/`.
-/

namespace BuildSync.Text

/-- What follows `start` in a text that begins with it. -/
def strip? : List Char → List Char → Option (List Char)
  | [], cs => some cs
  | _ :: _, [] => none
  | s :: start, c :: cs => if s = c then strip? start cs else none

/-- A text begins with `start`. -/
def startsWith (cs start : List Char) : Bool :=
  (strip? start cs).isSome

/-- What precedes `final` in a text that ends with it. -/
def stripEnd? (final cs : List Char) : Option (List Char) :=
  (strip? final.reverse cs.reverse).map List.reverse

/-- A text ends with `final`. -/
def endsWith (cs final : List Char) : Bool :=
  (stripEnd? final cs).isSome

/-- The parts before and after the first place where `sep` stands. -/
def cut? (sep : List Char) : List Char → Option (List Char × List Char)
  | [] => if sep = [] then some ([], []) else none
  | c :: cs =>
    match strip? sep (c :: cs) with
    | some rest => some ([], rest)
    | none => (cut? sep cs).map fun (front, back) => (c :: front, back)

/-- What follows the last `/`, or the whole text without one. -/
def lastSegment (cs : List Char) : List Char :=
  (cs.reverse.takeWhile (· ≠ '/')).reverse

/-- A text joined from parts with a separator between them. -/
def joined (sep : List Char) : List (List Char) → List Char
  | [] => []
  | [part] => part
  | part :: parts => part ++ sep ++ joined sep parts

/-- The parts of a text between the places where one character stands. -/
def splitOnChar (sep : Char) : List Char → List (List Char)
  | [] => [[]]
  | c :: cs =>
    if c = sep then [] :: splitOnChar sep cs
    else
      match splitOnChar sep cs with
      | [] => [[c]]
      | part :: parts => (c :: part) :: parts

/-! ## Facts -/

theorem strip?_eq_some_iff {start cs rest : List Char} :
    strip? start cs = some rest ↔ cs = start ++ rest := by
  induction start generalizing cs with
  | nil => simp [strip?]
  | cons s start ih =>
    cases cs with
    | nil => simp [strip?]
    | cons c cs =>
      by_cases h : s = c
      · simp [strip?, h, ih]
      · simp [strip?, h, Ne.symm h]

theorem cut?_eq_some {sep cs front back : List Char} (h : cut? sep cs = some (front, back)) :
    cs = front ++ sep ++ back := by
  fun_induction cut? sep cs generalizing front back with
  | case1 => simp_all
  | case2 => simp at h
  | case3 c cs rest hp =>
    obtain ⟨rfl, rfl⟩ := Prod.mk.inj (Option.some.inj h)
    simpa using strip?_eq_some_iff.1 hp
  | case4 c cs hp ih =>
    obtain ⟨⟨front, back⟩, hq, he⟩ := Option.map_eq_some_iff.1 h
    obtain ⟨rfl, rfl⟩ := Prod.mk.inj he
    simp [ih hq]

theorem splitOnChar_ne_nil (sep : Char) (cs : List Char) : splitOnChar sep cs ≠ [] := by
  cases cs with
  | nil => simp [splitOnChar]
  | cons c cs =>
    simp only [splitOnChar]
    split
    · simp
    · split <;> simp

theorem joined_splitOnChar (sep : Char) (cs : List Char) :
    joined [sep] (splitOnChar sep cs) = cs := by
  induction cs with
  | nil => rfl
  | cons c cs ih =>
    cases hs : splitOnChar sep cs with
    | nil => exact absurd hs (splitOnChar_ne_nil sep cs)
    | cons part parts =>
      rw [hs] at ih
      by_cases h : c = sep
      · simp [splitOnChar, h, hs, joined, ih]
      · cases parts <;> simp_all [splitOnChar, joined]

end BuildSync.Text
