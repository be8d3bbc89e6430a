import BuildSync.Text.Blank
import BuildSync.Text.Cut

/-!
# Cuts of a text at a separator

* `cut?_eq_some_iff`: a text is cut where a separator first stands; `cut?_eq_none_iff`: so one is
  not cut where none stands.
* `cut?_append_right`: what follows a text does not move the place where it is cut.
* `IsQuiet`: a text in front of others that moves the places where these are cut, and no more.
-/

namespace BuildSync.Text

/-! ## The first separator -/

theorem isSome_cut? (sep front back : List Char) :
    (cut? sep (front ++ sep ++ back)).isSome = true := by
  induction front with
  | nil =>
    have hstrip : strip? sep (sep ++ back) = some back := strip?_eq_some_iff.2 rfl
    cases sep with
    | nil => cases back <;> rfl
    | cons s sep =>
      rw [List.nil_append, List.cons_append] at *
      rw [cut?, hstrip]
      rfl
  | cons c front ih =>
    rw [List.cons_append, List.cons_append, cut?]
    split
    · rfl
    · rw [Option.isSome_map]
      exact ih

theorem cut?_eq_none_iff {sep cs : List Char} :
    cut? sep cs = none ↔ ∀ front back, cs ≠ front ++ sep ++ back := by
  constructor
  · rintro h front back rfl
    have hsome := isSome_cut? sep front back
    rw [h] at hsome
    cases hsome
  · intro h
    refine Option.eq_none_iff_forall_ne_some.2 fun (front, back) hcut => ?_
    exact h front back (cut?_eq_some hcut)

theorem length_le_of_cut? {sep cs front back front' back' : List Char}
    (h : cut? sep cs = some (front, back)) (hcs : cs = front' ++ sep ++ back') :
    front.length ≤ front'.length := by
  induction cs generalizing front front' with
  | nil =>
    have hlength := congrArg List.length (cut?_eq_some h)
    simp only [List.length_nil, List.length_append] at hlength
    omega
  | cons c cs ih =>
    rw [cut?] at h
    split at h
    · cases h
      exact Nat.zero_le _
    · rename_i hstrip
      obtain ⟨⟨_, _⟩, hcut, he⟩ := Option.map_eq_some_iff.1 h
      cases he
      cases front' with
      | nil =>
        rw [List.nil_append] at hcs
        rw [strip?_eq_some_iff.2 hcs] at hstrip
        cases hstrip
      | cons d front' =>
        rw [List.cons_append, List.cons_append] at hcs
        exact Nat.succ_le_succ (ih hcut (List.cons.inj hcs).2)

/-- **A text is cut where a separator first stands.** -/
theorem cut?_eq_some_iff {sep cs front back : List Char} :
    cut? sep cs = some (front, back) ↔ cs = front ++ sep ++ back ∧
      ∀ front' back', cs = front' ++ sep ++ back' → front.length ≤ front'.length := by
  constructor
  · exact fun h => ⟨cut?_eq_some h, fun _ _ => length_le_of_cut? h⟩
  · rintro ⟨rfl, hfirst⟩
    obtain ⟨⟨front', back'⟩, hcut⟩ := Option.isSome_iff_exists.1 (isSome_cut? sep front back)
    have hcs := cut?_eq_some hcut
    have hlength := Nat.le_antisymm (length_le_of_cut? hcut rfl) (hfirst _ _ hcs)
    rw [List.append_assoc, List.append_assoc] at hcs
    obtain ⟨rfl, hback⟩ := List.append_inj hcs hlength.symm
    rw [hcut, List.append_cancel_left hback]

/-- What follows a text does not move the place where it is cut. -/
theorem cut?_append_right {sep cs front back : List Char} (h : cut? sep cs = some (front, back))
    (more : List Char) : cut? sep (cs ++ more) = some (front, back ++ more) := by
  obtain ⟨hcs, hfirst⟩ := cut?_eq_some_iff.1 h
  refine cut?_eq_some_iff.2 ⟨by rw [hcs, List.append_assoc _ back], fun front' back' hmore => ?_⟩
  rcases List.append_eq_append_iff.1 hmore with ⟨zs, hzs, -⟩ | ⟨zs, hzs, -⟩
  · have hcs := congrArg List.length hcs
    have hzs := congrArg List.length hzs
    simp only [List.length_append] at hcs hzs
    omega
  · exact hfirst front' zs hzs

/-! ## Texts in front of others -/

/-- A text holds no separator and is no part of one, whatever follows it. -/
def IsQuiet (sep front : List Char) : Prop :=
  ∀ back, cut? sep (front ++ back) = (cut? sep back).map fun (xs, ys) => (front ++ xs, ys)

theorem isQuiet_nil (sep : List Char) : IsQuiet sep [] := by
  intro back
  cases h : cut? sep back <;> simp [h]

theorem IsQuiet.append {sep xs ys : List Char} (hx : IsQuiet sep xs) (hy : IsQuiet sep ys) :
    IsQuiet sep (xs ++ ys) := by
  intro back
  rw [List.append_assoc, hx, hy, Option.map_map]
  simp [Function.comp_def]

/-- The separator stands behind such a text. -/
theorem IsQuiet.length_lt {sep xs ys front back : List Char} (h : IsQuiet sep xs) (hsep : sep ≠ [])
    (hcut : cut? sep (xs ++ ys) = some (front, back)) : back.length < ys.length := by
  rw [h, Option.map_eq_some_iff] at hcut
  obtain ⟨⟨front', back'⟩, hcut, he⟩ := hcut
  cases he
  have hys := congrArg List.length (cut?_eq_some hcut)
  have hpos := List.length_pos_iff.2 hsep
  simp only [List.length_append] at hys
  omega

section
variable {sep : List Char} (hsep : ∀ c ∈ sep, isBlank c = false)
include hsep

/-- No word goes across the end of a text that a blank follows. -/
theorem strip?_append_of_none {cs after : List Char} (h : strip? sep cs = none)
    (hafter : ∀ c ∈ after.head?, isBlank c = true) : strip? sep (cs ++ after) = none := by
  refine Option.eq_none_iff_forall_ne_some.2 fun rest hrest => ?_
  rcases List.append_eq_append_iff.1 (strip?_eq_some_iff.1 hrest) with
    ⟨zs, rfl, rfl⟩ | ⟨zs, rfl, -⟩
  · cases zs with
    | nil =>
      rw [List.append_nil, strip?_eq_some_iff.2 (List.append_nil cs).symm] at h
      cases h
    | cons c zs =>
      have hblank := hafter c rfl
      rw [hsep c (by simp)] at hblank
      cases hblank
  · rw [strip?_eq_some_iff.2 rfl] at h
    cases h

variable (hne : sep ≠ [])
include hne

theorem isQuiet_blanks {gap : List Char} (h : ∀ c ∈ gap, isBlank c = true) : IsQuiet sep gap := by
  induction gap with
  | nil => exact isQuiet_nil sep
  | cons c gap ih =>
    rw [List.forall_mem_cons] at h
    intro back
    have hnil : strip? sep [] = none := by
      obtain ⟨s, ss, rfl⟩ := List.exists_cons_of_ne_nil hne
      rfl
    have hstrip : strip? sep (c :: (gap ++ back)) = none :=
      strip?_append_of_none hsep hnil (by simpa using h.1)
    rw [List.cons_append, cut?, hstrip]
    dsimp only
    rw [ih h.2, Option.map_map]
    simp [Function.comp_def]

/-- A text that holds no separator, with blanks behind it. -/
theorem isQuiet_of_none {cs gap : List Char} (h : cut? sep cs = none) (hgap : gap ≠ [])
    (hblank : ∀ c ∈ gap, isBlank c = true) : IsQuiet sep (cs ++ gap) := by
  induction cs with
  | nil => exact isQuiet_blanks hsep hne hblank
  | cons c cs ih =>
    rw [cut?] at h
    split at h
    · cases h
    · rename_i hstrip
      intro back
      have hhead : ∀ d ∈ (gap ++ back).head?, isBlank d = true := by
        obtain ⟨d, gap, rfl⟩ := List.exists_cons_of_ne_nil hgap
        simpa using hblank d List.mem_cons_self
      have hlong : strip? sep (c :: (cs ++ gap ++ back)) = none := by
        rw [List.append_assoc]
        exact strip?_append_of_none hsep hstrip hhead
      rw [List.cons_append, List.cons_append, cut?, hlong]
      dsimp only
      rw [ih (Option.map_eq_none_iff.1 h), Option.map_map]
      simp [Function.comp_def]

end

end BuildSync.Text
