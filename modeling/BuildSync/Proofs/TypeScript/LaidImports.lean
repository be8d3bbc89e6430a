import BuildSync.Proofs.Annotations
import BuildSync.Proofs.TypeScript.ImportPlaces

/-!
# The statements of a source

Behind a statement the next one is read from its first lexeme on, past the blanks and comments in
front of it. A comment goes up to the end of its line, so where one begins behind a statement no
other statement starts on that line.

* `HasPlainLines`: a text in which only newlines end lines, alone or behind carriage returns.
* `exists_newline_of_comment`: a comment is passed over with the end of its line.
* `Annotation.laid_imports`: the imports of a source are laid as its annotations ask for.
-/

namespace BuildSync

open BuildSync.Parser Text TypeScript

namespace TypeScript

/-! ## Comments behind blanks -/

/-- Only newlines end lines in a text, alone or behind carriage returns. -/
def HasPlainLines : List Char → Prop
  | [] => True
  | c :: cs => c ∉ ['\u0085', '\u2028', '\u2029'] ∧ (c = '\r' → cs.head? = some '\n') ∧
    HasPlainLines cs

instance decidableHasPlainLines : (cs : List Char) → Decidable (HasPlainLines cs)
  | [] => inferInstanceAs (Decidable True)
  | c :: cs =>
    have := decidableHasPlainLines cs
    inferInstanceAs (Decidable (c ∉ ['\u0085', '\u2028', '\u2029'] ∧
      (c = '\r' → cs.head? = some '\n') ∧ HasPlainLines cs))

theorem HasPlainLines.tail {c : Char} {cs : List Char} (h : HasPlainLines (c :: cs)) :
    HasPlainLines cs :=
  h.2.2

theorem HasPlainLines.behind {xs ys : List Char} (h : HasPlainLines (xs ++ ys)) :
    HasPlainLines ys := by
  induction xs with
  | nil => exact h
  | cons c xs ih => exact ih h.tail

/-- What ends a line in such a text. -/
theorem HasPlainLines.of_isLineEnd {c : Char} {cs : List Char} (h : HasPlainLines (c :: cs))
    (hc : isLineEnd c = true) : c = '\n' ∨ c = '\r' ∧ ∃ ds, cs = '\n' :: ds := by
  have hplain := h.1
  simp only [isLineEnd, Bool.or_eq_true, decide_eq_true_eq] at hc
  obtain ((rfl | rfl) | rfl) | rfl := hc
  · exact .inl rfl
  · exact .inr ⟨rfl, List.head?_eq_some_iff.1 (h.2.1 rfl)⟩
  · simp at hplain
  · simp at hplain

theorem isSpace_of_isBlank {c : Char} (h : isBlank c = true)
    (hc : c ∉ ['\u0085', '\u2028', '\u2029']) : isLineEnd c = true ∨ isSpace c = true := by
  have hd : ∀ d : Char, c = d ↔ c.toNat = d.toNat := fun d => Char.toNat_inj.symm
  simp only [isBlank, isLineEnd, isSpace, List.mem_cons, List.not_mem_nil, hd, Bool.or_eq_true,
    Bool.and_eq_true, decide_eq_true_eq, beq_iff_eq, or_false, not_or] at *
  simp at *
  omega

theorem skipTrivia_blank {c : Char} (h : isLineEnd c = true ∨ isSpace c = true) (crossed : Bool)
    (cs : List Char) :
    ∃ crossed', skipTrivia crossed .blank (c :: cs) = skipTrivia crossed' .blank cs := by
  have hslash : c ≠ '/' := by
    rintro rfl
    exact absurd h (by decide)
  have hangle : c ≠ '<' := by
    rintro rfl
    exact absurd h (by decide)
  rw [skipTrivia]
  · split
    · exact ⟨true, rfl⟩
    · rename_i hline
      rw [if_pos (h.resolve_left hline)]
      exact ⟨crossed, rfl⟩
  · exact fun _ hc _ => hslash hc
  · exact fun _ hc _ => hslash hc
  · exact fun _ hc _ => hangle hc

theorem exists_newline_of_lineComment {cs : List Char} (h : HasPlainLines cs) (crossed : Bool) :
    (skipTrivia crossed .lineComment cs).2 = [] ∨
      ∃ xs ys, cs = xs ++ '\n' :: ys ∧ (skipTrivia crossed .lineComment cs).2 <:+ ys := by
  induction cs with
  | nil => exact .inl rfl
  | cons c cs ih =>
    rw [skipTrivia]
    split
    · rename_i hc
      obtain rfl | ⟨rfl, ds, rfl⟩ := h.of_isLineEnd hc
      · exact .inr ⟨[], cs, rfl, skipTrivia_suffix true .blank cs⟩
      · exact .inr ⟨['\r'], ds, rfl, skipTrivia_suffix true .blank ds⟩
    · obtain hnil | ⟨xs, ys, rfl, hys⟩ := ih h.tail
      · exact .inl hnil
      · exact .inr ⟨c :: xs, ys, rfl, hys⟩

/-- **A comment behind blanks** is passed over with the end of its line. -/
theorem exists_newline_of_comment {cs : List Char} (h : HasPlainLines cs)
    (hc : startsWith (trimStart cs) ['/', '/'] = true) (crossed : Bool) :
    (skipTrivia crossed .blank cs).2 = [] ∨
      ∃ xs ys, cs = xs ++ '\n' :: ys ∧ (skipTrivia crossed .blank cs).2 <:+ ys := by
  induction cs generalizing crossed with
  | nil => exact absurd hc (by decide)
  | cons c cs ih =>
    by_cases hb : isBlank c = true
    · obtain ⟨crossed', hskip⟩ :=
        skipTrivia_blank (isSpace_of_isBlank hb h.1) crossed cs
      have htrim : trimStart (c :: cs) = trimStart cs := List.dropWhile_cons_of_pos hb
      rw [htrim] at hc
      rw [hskip]
      obtain hnil | ⟨xs, ys, rfl, hys⟩ := ih h.tail hc crossed'
      · exact .inl hnil
      · exact .inr ⟨c :: xs, ys, rfl, hys⟩
    · rw [trimStart_cons_of_not (by simpa using hb)] at hc
      obtain ⟨rest, hrest⟩ := startsWith_iff.1 hc
      cases hrest
      obtain hnil | ⟨xs, ys, rfl, hys⟩ := exists_newline_of_lineComment h.tail.tail crossed
      · exact .inl hnil
      · exact .inr ⟨'/' :: '/' :: xs, ys, rfl, hys⟩

/-! ## Two imports -/

section
variable {g : Grammar} {text : List Char} {a b : Clause} {i j : Import}

/-- An import stands where its declaration does. -/
theorem Tells.exists_held (h : Tells g text a i) :
    ∃ front held back, text = front ++ (held ++ back) ∧ i.start = width front ∧
      i.stop = width (front ++ held) ∧ a.whole = ⟨width (held ++ back), width back⟩ ∧
      trimStart held ≠ [] := by
  obtain ⟨front, before, literal, after, back, h⟩ := h
  refine ⟨front, before ++ (literal ++ after), back, by simpa using h.parts, h.start, ?_,
    by simpa using h.whole, fun hblank => ?_⟩
  · rw [stop_of_slice? h.slice, h.start, width_append front]
  · obtain ⟨quote, inner, hquote, hliteral, -⟩ := exists_of_reads_rawString h.string
    have hliteral : literal = quote :: inner :=
      List.append_cancel_right (hliteral.trans (by simp))
    have hmem := trimStart_eq_nil.1 hblank quote (by simp [hliteral])
    obtain rfl | rfl := hquote <;> exact absurd hmem (by decide)

/-- Where one import stands behind another in a text: what is between them, and what the next is
read from. -/
theorem Grammar.Follows.exists_gap (h : g.Follows text a b) (hi : Tells g text a i)
    (hj : Tells g text b j) :
    ∃ front gap back, text = front ++ (gap ++ back) ∧ i.stop = width front ∧
      j.start = width (front ++ gap) ∧ back <:+ (skipTrivia false .blank (gap ++ back)).2 ∧
      back ≠ [] := by
  obtain ⟨behind, ⟨xs, rfl⟩, hstop, front', held', back', hskip, hwhole, -⟩ := h
  obtain ⟨front, held, back, htext, -, hi, hwhole', -⟩ := hi.exists_held
  obtain ⟨front₂, held₂, back₂, htext₂, hj, -, hwhole₂, hheld₂⟩ := hj.exists_held
  rw [hwhole'] at hstop
  rw [hwhole, Stretch.mk.injEq] at hwhole₂
  obtain ⟨trivia, htrivia⟩ := skipTrivia_suffix false .blank behind
  have hsplit : behind = trivia ++ front' ++ (held' ++ back') := by
    rw [← htrivia, hskip]
    simp
  -- Clauses count from the end and imports from the start, so the places are compared by widths.
  have hw := congrArg width htext
  have hw₂ := congrArg width htext₂
  have hws := congrArg width hsplit
  simp only [width_append] at hw hw₂ hws hwhole₂ hstop hi
  refine ⟨xs, trivia ++ front', held' ++ back', by rw [hsplit], by omega, ?_, ?_, fun hnil => ?_⟩
  · rw [hj]
    simp only [width_append]
    omega
  · rw [← hsplit, hskip]
    exact List.suffix_append front' _
  · obtain ⟨rfl, rfl⟩ := List.append_eq_nil_iff.1 hnil
    have : held₂ ≠ [] := by
      rintro rfl
      exact hheld₂ rfl
    have := width_pos this
    simp only [width_nil] at hwhole₂
    omega

end

end TypeScript

/-! ## All imports -/

namespace Annotation

theorem pairwise_of_forall₂ {α β : Type} {R : α → β → Prop} {S : α → α → Prop} {T : β → β → Prop}
    {as : List α} {bs : List β} (h : List.Forall₂ R as bs) (hS : as.Pairwise S)
    (hT : ∀ {a a' b b'}, R a b → R a' b' → S a a' → T b b') : bs.Pairwise T := by
  obtain ⟨hlength, hget⟩ := List.forall₂_iff_get.1 h
  rw [List.pairwise_iff_get] at hS ⊢
  have hlt : ∀ i : Fin bs.length, i < as.length := fun i => Nat.lt_of_lt_of_eq i.2 hlength.symm
  intro i j hij
  exact hT (hget i (hlt i) i.2) (hget j (hlt j) j.2) (hS ⟨i, hlt i⟩ ⟨j, hlt j⟩ hij)

theorem Laid.sublist {text : List Char} {found found' : List Import} (h : Laid text found)
    (hs : found'.Sublist found) : Laid text found' :=
  ⟨fun a ha => h.stand a (hs.subset ha), h.ordered.sublist hs, h.uncommented.sublist hs⟩

theorem laid_of_tells {g : Grammar} {text : List Char} {clauses : List Clause} {found : List Import}
    (hplain : HasPlainLines text) (h : List.Forall₂ (Tells g text) clauses found)
    (hfollows : clauses.Pairwise (g.Follows text)) : Laid text found := by
  refine ⟨fun a ha => ?_, pairwise_of_forall₂ h hfollows fun hi hj hab => ?_,
    pairwise_of_forall₂ h hfollows fun hi hj hab => ?_⟩
  · obtain ⟨n, hn, rfl⟩ := List.getElem_of_mem ha
    obtain ⟨hlength, hget⟩ := List.forall₂_iff_get.1 h
    obtain ⟨front, held, back, htext, hstart, hstop, -, hheld⟩ :=
      (hget n (hlength ▸ hn) hn).exists_held
    exact ⟨front, held, back, htext, hstart, hstop, hheld⟩
  · obtain ⟨front, gap, back, -, hstop, hstart, -⟩ := hab.exists_gap hi hj
    rw [hstop, hstart, width_append]
    omega
  · obtain ⟨front, gap, back, rfl, hstop, hstart, hback, hne⟩ := hab.exists_gap hi hj
    intro front' gap' back' htext hstop' hstart' hn
    obtain ⟨rfl, hrest⟩ := append_inj_width htext (hstop.symm.trans hstop')
    rw [hstart, width_append, width_append] at hstart'
    obtain ⟨rfl, rfl⟩ := append_inj_width hrest (by omega)
    refine Bool.eq_false_iff.2 fun hcomment => ?_
    obtain hnil | ⟨xs, ys, hsplit, hys⟩ := exists_newline_of_comment hplain.behind hcomment false
    · rw [hnil] at hback
      exact hne (List.suffix_nil.1 hback)
    · obtain ⟨zs, rfl⟩ := hback.trans hys
      have hgap : gap = xs ++ '\n' :: zs := List.append_cancel_right (hsplit.trans (by simp))
      exact hn (by simp [hgap])

theorem kind_of_mem_referencesFrom {inside : Bool} {number start : Nat} {lines : List (List Char)} :
    ∀ i ∈ Header.referencesFrom inside number start lines, i.kind = .reference := by
  fun_induction Header.referencesFrom inside number start lines with
  | case1 => simp
  | case2 => simp
  | case3 _ _ _ _ _ _ _ _ ih => exact ih
  | case4 _ _ _ _ _ _ _ _ _ ih => exact ih
  | case5 _ _ _ _ _ _ _ _ _ _ ih => exact List.forall_mem_cons.2 ⟨rfl, ih⟩

theorem filter_references (text : List Char) :
    (Header.references text).filter (·.kind ≠ .reference) = [] :=
  List.filter_eq_nil_iff.2 fun i hi => by simpa using kind_of_mem_referencesFrom i hi

/-- **The statements of a source are laid** as its annotations ask for, in a text whose lines end in
newlines and that starts with no mark for the order of its bytes. -/
theorem laid_imports {file text : String} {imports : List ResolvedImport}
    (hmark : text.toList.head? ≠ some '\uFEFF') (hplain : HasPlainLines text.toList)
    (h : TypeScript.imports file text = .ok (imports.map (·.source))) :
    Laid text.toList ((statements imports).map (·.source)) := by
  unfold TypeScript.imports at h
  simp only [programText_eq_self hmark] at h
  cases hclauses : clauses? (holdsMarkup file) text.toList with
  | none =>
    rw [hclauses] at h
    cases h
  | some clauses =>
    obtain ⟨found, hfound, htells⟩ := exists_found hclauses
    have hlaid := laid_of_tells hplain htells (stands_of_clauses? hclauses).2
    rw [hclauses] at h
    simp only [hfound] at h
    have hall : imports.map (·.source) = Header.references text.toList ++ found :=
      (Except.ok.inj h).symm
    have hstatements : (statements imports).map (·.source) =
        found.filter (·.kind ≠ .reference) := by
      have hfilter : (statements imports).map (·.source) =
          (imports.map (·.source)).filter (·.kind ≠ .reference) := by
        rw [statements, List.filter_map]
        rfl
      rw [hfilter, hall, List.filter_append, filter_references, List.nil_append]
    rw [hstatements]
    exact hlaid.sublist List.filter_sublist

end Annotation

end BuildSync
