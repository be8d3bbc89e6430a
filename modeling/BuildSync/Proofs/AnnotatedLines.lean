import BuildSync.Proofs.Annotations
import BuildSync.Proofs.Files
import BuildSync.Proofs.Text.Positions
import BuildSync.Proofs.TypeScript.LaidImports

/-!
# Lines that an update keeps

* `getElem?_splitOnChar`, `exists_of_getElem?_splitOnChar`: a line of a text, by its number.
* `count_of_splice?`: edits that neither hold nor cover a newline keep the number of lines.
* `exists_line_of_update`: a line after an update stays, or a statement on it is annotated.
* `update_lines`: so an update keeps all lines, but for the rest of those of the statements.
* `update_overwrites`: that rest can be a remark, of which nothing is left.
-/

namespace BuildSync.Annotation

open Text

/-! ## The lines of a text -/

/-- A line starts behind this text. -/
def EndsInNewline (us : List Char) : Prop :=
  us = [] ∨ ∃ ws, us = ws ++ ['\n']

theorem getElem?_splitOnChar {us line vs : List Char} (hus : EndsInNewline us)
    (hline : '\n' ∉ line) (hvs : BehindLine vs) :
    (splitOnChar '\n' (us ++ (line ++ vs)))[us.count '\n']? = some line := by
  have hfirst : (splitOnChar '\n' (line ++ vs))[0]? = some line := by
    obtain rfl | ⟨ts, rfl⟩ := hvs
    · rw [List.append_nil, splitOnChar_of_not_mem hline]
      rfl
    · rw [splitOnChar_append hline]
      rfl
  obtain rfl | ⟨ws, rfl⟩ := hus
  · exact hfirst
  · have hcount : (ws ++ ['\n']).count '\n' = (splitOnChar '\n' ws).length := by
      rw [length_splitOnChar, List.count_append]
      rfl
    rw [List.append_assoc, List.singleton_append, splitOnChar_append_cons, hcount,
      List.getElem?_append_right (Nat.le_refl _), Nat.sub_self]
    exact hfirst

theorem exists_of_getElem?_splitOnChar {cs line : List Char} {i : Nat}
    (h : (splitOnChar '\n' cs)[i]? = some line) :
    ∃ us vs, cs = us ++ (line ++ vs) ∧ us.count '\n' = i ∧ EndsInNewline us ∧ '\n' ∉ line ∧
      BehindLine vs := by
  induction i generalizing cs with
  | zero =>
    obtain ⟨line', vs, rfl, hline, hvs⟩ := exists_line cs
    have hfirst := @getElem?_splitOnChar [] _ _ (.inl rfl) hline hvs
    cases h.symm.trans hfirst
    exact ⟨[], vs, rfl, rfl, .inl rfl, hline, hvs⟩
  | succ i ih =>
    obtain ⟨line', vs, rfl, hline, rfl | ⟨ts, rfl⟩⟩ := exists_line cs
    · rw [List.append_nil, splitOnChar_of_not_mem hline] at h
      cases h
    · rw [splitOnChar_append hline, List.getElem?_cons_succ] at h
      obtain ⟨us, vs, rfl, hcount, hus, hline', hvs⟩ := ih h
      refine ⟨line' ++ '\n' :: us, vs, by simp, ?_, ?_, hline', hvs⟩
      · rw [List.count_append, List.count_cons_self, hcount, List.count_eq_zero.2 hline,
          Nat.zero_add]
      · obtain rfl | ⟨ws, rfl⟩ := hus
        · exact .inr ⟨line', rfl⟩
        · exact .inr ⟨line' ++ '\n' :: ws, by simp⟩

/-- The line of a place, up to that place and in number. -/
theorem line_of_place {us mid : List Char} (hus : EndsInNewline us) (hmid : '\n' ∉ mid)
    (ys : List Char) :
    lineFront (us ++ (mid ++ ys)) (width (us ++ mid)) = mid ∧
      lineAt (us ++ (mid ++ ys)) (width (us ++ mid)) = us.count '\n' + 1 := by
  constructor
  · obtain rfl | ⟨ws, rfl⟩ := hus
    · exact lineFront_first hmid ys
    · simpa [Nat.add_assoc] using lineFront_later ws hmid ys
  · rw [lineAt, ← List.append_assoc, newlinesBefore_width, List.count_append,
      List.count_eq_zero.2 hmid, Nat.add_zero]

/-- **Edits that neither hold nor cover a newline keep the number of lines.** -/
theorem count_of_splice? {xs ys out : List Char} {es : List Edit}
    (h : splice? (width xs) ys es = some out) (hnew : ∀ e ∈ es, '\n' ∉ e.text)
    (hold : ∀ e ∈ es, ∀ p, IsNewline (xs ++ ys) p → e.stop ≤ p ∨ p < e.start) :
    out.count '\n' = ys.count '\n' := by
  induction es generalizing xs ys out with
  | nil =>
    cases h
    rfl
  | cons e es ih =>
    obtain ⟨front, old, back, back', rfl, hstart, hstop, hback, rfl⟩ := splice?_cons_eq_some.1 h
    rw [List.forall_mem_cons] at hnew hold
    have hwidth : e.stop = width (xs ++ front ++ old) := by
      simp only [width_append]
      omega
    have hcovered : '\n' ∉ old := by
      intro hmem
      obtain ⟨p, hp, hle, hlt⟩ := exists_isNewline hmem (xs ++ front) back
      rw [width_append] at hle hlt
      have := hold.1 p (by simpa using hp)
      omega
    have hrest := @ih (xs ++ front ++ old) _ _ (hwidth ▸ hback) hnew.2 (by simpa using hold.2)
    simp only [List.count_append, hrest, List.count_eq_zero.2 hcovered,
      List.count_eq_zero.2 hnew.1]

/-! ## The lines after an update -/

section
variable {text : List Char} {rs : List ResolvedImport}

theorem newline_not_mem_edit {e : Edit}
    (hsolid : ∀ s ∈ rs, ∀ label ∈ s.candidates, IsSolid (written label))
    (he : e ∈ rs.filterMap (edit? text)) : '\n' ∉ e.text := by
  obtain ⟨s, hs, hse⟩ := List.mem_filterMap.1 he
  obtain ⟨label, hlabel, _, _, _, _, _, _, _, _, _, _, _, _, _, hr⟩ := edit?_eq_some hse
  exact hr.newline_not_mem (hsolid s hs label (by simp [hlabel.1]))

theorem newline_not_covered {e : Edit} {p : Nat} (he : e ∈ rs.filterMap (edit? text))
    (hp : IsNewline text p) : e.stop ≤ p ∨ p < e.start := by
  obtain ⟨s, -, hse⟩ := List.mem_filterMap.1 he
  obtain ⟨_, -, hput⟩ := edit?_eq_some hse
  have := hput.start_le
  by_cases hle : s.source.stop ≤ p
  · exact .inl (hput.stop_le hp hle)
  · exact .inr (by omega)

theorem Puts.stop_lt {us rest wanted : List Char} {n : Nat} {e : Edit} (h : Puts text n wanted e)
    (hus : EndsInNewline us) (htext : text = us ++ rest) (hlt : n < width us) :
    e.stop < width us := by
  obtain rfl | ⟨ws, rfl⟩ := hus
  · simp at hlt
  · have hnew : width ['\n'] = 1 := rfl
    rw [width_append] at hlt ⊢
    have := h.stop_le (p := width ws) ⟨ws, rest, by simp [htext], rfl⟩ (by omega)
    omega

theorem Annotated.mono {rs' : List ResolvedImport} {xs vs line line' : List Char}
    (h : Annotated rs xs vs line line') (hsub : rs ⊆ rs') : Annotated rs' xs vs line line' := by
  obtain ⟨hmem, hprovided, hstop, hends, hr, hreplaceable⟩ := h
  exact ⟨hsub hmem, hprovided, hstop, hends, hr, hreplaceable⟩

theorem Annotated.newline_not_mem {xs vs line line' : List Char}
    (h : Annotated rs xs vs line line') (hn : '\n' ∉ line)
    (hsolid : ∀ s ∈ rs, ∀ label ∈ s.candidates, IsSolid (written label)) : '\n' ∉ line' := by
  obtain @⟨s, label, mid, lead, old, new, ends, hmem, hprovided, -, -, hr, -⟩ := h
  have := hr.newline_not_mem (hsolid s hmem label (by simp [hprovided.1]))
  simp_all

/-- The lines in front of a place, where the statements end before it. -/
theorem EndsInNewline.update {us rest us' : List Char} (hus : EndsInNewline us)
    (htext : text = us ++ rest) (hstops : ∀ r ∈ rs, r.source.stop < width us)
    (hout : splice? 0 us (rs.filterMap (edit? text)) = some us') : EndsInNewline us' := by
  obtain rfl | ⟨ws, rfl⟩ := hus
  · cases rs with
    | nil =>
      cases hout
      exact .inl rfl
    | cons r rs => exact absurd (hstops r List.mem_cons_self) (by simp)
  · have hnew : width ['\n'] = 1 := rfl
    rw [← List.append_nil (rs.filterMap _)] at hout
    obtain ⟨ws', new, -, hkept, rfl⟩ := splice?_cut hout (fun e he => by
      obtain ⟨r, hr, hre⟩ := List.mem_filterMap.1 he
      obtain ⟨_, -, hput⟩ := edit?_eq_some hre
      have hlt := hput.stop_lt (.inr ⟨ws, rfl⟩) htext (hstops r hr)
      rw [width_append] at hlt
      omega) (by simp)
    cases hkept
    exact .inr ⟨ws', rfl⟩

section
variable (hrs : rs.Pairwise fun r s => Apart text r.source.stop s.source.stop)
include hrs

/-- The statements that end before a place, and those that do not. -/
theorem exists_before (m : Nat) : ∃ before after, rs = before ++ after ∧
    (∀ r ∈ before, r.source.stop < m) ∧ ∀ r ∈ after, m ≤ r.source.stop := by
  induction rs with
  | nil => exact ⟨[], [], rfl, by simp, by simp⟩
  | cons r rs ih =>
    obtain ⟨hr, hrs⟩ := List.pairwise_cons.1 hrs
    by_cases hlt : r.source.stop < m
    · obtain ⟨before, after, rfl, hbefore, hafter⟩ := ih hrs
      exact ⟨r :: before, after, rfl, List.forall_mem_cons.2 ⟨hlt, hbefore⟩, hafter⟩
    · refine ⟨[], r :: rs, rfl, by simp, List.forall_mem_cons.2 ⟨by omega, fun s hs => ?_⟩⟩
      have := (hr s hs).le
      omega

/-- **A line after an update**, by its number: it stays, or a statement that ends on it is
annotated. -/
theorem exists_line_of_update {out line : List Char} {i : Nat}
    (hsolid : ∀ s ∈ rs, ∀ label ∈ s.candidates, IsSolid (written label))
    (hout : splice? 0 text (rs.filterMap (edit? text)) = some out)
    (hline : (splitOnChar '\n' text)[i]? = some line) :
    ∃ us vs line', text = us ++ (line ++ vs) ∧ us.count '\n' = i ∧ EndsInNewline us ∧
      '\n' ∉ line ∧ (splitOnChar '\n' out)[i]? = some line' ∧
      (line' = line ∨ Annotated rs us vs line line') := by
  obtain ⟨us, vs, htext, rfl, hus, hn, hvs⟩ := exists_of_getElem?_splitOnChar hline
  -- Edits in front of the line keep its number, and those of the others start on it or behind it.
  obtain ⟨before, after, rfl, hbefore, hafter⟩ := exists_before hrs (width us)
  obtain ⟨hrs₁, hrs₂, -⟩ := List.pairwise_append.1 hrs
  rw [List.filterMap_append] at hout
  have hcut : splice? 0 (us ++ (line ++ vs)) (before.filterMap (edit? text) ++
      after.filterMap (edit? text)) = some out := htext ▸ hout
  obtain ⟨us', rest', hus', hrest', rfl⟩ := splice?_cut hcut (fun e he => by
      obtain ⟨s, hs, hse⟩ := List.mem_filterMap.1 he
      obtain ⟨_, -, hput⟩ := edit?_eq_some hse
      have := hput.stop_lt hus htext (hbefore s hs)
      omega) (fun f hf => by
      obtain ⟨s, hs, hsf⟩ := List.mem_filterMap.1 hf
      obtain ⟨_, -, hput⟩ := edit?_eq_some hsf
      have := hafter s hs
      have := hput.start_le
      omega)
  rw [Nat.zero_add] at hrest'
  obtain ⟨line₂, vs₂, line', vs', hsplit, rfl, hline₂, hvs₂, hvs', hcases⟩ :=
    exists_rest htext hrs₂ hafter hrest'
  obtain ⟨rfl, rfl⟩ := line_inj hn hvs hline₂ hvs₂ hsplit
  have hcount : us'.count '\n' = us.count '\n' :=
    @count_of_splice? [] _ _ _ hus'
      (fun e he => newline_not_mem_edit (fun s hs => hsolid s (by simp [hs])) he)
      fun e he p ⟨xs, ys, hnew, hp⟩ => newline_not_covered he
        ⟨xs, ys ++ (line ++ vs), by simpa [htext] using congrArg (· ++ (line ++ vs)) hnew, hp⟩
  have hstart := hus.update htext hbefore hus'
  have hcases : line' = line ∨ Annotated (before ++ after) us vs line line' :=
    hcases.imp And.right fun h => h.mono (List.subset_append_right before after)
  have hn' : '\n' ∉ line' := by
    rcases hcases with rfl | h
    · exact hn
    · exact h.newline_not_mem hn hsolid
  exact ⟨us, vs, line', htext, rfl, hus, hn, hcount ▸ getElem?_splitOnChar hstart hn' hvs', hcases⟩

end

end

/-- Line number `i` of a text, counted from zero, holds the end of a statement that exactly one rule
provides. What stands up to that end stays, and what follows was blank or began as an annotation and
is the annotation now; carriage returns stay. -/
def RewritesLine (text : List Char) (imports : List ResolvedImport) (i : Nat)
    (line line' : List Char) : Prop :=
  ∃ r ∈ imports, ∃ label, IsProvided r label ∧ lineAt text r.source.stop = i + 1 ∧
    ∃ rest rest' ends, line = lineFront text r.source.stop ++ (rest ++ ends) ∧
      line' = lineFront text r.source.stop ++ (rest' ++ ends) ∧ IsReplaceable rest ∧
      trim rest' = written label ∧ ∀ c ∈ ends, c = '\r'

/-- **An update keeps the lines of a text**, but for the ends of those on which a statement ends
that is to be annotated. -/
theorem update_lines {text : String} {imports : List ResolvedImport}
    (hlaid : Laid text.toList ((statements imports).map (·.source)))
    (hlabels : ∀ r ∈ imports, ∀ label ∈ r.candidates,
      ∀ c ∈ label.canonical.toList, isBlank c = false) :
    ∃ new, (update text imports).result? text = some new ∧
      (splitOnChar '\n' new.toList).length = (splitOnChar '\n' text.toList).length ∧
      ∀ (i : Nat) (line line' : List Char), (splitOnChar '\n' text.toList)[i]? = some line →
        (splitOnChar '\n' new.toList)[i]? = some line' →
          line' = line ∨ RewritesLine text.toList imports i line line' := by
  have hrs := List.pairwise_map.1 hlaid.apart
  have hstarts := starts_ascend hrs
  obtain ⟨out, hout⟩ := (fits_edits hrs).exists_splice?
  have hsolid : ∀ s ∈ statements imports, ∀ label ∈ s.candidates, IsSolid (written label) :=
    fun s hs label hlabel => isSolid_written (hlabels s (List.mem_filter.1 hs).1 label hlabel)
  have hresult : (update text imports).result? text = some (String.ofList out) := by
    rw [filterMap_statements] at hstarts hout
    exact result?_update hstarts hout
  refine ⟨_, hresult, ?_, fun i line line' hi hi' => ?_⟩
  · rw [String.toList_ofList, length_splitOnChar, length_splitOnChar,
      @count_of_splice? [] _ _ _ hout (fun e he => newline_not_mem_edit hsolid he)
        fun e he p hp => newline_not_covered he hp]
  · obtain ⟨us, vs, _, htext, rfl, hus, hn, hnew, hcases⟩ :=
      exists_line_of_update hrs hsolid hout hi
    rw [String.toList_ofList] at hi'
    cases hnew.symm.trans hi'
    rcases hcases with rfl | @⟨s, label, mid, lead, old, new, ends, hs, hlabel, hstop, hends, hr, -⟩
    · exact .inl rfl
    · have hmid : '\n' ∉ mid := fun h => hn (List.mem_append_left _ h)
      obtain ⟨hfront, hat⟩ := line_of_place hus hmid (lead ++ (old ++ ends) ++ vs)
      rw [← hstop, ← List.append_assoc mid, ← htext] at hfront hat
      exact .inr ⟨s, (List.mem_filter.1 hs).1, label, hlabel, hat, lead ++ old, lead ++ new, ends,
        by simp [hfront], by simp [hfront], hr.isReplaceable,
        hr.trim_new (hsolid s hs label (by simp [hlabel.1])), hends⟩

/-! ## A comment that only begins as an annotation -/

def remarkText : String :=
  "import \"x\"; // from the docs\n"

def remarkImport : ResolvedImport :=
  ⟨⟨"x", .sideEffect, 1, 1, 0, 11⟩, [.ofPackage "a" "a"]⟩

theorem imports_remark :
    TypeScript.imports "a.ts" remarkText = .ok ([remarkImport].map (·.source)) := by
  decide +kernel

theorem laid_remark : Laid remarkText.toList ((statements [remarkImport]).map (·.source)) :=
  laid_imports (by decide) (by decide) imports_remark

theorem update_remark :
    update remarkText [remarkImport] = .changed "import \"x\"; // from //a:a\n" := by
  have hedits : edits remarkText.toList [remarkImport] = [⟨12, 28, "// from //a:a".toList⟩] := by
    rw [edits_eq (by decide +kernel)]
    decide +kernel
  rw [update, hedits]
  decide +kernel

theorem update_lines_remark :
    Laid remarkText.toList ((statements [remarkImport]).map (·.source)) ∧
      (∀ r ∈ [remarkImport], ∀ label ∈ r.candidates,
        ∀ c ∈ label.canonical.toList, isBlank c = false) ∧
      update remarkText [remarkImport] = .changed "import \"x\"; // from //a:a\n" ∧
      RewritesLine remarkText.toList [remarkImport] 0 "import \"x\"; // from the docs".toList
        "import \"x\"; // from //a:a".toList := by
  have hall : ∀ r ∈ [remarkImport], ∀ label ∈ r.candidates,
      label.canonical.toList.all (fun c => !isBlank c) = true := by decide +kernel
  have hlabels : ∀ r ∈ [remarkImport], ∀ label ∈ r.candidates,
      ∀ c ∈ label.canonical.toList, isBlank c = false :=
    fun r hr label hlabel c hc => by simpa using List.all_eq_true.1 (hall r hr label hlabel) c hc
  obtain ⟨new, hnew, -, hlines⟩ := update_lines laid_remark hlabels
  rw [update_remark] at hnew
  cases hnew
  refine ⟨laid_remark, hlabels, update_remark, ?_⟩
  exact (hlines 0 _ _ (by decide +kernel) (by decide +kernel)).resolve_left (by decide)

/-- The rest of a line is an annotation: one word stands behind the marker. -/
def IsAnnotation (rest : List Char) : Prop :=
  ∃ word, trim rest = marker ++ word ∧ word ≠ [] ∧ ∀ c ∈ word, isBlank c = false

/-- **A remark is lost**: it is no annotation, and an update writes one in its place. -/
theorem update_overwrites :
    TypeScript.imports "a.ts" remarkText = .ok [remarkImport.source] ∧
      ¬ IsAnnotation " // from the docs".toList ∧
      update remarkText [remarkImport] = .changed "import \"x\"; // from //a:a\n" := by
  refine ⟨imports_remark, ?_, update_remark⟩
  rintro ⟨word, hrest, -, hword⟩
  have hstrip : strip? marker (trim " // from the docs".toList) = some word :=
    strip?_eq_some_iff.2 hrest
  have hdocs : word = "the docs".toList := by
    rw [show strip? marker (trim " // from the docs".toList) = some "the docs".toList by decide]
      at hstrip
    exact (Option.some.inj hstrip).symm
  exact absurd (hword ' ' (by rw [hdocs]; decide)) (by decide)

end BuildSync.Annotation
