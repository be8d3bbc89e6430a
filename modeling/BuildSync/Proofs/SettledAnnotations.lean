import BuildSync.Proofs.Annotations
import BuildSync.Proofs.TypeScript.LaidImports

/-!
# Annotations settle

* `settles_behind`: what an update leaves behind a statement.
* `moved`: where a byte of a text is after edits; `exists_moved`, `exists_settled`: the end of a
  statement, and what stands behind it.
* `update_again`: an update of the text that an update left does nothing.
* `update_settles`: a statement that is to be annotated is, besides.
-/

namespace BuildSync.Annotation

open Text

/-- **Behind a statement** its annotation stands after an update, if one could be written there;
otherwise nothing that could be taken for one stands there. -/
theorem settles_behind {text xs ys ys' : List Char} {r : ResolvedImport}
    {after : List ResolvedImport} (htext : text = xs ++ ys)
    (hrs : (r :: after).Pairwise fun r s => Apart text r.source.stop s.source.stop)
    (hr : r.source.stop = width xs)
    (hsolid : ∀ s ∈ r :: after, ∀ label ∈ s.candidates, IsSolid (written label))
    (hout : splice? (width xs) ys ((r :: after).filterMap (edit? text)) = some ys') :
    (∀ label, IsProvided r label → IsReplaceable (lineRest ys) →
      trim (lineRest ys') = written label) ∧
    (¬ IsReplaceable (lineRest ys) → ¬ IsReplaceable (lineRest ys')) := by
  obtain ⟨hapart, -⟩ := List.pairwise_cons.1 hrs
  have hstops : ∀ s ∈ r :: after, width xs ≤ s.source.stop := by
    rintro s (_ | ⟨_, hs⟩)
    · exact Nat.le_of_eq hr.symm
    · exact hr ▸ (hapart s hs).le
  obtain ⟨line, vs, line', vs', rfl, rfl, hline, hvs, hvs', hcases⟩ :=
    exists_rest htext hrs hstops hout
  rcases hcases with ⟨hnone, rfl⟩ | @⟨s, label, mid, lead, old, new, ends, hs, hlabel, hmid, hends,
    hrewrites, hreplaceable⟩
  · have hrest : lineRest (line' ++ vs') = lineRest (line' ++ vs) := by
      rw [lineRest, lineRest, takeWhile_line hline hvs', takeWhile_line hline hvs]
    rw [hrest]
    refine ⟨fun label hlabel hreplaceable => ?_, id⟩
    have hnone := hnone r List.mem_cons_self (by omega)
    have hcut : splitAt? r.source.stop text = some (xs, line' ++ vs) :=
      splitAt?_eq_some_iff.2 ⟨htext, hr⟩
    simp only [edit?, hlabel.1, if_neg hlabel.2, hcut] at hnone
    exact trim_of_replacement?_eq_none hnone hreplaceable
  · have hwanted := hsolid s hs label (by simp [hlabel.1])
    simp only [List.append_assoc] at *
    rcases List.mem_cons.1 hs with rfl | hs
    · have hsplit : xs ++ mid = (xs ++ mid) ++ [] := by simp
      obtain ⟨hmid, -⟩ := append_inj_width hsplit (hr.symm.trans hmid)
      have hnil : mid = [] := by simpa using hmid.symm
      subst hnil
      refine ⟨fun label' hlabel' _ => ?_, fun hnot => absurd hreplaceable hnot⟩
      have hsame : label = label' := by
        simpa using hlabel.1.symm.trans hlabel'.1
      subst hsame
      have hlead : '\n' ∉ lead := fun h => hline (by simp [h])
      rw [List.nil_append, hrewrites.lineRest_new hwanted hlead hends hvs']
      exact hrewrites.trim_new hwanted
    -- A later statement is annotated on the line, behind what keeps this one from being so.
    · have hnew : '\n' ∉ mid := fun h => hline (by simp [h])
      obtain ⟨hblank, hcomment⟩ := ((hapart s hs).between htext hr hmid).resolve_left hnew
      exact ⟨fun _ _ hyes => absurd hyes (not_isReplaceable hnew hblank hcomment),
        fun _ => not_isReplaceable hnew hblank (hrewrites.startsWith_new hblank hcomment)⟩

/-! ## Settled texts -/

theorem update_eq_same {text : String} {imports : List ResolvedImport}
    (h : ∀ r ∈ imports, edit? text.toList r = none) : update text imports = .same := by
  have hnil : edits text.toList imports = [] := by
    rw [edits, List.filterMap_eq_nil_iff.2 h, List.mergeSort_nil, dropRepeatsOf_of_pairwise .nil]
  rw [update, hnil]

/-- A statement that says what it should, or behind which nothing can be written, stays. -/
theorem edit?_eq_none {text front back : List Char} {r : ResolvedImport}
    (htext : text = front ++ back) (hstop : r.source.stop = width front)
    (h : ∀ label, IsProvided r label → IsReplaceable (lineRest back) →
      trim (lineRest back) = written label) : edit? text r = none := by
  refine Option.eq_none_iff_forall_ne_some.2 fun e he => ?_
  obtain ⟨label, hlabel, -⟩ := edit?_eq_some he
  have hcut : splitAt? r.source.stop text = some (front, back) :=
    splitAt?_eq_some_iff.2 ⟨htext, hstop⟩
  have hne : written label ≠ [] := List.append_ne_nil_of_left_ne_nil (by decide) _
  simp only [edit?, hlabel.1, if_neg hlabel.2, hcut,
    replacement?_eq_none hne (h label hlabel)] at he
  cases he

/-- Where the byte `n` of a text is after edits: those that start before it have put in and taken
away bytes. -/
def moved (es : List Edit) (n : Nat) : Nat :=
  n + ((es.filter (·.start < n)).map fun e => width e.text).sum -
    ((es.filter (·.start < n)).map fun e => e.stop - e.start).sum

/-- A resolved import at the place where edits have moved it. -/
def movedImport (es : List Edit) (resolved : ResolvedImport) : ResolvedImport :=
  { resolved with
    source := { resolved.source with
      start := moved es resolved.source.start
      stop := moved es resolved.source.stop } }

/-- An import stays in its place if nothing changes in front of its end. -/
theorem movedImport_of_le {es : List Edit} {r : ResolvedImport}
    (hr : r.source.start ≤ r.source.stop) (h : ∀ e ∈ es, r.source.stop ≤ e.start) :
    movedImport es r = r := by
  have hstays : ∀ n ≤ r.source.stop, moved es n = n := by
    intro n hn
    have hnone : es.filter (·.start < n) = [] := List.filter_eq_nil_iff.2 fun e he => by
      have := h e he
      simp
      omega
    simp [moved, hnone]
  rw [movedImport, hstays _ hr, hstays _ (Nat.le_refl _)]

theorem moved_reverse (es : List Edit) (n : Nat) : moved es.reverse n = moved es n := by
  simp only [moved, List.filter_reverse, List.map_reverse, List.sum_reverse]

theorem moved_append {xs xs' : List Char} {es fs : List Edit} (h : splice? 0 xs es = some xs')
    (hes : ∀ e ∈ es, e.start < width xs) (hfs : ∀ f ∈ fs, width xs ≤ f.start) :
    moved (es ++ fs) (width xs) = width xs' := by
  have hes' : es.filter (·.start < width xs) = es :=
    List.filter_eq_self.2 fun e he => decide_eq_true (hes e he)
  have hfs' : fs.filter (·.start < width xs) = [] :=
    List.filter_eq_nil_iff.2 fun f hf => by
      have := hfs f hf
      simp
      omega
  have hwidth := width_of_splice? h
  rw [moved, List.filter_append, hes', hfs', List.append_nil]
  omega

/-- **A statement after an update**: what stands before its end is as long as its end is moved, and
the edits behind it make what stands behind it. -/
theorem exists_moved {text new : List Char} {rs : List ResolvedImport} {r : ResolvedImport}
    {front back : List Char} (htext : text = front ++ back) (hr : r.source.stop = width front)
    (hrs : rs.Pairwise fun r s => Apart text r.source.stop s.source.stop) (hmem : r ∈ rs)
    (hout : splice? 0 text (rs.filterMap (edit? text)) = some new) :
    ∃ after front' back', (r :: after).Sublist rs ∧ new = front' ++ back' ∧
      moved (rs.filterMap (edit? text)) r.source.stop = width front' ∧
      splice? (width front) back ((r :: after).filterMap (edit? text)) = some back' := by
  obtain ⟨before, after, rfl⟩ := List.append_of_mem hmem
  obtain ⟨-, hbehind, hbefore⟩ := List.pairwise_append.1 hrs
  have hstops : ∀ e ∈ before.filterMap (edit? text), e.stop < width front := by
    intro e he
    obtain ⟨s, hs, hse⟩ := List.mem_filterMap.1 he
    obtain ⟨_, -, hput⟩ := edit?_eq_some hse
    obtain ⟨p, -, hstop, hlt⟩ := hput.exists_isNewline (hbefore s hs r List.mem_cons_self)
    omega
  have hstarts : ∀ e ∈ (r :: after).filterMap (edit? text), width front ≤ e.start := by
    intro e he
    obtain ⟨s, hs, hse⟩ := List.mem_filterMap.1 he
    obtain ⟨_, -, hput⟩ := edit?_eq_some hse
    have hle : r.source.stop ≤ s.source.stop := by
      rcases List.mem_cons.1 hs with rfl | hs
      · exact Nat.le_refl _
      · exact ((List.pairwise_cons.1 hbehind).1 s hs).le
    have := hput.start_le
    omega
  have hordered := (fits_edits hrs).ordered
  rw [List.filterMap_append] at hout hordered ⊢
  rw [htext] at hout
  obtain ⟨front', back', hfront, hback, rfl⟩ := splice?_cut hout
    (fun e he => by
      have := hstops e (htext ▸ he)
      omega)
    (fun f hf => by
      have := hstarts f (htext ▸ hf)
      omega)
  rw [← htext] at hfront hback
  refine ⟨after, front', back', List.sublist_append_right before (r :: after), rfl, ?_,
    by rwa [Nat.zero_add] at hback⟩
  rw [hr]
  refine moved_append hfront (fun e he => ?_) hstarts
  have := hstops e he
  have := hordered e (List.mem_append_left _ he)
  omega

/-- A statement after an update, and what stands behind it. -/
theorem exists_settled {text out front back : List Char} {rs : List ResolvedImport}
    {r : ResolvedImport}
    (hrs : rs.Pairwise fun r s => Apart text r.source.stop s.source.stop)
    (hsolid : ∀ s ∈ rs, ∀ label ∈ s.candidates, IsSolid (written label))
    (hout : splice? 0 text (rs.filterMap (edit? text)) = some out) (hr : r ∈ rs)
    (htext : text = front ++ back) (hstop : r.source.stop = width front) :
    ∃ front' back', out = front' ++ back' ∧
      moved (rs.filterMap (edit? text)) r.source.stop = width front' ∧
      (∀ label, IsProvided r label → IsReplaceable (lineRest back) →
        trim (lineRest back') = written label) ∧
      (¬ IsReplaceable (lineRest back) → ¬ IsReplaceable (lineRest back')) := by
  obtain ⟨after, front', back', hsub, rfl, hfront, hback⟩ := exists_moved htext hstop hrs hr hout
  exact ⟨front', back', rfl, hfront, settles_behind htext (hrs.sublist hsub) hstop
    (fun s hs => hsolid s (hsub.subset hs)) hback⟩

theorem mem_statements {imports : List ResolvedImport} {r : ResolvedImport} {label : Label}
    (hr : r ∈ imports) (hlabel : IsProvided r label) : r ∈ statements imports :=
  List.mem_filter.2 ⟨hr, by simpa using hlabel.2⟩

theorem moved_statements {text : List Char} {imports : List ResolvedImport}
    (h : (imports.filterMap (edit? text)).Pairwise fun e f => e.start < f.start) (n : Nat) :
    moved ((statements imports).filterMap (edit? text)) n = moved (edits text imports) n := by
  rw [edits_eq h, moved_reverse, filterMap_statements]

/-- **An update of the text that an update left** does nothing, where the statements have moved. -/
theorem update_again {text : String} {imports : List ResolvedImport}
    (hlaid : Laid text.toList ((statements imports).map (·.source)))
    (hsolid : ∀ r ∈ imports, ∀ label ∈ r.candidates, IsSolid (written label)) :
    ∃ new, (update text imports).result? text = some new ∧
      update new (imports.map (movedImport (edits text.toList imports))) = .same := by
  have hrs := List.pairwise_map.1 hlaid.apart
  have hstarts := starts_ascend hrs
  obtain ⟨out, hout⟩ := (fits_edits hrs).exists_splice?
  rw [filterMap_statements] at hstarts
  refine ⟨_, result?_update hstarts (filterMap_statements _ imports ▸ hout),
    update_eq_same fun r' hr' => ?_⟩
  obtain ⟨r, hr, rfl⟩ := List.mem_map.1 hr'
  by_cases hlabel : ∃ label, IsProvided r label
  · obtain ⟨label, hlabel⟩ := hlabel
    have hmem := mem_statements hr hlabel
    obtain ⟨front, held, back, htext, -, hstop, -⟩ :=
      hlaid.stand r.source (List.mem_map_of_mem hmem)
    obtain ⟨front', back', hnew, hfront, hyes, hno⟩ := exists_settled hrs
      (fun s hs => hsolid s (List.mem_filter.1 hs).1) hout hmem (by simpa using htext) hstop
    rw [moved_statements hstarts] at hfront
    refine edit?_eq_none (by simpa using hnew) hfront fun label hlabel hreplaceable => ?_
    -- What could be annotated now could be annotated before, so the annotation stands there.
    exact hyes label hlabel (Classical.byContradiction fun hnot => hno hnot hreplaceable)
  · refine Option.eq_none_iff_forall_ne_some.2 fun e he => hlabel ?_
    obtain ⟨label, hprovided, -⟩ := edit?_eq_some he
    exact ⟨label, hprovided⟩

/-- **Annotations settle.** -/
theorem update_settles {text : String} {imports : List ResolvedImport}
    (hlaid : Laid text.toList ((statements imports).map (·.source)))
    (hlabels : ∀ r ∈ imports, ∀ label ∈ r.candidates,
      ∀ c ∈ label.canonical.toList, isBlank c = false) :
    ∃ new, (update text imports).result? text = some new ∧
      (∀ r ∈ imports, ∀ label, IsProvided r label → ∀ front back, text.toList = front ++ back →
        r.source.stop = width front → IsReplaceable (lineRest back) →
          ∃ front' back', new.toList = front' ++ back' ∧
            moved (edits text.toList imports) r.source.stop = width front' ∧
            trim (lineRest back') = written label) ∧
      update new (imports.map (movedImport (edits text.toList imports))) = .same := by
  have hrs := List.pairwise_map.1 hlaid.apart
  have hstarts := starts_ascend hrs
  obtain ⟨out, hout⟩ := (fits_edits hrs).exists_splice?
  rw [filterMap_statements] at hstarts
  have hsolid : ∀ r ∈ imports, ∀ label ∈ r.candidates, IsSolid (written label) :=
    fun r hr label hlabel => isSolid_written (hlabels r hr label hlabel)
  have hresult := result?_update hstarts (filterMap_statements _ imports ▸ hout)
  obtain ⟨new, hnew, hagain⟩ := update_again hlaid hsolid
  cases hresult.symm.trans hnew
  refine ⟨_, hresult, fun r hr label hlabel front back htext hstop hreplaceable => ?_, hagain⟩
  obtain ⟨front', back', hnew, hfront, hyes, -⟩ := exists_settled hrs
    (fun s hs => hsolid s (List.mem_filter.1 hs).1) hout (mem_statements hr hlabel) htext hstop
  exact ⟨front', back', by simpa using hnew, by rw [← moved_statements hstarts, hfront],
    hyes label hlabel hreplaceable⟩

/-! ## Two statements on one line -/

def twoText : String :=
  "import \"a\"; import {b} from \"b\"; // from //old:b\r\n"

def twoImports : List ResolvedImport :=
  [⟨⟨"a", .sideEffect, 1, 1, 0, 11⟩, [.ofPackage "a" "a"]⟩,
    ⟨⟨"b", .value, 1, 1, 12, 32⟩, [.ofPackage "b" "b"]⟩]

theorem imports_two :
    TypeScript.imports "a.ts" twoText = .ok (twoImports.map (·.source)) := by
  decide +kernel

theorem laid_two : Laid twoText.toList ((statements twoImports).map (·.source)) :=
  laid_imports (by decide) (by decide) imports_two

theorem update_settles_two :
    TypeScript.imports "a.ts" twoText = .ok (twoImports.map (·.source)) ∧
      Laid twoText.toList ((statements twoImports).map (·.source)) ∧
      (∀ r ∈ twoImports, ∀ label ∈ r.candidates, ∀ c ∈ label.canonical.toList, isBlank c = false) ∧
      update twoText twoImports =
        .changed "import \"a\"; import {b} from \"b\"; // from //b:b\r\n" ∧
      update "import \"a\"; import {b} from \"b\"; // from //b:b\r\n"
        (twoImports.map (movedImport (edits twoText.toList twoImports))) = .same := by
  have hall : ∀ r ∈ twoImports, ∀ label ∈ r.candidates,
      label.canonical.toList.all (fun c => !isBlank c) = true := by decide +kernel
  have hlabels : ∀ r ∈ twoImports, ∀ label ∈ r.candidates, ∀ c ∈ label.canonical.toList,
      isBlank c = false :=
    fun r hr label hlabel c hc => by simpa using List.all_eq_true.1 (hall r hr label hlabel) c hc
  have hchanged : update twoText twoImports =
      .changed "import \"a\"; import {b} from \"b\"; // from //b:b\r\n" := by
    have hedits : edits twoText.toList twoImports = [⟨33, 48, "// from //b:b".toList⟩] := by
      rw [edits_eq (by decide +kernel)]
      decide +kernel
    rw [update, hedits]
    decide +kernel
  obtain ⟨new, hnew, -, hsame⟩ := update_settles laid_two hlabels
  rw [hchanged] at hnew
  cases hnew
  exact ⟨imports_two, laid_two, hlabels, hchanged, hsame⟩

end BuildSync.Annotation
