import Mathlib.Data.List.Basic
import BuildSync.Annotation
import BuildSync.Proofs.Text.Lines

/-!
# What an update of annotations writes

An annotation takes the rest of the line on which its statement ends, if that is blank or begins as
an annotation does. Of the statements that end on one line only the last one can be annotated, as
behind the others something stands that is neither; so each line has one edit at most, and the edits
can be made in one pass as well as one after the other.

* `Laid`: where the statements of a text stand; `Laid.apart`: what is between the ends of two.
* `IsReplaceable`: a rest of a line that an annotation can take; `Rewrites`, `Puts`: how one does,
  on its line and in the text. `edit?_eq_some`: every edit of an update is such.
* `fits_edits`: the edits of a text can be made in one pass, and `result?_update`: they are.
* `exists_rest`: what the rest of a line is after an update.
-/

namespace BuildSync.Annotation

open Text

/-! ## Where statements stand -/

/-- Statements of a text, in their order: they hold something, do not overlap, and where one starts
on the line on which another ends, no comment begins behind that end. So are the imports of a source
that are statements (`laid_imports`). -/
structure Laid (text : List Char) (statements : List Import) : Prop where
  stand : ∀ a ∈ statements, ∃ front held back, text = front ++ (held ++ back) ∧
    a.start = width front ∧ a.stop = width (front ++ held) ∧ trimStart held ≠ []
  ordered : statements.Pairwise fun a b => a.stop ≤ b.start
  uncommented : statements.Pairwise fun a b => ∀ front gap back, text = front ++ (gap ++ back) →
    a.stop = width front → b.start = width (front ++ gap) → '\n' ∉ gap →
      startsWith (trimStart (gap ++ back)) ['/', '/'] = false

/-- The imports that are statements. -/
def statements (imports : List ResolvedImport) : List ResolvedImport :=
  imports.filter (·.source.kind ≠ .reference)

/-- Between two ends of statements a line ends, or something stands there that is no comment. -/
def Apart (text : List Char) (m n : Nat) : Prop :=
  ∃ xs mid ys, text = xs ++ (mid ++ ys) ∧ m = width xs ∧ n = width (xs ++ mid) ∧
    ('\n' ∈ mid ∨ trimStart mid ≠ [] ∧ startsWith (trimStart (mid ++ ys)) ['/', '/'] = false)

/-- What stands between two ends, wherever the text is cut at them. -/
theorem Apart.between {text xs mid ys : List Char} {m n : Nat} (h : Apart text m n)
    (htext : text = xs ++ (mid ++ ys)) (hm : m = width xs) (hn : n = width (xs ++ mid)) :
    '\n' ∈ mid ∨ trimStart mid ≠ [] ∧ startsWith (trimStart (mid ++ ys)) ['/', '/'] = false := by
  obtain ⟨xs', mid', ys', htext', hm', hn', hmid⟩ := h
  obtain ⟨rfl, hrest⟩ := append_inj_width (htext.symm.trans htext') (hm.symm.trans hm')
  rw [width_append] at hn hn'
  obtain ⟨rfl, rfl⟩ := append_inj_width hrest (by omega)
  exact hmid

theorem Laid.apart {text : List Char} {found : List Import} (h : Laid text found) :
    found.Pairwise fun a b => Apart text a.stop b.stop := by
  refine (h.ordered.and h.uncommented).imp_of_mem fun {a b} ha hb hab => ?_
  obtain ⟨hle, hgap⟩ := hab
  obtain ⟨front, held, back, rfl, -, hstop, -⟩ := h.stand a ha
  obtain ⟨front', held', back', htext, hstart', hstop', hheld⟩ := h.stand b hb
  rw [← List.append_assoc] at htext
  obtain ⟨gap, rfl, rfl⟩ := exists_between htext (by omega)
  have hgap := hgap (front ++ held) gap (held' ++ back') (by simp) hstop hstart'
  refine ⟨front ++ held, gap ++ held', back', by simp, hstop, by simpa using hstop', ?_⟩
  by_cases hn : '\n' ∈ gap
  · exact .inl (by simp [hn])
  · refine .inr ⟨fun hblank => hheld ?_, by simpa using hgap hn⟩
    rw [trimStart_eq_nil] at hblank ⊢
    exact fun c hc => hblank c (List.mem_append_right gap hc)

/-! ## The rest of a line -/

/-- The rest of a line is blank or a comment that begins as an annotation does. -/
def IsReplaceable (rest : List Char) : Prop :=
  trimStart rest = [] ∨ startsWith (trimStart rest) marker = true

theorem exists_lineRest (cs : List Char) : ∃ ends vs, cs = lineRest cs ++ (ends ++ vs) ∧
    '\n' ∉ lineRest cs ++ ends ∧ (∀ c ∈ ends, c = '\r') ∧ BehindLine vs := by
  obtain ⟨line, vs, rfl, hline, hvs⟩ := exists_line cs
  obtain ⟨ends, hends, hall⟩ := exists_trimEndOf (· = '\r') line
  refine ⟨ends, vs, ?_, ?_, fun c hc => by simpa using hall c hc, hvs⟩
  · rw [lineRest, takeWhile_line hline hvs, ← List.append_assoc, ← hends]
  · rwa [lineRest, takeWhile_line hline hvs, ← hends]

theorem lineRest_append {line ends vs : List Char} (hline : '\n' ∉ line)
    (hends : ∀ c ∈ ends, c = '\r') (hvs : BehindLine vs) :
    lineRest (line ++ (ends ++ vs)) = trimEndOf (· = '\r') line := by
  have hn : '\n' ∉ line ++ ends := by
    rw [List.mem_append, not_or]
    exact ⟨hline, fun h => absurd (hends '\n' h) (by decide)⟩
  rw [lineRest, ← List.append_assoc, takeWhile_line hn hvs]
  exact trimEndOf_append_of_all line (by simpa using hends)

theorem startsWith_comment {cs : List Char} (h : startsWith cs marker = true) (ys : List Char) :
    startsWith (cs ++ ys) ['/', '/'] = true := by
  obtain ⟨rest, rfl⟩ := startsWith_iff.1 h
  obtain ⟨tail, htail⟩ : ∃ tail, marker = ['/', '/'] ++ tail := ⟨marker.drop 2, by decide⟩
  exact startsWith_iff.2 ⟨tail ++ (rest ++ ys), by simp [htail]⟩

/-- What is neither blank nor a comment keeps its line from being annotated. -/
theorem not_isReplaceable {mid ys : List Char} (hn : '\n' ∉ mid) (hb : trimStart mid ≠ [])
    (hc : startsWith (trimStart (mid ++ ys)) ['/', '/'] = false) :
    ¬ IsReplaceable (lineRest (mid ++ ys)) := by
  obtain ⟨ends, vs, hcs, hline, hends, hvs⟩ := exists_lineRest (mid ++ ys)
  generalize lineRest (mid ++ ys) = rest at hcs hline ⊢
  rintro (hblank | hmarker)
  · apply hb
    rw [trimStart_eq_nil] at hblank ⊢
    obtain ⟨line, vs', hys, hline', hvs'⟩ := exists_line ys
    subst hys
    rw [← List.append_assoc, ← List.append_assoc] at hcs
    have hfront : '\n' ∉ mid ++ line := by simp [hn, hline']
    obtain ⟨hsplit, -⟩ := line_inj hfront hvs' hline hvs hcs
    intro c hcmid
    rcases List.mem_append.1 (hsplit ▸ List.mem_append_left line hcmid) with h | h
    · exact hblank c h
    · rw [hends c h]
      decide
  · have hne : trimStart rest ≠ [] := by
      intro hnil
      rw [hnil] at hmarker
      exact absurd hmarker (by decide)
    rw [hcs, trimStart_append hne, startsWith_comment hmarker] at hc
    cases hc

/-! ## Edits -/

/-- Exactly one rule provides the statement. -/
def IsProvided (resolved : ResolvedImport) (label : Label) : Prop :=
  resolved.candidates = [label] ∧ resolved.source.kind ≠ .reference

/-- What stands behind `lead` in the rest of a line, and what an annotation makes of it. -/
inductive Rewrites (wanted : List Char) : (lead old new : List Char) → Prop
  | insert {old : List Char} (blank : trimStart old = []) : Rewrites wanted [] old (' ' :: wanted)
  | renew {lead old : List Char} (blank : trimStart lead = [])
    (marked : startsWith old marker = true) : Rewrites wanted lead old wanted

/-- An annotation that takes no more and no less than its own place on a line. -/
structure IsSolid (wanted : List Char) : Prop where
  newline : '\n' ∉ wanted
  front : trimStart wanted = wanted
  back : ∀ c, wanted.getLast? = some c → isBlank c = false
  ne_nil : wanted ≠ []

theorem isSolid_of_last {label : Label} (hnewline : '\n' ∉ label.canonical.toList)
    (hlast : ∀ c, label.canonical.toList.getLast? = some c → isBlank c = false) :
    IsSolid (written label) := by
  have hne : label.canonical.toList ≠ [] := by
    simp [Label.canonical]
  refine ⟨fun hn => ?_, ?_, fun c hc => ?_, by simp [written, hne]⟩
  · rcases List.mem_append.1 hn with hn | hn
    · exact absurd hn (by decide)
    · exact hnewline hn
  · exact trimStart_cons_of_not (c := '/') (by decide) _
  · rw [written, List.getLast?_append_of_ne_nil _ hne] at hc
    exact hlast c hc

theorem isSolid_written {label : Label} (h : ∀ c ∈ label.canonical.toList, isBlank c = false) :
    IsSolid (written label) :=
  isSolid_of_last (fun hn => absurd (h _ hn) (by decide)) fun c hc => h c (List.mem_of_getLast? hc)

theorem replacement?_eq_some {stop : Nat} {rest wanted : List Char} {e : Edit}
    (h : replacement? stop rest wanted = some e) :
    ∃ lead old, rest = lead ++ old ∧ e.start = stop + width lead ∧
      e.stop = e.start + width old ∧ Rewrites wanted lead old e.text := by
  dsimp only [replacement?] at h
  split at h
  · rename_i hblank
    cases h
    exact ⟨[], rest, rfl, by simp, by simp, .insert hblank⟩
  · split at h
    · rename_i hmarked
      cases h
      obtain ⟨lead, hrest, hlead⟩ := exists_trimStart rest
      have hwidth : width rest = width lead + width (trimStart rest) := by
        rw [← width_append, ← hrest]
      refine ⟨lead, trimStart rest, hrest, ?_, ?_, .renew (trimStart_eq_nil.2 hlead) hmarked.1⟩
      · dsimp only
        omega
      · dsimp only
        omega
    · cases h

theorem trim_of_replacement?_eq_none {stop : Nat} {rest wanted : List Char}
    (h : replacement? stop rest wanted = none) (hr : IsReplaceable rest) : trim rest = wanted := by
  dsimp only [replacement?] at h
  split at h
  · cases h
  · rename_i hne
    split at h
    · cases h
    · rename_i hkept
      have hmarked := hr.resolve_left hne
      exact Classical.byContradiction fun hstale => hkept ⟨hmarked, hstale⟩

theorem replacement?_eq_none {stop : Nat} {rest wanted : List Char} (hw : wanted ≠ [])
    (h : IsReplaceable rest → trim rest = wanted) : replacement? stop rest wanted = none := by
  dsimp only [replacement?]
  split
  · rename_i hblank
    refine absurd (h (.inl hblank)).symm ?_
    rw [trim, hblank]
    exact hw
  · exact if_neg fun hstale => hstale.2 (h (.inr hstale.1))

namespace Rewrites

variable {wanted lead old new : List Char}

theorem isReplaceable (h : Rewrites wanted lead old new) : IsReplaceable (lead ++ old) := by
  cases h with
  | insert blank => exact .inl blank
  | renew blank marked =>
    obtain ⟨rest, rfl⟩ := startsWith_iff.1 marked
    obtain ⟨tail, htail⟩ : ∃ tail, marker = '/' :: tail := ⟨marker.drop 1, by decide⟩
    refine .inr ?_
    rw [trimStart_append_of_eq_nil blank, htail, List.cons_append,
      trimStart_cons_of_not (by decide), ← List.cons_append, ← htail]
    exact marked

theorem trim_new (h : Rewrites wanted lead old new) (hw : IsSolid wanted) :
    trim (lead ++ new) = wanted := by
  have hstart : trimStart (lead ++ new) = wanted := by
    cases h with
    | insert blank =>
      have hspace : trimStart [' '] = [] := by decide
      rw [List.nil_append, ← List.singleton_append, trimStart_append_of_eq_nil hspace, hw.front]
    | renew blank marked => rw [trimStart_append_of_eq_nil blank, hw.front]
  rw [trim, hstart, trimEnd]
  exact trimEndOf_eq_self hw.back

theorem newline_not_mem (h : Rewrites wanted lead old new) (hw : IsSolid wanted) :
    '\n' ∉ new := by
  cases h with
  | insert blank =>
    rw [List.mem_cons, not_or]
    exact ⟨by decide, hw.newline⟩
  | renew blank marked => exact hw.newline

/-- An annotation is the last thing on its line. -/
theorem getLast?_new (h : Rewrites wanted lead old new) (hw : IsSolid wanted) (xs : List Char) :
    (xs ++ new).getLast? = wanted.getLast? := by
  cases h with
  | insert blank =>
    rw [← List.singleton_append, ← List.append_assoc,
      List.getLast?_append_of_ne_nil _ hw.ne_nil]
  | renew blank marked => rw [List.getLast?_append_of_ne_nil _ hw.ne_nil]

/-- **An annotation is read back** from the rest of its line. -/
theorem lineRest_new (h : Rewrites wanted lead old new) (hw : IsSolid wanted) (hlead : '\n' ∉ lead)
    {ends vs : List Char} (hends : ∀ c ∈ ends, c = '\r') (hvs : BehindLine vs) :
    lineRest (lead ++ (new ++ (ends ++ vs))) = lead ++ new := by
  have hline : '\n' ∉ lead ++ new := by
    rw [List.mem_append, not_or]
    exact ⟨hlead, h.newline_not_mem hw⟩
  rw [← List.append_assoc, lineRest_append hline hends hvs]
  refine trimEndOf_eq_self fun c hc => ?_
  rw [h.getLast?_new hw] at hc
  refine decide_eq_false fun hreturn => ?_
  exact absurd (hw.back c hc) (by rw [hreturn]; decide)

/-- An annotation makes no comment of what stands in front of it. -/
theorem startsWith_new (h : Rewrites wanted lead old new) {mid : List Char}
    (hb : trimStart mid ≠ []) {ys zs : List Char}
    (hc : startsWith (trimStart (mid ++ (lead ++ (old ++ ys)))) ['/', '/'] = false) :
    startsWith (trimStart (mid ++ (lead ++ (new ++ zs)))) ['/', '/'] = false := by
  rw [trimStart_append hb] at hc ⊢
  match hmid : trimStart mid with
  | [] => exact absurd hmid hb
  | c :: d :: ds => simpa [hmid, startsWith, strip?] using hc
  | [c] =>
    by_cases hslash : c = '/'
    · subst hslash
      cases h with
      | insert blank => simp [startsWith, strip?]
      | renew blank marked =>
        cases lead with
        | nil =>
          obtain ⟨rest, rfl⟩ := startsWith_iff.1 marked
          obtain ⟨tail, htail⟩ : ∃ tail, marker = '/' :: tail := ⟨marker.drop 1, by decide⟩
          simp [hmid, htail, startsWith, strip?] at hc
        | cons b bs =>
          have hb : isBlank b = true := trimStart_eq_nil.1 blank b List.mem_cons_self
          have hne : '/' ≠ b := fun heq => absurd (heq ▸ hb) (by decide)
          simp [startsWith, strip?, hne]
    · simp [startsWith, strip?, Ne.symm hslash]

end Rewrites

/-- An edit writes the annotation `wanted` behind the byte `n` of a text. -/
def Puts (text : List Char) (n : Nat) (wanted : List Char) (e : Edit) : Prop :=
  ∃ xs lead old ends vs, text = xs ++ (lead ++ (old ++ (ends ++ vs))) ∧ n = width xs ∧
    e.start = n + width lead ∧ e.stop = e.start + width old ∧ '\n' ∉ lead ++ (old ++ ends) ∧
    (∀ c ∈ ends, c = '\r') ∧ BehindLine vs ∧
    lineRest (lead ++ (old ++ (ends ++ vs))) = lead ++ old ∧ Rewrites wanted lead old e.text

/-- What is to be known of an edit: the statement that it annotates. -/
theorem edit?_eq_some {text : List Char} {r : ResolvedImport} {e : Edit}
    (h : edit? text r = some e) :
    ∃ label, IsProvided r label ∧ Puts text r.source.stop (written label) e := by
  unfold edit? at h
  split at h
  · rename_i label hlabel
    split at h
    · cases h
    · rename_i hkind
      split at h
      · rename_i xs ys hcut
        obtain ⟨rfl, hwidth⟩ := splitAt?_eq_some hcut
        obtain ⟨lead, old, hrest, hstart, hstop, hrewrites⟩ := replacement?_eq_some h
        obtain ⟨ends, vs, hys, hline, hends, hvs⟩ := exists_lineRest ys
        rw [hrest, List.append_assoc] at hys hline
        exact ⟨label, ⟨hlabel, hkind⟩, xs, lead, old, ends, vs, by rw [hys], hwidth, hstart, hstop,
          hline, hends, hvs, by rw [← hys, hrest], hrewrites⟩
      · cases h
  · cases h

theorem Puts.isReplaceable {text xs ys wanted : List Char} {n : Nat} {e : Edit}
    (h : Puts text n wanted e) (htext : text = xs ++ ys) (hn : n = width xs) :
    IsReplaceable (lineRest ys) := by
  obtain ⟨xs', lead, old, ends, vs, rfl, hn', -, -, -, -, -, hrest, hrewrites⟩ := h
  obtain ⟨rfl, rfl⟩ := append_inj_width htext (hn'.symm.trans hn)
  rw [hrest]
  exact hrewrites.isReplaceable

/-! ## One edit a line -/

/-- Between two edits a line ends. -/
def Below (text : List Char) (e f : Edit) : Prop :=
  ∃ p, IsNewline text p ∧ e.stop ≤ p ∧ p < f.start

theorem Apart.le {text : List Char} {m n : Nat} (h : Apart text m n) : m ≤ n := by
  obtain ⟨xs, mid, ys, -, rfl, rfl, -⟩ := h
  simp

/-- **Of the statements that end on one line only the last one is annotated**: behind an edit its
line ends before the next statement does. -/
theorem Puts.exists_isNewline {text wanted : List Char} {m n : Nat} {e : Edit}
    (h : Puts text m wanted e) (hmn : Apart text m n) :
    ∃ p, IsNewline text p ∧ e.stop ≤ p ∧ p < n := by
  obtain ⟨xs, mid, ys, htext, hm, hn, hmid⟩ := hmn
  have hr := h.isReplaceable htext hm
  -- A line that ends in between ends behind the edit; what stands in between on one line would
  -- have kept the edit from being made.
  by_cases hnew : '\n' ∈ mid
  · obtain ⟨us, vs, rfl, hus⟩ := List.eq_append_cons_of_mem hnew
    obtain ⟨xs', lead, old, ends, vs', htext', hm', hstart, hstop, hline, -, hvs', -, -⟩ := h
    refine ⟨width (xs ++ us), ⟨xs ++ us, vs ++ ys, by simp [htext], rfl⟩, ?_, ?_⟩
    · obtain ⟨-, hrest⟩ := append_inj_width (htext.symm.trans htext') (hm.symm.trans hm')
      have hrest : us ++ '\n' :: (vs ++ ys) = lead ++ (old ++ ends) ++ vs' := by
        simpa using hrest
      obtain ⟨rfl, -⟩ := line_inj hus (.inr ⟨_, rfl⟩) hline hvs' hrest
      simp only [width_append] at *
      omega
    · have := ('\n' : Char).utf8Size_pos
      simp only [width_append, width_cons] at *
      omega
  · obtain ⟨hblank, hcomment⟩ := hmid.resolve_left hnew
    exact absurd hr (not_isReplaceable hnew hblank hcomment)

theorem Puts.start_le {text wanted : List Char} {n : Nat} {e : Edit} (h : Puts text n wanted e) :
    n ≤ e.start := by
  obtain ⟨_, _, _, _, _, _, _, hstart, -⟩ := h
  omega

theorem Puts.fits {text wanted : List Char} {n : Nat} {e : Edit} (h : Puts text n wanted e) :
    e.start ≤ e.stop ∧ IsBoundary 0 text e.start ∧ IsBoundary 0 text e.stop := by
  obtain ⟨xs, lead, old, ends, vs, rfl, hn, hstart, hstop, -⟩ := h
  refine ⟨by omega, ⟨xs ++ lead, old ++ (ends ++ vs), by simp, ?_⟩,
    ⟨xs ++ (lead ++ old), ends ++ vs, by simp, ?_⟩⟩
  · rw [width_append]
    omega
  · simp only [width_append]
    omega

section
variable {text : List Char} {rs : List ResolvedImport}
  (hrs : rs.Pairwise fun r s => Apart text r.source.stop s.source.stop)
include hrs

theorem pairwise_below : (rs.filterMap (edit? text)).Pairwise (Below text) := by
  refine List.pairwise_filterMap.2 (hrs.imp fun {r s} hapart e he f hf => ?_)
  obtain ⟨_, -, he⟩ := edit?_eq_some he
  obtain ⟨_, -, hf⟩ := edit?_eq_some hf
  obtain ⟨p, hp, hstop, hlt⟩ := he.exists_isNewline hapart
  exact ⟨p, hp, hstop, Nat.lt_of_lt_of_le hlt hf.start_le⟩

/-- **The edits of a text can be made in one pass.** -/
theorem fits_edits : Fits 0 text (rs.filterMap (edit? text)) := by
  have hputs : ∀ e ∈ rs.filterMap (edit? text), e.start ≤ e.stop ∧
      IsBoundary 0 text e.start ∧ IsBoundary 0 text e.stop := by
    intro e he
    obtain ⟨r, -, hr⟩ := List.mem_filterMap.1 he
    obtain ⟨_, -, hputs⟩ := edit?_eq_some hr
    exact hputs.fits
  refine ⟨(pairwise_below hrs).imp fun ⟨p, _, he, hf⟩ => by omega, fun e he => (hputs e he).1,
    fun e he => (hputs e he).2⟩

theorem starts_ascend : (rs.filterMap (edit? text)).Pairwise fun e f => e.start < f.start := by
  refine (pairwise_below hrs).imp_of_mem fun {e f} he _ ⟨p, _, hstop, hstart⟩ => ?_
  have := (fits_edits hrs).ordered e he
  omega

end

/-! ## A whole text -/

theorem filterMap_statements (text : List Char) (imports : List ResolvedImport) :
    (statements imports).filterMap (edit? text) = imports.filterMap (edit? text) := by
  rw [statements, List.filterMap_filter]
  refine List.filterMap_congr fun r _ => ?_
  split
  · rfl
  · rename_i hkind
    refine (Option.eq_none_iff_forall_ne_some.2 fun e he => ?_).symm
    obtain ⟨_, ⟨-, hne⟩, -⟩ := edit?_eq_some he
    exact hkind (by simpa using hne)

theorem edits_eq {text : List Char} {imports : List ResolvedImport}
    (h : (imports.filterMap (edit? text)).Pairwise fun e f => e.start < f.start) :
    edits text imports = (imports.filterMap (edit? text)).reverse := by
  have hdown := List.pairwise_reverse.2 h
  have hsorted : ((imports.filterMap (edit? text)).mergeSort fun a b => b.start ≤ a.start) =
      (imports.filterMap (edit? text)).reverse := by
    refine mergeSort_eq_of_perm (fun a b c hab hbc => ?_) (fun a b => ?_)
      (hdown.imp fun hab => decide_eq_true (Nat.le_of_lt hab)) (fun a ha b hb hab hba => ?_)
      (List.reverse_perm _).symm
    · simp only [decide_eq_true_eq] at *
      omega
    · simp only [Bool.or_eq_true, decide_eq_true_eq]
      omega
    · simp only [decide_eq_true_eq] at hab hba
      exact eq_of_start_eq h (List.mem_reverse.1 ha) (List.mem_reverse.1 hb) (by omega)
  rw [edits, hsorted]
  exact dropRepeatsOf_of_pairwise (hdown.imp Nat.ne_of_gt)

theorem replaceEach?_append (text : List Char) (es fs : List Edit) :
    replaceEach? text (es ++ fs) =
      (replaceEach? text es).bind fun text => replaceEach? text fs := by
  induction es generalizing text with
  | nil => rfl
  | cons e es ih =>
    simp only [List.cons_append, replaceEach?, Option.bind_assoc]
    exact congrArg _ (funext ih)

/-- **Edits made from the end of a text to its start** are the edits made in one pass. -/
theorem replaceEach?_reverse {xs ys out : List Char} {es : List Edit}
    (h : splice? (width xs) ys es = some out) :
    replaceEach? (xs ++ ys) es.reverse = some (xs ++ out) := by
  induction es generalizing xs ys out with
  | nil =>
    cases h
    rfl
  | cons e es ih =>
    obtain ⟨front, old, back, back', rfl, hstart, hstop, hback, rfl⟩ := splice?_cons_eq_some.1 h
    have hwidth : e.stop = width (xs ++ front ++ old) := by
      simp only [width_append]
      omega
    have he : e = ⟨width (xs ++ front), width (xs ++ front) + width old, e.text⟩ := by
      rw [← width_append, ← hwidth, width_append, ← hstart]
    have hrest := @ih (xs ++ front ++ old) back _ (hwidth ▸ hback)
    have hlast := replace?_width (xs ++ front) old back' e.text
    rw [← he] at hlast
    rw [List.reverse_cons, replaceEach?_append]
    simp only [List.append_assoc] at hrest hlast ⊢
    simp [hrest, replaceEach?, hlast]

/-- The text that an update of `text` leaves. -/
def Update.result? (text : String) : Update → Option String
  | .same => some text
  | .changed new => some new
  | .torn => none

/-- **An update makes its edits**, all of them or none. -/
theorem result?_update {text : String} {imports : List ResolvedImport} {out : List Char}
    (h : (imports.filterMap (edit? text.toList)).Pairwise fun e f => e.start < f.start)
    (hout : splice? 0 text.toList (imports.filterMap (edit? text.toList)) = some out) :
    (update text imports).result? text = some (String.ofList out) := by
  have hall := @replaceEach?_reverse [] _ _ _ hout
  rw [← edits_eq h, List.nil_append, List.nil_append] at hall
  unfold update
  split
  · rename_i hnil
    rw [hnil] at hall
    cases hall
    simp [Update.result?]
  · rw [hall]
    rfl

/-! ## The rest of a line after an update -/

theorem Puts.stop_le {text wanted : List Char} {n p : Nat} {e : Edit} (h : Puts text n wanted e)
    (hp : IsNewline text p) (hle : n ≤ p) : e.stop ≤ p := by
  obtain ⟨xs, lead, old, ends, vs, rfl, hn, hstart, hstop, hline, -⟩ := h
  refine Nat.le_of_not_lt fun hlt => hline ?_
  rw [← List.append_assoc lead] at hp ⊢
  exact List.mem_append_left ends (hp.mem (by omega) (by rw [width_append]; omega))

theorem Puts.exists_mid {xs line vs wanted : List Char} {n : Nat} {e : Edit}
    (h : Puts (xs ++ (line ++ vs)) n wanted e) (hline : '\n' ∉ line) (hvs : BehindLine vs)
    (hle : width xs ≤ n) (hstart : n ≤ width xs + width line) :
    ∃ mid lead old ends, line = mid ++ (lead ++ (old ++ ends)) ∧ n = width (xs ++ mid) ∧
      e.start = n + width lead ∧ e.stop = e.start + width old ∧ (∀ c ∈ ends, c = '\r') ∧
      Rewrites wanted lead old e.text := by
  obtain ⟨xs', lead, old, ends, vs', htext, rfl, hstart', hstop, hrest, hends, hvs', -, hr⟩ := h
  obtain ⟨mid, rfl, hmid⟩ := exists_between htext hle
  rw [width_append] at hstart
  obtain ⟨line', rfl, hline'⟩ := exists_between hmid.symm (by omega)
  have heq : line' ++ vs = lead ++ (old ++ ends) ++ vs' := by
    simpa using hline'.symm
  obtain ⟨rfl, -⟩ := line_inj (fun h => hline (List.mem_append_right mid h)) hvs hrest hvs' heq
  exact ⟨mid, lead, old, ends, rfl, rfl, hstart', hstop, hends, hr⟩

/-- A line has one edit at most. -/
theorem eq_nil_of_below {xs line vs : List Char} {e : Edit} {es fs : List Edit}
    (h : (e :: es ++ fs).Pairwise (Below (xs ++ (line ++ vs)))) (hline : '\n' ∉ line)
    (he : width xs ≤ e.stop) (hes : ∀ f ∈ es, f.start ≤ width xs + width line) : es = [] := by
  refine List.eq_nil_iff_forall_not_mem.2 fun f hf => ?_
  obtain ⟨p, hp, hstop, hstart⟩ := (List.pairwise_cons.1 h).1 f (List.mem_append_left fs hf)
  have := hes f hf
  exact hline (hp.mem (by omega) (by omega))

theorem Puts.stop_le_line {xs line vs wanted : List Char} {n : Nat} {e : Edit}
    (h : Puts (xs ++ (line ++ vs)) n wanted e) (hvs : BehindLine vs)
    (hle : n ≤ width xs + width line) : e.stop ≤ width xs + width line := by
  obtain rfl | ⟨ts, rfl⟩ := hvs
  · obtain ⟨_, _, htext, hstop⟩ := h.fits.2.2
    have hwidth := congrArg width htext
    simp only [width_append, width_nil] at hwidth
    omega
  · exact h.stop_le ⟨xs ++ line, ts, by simp, by simp⟩ hle

/-- What the rest of a line, behind `xs` and in front of `vs`, becomes when one of the statements is
annotated in it. -/
inductive Annotated (rs : List ResolvedImport) (xs vs : List Char) : (line line' : List Char) → Prop
  | intro {s : ResolvedImport} {label : Label} {mid lead old new ends : List Char} (mem : s ∈ rs)
    (provided : IsProvided s label) (stop : s.source.stop = width (xs ++ mid))
    (returns : ∀ c ∈ ends, c = '\r') (rewrites : Rewrites (written label) lead old new)
    (replaceable : IsReplaceable (lineRest (lead ++ (old ++ ends) ++ vs))) :
    Annotated rs xs vs (mid ++ (lead ++ (old ++ ends))) (mid ++ (lead ++ (new ++ ends)))

/-- **The rest of a line after an update**: it stays, or one of the statements is annotated in
it. -/
theorem exists_rest {text xs ys ys' : List Char} {rs : List ResolvedImport}
    (htext : text = xs ++ ys)
    (hrs : rs.Pairwise fun r s => Apart text r.source.stop s.source.stop)
    (hstop : ∀ r ∈ rs, width xs ≤ r.source.stop)
    (hout : splice? (width xs) ys (rs.filterMap (edit? text)) = some ys') :
    ∃ line vs line' vs', ys = line ++ vs ∧ ys' = line' ++ vs' ∧ '\n' ∉ line ∧ BehindLine vs ∧
      BehindLine vs' ∧
      ((∀ r ∈ rs, r.source.stop ≤ width xs + width line → edit? text r = none) ∧ line' = line ∨
        Annotated rs xs vs line line') := by
  subst htext
  obtain ⟨line, vs, rfl, hline, hvs⟩ := exists_line ys
  have hputs : ∀ e ∈ rs.filterMap (edit? (xs ++ (line ++ vs))), ∃ s ∈ rs, ∃ label,
      IsProvided s label ∧ Puts (xs ++ (line ++ vs)) s.source.stop (written label) e := by
    intro e he
    obtain ⟨s, hs, hse⟩ := List.mem_filterMap.1 he
    obtain ⟨label, hlabel⟩ := edit?_eq_some hse
    exact ⟨s, hs, label, hlabel⟩
  -- An edit belongs to the line on which its statement ends, so no edit goes across the end of one.
  obtain ⟨es₁, es₂, line', vs', hes, rfl, hline', -, hvs', h₁, h₂⟩ := splice?_line hout hvs
    fun e he => by
      obtain ⟨s, -, _, -, hput⟩ := hputs e he
      have := hput.start_le
      by_cases hle : s.source.stop ≤ width xs + width line
      · exact .inl (hput.stop_le_line hvs hle)
      · exact .inr (by omega)
  refine ⟨line, vs, line', vs', rfl, rfl, hline, hvs, hvs', ?_⟩
  cases es₁ with
  | nil =>
    cases hline'
    refine .inl ⟨fun r hr hle => ?_, rfl⟩
    refine Option.eq_none_iff_forall_ne_some.2 fun e he => ?_
    obtain ⟨_, -, hput⟩ := edit?_eq_some he
    have hmem : e ∈ es₂ := by
      rw [← List.nil_append es₂, ← hes]
      exact List.mem_filterMap.2 ⟨r, hr, he⟩
    have hstart := h₂ e hmem
    have := hput.stop_le_line hvs hle
    have := hput.fits.1
    omega
  | cons e more =>
    obtain ⟨s, hs, label, hlabel, hput⟩ := hputs e (by rw [hes]; simp)
    have hle := hput.start_le
    have hord := hput.fits.1
    have hstop := hstop s hs
    have hend := h₁ e List.mem_cons_self
    obtain rfl : more = [] := by
      refine eq_nil_of_below (hes ▸ pairwise_below hrs) hline (by omega) fun f hf => ?_
      have := h₁ f (List.mem_cons_of_mem e hf)
      obtain ⟨_, -, _, -, hput'⟩ := hputs f (by rw [hes]; simp [hf])
      exact Nat.le_trans hput'.fits.1 this
    obtain ⟨mid, lead, old, ends, rfl, hn, hstart, hstop', hends, hr⟩ :=
      hput.exists_mid hline hvs hstop (by omega)
    have hreplaceable : IsReplaceable (lineRest (lead ++ (old ++ ends) ++ vs)) :=
      hput.isReplaceable (by simp) hn
    have hsplice : splice? (width xs) (mid ++ (lead ++ (old ++ ends))) [e] =
        some (mid ++ lead ++ (e.text ++ ends)) := by
      refine splice?_cons_eq_some.2 ⟨mid ++ lead, old, ends, ends, by simp, ?_, hstop', rfl, rfl⟩
      simp only [width_append] at *
      omega
    have hnew : line' = mid ++ (lead ++ (e.text ++ ends)) := by
      simpa using (Option.some.inj (hsplice.symm.trans hline')).symm
    exact .inr (hnew ▸ .intro hs hlabel hn hends hr hreplaceable)

end BuildSync.Annotation
