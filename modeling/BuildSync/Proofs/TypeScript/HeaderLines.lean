import Mathlib
import BuildSync.Proofs.AnnotatedLines
import BuildSync.Proofs.TypeScript.Directives

/-!
# The header of a source

The header of a source is as much of it as consists of blanks and comments. It is read by lines.

* `Step`, `Runs`: what a header consists of; `Runs.exists_step`: there is one way through it.
* `Directive`: a comment of the header, alone on its line, that refers to a module.
* `At`: where a line starts in the header; `At.tells`: what a line means for the lines behind it.
* `IsCrowded`: a comment of the header stands on the line on which another ends.
* `references_header`: what is found are directives of the header, in order, and all of them but
  those behind a crowded line (`references_crowded`).
-/

namespace BuildSync.TypeScript.Header

open Annotation (EndsInNewline)
open Relation (ReflTransGen)
open Text

/-! ## The header -/

/-- A part of a header: a blank, a comment up to the end of its line, or one up to its closing
sign. -/
inductive Step : List Char → List Char → Prop
  | blank {c : Char} {rest : List Char} (h : isBlank c = true) : Step (c :: rest) rest
  | remark {text body rest : List Char} (htext : text = body ++ rest) (h : '\n' ∉ body)
      (hrest : BehindLine rest) : Step ('/' :: '/' :: text) rest
  | comment {text body rest : List Char} (h : cut? ['*', '/'] text = some (body, rest)) :
      Step ('/' :: '*' :: text) rest

/-- The header of a text goes up to this rest of it, or further. -/
abbrev Runs : List Char → List Char → Prop :=
  ReflTransGen Step

theorem Step.unique : Relator.RightUnique Step := by
  intro text rest rest' h h'
  cases h with
  | blank h =>
    cases h' with
    | blank => rfl
    | remark => exact absurd h (by decide)
    | comment => exact absurd h (by decide)
  | remark htext hbody hrest =>
    cases h' with
    | blank h => exact absurd h (by decide)
    | remark htext' hbody' hrest' => exact (line_inj hbody hrest hbody' hrest' (htext ▸ htext')).2
  | comment hcut =>
    cases h' with
    | blank h => exact absurd h (by decide)
    | comment hcut' =>
      cases hcut.symm.trans hcut'
      rfl

theorem Step.suffix {text rest : List Char} (h : Step text rest) : rest <:+ text := by
  cases h with
  | blank => exact List.suffix_cons _ _
  | @remark _ body _ htext => exact ⟨'/' :: '/' :: body, by simp [htext]⟩
  | @comment _ body _ hcut =>
    exact ⟨'/' :: '*' :: (body ++ ['*', '/']), by simp [cut?_eq_some hcut]⟩

theorem Runs.suffix {text rest : List Char} (h : Runs text rest) : rest <:+ text := by
  induction h with
  | refl => exact List.suffix_refl _
  | tail _ hstep ih => exact hstep.suffix.trans ih

/-- **There is one way through a header**: from a place before another the next step goes towards
it. -/
theorem Runs.exists_step {text rest later : List Char} (h : Runs text rest)
    (hlater : Runs text later) (hlt : later.length < rest.length) :
    ∃ next, Step rest next ∧ Runs next later := by
  rcases ReflTransGen.total_of_right_unique Step.unique h hlater with hon | hback
  · rcases ReflTransGen.cases_head hon with rfl | hstep
    · exact absurd hlt (Nat.lt_irrefl _)
    · exact hstep
  · exact absurd (Runs.suffix hback).length_le (Nat.not_le.2 hlt)

theorem runs_blanks {gap : List Char} (h : ∀ c ∈ gap, isBlank c = true) (rest : List Char) :
    Runs (gap ++ rest) rest := by
  induction gap with
  | nil => exact .refl
  | cons c gap ih =>
    rw [List.forall_mem_cons] at h
    exact (ih h.2).head (.blank h.1)

/-! ## Directives -/

/-- A directive of a source: a comment of the header that is alone on its line and refers to a
module. -/
structure Directive (text : List Char) where
  /-- What stands in front of its line. -/
  before : List Char
  /-- What stands on its line before it. -/
  gap : List Char
  comment : List Char
  behind : List Char
  specifier : List Char
  text_eq : text = before ++ (gap ++ (comment ++ behind))
  starts : EndsInNewline before
  alone : ∀ c ∈ gap, isBlank c = true
  line : '\n' ∉ gap ++ comment
  ends : BehindLine behind
  header : Runs text (comment ++ behind)
  refers : Refers (trimEnd comment) specifier

/-- What is told of a directive: its line, and its place without the blanks around it. -/
def Directive.reference {text : List Char} (d : Directive text) : Import where
  specifier := String.ofList d.specifier
  kind := .reference
  line := d.before.count '\n' + 1
  endLine := d.before.count '\n' + 1
  start := width d.before + width d.gap
  stop := width d.before + width d.gap + width (trimEnd d.comment)

/-- In front of this place in the header of a text a comment stands on the line on which the comment
before it ends. -/
def IsCrowded (text place : List Char) : Prop :=
  ∃ inside body gap next rest, Runs text ('/' :: '*' :: inside) ∧
    cut? ['*', '/'] inside = some (body, gap ++ '/' :: next) ∧ (∀ c ∈ gap, isBlank c = true) ∧
    '\n' ∉ gap ∧ Step ('/' :: next) rest ∧ Runs rest place

/-! ## Lines of the header -/

/-- A line starts in the header of a text, outside or inside a comment. -/
inductive At (text rest : List Char) : Bool → Prop
  | outside (h : Runs text rest) : At text rest false
  | inside {body : List Char} (h : Runs text ('/' :: '*' :: (body ++ rest)))
      (hbody : IsQuiet ['*', '/'] body) : At text rest true

/-- Where the header goes on behind a line, if it does. -/
def Line.next? : Line → Option Bool
  | .code => none
  | .comment inside => some inside
  | .remark => some false

/-- What a line means for what stands behind it: the header goes on in the next line, or behind a
crowded line at best. -/
def Line.Tells (text behind : List Char) (line : Line) : Prop :=
  match line.next? with
  | none => ∀ later, Runs text later → ¬ IsCrowded text later → behind.length ≤ later.length
  | some inside => ∀ rest, behind = '\n' :: rest → At text rest inside

section
variable {text : List Char}

/-- From a place that is no blank the header goes on with a comment only. -/
theorem Runs.exists_comment {c : Char} {rest later : List Char} (h : Runs text (c :: rest))
    (hc : isBlank c = false) (hlater : Runs text later) (hlt : later.length < rest.length + 1) :
    c = '/' ∧ ∃ next, Step (c :: rest) next ∧ Runs next later := by
  obtain ⟨next, hstep, hnext⟩ := h.exists_step hlater hlt
  refine ⟨?_, next, hstep, hnext⟩
  cases hstep with
  | blank hblank => simp [hblank] at hc
  | remark => rfl
  | comment => rfl

theorem solid_close : ∀ c ∈ ['*', '/'], isBlank c = false := by
  simp [isBlank]

theorem At.exists_opening {rest : List Char} (h : At text rest true) :
    ∃ body, Runs text ('/' :: '*' :: (body ++ rest)) ∧ IsQuiet ['*', '/'] body := by
  cases h with
  | inside hrun hbody => exact ⟨_, hrun, hbody⟩

theorem At.blanks {inside : Bool} {gap rest : List Char} (h : At text (gap ++ rest) inside)
    (hgap : ∀ c ∈ gap, isBlank c = true) : At text rest inside := by
  cases h with
  | outside hrun => exact .outside (hrun.trans (runs_blanks hgap rest))
  | inside hrun hbody =>
    exact .inside (by simpa using hrun) (hbody.append (isQuiet_blanks solid_close (by simp) hgap))

/-- Where a line goes on behind a comment, the header has ended or is crowded. -/
theorem length_le_of_solid {inside body rest behind later : List Char}
    (h : Runs text ('/' :: '*' :: inside))
    (hcut : cut? ['*', '/'] inside = some (body, rest ++ behind))
    (hline : '\n' ∉ rest) (hsolid : trim rest ≠ []) (hlater : Runs text later)
    (hcrowded : ¬ IsCrowded text later) : behind.length ≤ later.length := by
  obtain ⟨gap, ends, hrest, hgap, -⟩ := exists_trim rest
  obtain ⟨c, cs, htrim⟩ := List.exists_cons_of_ne_nil hsolid
  rw [htrim, List.cons_append] at hrest
  rw [hrest, List.append_assoc, List.cons_append] at hcut
  have hnext : Runs text (c :: (cs ++ ends ++ behind)) :=
    (h.tail (.comment hcut)).trans (runs_blanks hgap _)
  refine Nat.not_lt.1 fun hlt => hcrowded ?_
  obtain ⟨rfl, next, hstep, hback⟩ :=
    hnext.exists_comment (isBlank_of_trim htrim) hlater (by simp; omega)
  refine ⟨inside, body, gap, _, next, h, hcut, hgap, fun hn => hline ?_, hstep, hback⟩
  rw [hrest]
  exact List.mem_append_left _ hn

/-- What the rest of a line that starts inside a comment means. -/
theorem At.tells_comment {lead body ends behind : List Char}
    (h : At text (lead ++ (body ++ (ends ++ behind))) true) (hlead : ∀ c ∈ lead, isBlank c = true)
    (hends : ∀ c ∈ ends, isBlank c = true) (hline : '\n' ∉ body ++ ends) :
    (Line.ofComment body).Tells text behind := by
  obtain ⟨front, hrun, hfront⟩ := h.exists_opening
  have hquiet := hfront.append (isQuiet_blanks solid_close (by simp) hlead)
  unfold Line.ofComment
  cases hcut : cut? ['*', '/'] body with
  | none =>
    rintro rest rfl
    have hblank : ∀ c ∈ ends ++ ['\n'], isBlank c = true :=
      List.forall_mem_append.2 ⟨hends, by simp [isBlank]⟩
    have hall := hquiet.append (isQuiet_of_none solid_close (by simp) hcut (by simp) hblank)
    exact .inside (by simpa using hrun) hall
  | some cut =>
    obtain ⟨held, rest⟩ := cut
    have hclose : cut? ['*', '/'] (front ++ (lead ++ (body ++ (ends ++ behind)))) =
        some (front ++ lead ++ held, rest ++ ends ++ behind) := by
      rw [← List.append_assoc, hquiet, cut?_append_right hcut, List.append_assoc rest]
      rfl
    dsimp only
    split
    · rename_i hblank
      rintro later rfl
      have hgap : ∀ c ∈ rest ++ ends ++ ['\n'], isBlank c = true :=
        List.forall_mem_append.2
          ⟨List.forall_mem_append.2 ⟨trim_eq_nil.1 hblank, hends⟩, by simp [isBlank]⟩
      exact At.blanks (.outside (by simpa using hrun.tail (.comment hclose))) hgap
    · rename_i hsolid
      intro later hlater hcrowded
      refine length_le_of_solid hrun hclose (fun hn => hline ?_) (fun hblank => hsolid ?_) hlater
        hcrowded
      · rw [cut?_eq_some hcut, List.append_assoc, List.append_assoc]
        exact List.mem_append_right _ (List.mem_append_right _ hn)
      · rw [trim_eq_nil] at hblank ⊢
        exact fun c hc => hblank c (List.mem_append_left _ hc)

/-- A header ends with a word that opens no comment. -/
theorem length_le_of_code {c : Char} {cs after later : List Char}
    (h : Runs text (c :: (cs ++ after))) (hsolid : isBlank c = false)
    (hafter : ∀ d ∈ after.head?, isBlank d = true) (hopen : strip? ['/', '*'] (c :: cs) = none)
    (hremark : strip? ['/', '/'] (c :: cs) = none) (hlater : Runs text later) :
    after.length ≤ later.length := by
  refine Nat.not_lt.1 fun hlt => ?_
  obtain ⟨rfl, next, hstep, -⟩ := h.exists_comment hsolid hlater (by simp; omega)
  have hopen := strip?_append_of_none (by simp [isBlank]) hopen hafter
  have hremark := strip?_append_of_none (by simp [isBlank]) hremark hafter
  rw [List.cons_append] at hopen hremark
  generalize cs ++ after = rest at hstep hopen hremark
  cases hstep with
  | blank hblank => exact absurd hblank (by decide)
  | remark => cases hremark
  | comment => cases hopen

/-- What a line that starts outside comments means, from its first word on. -/
theorem Runs.tells_word {word ends behind : List Char} (h : Runs text (word ++ (ends ++ behind)))
    (hne : word ≠ []) (hsolid : ∀ c ∈ word.head?, isBlank c = false)
    (hends : ∀ c ∈ ends, isBlank c = true) (hline : '\n' ∉ word ++ ends)
    (hbehind : BehindLine behind) : (Line.of false word).Tells text behind := by
  rw [Line.of, if_neg hne, if_neg Bool.false_ne_true]
  cases hopen : strip? ['/', '*'] word with
  | some body =>
    rw [strip?_eq_some_iff.1 hopen, List.append_assoc] at h hline
    have hat : At text ([] ++ (body ++ (ends ++ behind))) true :=
      @At.inside _ _ [] h (isQuiet_nil _)
    exact hat.tells_comment (by simp) hends fun hn => hline (List.mem_append_right _ hn)
  | none =>
    dsimp only
    split
    · rename_i hremark
      obtain ⟨body, hbody⟩ := startsWith_iff.1 hremark
      rw [hbody, List.append_assoc] at h hline
      rintro rest rfl
      have hnext : Step ('/' :: '/' :: (body ++ (ends ++ '\n' :: rest))) ('\n' :: rest) :=
        .remark (List.append_assoc _ _ _).symm
          (fun hn => hline (List.mem_append_right _ hn)) hbehind
      exact .outside ((h.tail hnext).tail (.blank (by decide)))
    · rename_i hremark
      intro later hlater _
      obtain ⟨c, cs, rfl⟩ := List.exists_cons_of_ne_nil hne
      have hafter : ∀ d ∈ (ends ++ behind).head?, isBlank d = true := by
        cases ends with
        | cons d ends => simpa using hends d List.mem_cons_self
        | nil => obtain rfl | ⟨rest, rfl⟩ := hbehind <;> simp [isBlank]
      have hlong := length_le_of_code h (hsolid c rfl) hafter hopen
        (by simpa [startsWith] using hremark) hlater
      rw [List.length_append] at hlong
      omega

/-- **What a line of the header means** for what stands behind it. -/
theorem At.tells {inside : Bool} {line behind : List Char} (h : At text (line ++ behind) inside)
    (hline : '\n' ∉ line) (hbehind : BehindLine behind) :
    (Line.of inside (trim line)).Tells text behind := by
  obtain ⟨lead, ends, hparts, hlead, hends⟩ := exists_trim line
  have hword : '\n' ∉ trim line ++ ends := fun hn => hline (by
    rw [hparts]
    exact List.mem_append_right _ hn)
  have hat : At text (lead ++ (trim line ++ (ends ++ behind))) inside := by
    rw [hparts] at h
    simpa using h
  by_cases htrim : trim line = []
  · rw [Line.of, if_pos htrim]
    rintro rest rfl
    have hgap : ∀ c ∈ line ++ ['\n'], isBlank c = true :=
      List.forall_mem_append.2 ⟨trim_eq_nil.1 htrim, by simp [isBlank]⟩
    exact At.blanks (by simpa using h) hgap
  · cases inside with
    | true =>
      rw [Line.of, if_neg htrim, if_pos rfl]
      exact hat.tells_comment hlead hends hword
    | false =>
      cases hat.blanks hlead with
      | outside hrun =>
        refine hrun.tells_word htrim (fun c hc => ?_) hends hword hbehind
        obtain ⟨cs, hcs⟩ := List.head?_eq_some_iff.1 hc
        exact isBlank_of_trim hcs

/-! ## What is found on a line -/

/-- A line within a comment is no remark. -/
theorem inside_of_remark {inside : Bool} {line : List Char} (h : Line.of inside line = .remark) :
    inside = false := by
  cases inside with
  | false => rfl
  | true =>
    unfold Line.of Line.ofComment at h
    split at h
    · cases h
    · rw [if_pos rfl] at h
      split at h
      · cases h
      · split at h <;> cases h

theorem Directive.exists_comment (d : Directive text) :
    ∃ rest, trimEnd d.comment = '/' :: '/' :: rest := by
  obtain ⟨gap, tag, -, hcomment, -⟩ := d.refers
  exact ⟨'/' :: (gap ++ tag), by simpa using hcomment⟩

/-- The line of a directive without the blanks around it. -/
theorem Directive.trimStart_line (d : Directive text) :
    trimStart (d.gap ++ d.comment) = d.comment := by
  obtain ⟨rest, hrest⟩ := d.exists_comment
  obtain ⟨ends, hends⟩ := trimEndOf_isPrefix isBlank d.comment
  rw [trimStart_append_of_eq_nil (trimStart_eq_nil.2 d.alone), ← hends]
  rw [trimEnd] at hrest
  rw [hrest, List.cons_append, trimStart_cons_of_not (by decide)]

theorem Directive.trim_line (d : Directive text) :
    trim (d.gap ++ d.comment) = trimEnd d.comment := by
  rw [trim, d.trimStart_line]

/-- **A directive is found** on its line. -/
theorem Directive.found (d : Directive text) {inside : Bool}
    (h : At text (d.gap ++ (d.comment ++ d.behind)) inside) :
    Line.of inside (trim (d.gap ++ d.comment)) = .remark ∧
      directive? (trim (d.gap ++ d.comment)) = some d.specifier := by
  rw [d.trim_line]
  refine ⟨?_, directive?_eq_some.2 d.refers⟩
  obtain ⟨rest, hrest⟩ := d.exists_comment
  cases inside with
  | false => simp [hrest, Line.of, startsWith, strip?]
  | true =>
    -- The comment that goes on here is closed behind the directive only.
    obtain ⟨front, hopen, hfront⟩ := h.exists_opening
    have hquiet := hfront.append (isQuiet_blanks solid_close (by simp) d.alone)
    obtain ⟨next, hstep, hnext⟩ := hopen.exists_step d.header (by simp; omega)
    cases hstep with
    | blank hblank => exact absurd hblank (by decide)
    | comment hcut =>
      rw [← List.append_assoc] at hcut
      have hshort := hquiet.length_lt (by simp) hcut
      exact absurd (Runs.suffix hnext).length_le (Nat.not_le.2 hshort)

/-- What is told of a directive on a line with this number and place. -/
def toldOf (number start : Nat) (line specifier : List Char) : Import where
  specifier := String.ofList specifier
  kind := .reference
  line := number
  endLine := number
  start := start + (width line - width (trimStart line))
  stop := start + width (trimEnd line)

theorem Directive.reference_eq (d : Directive text) :
    d.reference = toldOf (d.before.count '\n' + 1) (width d.before) (d.gap ++ d.comment)
      d.specifier := by
  obtain ⟨rest, hrest⟩ := d.exists_comment
  have hend : trimEnd (d.gap ++ d.comment) = d.gap ++ trimEnd d.comment :=
    trimEnd_append (by simp [hrest]) _
  simp only [Directive.reference, toldOf, d.trimStart_line, hend, width_append, Nat.add_sub_cancel,
    Nat.add_assoc]

/-- **What is found is a directive**, on a line of the header. -/
theorem exists_directive {before line behind specifier : List Char} {inside : Bool}
    (h : At text (line ++ behind) inside) (htext : text = before ++ (line ++ behind))
    (hbefore : EndsInNewline before) (hline : '\n' ∉ line) (hbehind : BehindLine behind)
    (hremark : Line.of inside (trim line) = .remark)
    (hspecifier : directive? (trim line) = some specifier) :
    ∃ d : Directive text,
      d.reference = toldOf (before.count '\n' + 1) (width before) line specifier := by
  obtain rfl := inside_of_remark hremark
  obtain ⟨gap, hparts, halone⟩ := exists_trimStart line
  have hheader : Runs text (trimStart line ++ behind) := by
    rw [hparts, List.append_assoc] at h
    cases h.blanks halone with
    | outside hrun => exact hrun
  let d : Directive text :=
    { before := before
      gap := gap
      comment := trimStart line
      behind := behind
      specifier := specifier
      text_eq := by rw [← List.append_assoc gap, ← hparts, htext]
      starts := hbefore
      alone := halone
      line := by rwa [← hparts]
      ends := hbehind
      header := hheader
      refers := directive?_eq_some.1 hspecifier }
  refine ⟨d, d.reference_eq.trans ?_⟩
  rw [show d.gap ++ d.comment = line from hparts.symm]

/-- What is found from a line on. -/
theorem mem_referencesFrom_cons {inside : Bool} {number start : Nat} {line : List Char}
    {lines : List (List Char)} {i : Import} :
    i ∈ referencesFrom inside number start (line :: lines) ↔
      (Line.of inside (trim line) = .remark ∧
        ∃ specifier, directive? (trim line) = some specifier ∧
          i = toldOf number start line specifier) ∨
      ∃ inside', (Line.of inside (trim line)).next? = some inside' ∧
        i ∈ referencesFrom inside' (number + 1) (start + width line + 1) lines := by
  rw [referencesFrom]
  cases Line.of inside (trim line) with
  | code => simp [Line.next?]
  | comment inside' => simp [Line.next?]
  | remark =>
    dsimp only
    cases directive? (trim line) with
    | none => simp [Line.next?]
    | some specifier => simp [Line.next?, toldOf]

/-! ## The lines of a source -/

theorem Line.Tells.at {l : Line} {rest : List Char} {inside : Bool}
    (h : l.Tells text ('\n' :: rest)) (hnext : l.next? = some inside) : At text rest inside := by
  rw [Line.Tells, hnext] at h
  exact h rest rfl

theorem next_line {before line : List Char} (hline : '\n' ∉ line) :
    (before ++ (line ++ ['\n'])).count '\n' = before.count '\n' + 1 ∧
      width (before ++ (line ++ ['\n'])) = width before + width line + 1 := by
  refine ⟨?_, ?_⟩
  · rw [List.count_append, List.count_append, List.count_eq_zero.2 hline]
    rfl
  · rw [width_append, width_append, Nat.add_assoc]
    rfl

/-- **What is found are directives.** -/
theorem exists_of_mem_referencesFrom {before rest : List Char} {inside : Bool} {i : Import}
    (h : At text rest inside) (htext : text = before ++ rest) (hbefore : EndsInNewline before)
    (hi : i ∈ referencesFrom inside (before.count '\n' + 1) (width before)
      (splitOnChar '\n' rest)) :
    ∃ d : Directive text, d.reference = i := by
  induction rest using line_induction generalizing before inside with
  | last line hline =>
    rw [← List.append_nil line] at h htext
    rw [splitOnChar_of_not_mem hline, mem_referencesFrom_cons] at hi
    rcases hi with ⟨hremark, specifier, hspecifier, rfl⟩ | ⟨_, _, hlater⟩
    · exact exists_directive h htext hbefore hline (.inl rfl) hremark hspecifier
    · cases hlater
  | first line rest hline ih =>
    have hbehind : BehindLine ('\n' :: rest) := .inr ⟨rest, rfl⟩
    rw [splitOnChar_append hline, mem_referencesFrom_cons] at hi
    rcases hi with ⟨hremark, specifier, hspecifier, rfl⟩ | ⟨inside', hnext, hlater⟩
    · exact exists_directive h htext hbefore hline hbehind hremark hspecifier
    · obtain ⟨hcount, hwidth⟩ := @next_line before line hline
      rw [← hcount, ← hwidth] at hlater
      exact ih ((h.tells hline hbehind).at hnext) (by simpa using htext)
        (.inr ⟨before ++ line, by simp⟩) hlater

/-- No line starts within another. -/
theorem eq_nil_of_endsInNewline {before more : List Char} (h : EndsInNewline (before ++ more))
    (hmore : '\n' ∉ more) : more = [] := by
  rcases List.eq_nil_or_concat more with hnil | ⟨us, c, rfl⟩
  · exact hnil
  · rw [List.concat_eq_append] at h hmore
    rw [← List.append_assoc] at h
    obtain hnil | ⟨ws, hws⟩ := h
    · simp at hnil
    · obtain ⟨-, hc⟩ := List.append_inj' hws rfl
      cases hc
      simp at hmore

/-- A directive behind the start of a line is on this line or on a later one. -/
theorem Directive.cases_line (d : Directive text) {before line behind more : List Char}
    (htext : text = before ++ (line ++ behind)) (hline : '\n' ∉ line) (hbehind : BehindLine behind)
    (hd : d.before = before ++ more) :
    (d.before = before ∧ line = d.gap ++ d.comment ∧ behind = d.behind) ∨
      ∃ more', d.before = before ++ (line ++ ['\n']) ++ more' ∧
        behind = '\n' :: (more' ++ (d.gap ++ (d.comment ++ d.behind))) := by
  have hrest : line ++ behind = more ++ (d.gap ++ (d.comment ++ d.behind)) := by
    have hparts := htext.symm.trans d.text_eq
    rw [hd, List.append_assoc] at hparts
    exact List.append_cancel_left hparts
  obtain ⟨line', vs, rfl, hline', rfl | ⟨more', rfl⟩⟩ := exists_line more
  · rw [List.append_nil] at hd hrest
    obtain rfl := eq_nil_of_endsInNewline (hd ▸ d.starts) hline'
    rw [List.nil_append, ← List.append_assoc] at hrest
    obtain ⟨hcomment, hback⟩ := line_inj hline hbehind d.line d.ends hrest
    exact .inl ⟨by simpa using hd, hcomment, hback⟩
  · rw [List.append_assoc, List.cons_append] at hrest
    obtain ⟨rfl, rfl⟩ := line_inj hline hbehind hline' (.inr ⟨_, rfl⟩) hrest
    exact .inr ⟨more', by simpa using hd, rfl⟩

theorem Directive.mem_of_before (d : Directive text) {before line behind : List Char}
    {inside : Bool} {lines : List (List Char)} (h : At text (line ++ behind) inside)
    (hd : d.before = before) (hline : line = d.gap ++ d.comment) (hbehind : behind = d.behind) :
    d.reference ∈ referencesFrom inside (before.count '\n' + 1) (width before) (line :: lines) := by
  subst hd hline hbehind
  rw [List.append_assoc] at h
  obtain ⟨hremark, hspecifier⟩ := d.found h
  exact mem_referencesFrom_cons.2 (.inl ⟨hremark, d.specifier, hspecifier, d.reference_eq⟩)

/-- **Directives are found**, unless the header is crowded in front of them. -/
theorem Directive.mem_referencesFrom (d : Directive text)
    (hcrowded : ¬ IsCrowded text (d.comment ++ d.behind)) {before rest : List Char}
    {inside : Bool} (h : At text rest inside) (htext : text = before ++ rest)
    (hd : before <+: d.before) :
    d.reference ∈
      referencesFrom inside (before.count '\n' + 1) (width before) (splitOnChar '\n' rest) := by
  obtain ⟨more, hmore⟩ := hd
  induction rest using line_induction generalizing before inside more with
  | last line hline =>
    rw [← List.append_nil line] at h htext
    rw [splitOnChar_of_not_mem hline]
    rcases d.cases_line htext hline (.inl rfl) hmore.symm with
      ⟨hbefore, hhere, hbehind⟩ | ⟨_, _, hbehind⟩
    · exact d.mem_of_before h hbefore hhere hbehind
    · cases hbehind
  | first line rest hline ih =>
    have hnewline : BehindLine ('\n' :: rest) := .inr ⟨rest, rfl⟩
    have htells := h.tells hline hnewline
    rw [splitOnChar_append hline]
    rcases d.cases_line htext hline hnewline hmore.symm with
      ⟨hbefore, hhere, hbehind⟩ | ⟨more', hbefore, hrest⟩
    · exact d.mem_of_before h hbefore hhere hbehind
    · obtain ⟨hcount, hwidth⟩ := @next_line before line hline
      cases hnext : (Line.of inside (trim line)).next? with
      | none =>
        rw [Line.Tells, hnext, hrest] at htells
        have hle := htells _ d.header hcrowded
        simp only [List.length_append, List.length_cons] at hle
        omega
      | some inside' =>
        refine mem_referencesFrom_cons.2 (.inr ⟨inside', hnext, ?_⟩)
        rw [← hcount, ← hwidth]
        exact ih (htells.at hnext) (by simpa using htext) more' hbefore.symm

end

/-! ## All directives -/

theorem le_start_of_mem {inside : Bool} {number start : Nat} {lines : List (List Char)} :
    ∀ i ∈ referencesFrom inside number start lines, start ≤ i.start := by
  induction lines generalizing inside number start with
  | nil => simp [referencesFrom]
  | cons line lines ih =>
    intro i hi
    rcases mem_referencesFrom_cons.1 hi with ⟨-, _, -, rfl⟩ | ⟨_, -, hlater⟩
    · exact Nat.le_add_right _ _
    · have hle := ih i hlater
      omega

theorem pairwise_referencesFrom {inside : Bool} {number start : Nat} {lines : List (List Char)} :
    (referencesFrom inside number start lines).Pairwise fun a b => a.start < b.start := by
  fun_induction referencesFrom inside number start lines with
  | case1 => exact .nil
  | case2 => exact .nil
  | case3 _ _ _ _ _ _ _ _ ih => exact ih
  | case4 _ _ _ _ _ _ _ _ _ ih => exact ih
  | case5 _ _ start line _ next _ _ _ _ ih =>
    refine List.pairwise_cons.2 ⟨fun i hi => ?_, ih⟩
    have hle := le_start_of_mem i hi
    dsimp only [next] at hle ⊢
    omega

/-- **The directives of a source**: what is found are directives of its header, each once and in
their order, and all of them in front of which the header is not crowded. -/
theorem references_header (text : List Char) :
    (references text).Pairwise (fun a b => a.start < b.start) ∧
      (∀ i ∈ references text, ∃ d : Directive text, d.reference = i) ∧
      ∀ d : Directive text, ¬ IsCrowded text (d.comment ++ d.behind) →
        d.reference ∈ references text := by
  refine ⟨pairwise_referencesFrom, fun i hi => ?_, fun d hcrowded => ?_⟩
  · exact @exists_of_mem_referencesFrom text [] text false i (.outside .refl) rfl (.inl rfl) hi
  · exact d.mem_referencesFrom hcrowded (.outside .refl) rfl List.nil_prefix

/-- A header is not crowded if on every line no comment follows what closes another. -/
theorem not_isCrowded {text : List Char}
    (h : ∀ rest ∈ text.tails, ∀ behind ∈ strip? ['*', '/'] rest,
      (trimStart (behind.takeWhile (· ≠ '\n'))).head? ≠ some '/') (place : List Char) :
    ¬ IsCrowded text place := by
  rintro ⟨inside, body, gap, next, rest, hrun, hcut, hgap, hline, -⟩
  have hclosed : '*' :: '/' :: (gap ++ '/' :: next) <:+ text := by
    refine List.IsSuffix.trans ⟨'/' :: '*' :: body, ?_⟩ hrun.suffix
    rw [cut?_eq_some hcut]
    simp
  have hplain : ∀ c ∈ gap, decide (c ≠ '\n') = true :=
    fun c hc => decide_eq_true fun hn => hline (hn ▸ hc)
  refine h _ ((List.mem_tails _ _).2 hclosed) (gap ++ '/' :: next) (strip?_eq_some_iff.2 rfl) ?_
  rw [List.takeWhile_append_of_pos hplain, List.takeWhile_cons_of_pos (by decide),
    trimStart_append_of_eq_nil (trimStart_eq_nil.2 hgap), trimStart_cons_of_not (by decide)]
  rfl

/-- A source with comments of both kinds, directives and code. -/
def licensed : List Char :=
  "/* a\n */\n// b\n  /// <reference path='c' />\nd;\n/// <reference types='e' />".toList

theorem references_header_licensed :
    ∃ d : Directive licensed, d.specifier = "./c".toList ∧ references licensed = [d.reference] ∧
      ¬ IsCrowded licensed (d.comment ++ d.behind) ∧ d.reference ∈ references licensed := by
  obtain ⟨-, hsound, hcomplete⟩ := references_header licensed
  have hall : references licensed = [⟨"./c", .reference, 4, 4, 16, 42⟩] := by cbv
  obtain ⟨d, hd⟩ := hsound _ (hall ▸ List.mem_singleton_self _)
  have hspecifier : String.ofList d.specifier = "./c" := congrArg Import.specifier hd
  have hcrowded : ¬ IsCrowded licensed (d.comment ++ d.behind) := not_isCrowded (by decide) _
  refine ⟨d, ?_, hd ▸ hall, hcrowded, hcomplete d hcrowded⟩
  rw [← hspecifier, String.toList_ofList]

/-- A source on whose first line one comment follows another. -/
def crowded : List Char :=
  "/* a */ // b\n/// <reference types='c' />\nd;".toList

/-- **Behind a crowded line no directive is found**, though the header goes on there. -/
theorem references_crowded :
    ∃ d : Directive crowded, d.reference = ⟨"c", .reference, 2, 2, 13, 40⟩ ∧
      references crowded = [] := by
  have hclosed : Step crowded " // b\n/// <reference types='c' />\nd;".toList :=
    @Step.comment _ " a ".toList _ (by decide)
  have hblank : Step " // b\n/// <reference types='c' />\nd;".toList
      "// b\n/// <reference types='c' />\nd;".toList := .blank (by decide)
  have hremark : Step "// b\n/// <reference types='c' />\nd;".toList
      "\n/// <reference types='c' />\nd;".toList :=
    @Step.remark _ " b".toList _ rfl (by decide) (.inr ⟨_, rfl⟩)
  have hnewline : Step "\n/// <reference types='c' />\nd;".toList
      "/// <reference types='c' />\nd;".toList := .blank (by decide)
  have hspecifier : directive? "/// <reference types='c' />".toList = some "c".toList := by cbv
  let d : Directive crowded :=
    { before := "/* a */ // b\n".toList
      gap := []
      comment := "/// <reference types='c' />".toList
      behind := "\nd;".toList
      specifier := "c".toList
      text_eq := rfl
      starts := .inr ⟨"/* a */ // b".toList, rfl⟩
      alone := by simp
      line := by decide
      ends := .inr ⟨_, rfl⟩
      header := (((ReflTransGen.single hclosed).tail hblank).tail hremark).tail hnewline
      refers := directive?_eq_some.1 hspecifier }
  exact ⟨d, rfl, by cbv⟩

end BuildSync.TypeScript.Header
