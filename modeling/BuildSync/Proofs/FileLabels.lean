import Mathlib.Data.List.Infix
import BuildSync.Proofs.PrintedRules

/-!
# Files in questions and answers

A question about a file names the file by its label, and the answer lists rules with the labels of
their sources.

* `exists_fileLabel`: the label of a file is its path, with a colon at some slash or in front.
* `QueriedRule.fileOf?_fileLabel`: so it is read back as the file in every package, if it is plain.
* `QueriedRule.fileOf?_eq_none`: what is written with its repository is no file of the workspace.
* `PrintedRule.read`: the rule as which a printed one is read (`QueriedRule.ofOutput_read`).
* `answer_file`: the rules that list the label of a file answer the question about it, and rules of
  other repositories do not, if they write their sources with the repository. Otherwise they may
  (`answer_file_external`).
-/

namespace BuildSync.Query

open Build

/-! ## The label of a file -/

theorem exists_lastSegment (cs : List Char) :
    ∃ front, cs = front ++ Text.lastSegment cs ∧ (front = [] ∨ ∃ dir, front = dir ++ ['/']) := by
  refine ⟨(cs.reverse.dropWhile (· ≠ '/')).reverse, ?_, ?_⟩
  · rw [Text.lastSegment, ← List.reverse_append, List.takeWhile_append_dropWhile,
      List.reverse_reverse]
  · cases hd : cs.reverse.dropWhile (· ≠ '/') with
    | nil => exact .inl rfl
    | cons c dir =>
      have hnot := List.head?_dropWhile_not (· ≠ '/') cs.reverse
      rw [hd] at hnot
      have hc : c = '/' := by simpa using hnot
      exact .inr ⟨dir.reverse, by rw [hc, List.reverse_cons]⟩

theorem cutLast_eq (path : List Char) :
    cutLast path = ([], path) ∨ path = (cutLast path).1 ++ '/' :: (cutLast path).2 := by
  obtain ⟨front, hpath, hfront⟩ := exists_lastSegment path
  have htake : path.take (path.length - (Text.lastSegment path).length) = front := by
    have hlength := congrArg List.length hpath
    rw [List.length_append] at hlength
    conv_lhs => rw [hpath]
    rw [List.take_left' (by rw [← hpath]; omega)]
  unfold cutLast
  dsimp only
  rw [htake]
  rcases hfront with rfl | ⟨dir, rfl⟩
  · rw [List.nil_append] at hpath
    rw [← hpath]
    exact .inl rfl
  · rw [List.dropLast_concat]
    right
    rw [List.append_assoc] at hpath
    exact hpath

/-- **The label of a file** is its path, with a colon at one of its slashes or in front of it. -/
theorem exists_fileLabel (w : Workspace) (t : Tree) (path : String) :
    ∃ package name, fileLabel w t path = (Label.ofPackage package name).canonical ∧
      (package = "" ∧ path = name ∨ path = package ++ "/" ++ name) := by
  have hroot : "//:" ++ path = (Label.ofPackage "" path).canonical := by
    rw [← String.toList_inj]
    simp [Label.ofPackage, Label.canonical, Label.root]
  unfold fileLabel
  dsimp only
  split
  · rename_i package _
    by_cases hempty : package = ""
    · rw [if_pos hempty]
      exact ⟨package, path, by simp [Label.ofPackage, Label.canonical, Label.root],
        .inl ⟨hempty, rfl⟩⟩
    · rw [if_neg hempty]
      split
      · rename_i name hname
        refine ⟨package, String.ofList name, rfl, .inr ?_⟩
        rw [← String.toList_inj, Text.strip?_eq_some_iff.1 hname]
        simp
      · exact ⟨"", path, hroot, .inl ⟨rfl, rfl⟩⟩
  · generalize hparts : cutLast path.toList = parts
    refine ⟨String.ofList parts.1, String.ofList parts.2, rfl, ?_⟩
    rcases cutLast_eq path.toList with hcut | hcut
    · rw [← hparts, hcut]
      exact .inl ⟨rfl, String.ofList_toList.symm⟩
    · right
      rw [← String.toList_inj, ← hparts]
      simpa using hcut

/-- The path of a file below a directory: no step of it is empty. -/
def IsRelative (path : String) : Prop :=
  "" ∉ Path.segments path

instance (path : String) : Decidable (IsRelative path) :=
  inferInstanceAs (Decidable ("" ∉ Path.segments path))

namespace IsRelative

variable {path : String}

theorem ne_empty (h : IsRelative path) : path ≠ "" := by
  rintro rfl
  exact h (by decide)

theorem isTrimmed (h : IsRelative path) : Label.IsTrimmed path := by
  refine ⟨fun hhead => h (List.mem_of_head? (Path.head?_segments (decide_eq_true hhead))),
    fun hlast => h ?_⟩
  obtain ⟨front, hfront⟩ := List.getLast?_eq_some_iff.1 hlast
  have hpath : path = String.ofList front ++ "/" ++ "" := by
    rw [← String.toList_inj, hfront]
    simp
  rw [hpath, Path.segments_append_slash]
  exact List.mem_append_right _ (by decide)

theorem parts {front back : String} (h : IsRelative (front ++ "/" ++ back)) :
    IsRelative front ∧ IsRelative back := by
  unfold IsRelative at h
  rwa [Path.segments_append_slash, List.mem_append, not_or] at h

end IsRelative

namespace QueriedRule

/-- **The label of a file is read back as the file**, in whatever package it is listed. -/
theorem fileOf?_fileLabel (w : Workspace) (t : Tree) {path : String} (hpath : IsRelative path)
    (hplain : Label.IsPlainText path) (package : String) :
    fileOf? package (fileLabel w t path) = some path := by
  obtain ⟨owner, name, hlabel, ⟨rfl, rfl⟩ | rfl⟩ := exists_fileLabel w t path
  · have hread : (Label.ofPackage "" path).IsPlain := by
      refine Label.isPlain_ofPackage ⟨hpath.ne_empty, hplain⟩ ?_ ⟨by decide, by decide⟩
      exact fun c hc => by cases hc
    rw [fileOf?, hlabel, Label.parse?_canonical hread]
    rfl
  · obtain ⟨howner, hname⟩ := hpath.parts
    simp only [Label.IsPlainText, String.toList_append, List.forall_mem_append] at hplain
    have hread : (Label.ofPackage owner name).IsPlain :=
      Label.isPlain_ofPackage ⟨hname.ne_empty, hplain.2⟩ hplain.1.1 howner.isTrimmed
    rw [fileOf?, hlabel, Label.parse?_canonical hread]
    exact if_neg howner.ne_empty

/-- A label that starts with the sign of a repository has one. -/
theorem isSome_repo_of_parse? {entry package : String} {label : Label}
    (h : entry.toList.head? = some '@') (hread : Label.parse? entry package = some label) :
    label.repo.isSome = true := by
  obtain ⟨rest, hentry⟩ := List.head?_eq_some_iff.1 h
  have habsolute : ∀ {repo text}, Label.ofAbsolute? (some repo) text = some label →
      label.repo.isSome = true := by
    intro repo text habs
    unfold Label.ofAbsolute? at habs
    split at habs
    all_goals
      obtain ⟨-, rfl⟩ := Label.ofParts?_eq_some.1 habs
      rfl
  unfold Label.parse? at hread
  dsimp only at hread
  split at hread
  · cases hread
  · split at hread
    · split at hread
      · split at hread
        · cases hread
        · exact habsolute hread
      · cases hread
    all_goals simp_all

/-- **A source that is written with its repository** is no file of the workspace. -/
theorem fileOf?_eq_none {entry : String} (h : entry.toList.head? = some '@') (package : String) :
    fileOf? package entry = none := by
  unfold fileOf?
  cases hread : Label.parse? entry package with
  | none => rfl
  | some label => exact if_pos (isSome_repo_of_parse? h hread)

end QueriedRule

/-! ## Printed rules -/

namespace PrintedRule

/-- The sources that a rule is printed with. -/
def listed (p : PrintedRule) : List String :=
  p.srcs.values?.getD []

/-- The repository and the package that a rule seems to stand in. -/
def seenIn (w : Workspace) (p : PrintedRule) : Option String × String :=
  (QueriedRule.packageAt? w (p.position w)).getD (none, "")

/-- The rule as which a printed rule is read. -/
def read (w : Workspace) (p : PrintedRule) : QueriedRule :=
  QueriedRule.ofRule (p.seenIn w).1 (p.seenIn w).2 (p.rule (p.seenIn w).2)

variable {w : Workspace} {p : PrintedRule}

theorem files_read : (p.read w).files =
    p.listed.filterMap (QueriedRule.fileOf? (p.seenIn w).2) :=
  rfl

/-- A rule of the workspace is read with its label. -/
theorem label_read (hp : p.IsPrintable w) (hrepo : p.place.repo? = none)
    (hdeps : p.HasDeps p.place.package) : (p.read w).label = ⟨none, p.place.package, p.name⟩ := by
  have htold : p.IsTold := by
    refine ⟨?_, fun h => ?_, hdeps⟩
    · cases hplace : p.place with
      | inside names => simp [PrintedPlace.between]
      | external base repo names =>
        rw [hplace] at hrepo
        cases hrepo
    · rw [hrepo] at h
      cases h
  have hseen : p.seenIn w = (none, p.place.package) := by
    rw [seenIn, QueriedRule.packageAt?_position hp htold, Option.getD_some, hrepo]
  rw [read, hseen]
  rfl

end PrintedRule

/-- **An answer is read rule by rule**, wherever the rules seem to stand, as long as their
dependencies are labels there. -/
theorem QueriedRule.ofOutput_read {w : Workspace} {rules : List PrintedRule}
    (hp : ∀ p ∈ rules, p.IsPrintable w) (hdeps : ∀ p ∈ rules, ∀ package, p.HasDeps package) :
    ofOutput w (print w rules) = .ok (rules.map (·.read w)) := by
  refine ofOutput_of_says hp fun p hmem notes hnotes => ?_
  obtain ⟨⟨repo, package⟩, hplace⟩ := exists_packageAt? (hp p hmem)
  have hseen : p.seenIn w = (repo, package) := by
    rw [PrintedRule.seenIn, hplace, Option.getD_some]
  rw [ofBlock_call (hp p hmem) hplace (hdeps p hmem package) hnotes, PrintedRule.read, hseen]

/-! ## Answers -/

/-- **The rules that list the label of a file answer the question about it.** Rules of other
repositories answer no question about a file, if they write their sources with the repository. -/
theorem answer_file {w : Workspace} {rules : List PrintedRule}
    (hp : ∀ p ∈ rules, p.IsPrintable w) (hdeps : ∀ p ∈ rules, ∀ package, p.HasDeps package) :
    ∃ found, QueriedRule.ofOutput w (print w rules) = .ok found ∧
      (∀ t path, IsRelative path → Label.IsPlainText path → ∀ p ∈ rules,
        p.place.repo? = none → fileLabel w t path ∈ p.listed →
          ⟨⟨none, p.place.package, p.name⟩, some p.kind⟩ ∈ answer found (.file path)) ∧
      ((∀ p ∈ rules, p.place.repo?.isSome = true →
        ∀ entry ∈ p.listed, entry.toList.head? = some '@') →
          ∀ path, ∀ rule ∈ answer found (.file path), ∃ p ∈ rules, p.place.repo? = none ∧
              rule = ⟨⟨none, p.place.package, p.name⟩, some p.kind⟩) := by
  refine ⟨_, QueriedRule.ofOutput_read hp hdeps, ?_, ?_⟩
  · intro t path hpath hplain p hmem hrepo hlisted
    rw [← PrintedRule.label_read (hp p hmem) hrepo (hdeps p hmem _)]
    refine List.mem_map.2 ⟨p.read w, List.mem_filter.2 ⟨List.mem_map_of_mem hmem, ?_⟩, rfl⟩
    refine decide_eq_true ?_
    rw [PrintedRule.files_read]
    exact List.mem_filterMap.2 ⟨_, hlisted, QueriedRule.fileOf?_fileLabel w t hpath hplain _⟩
  · intro hforeign path rule hrule
    obtain ⟨_, hfound, rfl⟩ := List.mem_map.1 hrule
    obtain ⟨hmem, hanswers⟩ := List.mem_filter.1 hfound
    obtain ⟨p, hp', rfl⟩ := List.mem_map.1 hmem
    have hfile := of_decide_eq_true hanswers
    rw [PrintedRule.files_read] at hfile
    obtain ⟨entry, hentry, hread⟩ := List.mem_filterMap.1 hfile
    have hrepo : p.place.repo? = none := by
      rw [← Option.not_isSome_iff_eq_none]
      intro hsome
      rw [QueriedRule.fileOf?_eq_none (hforeign p hp' hsome entry hentry)] at hread
      cases hread
    exact ⟨p, hp', hrepo, by
      rw [← PrintedRule.label_read (hp p hp') hrepo (hdeps p hp' _)]
      rfl⟩

/-! ## Two answers -/

/-- A rule with one source. -/
def sourceRule (place : PrintedPlace) (name source : String) : PrintedRule where
  place := place
  file := "BUILD"
  line := 1
  column := 1
  function := .library false
  name := name
  arguments := [.ofList isName_srcs id ⟨[source].map .plain, []⟩ (isClean_plain _)]
  notes := []

theorem isPrintable_sourceRule {place : PrintedPlace} (name source : String)
    (hdir : ∀ name ∈ place.dir ⟨["ws"]⟩, Path.IsName name ∧ ':' ∉ name.toList ∧ '\n' ∉ name.toList)
    (houtside : place.repo?.isSome = true →
      (Workspace.mk ["ws"]).relative? (place.dir ⟨["ws"]⟩) = none) :
    (sourceRule place name source).IsPrintable ⟨["ws"]⟩ := by
  have hname : "srcs" ≠ "name" := by decide
  have hvalue : '\n' ∉ '[' :: (quote source.toList ++ [']']) := by
    simp [QueriedRule.newline_not_mem_quote]
  refine ⟨by simp [sourceRule, buildFileNames], hdir, houtside, rfl, ?_, by simp [sourceRule]⟩
  rw [sourceRule, List.forall_mem_singleton]
  exact ⟨hname, hvalue⟩

theorem hasDeps_sourceRule (place : PrintedPlace) (name source package : String) :
    (sourceRule place name source).HasDeps package := by
  simp [PrintedRule.HasDeps, sourceRule, ArgumentLine.ofList]

theorem listed_sourceRule (place : PrintedPlace) (name source : String) :
    (sourceRule place name source).listed = [source] := by
  have hlist := ArgumentLine.list?_said_ofList isName_srcs id ⟨[source].map .plain, []⟩
    (isClean_plain _)
  have hsrcs : (sourceRule place name source).attribute? "srcs" =
      some (ArgumentLine.ofList isName_srcs id ⟨[source].map .plain, []⟩ (isClean_plain _)).said :=
    lastNamed_singleton _
  rw [PrintedRule.listed, PrintedRule.srcs, hsrcs, srcsFrom, hlist]
  rfl

/-- A directory without a BUILD file in a package. -/
def nestedTree : Tree where
  entries := [(["ws"], .directory), (["ws", "p"], .directory), (["ws", "p", "BUILD"], .text ""),
    (["ws", "p", "s"], .directory), (["ws", "p", "s", "x.ts"], .text "")]

/-- A rule of the package lists the file, and one of a repository a file of the same path there. -/
def nestedRules : List PrintedRule :=
  [sourceRule (.inside ["p"]) "x" "//p:s/x.ts",
    sourceRule (.external ["out"] "npm" ["p"]) "y" "@npm//p:s/x.ts"]

/-- The rule of the workspace answers alone. -/
theorem answer_file_nested :
    (∀ p ∈ nestedRules, p.IsPrintable ⟨["ws"]⟩) ∧
    (∀ p ∈ nestedRules, ∀ package, p.HasDeps package) ∧
    fileLabel ⟨["ws"]⟩ nestedTree "p/s/x.ts" = "//p:s/x.ts" ∧
    ∃ found, QueriedRule.ofOutput ⟨["ws"]⟩ (print ⟨["ws"]⟩ nestedRules) = .ok found ∧
      ⟨⟨none, "p", "x"⟩, some (.library false)⟩ ∈ answer found (.file "p/s/x.ts") ∧
      ∀ rule ∈ answer found (.file "p/s/x.ts"), rule.label.repo = none := by
  have hprintable : ∀ p ∈ nestedRules, p.IsPrintable ⟨["ws"]⟩ := by
    rw [nestedRules, List.forall_mem_cons, List.forall_mem_singleton]
    exact ⟨isPrintable_sourceRule _ _ (by decide) (by decide),
      isPrintable_sourceRule _ _ (by decide) (by decide)⟩
  have hdeps : ∀ p ∈ nestedRules, ∀ package, p.HasDeps package := by
    rw [nestedRules, List.forall_mem_cons, List.forall_mem_singleton]
    exact ⟨hasDeps_sourceRule _ _ _, hasDeps_sourceRule _ _ _⟩
  have hlabel : fileLabel ⟨["ws"]⟩ nestedTree "p/s/x.ts" = "//p:s/x.ts" := by decide +kernel
  obtain ⟨found, hfound, hlists, hforeign⟩ := answer_file hprintable hdeps
  refine ⟨hprintable, hdeps, hlabel, found, hfound, ?_, fun rule hrule => ?_⟩
  · refine hlists nestedTree "p/s/x.ts" (by decide) (Label.isPlainText_of_all rfl) _
      List.mem_cons_self rfl ?_
    rw [hlabel, listed_sourceRule]
    exact List.mem_singleton.2 rfl
  · obtain ⟨p, -, -, rfl⟩ := hforeign (by
      rw [nestedRules, List.forall_mem_cons, List.forall_mem_singleton, listed_sourceRule,
        listed_sourceRule]
      decide) _ rule hrule
    rfl

/-- A rule of a repository that lists a source by its name. -/
def foreignRule : PrintedRule :=
  sourceRule (.external ["out"] "npm" ["lib"]) "x" ":a.ts"

/-- A rule that lists a file with a blank in its name. -/
def spacedRule : PrintedRule :=
  sourceRule (.inside ["p"]) "x" "//p:a b.ts"

/-- **A rule of a repository can answer for a file of the workspace**, if it writes its source
without the repository. And a rule does not answer for the file that it lists, if the name of the
file has a blank in it. -/
theorem answer_file_external :
    (foreignRule.IsPrintable ⟨["ws"]⟩ ∧ foreignRule.place.repo? = some "npm" ∧
      ∃ found, QueriedRule.ofOutput ⟨["ws"]⟩ (print ⟨["ws"]⟩ [foreignRule]) = .ok found ∧
        answer found (.file "lib/a.ts") = [⟨⟨some "npm", "lib", "x"⟩, some (.library false)⟩]) ∧
    (spacedRule.IsPrintable ⟨["ws"]⟩ ∧ spacedRule.place.repo? = none ∧
      fileLabel ⟨["ws"]⟩ nestedTree "p/a b.ts" ∈ spacedRule.listed ∧
      ∃ found, QueriedRule.ofOutput ⟨["ws"]⟩ (print ⟨["ws"]⟩ [spacedRule]) = .ok found ∧
        answer found (.file "p/a b.ts") = []) := by
  have hforeign : foreignRule.IsPrintable ⟨["ws"]⟩ :=
    isPrintable_sourceRule _ _ (by decide) (by decide)
  have hspaced : spacedRule.IsPrintable ⟨["ws"]⟩ :=
    isPrintable_sourceRule _ _ (by decide) (by decide)
  have hread : ∀ p : PrintedRule, p.IsPrintable ⟨["ws"]⟩ → (∀ package, p.HasDeps package) →
      QueriedRule.ofOutput ⟨["ws"]⟩ (print ⟨["ws"]⟩ [p]) = .ok [p.read ⟨["ws"]⟩] :=
    fun p hp hdeps => QueriedRule.ofOutput_read (List.forall_mem_singleton.2 hp)
      (List.forall_mem_singleton.2 hdeps)
  refine ⟨⟨hforeign, rfl, _, hread _ hforeign (hasDeps_sourceRule _ _ _), by decide +kernel⟩,
    ⟨hspaced, rfl, ?_, _, hread _ hspaced (hasDeps_sourceRule _ _ _), by decide +kernel⟩⟩
  rw [spacedRule, listed_sourceRule]
  decide +kernel

end BuildSync.Query
