import BuildSync.Proofs.IndexAnswers
import BuildSync.Proofs.Questions
import BuildSync.Proofs.Recurrence

/-!
# Questions that are asked again

A session asks about files that no rule lists and about modules. Once it was run, an equal session
asks again about those for which the index named a rule, and gets the same answers.

* `Workspace.questions_again`: what was asked about a package and had an answer is asked again.
* `Session.labels_again`, `Session.labels_of_asked`: what was asked is answered in the same way.
* `Workspace.rule_mem_questions`: a dependency on another package is asked about.
-/

namespace BuildSync

open Build

namespace Workspace

variable {w : Workspace} {t t' : Tree} {index : Query.Index} {dir : Location} {package : String}
  {key : Query.Key} {sources : List Source}

theorem mem_siblingQuestion {d : Option Descriptor} {name : String} :
    key ∈ w.siblingQuestion dir d name ↔
      (∀ d', d = some d' → d'.owners name = []) ∧ key ∈ w.fileQuestion (dir ++ [name]) := by
  unfold siblingQuestion
  cases d with
  | none => simp
  | some d => by_cases h : d.owners name = [] <;> simp [h]

/-- A file that no rule listed and that the index gives to some rule is asked about again. -/
theorem siblingQuestion_again (hkeeps : w.KeepsAt t t' index dir package) {name : String}
    (hnode : (t.node? (dir ++ [name])).isSome = true) (hlabels : index.labels key ≠ [])
    (h : key ∈ w.siblingQuestion dir (t.usableDescriptor? dir package) name) :
    key ∈ w.siblingQuestion dir (t'.usableDescriptor? dir package) name := by
  rcases hkeeps with heq | ⟨d, d', hd, hd', hkeeps⟩
  · rwa [Tree.usableDescriptor?, heq]
  · rw [Tree.usableDescriptor?_of_eq_ok hd] at h
    rw [Tree.usableDescriptor?_of_eq_ok hd']
    obtain ⟨hnone, hkey⟩ := mem_siblingQuestion.1 h
    refine mem_siblingQuestion.2 ⟨fun found hfound => ?_, hkey⟩
    cases hfound
    rcases hkeeps.owners [name] (by simp) hnode with hnames | ⟨-, hno⟩
    · rw [String.intercalate_singleton, hnone d rfl] at hnames
      exact List.map_eq_nil_iff.1 hnames
    · obtain ⟨path, hpath, rfl⟩ := Option.map_eq_some_iff.1 (Option.mem_toList.1 hkey)
      exact absurd (hno path hpath) hlabels

variable (hrewrites : t.Rewrites t') (hkeeps : ∀ dir package, w.relative? dir = some package →
    w.KeepsAt t t' index dir package) (hw : w.relative? dir = some package)
include hrewrites hkeeps hw

/-- A target that the index gives to some rule is asked about again. -/
theorem targetQuestion_again {specifier : String} (hlabels : index.labels key ≠ [])
    (h : key ∈ w.targetQuestion t dir (t.usableDescriptor? dir package)
      (w.target t dir specifier)) :
    key ∈ w.targetQuestion t' dir (t'.usableDescriptor? dir package)
      (w.target t' dir specifier) := by
  rw [hrewrites.target hrewrites]
  cases htarget : w.target t dir specifier with
  | module name =>
    rw [htarget] at h
    exact h
  | sibling name =>
    rw [htarget] at h
    exact siblingQuestion_again (hkeeps dir package hw)
      (Tree.isSome_of_isFile (isFile_of_target_sibling htarget)) hlabels h
  | member owner name file path =>
    rw [htarget] at h
    obtain ⟨location, hfile, -, hown, hpath⟩ := exists_file_of_target_member htarget
    have hisFile := Tree.isFile_of_moduleFile? hfile
    obtain ⟨-, hrel, names, hn, rfl⟩ := owningPackage?_eq_some (Tree.ne_nil_of_isFile hisFile) hown
    rw [relative?_append (w := ⟨owner⟩), Option.some.injEq] at hpath
    subst hpath
    unfold targetQuestion at h ⊢
    dsimp only at h ⊢
    rcases hkeeps owner name hrel with heq | ⟨d, d', hd, hd', hkept⟩
    · rwa [Tree.usableDescriptor?, heq]
    rw [Tree.usableDescriptor?_of_eq_ok hd, Option.bind_some] at h
    rw [Tree.usableDescriptor?_of_eq_ok hd', Option.bind_some]
    split at h
    · cases h
    rename_i hnone
    rw [List.mem_singleton] at h
    subst h
    rcases hkept.owners names hn (Tree.isSome_of_isFile hisFile) with hnames | ⟨-, hno⟩
    · have hlabel := Descriptor.ownerLabel?_congr
        ((Tree.package_descriptor (Tree.descriptor_of_descriptor? hd')).trans
          (Tree.package_descriptor (Tree.descriptor_of_descriptor? hd)).symm) hnames
      have hsome := congrArg Option.isSome hlabel
      rw [Descriptor.ownerLabel?, Option.isSome_map, Descriptor.ownerLabel?,
        Option.isSome_map] at hsome
      rw [if_neg (hsome ▸ hnone)]
      exact List.mem_singleton_self _
    · exact absurd (hno path (relative?_of_target_member htarget hfile)) hlabels
  | stray path =>
    rw [htarget] at h
    exact h
  | missing =>
    rw [htarget] at h
    exact h

/-- **What was asked about a package** and had an answer is asked again. -/
theorem questions_again (hs : t.sources dir = .ok sources) {withDependencies : Bool}
    (hkey : ∀ label, key ≠ .rule label) (hlabels : index.labels key ≠ [])
    (h : key ∈ w.questions t dir package sources withDependencies) :
    key ∈ w.questions t' dir package sources withDependencies := by
  rcases mem_questions.1 h with ⟨source, hsource, hasked⟩ | ⟨-, d, -, hasked⟩
  · refine mem_questions.2 (.inl ⟨source, hsource, hasked.imp (fun h => ?_) ?_⟩)
    · have hfile := ((Tree.mem_sources hs).1 (List.mem_map_of_mem hsource)).1
      exact siblingQuestion_again (hkeeps dir package hw) (Tree.isSome_of_isFile hfile) hlabels h
    · rintro ⟨i, hi, h⟩
      exact ⟨i, hi, targetQuestion_again hrewrites hkeeps hw hlabels h⟩
  · obtain ⟨label, -, rfl⟩ := List.mem_map.1 hasked
    exact absurd rfl (hkey label)

end Workspace

/-- The kinds of dependencies outside the package are asked about. -/
theorem Workspace.rule_mem_questions {w : Workspace} {t : Tree} {dir : Location} {package : String}
    {sources : List Source} {d : Descriptor} {r : Build.Rule} {deps : List Label} {label : Label}
    (hd : t.descriptor dir package = .ok d) (hr : r ∈ d.rules) (hdeps : r.deps.values? = some deps)
    (hlabel : label ∈ deps) (hin : label.isIn package = false) :
    .rule label ∈ w.questions t dir package sources true := by
  have hread := Tree.usableDescriptor?_of_eq_ok (Tree.descriptor?_of_mem hd hr)
  refine mem_questions.2 (.inr ⟨rfl, d, hread, List.mem_map_of_mem (List.mem_filter.2 ⟨?_, ?_⟩)⟩)
  · exact List.mem_flatMap.2 ⟨r, hr, by rwa [hdeps]⟩
  · rw [Tree.package_descriptor hd, hin]
    rfl

namespace Session

variable {w : Workspace} {t t' : Tree} {file : Query.IndexFile} {options : SessionOptions}
  {packages : List (PackageDir × List Source)} {index index' : Query.Index} {key : Query.Key}
  (hpackages : ∀ entry ∈ packages, w.relative? entry.1.dir = some entry.1.package ∧
    t.sources entry.1.dir = .ok entry.2)
  (hrewrites : t.Rewrites t') (hkeeps : ∀ dir package, w.relative? dir = some package →
    w.KeepsAt t t' index dir package)
  (hbuild : Query.Index.build file.service (questions w t options packages) = .ok index)
  (hbuild' : Query.Index.build file.service (questions w t' options packages) = .ok index')
include hpackages hrewrites hkeeps hbuild hbuild'

/-- **What had an answer has the same answer again.** -/
theorem labels_again (hkey : ∀ label, key ≠ .rule label) (hlabels : index.labels key ≠ []) :
    index'.labels key = index.labels key := by
  have hlabels' := hlabels
  rw [Query.Index.labels_of_build hbuild] at hlabels' ⊢
  split at hlabels'
  · rename_i hasked
    obtain ⟨entry, hentry, hmem⟩ := List.mem_flatMap.1 hasked
    obtain ⟨hw, hs⟩ := hpackages entry hentry
    have hagain : key ∈ questions w t' options packages := List.mem_flatMap.2
      ⟨entry, hentry, Workspace.questions_again hrewrites hkeeps hw hs hkey hlabels hmem⟩
    rw [Query.Index.labels_of_build hbuild', if_pos hasked, if_pos hagain]
  · exact absurd rfl hlabels'

/-- What was asked has the same answer again, or again none. -/
theorem labels_of_asked (hkey : ∀ label, key ≠ .rule label)
    (hasked : key ∈ questions w t options packages) :
    index'.labels key = index.labels key := by
  by_cases hnone : index.labels key = []
  · rw [hnone]
    rw [Query.Index.labels_of_build hbuild, if_pos hasked] at hnone
    rw [Query.Index.labels_of_build hbuild', hnone, ite_self]
  · exact labels_again hpackages hrewrites hkeeps hbuild hbuild' hkey hnone

end Session

end BuildSync
