import Mathlib
import BuildSync.Proofs.Build.NewRules
import BuildSync.Proofs.Files
import BuildSync.Proofs.Labels
import BuildSync.Proofs.Text.Cuts
import BuildSync.Query.Graph

/-!
# Rules that the build tool prints

The build tool answers a query with rules in the form of BUILD files, each behind a line that tells
where the rule stands. The answer is read back as these rules.

* `PrintedPlace`, `PrintedRule`: what is printed; `PrintedRule.queried`: what it stands for.
* `QueriedRule.lines_printLines`, `QueriedRule.ofBlocks_printed`: the answer falls into lines, and
  these into blocks.
* `QueriedRule.packageAt?_position`, `QueriedRule.labelIn_place`: where a rule stands is read back.
* `QueriedRule.ofBlock_call`, `QueriedRule.ofBlock_notes`: a block says a rule, and notes nothing.
* `QueriedRule.ofOutput_printed`: an answer is read back as the rules that were printed, unless a
  directory called `external` stands between the one of all repositories and a package
  (`QueriedRule.ofOutput_misplaced`).
-/

namespace BuildSync.Query

open Build

/-! ## What is printed -/

/-- Where a package is: in the workspace, or in a repository below the base of all output. -/
inductive PrintedPlace
  | inside (names : List String)
  | external (base : Location) (repo : String) (names : List String)

namespace PrintedPlace

/-- The directory of the package. -/
def dir (w : Workspace) : PrintedPlace → Location
  | inside names => w.root ++ names
  | external base repo names => base ++ "external" :: repo :: names

def repo? : PrintedPlace → Option String
  | inside _ => none
  | external _ repo _ => some repo

def package : PrintedPlace → String
  | inside names | external _ _ names => String.intercalate "/" names

/-- The label of a rule of the package. -/
def label (place : PrintedPlace) (name : String) : Label :=
  ⟨place.repo?, place.package, name⟩

/-- The directories between the one of all repositories and that of the package. -/
def between : PrintedPlace → List String
  | inside _ => []
  | external _ repo names => (repo :: names).dropLast

end PrintedPlace

/-- Lines, each with the mark at its end. -/
def printLines (lines : List (List Char)) : List Char :=
  lines.flatMap (· ++ ['\n'])

/-- A line that says nothing: it is empty or a comment. -/
structure IsNote (line : List Char) : Prop where
  newline : '\n' ∉ line
  last : line.getLast? ≠ some '\r'
  empty : line = [] ∨ line.head? = some '#'

/-- A managed rule as the build tool prints it: where it stands, its call with an argument on each
line, and notes behind it. -/
structure PrintedRule where
  place : PrintedPlace
  /-- The name of the BUILD file. -/
  file : String
  line : Nat
  column : Nat
  function : RuleKind
  name : String
  arguments : List ArgumentLine
  notes : List (List Char)

namespace PrintedRule

/-- What the lines say of an attribute. -/
def attribute? (p : PrintedRule) (name : String) : Option Attribute :=
  lastAttribute name (p.arguments.map ArgumentLine.said)

def kind (p : PrintedRule) : RuleKind :=
  p.function.withTestonly (p.attribute? "testonly")

def moduleName (p : PrintedRule) : Option String :=
  (p.attribute? "module_name").bind Attribute.text?

def srcs (p : PrintedRule) : ListAttr String :=
  srcsFrom (p.attribute? "srcs")

/-- The rule in a BUILD file of a package. -/
def rule (p : PrintedRule) (package : String) : Rule :=
  ⟨p.kind, p.name, p.srcs, depsFrom package (p.attribute? "deps"), p.moduleName, none, false, false⟩

/-- What was printed, as a rule of an answer. -/
def queried (p : PrintedRule) : QueriedRule where
  label := p.place.label p.name
  kind := p.kind
  moduleName := p.moduleName
  files := (p.srcs.values?.getD []).filterMap (QueriedRule.fileOf? p.place.package)

/-- The lines of the call: the name comes first. -/
def lines (p : PrintedRule) : List ArgumentLine :=
  .ofText isName_name p.name :: p.arguments

def callLines (p : PrintedRule) : List (List Char) :=
  (p.function.function.toList ++ ['(']) :: (p.lines.map (·.written [' ', ' ']) ++ [[')']])

/-- Where the rule stands. -/
def position (w : Workspace) (p : PrintedRule) : List Char :=
  (Location.text (p.place.dir w ++ [p.file])).toList ++
    ':' :: ((toString p.line).toList ++ ':' :: (toString p.column).toList)

def printed (w : Workspace) (p : PrintedRule) : List (List Char) :=
  ('#' :: ' ' :: p.position w) :: (p.callLines ++ p.notes)

/-- The rule can be printed: its BUILD file has a place, and each argument fits on a line. -/
structure IsPrintable (w : Workspace) (p : PrintedRule) : Prop where
  file : p.file ∈ buildFileNames
  dir : ∀ name ∈ p.place.dir w, Path.IsName name ∧ ':' ∉ name.toList ∧ '\n' ∉ name.toList
  outside : p.place.repo?.isSome = true → w.relative? (p.place.dir w) = none
  function : RuleKind.ofFunction? p.function.function = some p.function
  arguments : ∀ line ∈ p.arguments, line.name ≠ "name" ∧ '\n' ∉ line.value
  notes : ∀ note ∈ p.notes, IsNote note

/-- The dependencies are labels in the BUILD files of a package. -/
def HasDeps (p : PrintedRule) (package : String) : Prop :=
  ∀ line ∈ p.arguments, line.name = "deps" →
    ∀ list, line.said.list? = some list → (labels? package list).isSome = true

/-- The rule can be told from what is printed: no directory on the way to its package is called as
the one of all repositories, a label in a repository can be written, and so are the dependencies. -/
structure IsTold (p : PrintedRule) : Prop where
  between : "external" ∉ p.place.between
  label : p.place.repo?.isSome = true → (p.place.label p.name).IsPlain
  deps : p.HasDeps p.place.package

end PrintedRule

/-- What the build tool prints. -/
def print (w : Workspace) (rules : List PrintedRule) : String :=
  String.ofList (printLines (rules.flatMap (·.printed w)))

namespace QueriedRule

/-! ## Places -/

theorem isDigit_toString (n : Nat) : ∀ c ∈ (toString n).toList, c.isDigit = true := by
  intro c hc
  have hdigits : (toString n).toList = Nat.toDigits 10 n := Nat.toList_repr
  rw [hdigits] at hc
  exact Nat.isDigit_of_mem_toDigits (by omega) (by omega) hc

/-- The characters of a spelled location are slashes and those of the names. -/
theorem mem_toList_text {location : Location} {c : Char} (h : c ∈ location.text.toList) :
    c = '/' ∨ ∃ name ∈ location, c ∈ name.toList := by
  rw [Location.text, String.toList_append, List.mem_append] at h
  rcases h with h | h
  · exact .inl (List.mem_singleton.1 h)
  · induction location with
    | nil => simp at h
    | cons name location ih =>
      by_cases hnil : location = []
      · rw [hnil, String.intercalate_singleton] at h
        exact .inr ⟨name, List.mem_cons_self, h⟩
      · rw [String.intercalate_cons_of_ne_nil hnil, String.toList_append, String.toList_append,
          List.mem_append, List.mem_append] at h
        rcases h with (h | h) | h
        · exact .inr ⟨name, List.mem_cons_self, h⟩
        · exact .inl (List.mem_singleton.1 h)
        · rcases ih h with hslash | ⟨other, hother, hc⟩
          · exact .inl hslash
          · exact .inr ⟨other, List.mem_cons_of_mem _ hother, hc⟩

/-- A name that stands between two slashes is one of the names between the first and the last. -/
theorem mem_of_infix {names : List String} (hnames : ∀ name ∈ names, Path.IsName name)
    {name : String} (hname : Path.IsName name)
    (h : '/' :: (name.toList ++ ['/']) <:+: (String.intercalate "/" names).toList) :
    name ∈ names.tail.dropLast := by
  obtain ⟨xs, ys, hsplit⟩ := h
  have hn : names ≠ [] := by
    rintro rfl
    simp at hsplit
  have hsegments := Path.segments_intercalate hn hnames
  have hjoined : String.intercalate "/" names =
      String.ofList xs ++ "/" ++ (name ++ "/" ++ String.ofList ys) := by
    rw [← String.toList_inj, ← hsplit]
    simp
  rw [hjoined, Path.segments_append_slash, Path.segments_append_slash,
    Path.segments_of_isName hname] at hsegments
  have hparts : ∀ text, Path.segments text ≠ [] := fun text => by
    simp [Path.segments, Text.splitOnChar_ne_nil]
  obtain ⟨first, front, hfront⟩ := List.exists_cons_of_ne_nil (hparts (String.ofList xs))
  rw [← hsegments, hfront, List.cons_append, List.tail_cons,
    List.dropLast_append_of_ne_nil (by simp), List.singleton_append,
    List.dropLast_cons_of_ne_nil (hparts _)]
  simp

/-- The directory of all repositories stands in front of a repository and a package. -/
theorem exists_text_external (base : Location) (repo : String) (names : List String) :
    ∃ front, Location.text (base ++ "external" :: repo :: names) =
      front ++ "/external/" ++ String.intercalate "/" (repo :: names) := by
  have hslash : "/external/" = "/" ++ ("external" ++ "/") := rfl
  by_cases hbase : base = []
  · refine ⟨"", ?_⟩
    rw [hbase, List.nil_append, Location.text, String.intercalate_cons_of_ne_nil (by simp),
      String.empty_append, hslash]
    simp only [String.append_assoc]
  · refine ⟨base.text, ?_⟩
    rw [Location.text, String.intercalate_append_of_ne_nil hbase (by simp), Location.text,
      String.intercalate_cons_of_ne_nil (by simp), hslash]
    simp only [String.append_assoc]

/-- **The repository and the package** follow the directory of all repositories, unless it seems to
stand again behind them. -/
theorem cut?_external {base : Location} {repo : String} {names : List String}
    (hnames : ∀ name ∈ base ++ "external" :: repo :: names, Path.IsName name)
    (h : "external" ∉ (repo :: names).dropLast) :
    ∃ front, Text.cut? "/external/".toList.reverse
        (Location.text (base ++ "external" :: repo :: names)).toList.reverse =
      some ((String.intercalate "/" (repo :: names)).toList.reverse, front) := by
  obtain ⟨front, htext⟩ := exists_text_external base repo names
  refine ⟨front.toList.reverse, ?_⟩
  rw [htext, String.toList_append, String.toList_append, List.reverse_append, List.reverse_append,
    ← List.append_assoc]
  refine Text.cut?_of_not_infix (by simp) (fun hinfix => h ?_) _
  -- Read forward, the directory stands behind itself again.
  have hagain : '/' :: ("external".toList ++ ['/']) <:+:
      (String.intercalate "/" ("external" :: repo :: names)).toList := by
    have hback : "/external/".toList.reverse.dropLast = "external/".toList.reverse := rfl
    have hforward : String.intercalate "/" ("external" :: repo :: names) =
        "external/" ++ String.intercalate "/" (repo :: names) := by
      have hslash : "external/" = "external" ++ "/" := rfl
      rw [String.intercalate_cons_of_ne_nil (by simp), hslash]
    rw [hback, ← List.reverse_append, List.reverse_infix, ← String.toList_append,
      ← hforward] at hinfix
    exact hinfix
  rw [List.forall_mem_append] at hnames
  exact mem_of_infix hnames.2 (hnames.2 _ List.mem_cons_self) hagain

section
variable {w : Workspace} {p : PrintedRule}

theorem isName_file (hp : p.IsPrintable w) : Path.IsName p.file := by
  have hfiles : ∀ name ∈ buildFileNames, Path.IsName name := by decide
  exact hfiles p.file hp.file

theorem isName_dir (hp : p.IsPrintable w) : ∀ name ∈ p.place.dir w, Path.IsName name :=
  fun name hname => (hp.dir name hname).1

/-- The spelling of a BUILD file ends at the first colon. -/
theorem takeWhile_position (hp : p.IsPrintable w) :
    (p.position w).takeWhile (fun c => decide (c ≠ ':')) =
      (Location.text (p.place.dir w ++ [p.file])).toList := by
  have hcolon : ∀ c ∈ (Location.text (p.place.dir w ++ [p.file])).toList,
      decide (c ≠ ':') = true := by
    have hfiles : ∀ name ∈ buildFileNames, ':' ∉ name.toList := by decide
    intro c hc
    refine decide_eq_true ?_
    rintro rfl
    rcases mem_toList_text hc with hslash | ⟨name, hname, hmem⟩
    · cases hslash
    · rw [List.mem_append, List.mem_singleton] at hname
      rcases hname with hname | rfl
      · exact (hp.dir name hname).2.1 hmem
      · exact hfiles _ hp.file hmem
  rw [PrintedRule.position, List.takeWhile_append_of_pos hcolon]
  simp

/-- **The place of a package is read back.** -/
theorem packageAt?_position (hp : p.IsPrintable w) (h : p.IsTold) :
    packageAt? w (p.position w) = some (p.place.repo?, p.place.package) := by
  have hnames := isName_dir hp
  unfold packageAt?
  rw [takeWhile_position hp, String.ofList_toList,
    Location.parentText?_text hnames (isName_file hp)]
  dsimp only
  rw [Location.location?_text hnames, Option.bind_some]
  cases hplace : p.place with
  | inside names =>
    rw [PrintedPlace.dir, Workspace.relative?_append]
    rfl
  | external base repo names =>
    have houtside := hp.outside (by rw [hplace]; rfl)
    have hbetween := h.between
    rw [hplace] at houtside hnames hbetween
    obtain ⟨front, hcut⟩ := cut?_external hnames hbetween
    rw [houtside]
    dsimp only [PrintedPlace.dir]
    rw [hcut]
    dsimp only
    rw [List.reverse_reverse]
    have hrepo : '/' ∉ repo.toList := (hnames repo (by simp [PrintedPlace.dir])).slash
    by_cases hnil : names = []
    · subst hnil
      rw [String.intercalate_singleton, Text.cut?_eq_none.2 hrepo]
      simp [PrintedPlace.repo?, PrintedPlace.package]
    · have hjoined : (String.intercalate "/" (repo :: names)).toList =
          repo.toList ++ '/' :: (String.intercalate "/" names).toList := by
        rw [String.intercalate_cons_of_ne_nil hnil]
        simp
      rw [hjoined, Text.cut?_append hrepo]
      dsimp only
      rw [String.ofList_toList, String.ofList_toList]
      rfl

/-- Wherever a rule stands, it seems to stand in some package. -/
theorem exists_packageAt? (hp : p.IsPrintable w) :
    ∃ found, packageAt? w (p.position w) = some found := by
  have hnames := isName_dir hp
  unfold packageAt?
  rw [takeWhile_position hp, String.ofList_toList,
    Location.parentText?_text hnames (isName_file hp)]
  dsimp only
  rw [Location.location?_text hnames, Option.bind_some]
  cases hplace : p.place with
  | inside names =>
    rw [PrintedPlace.dir, Workspace.relative?_append]
    exact ⟨_, rfl⟩
  | external base repo names =>
    have houtside := hp.outside (by rw [hplace]; rfl)
    rw [hplace] at houtside
    obtain ⟨front, htext⟩ := exists_text_external base repo names
    have hcut := Text.isSome_cut? "/external/".toList.reverse
      (String.intercalate "/" (repo :: names)).toList.reverse front.toList.reverse
    rw [← List.reverse_append, ← List.reverse_append, ← String.toList_append,
      ← String.toList_append, ← String.append_assoc, ← htext] at hcut
    obtain ⟨⟨back, _⟩, hcut⟩ := Option.isSome_iff_exists.1 hcut
    rw [houtside]
    dsimp only [PrintedPlace.dir]
    rw [hcut]
    dsimp only
    split
    · exact ⟨_, rfl⟩
    · exact ⟨_, rfl⟩

/-- **The label of a rule is read back.** -/
theorem labelIn_place (h : p.IsTold) :
    labelIn p.place.repo? p.place.package p.name = p.place.label p.name := by
  cases hrepo : p.place.repo? with
  | none => rw [PrintedPlace.label, hrepo, labelIn, Label.ofPackage]
  | some repo =>
    have hplain := h.label (by rw [hrepo]; rfl)
    have hlabel : p.place.label p.name = ⟨some repo, p.place.package, p.name⟩ := by
      rw [PrintedPlace.label, hrepo]
    rw [hlabel] at hplain ⊢
    have hrest : (p.place.package ++ ":" ++ p.name).toList =
        p.place.package.toList ++ ':' :: p.name.toList := by simp
    have hblank : ∀ c ∈ (p.place.package ++ ":" ++ p.name).toList, Text.isBlank c = false := by
      rw [hrest, List.forall_mem_append, List.forall_mem_cons]
      exact ⟨fun c hc => (hplain.package c hc).1, by decide, fun c hc => (hplain.name.plain c hc).1⟩
    have htext : "@" ++ repo ++ "//" ++ p.place.package ++ ":" ++ p.name =
        Label.root ⟨some repo, p.place.package, p.name⟩ ++ (p.place.package ++ ":" ++ p.name) := by
      simp only [Label.root, String.append_assoc]
    have hparse := Label.parse?_root hplain.repo hblank p.place.package
    rw [hrest, (Label.ofAbsolute?_of_plain hplain.name hplain.package hplain.trimmed).1] at hparse
    rw [labelIn, htext, hparse, Option.getD_some]

end

/-! ## Lines -/

theorem splitOnChar_printLines {lines : List (List Char)} (h : ∀ line ∈ lines, '\n' ∉ line) :
    Text.splitOnChar '\n' (printLines lines) = lines ++ [[]] := by
  induction lines with
  | nil => rfl
  | cons line lines ih =>
    rw [List.forall_mem_cons] at h
    have hlines : printLines (line :: lines) = line ++ '\n' :: printLines lines := by
      simp [printLines]
    rw [hlines, splitOnChar_append h.1, ih h.2, List.cons_append]

/-- **Lines are read back** as they were printed. -/
theorem lines_printLines {printed : List (List Char)}
    (h : ∀ line ∈ printed, '\n' ∉ line ∧ line.getLast? ≠ some '\r') :
    lines (printLines printed) = printed := by
  have hkept : ∀ line ∈ printed, (Text.stripEnd? ['\r'] line).getD line = line := by
    intro line hline
    have hstrip : Text.stripEnd? ['\r'] line = none := by
      rw [Text.stripEnd?, Option.map_eq_none_iff, Option.eq_none_iff_forall_ne_some]
      intro rest hrest
      have hreverse : line.reverse = '\r' :: rest := Text.strip?_eq_some_iff.1 hrest
      apply (h line hline).2
      rw [← List.head?_reverse, hreverse, List.head?_cons]
    rw [hstrip, Option.getD_none]
  unfold lines
  rw [splitOnChar_printLines fun line hline => (h line hline).1]
  dsimp only
  rw [List.dropLast_concat, List.map_congr_left hkept, List.map_id', List.getLast?_concat]
  simp

/-! ## Blocks -/

theorem placeOf?_of_head? {line : List Char} (h : line.head? ≠ some '#') :
    placeOf? line = none := by
  have hstrip : Text.strip? ['#', ' '] line = none := by
    cases line with
    | nil => rfl
    | cons c cs =>
      have hc : '#' ≠ c := fun hc => h (congrArg some hc.symm)
      simp [Text.strip?, hc]
  rw [placeOf?, hstrip]

theorem blocks_append {front rest : List (List Char)}
    (h : ∀ line ∈ front, placeOf? line = none) :
    blocks (front ++ rest) = (printLines front ++ (blocks rest).1, (blocks rest).2) := by
  induction front with
  | nil => rfl
  | cons line front ih =>
    rw [List.forall_mem_cons] at h
    rw [List.cons_append, blocks, ih h.2, h.1]
    simp [printLines]

theorem blocks_cons {line place : List Char} {rest : List (List Char)}
    (h : placeOf? line = some place) :
    blocks (line :: rest) = ([], (place, (blocks rest).1) :: (blocks rest).2) := by
  rw [blocks, h]

/-- The text of some notes. -/
def AreNotes (text : List Char) : Prop :=
  ∃ notes, (∀ note ∈ notes, IsNote note) ∧ text = printLines notes

/-- Notes make up blocks of their own where they look like places. -/
theorem exists_blocks_notes {notes rest : List (List Char)} (h : ∀ note ∈ notes, IsNote note)
    (hrest : (blocks rest).1 = []) :
    ∃ front told, blocks (notes ++ rest) = (front, told ++ (blocks rest).2) ∧ AreNotes front ∧
      ∀ block ∈ told, AreNotes block.2 := by
  induction notes with
  | nil => exact ⟨[], [], by simp [← hrest], ⟨[], by simp, rfl⟩, by simp⟩
  | cons note notes ih =>
    rw [List.forall_mem_cons] at h
    obtain ⟨front, told, hblocks, hfront, htold⟩ := ih h.2
    obtain ⟨quiet, hquiet, rfl⟩ := hfront
    cases hplace : placeOf? note with
    | none =>
      refine ⟨printLines (note :: quiet), told, ?_, ⟨note :: quiet, ?_, rfl⟩, htold⟩
      · rw [List.cons_append, blocks, hblocks, hplace]
        simp [printLines]
      · exact List.forall_mem_cons.2 ⟨h.1, hquiet⟩
    | some place =>
      refine ⟨[], (place, printLines quiet) :: told, ?_, ⟨[], by simp, rfl⟩, ?_⟩
      · rw [List.cons_append, blocks_cons hplace, hblocks]
        rfl
      · exact List.forall_mem_cons.2 ⟨⟨quiet, hquiet, rfl⟩, htold⟩

/-! ## What a block says -/

section
variable {w : Workspace} {place block : List Char} {repo : Option String} {package : String}
  {o : Outline}

theorem ofBlock_of_reads (hplace : packageAt? w place = some (repo, package))
    (h : TextReads package block o) :
    ofBlock w place block = .ok (o.rules.map (ofRule repo package)) := by
  obtain ⟨c, hparse, rfl⟩ := h.exists_parse
  have hd : Descriptor.parse outputPath package (String.ofList block) =
      .ok ⟨outputPath, package, String.ofList block, c.rules, c.loads, c.called, []⟩ := by
    rw [Descriptor.parse, String.toList_ofList, hparse]
    rfl
  rw [ofBlock, hplace]
  dsimp only
  rw [hd]
  simp [Contents.outline, Outline.of, Function.comp_def, ofRule, Rule.plain]

/-- The tokens of some notes. -/
theorem AreNotes.exists_tokens (h : AreNotes block) :
    ∃ ts, IsWritten block ts ∧ ∀ t ∈ ts, t.isTrivia = true := by
  obtain ⟨notes, hnotes, rfl⟩ := h
  induction notes with
  | nil => exact ⟨[], .nil, by simp⟩
  | cons note notes ih =>
    rw [List.forall_mem_cons] at hnotes
    obtain ⟨ts, hts, htrivia⟩ := ih hnotes.2
    have hline : ∃ us, IsWritten (note ++ ['\n']) us ∧ ∀ t ∈ us, t.isTrivia = true := by
      have hnewline : IsWritten ['\n'] [newlineToken] := fun next => (IsToken.newline next).lexes
      rcases hnotes.1.empty with rfl | hhash
      · exact ⟨_, hnewline, by simp [newlineToken, Token.isTrivia]⟩
      · obtain ⟨cs, rfl⟩ := List.head?_eq_some_iff.1 hhash
        have hcs : '\n' ∉ cs := fun hmem => hnotes.1.newline (List.mem_cons_of_mem _ hmem)
        refine ⟨⟨.comment, 0, '#' :: cs⟩ :: [newlineToken], fun next => ?_, ?_⟩
        · exact (IsToken.hash hcs (.inr rfl)).lexes.append (hnewline next)
        · simp [newlineToken, Token.isTrivia]
    obtain ⟨us, hus, hquiet⟩ := hline
    have hprint : printLines (note :: notes) = note ++ ['\n'] ++ printLines notes := rfl
    rw [hprint]
    exact ⟨us ++ ts, hus.append hts, List.forall_mem_append.2 ⟨hquiet, htrivia⟩⟩

theorem reads_trivia {ts : List Token} (h : ∀ t ∈ ts, t.isTrivia = true) :
    Reads package (ts.map Token.bare) .empty := by
  induction ts with
  | nil => exact Reads.nil package
  | cons t ts ih =>
    rw [List.forall_mem_cons] at h
    exact (ih h.2).trivia h.1

/-- **Notes say nothing**, wherever they seem to come from. -/
theorem ofBlock_notes (w : Workspace) (place : List Char) (h : AreNotes block) :
    ofBlock w place block = .ok [] := by
  cases hplace : packageAt? w place with
  | none => rw [ofBlock, hplace]
  | some found =>
    obtain ⟨ts, hts, htrivia⟩ := h.exists_tokens
    have hread : Reads found.2 (ts.map Token.bare) .empty := reads_trivia htrivia
    rw [lexemes_bare (hts none).lexemes] at hread
    exact ofBlock_of_reads hplace ⟨ts, (hts none).lexemes, hread⟩

end

section
variable {w : Workspace} {p : PrintedRule}

/-- The lines of a call say its name in the first one, and the rest in the others. -/
theorem lastAttribute_lines (hp : p.IsPrintable w) (key : String) :
    lastAttribute key (p.lines.map ArgumentLine.said) =
      if key = "name" then some (ArgumentLine.ofText isName_name p.name).said
      else p.attribute? key := by
  have hkey : (ArgumentLine.ofText isName_name p.name).said.key = some "name" := rfl
  have hfirst : lastAttribute key [(ArgumentLine.ofText isName_name p.name).said] = _ :=
    lastNamed_singleton _
  rw [hkey] at hfirst
  rw [PrintedRule.lines, List.map_cons, ← List.singleton_append, lastAttribute_append, hfirst]
  by_cases hname : key = "name"
  · subst hname
    have hnone : lastAttribute "name" (p.arguments.map ArgumentLine.said) = none := by
      refine lastAttribute_eq_none fun a ha hk => ?_
      obtain ⟨line, hline, rfl⟩ := List.mem_map.1 ha
      exact (hp.arguments line hline).1 (Option.some.inj hk)
    rw [if_pos rfl, if_pos rfl]
    exact congrArg (Option.or · _) hnone
  · rw [if_neg hname, if_neg fun h => hname (Option.some.inj h).symm, Option.or_none]
    rfl

/-- The arguments of a printed call say its rule. -/
theorem isReadFrom_lines (hp : p.IsPrintable w) {package : String} (hdeps : p.HasDeps package) :
    (p.rule package).IsReadFrom package p.function (p.lines.map ArgumentLine.said) := by
  refine ⟨fun a ha => ?_, ?_, ?_, ?_, ?_, ?_⟩
  · rw [PrintedRule.lines, List.map_cons, List.mem_cons] at ha
    rcases ha with rfl | ha
    · have hname : "name" ≠ "deps" := by decide
      refine ⟨fun _ => ?_, fun hk => absurd (Option.some.inj hk) hname⟩
      rw [ArgumentLine.text?_said_ofText]
      rfl
    · obtain ⟨line, hline, rfl⟩ := List.mem_map.1 ha
      exact ⟨fun hk => absurd (Option.some.inj hk) (hp.arguments line hline).1,
        fun hk => hdeps line hline (Option.some.inj hk)⟩
  · rw [lastAttribute_lines hp, if_neg (by decide)]
    rfl
  · rw [lastAttribute_lines hp, if_pos rfl]
    exact ArgumentLine.text?_said_ofText isName_name p.name
  · rw [lastAttribute_lines hp, if_neg (by decide)]
    rfl
  · rw [lastAttribute_lines hp, if_neg (by decide)]
    rfl
  · rw [lastAttribute_lines hp, if_neg (by decide)]
    rfl

/-- **A printed call** says its rule, with notes behind it, in whatever package it seems to be. -/
theorem ofBlock_call (hp : p.IsPrintable w) {repo : Option String} {package : String}
    (hplace : packageAt? w (p.position w) = some (repo, package)) (hdeps : p.HasDeps package)
    {notes : List Char} (hnotes : AreNotes notes) :
    ofBlock w (p.position w) (printLines p.callLines ++ notes) =
      .ok [ofRule repo package (p.rule package)] := by
  obtain ⟨ts, hts, htrivia⟩ := hnotes.exists_tokens
  have hquiet : Reads package (ts.map Token.bare) .empty := reads_trivia htrivia
  rw [lexemes_bare (hts none).lexemes] at hquiet
  have hreads := reads_ruleTokens hp.function (isReadFrom_lines hp hdeps) hquiet
  have hindent : ∀ c ∈ [' ', ' '], isGap c = true := List.all_eq_true.1 (by decide)
  have hwritten := (isWritten_ruleTokens p.function p.lines hindent).append hts
  have htext : printLines p.callLines = p.function.function.toList ++ "(\n".toList ++
      p.lines.flatMap (fun line => line.written [' ', ' '] ++ ['\n']) ++ ")\n".toList := by
    simp [printLines, PrintedRule.callLines, List.flatMap_map]
  rw [htext]
  exact ofBlock_of_reads hplace ⟨_, (hwritten none).lexemes, hreads⟩

end

/-! ## What an answer says -/

/-- The rules of some blocks. -/
def ofBlocks (w : Workspace) (blocks : List (List Char × List Char)) :
    Except Problem (List QueriedRule) :=
  (blocks.mapM fun (place, block) => ofBlock w place block).map List.flatten

section
variable {w : Workspace} {place block : List Char} {rest told : List (List Char × List Char)}
  {found others : List QueriedRule}

theorem ofBlocks_cons (h : ofBlock w place block = .ok found)
    (hrest : ofBlocks w rest = .ok others) :
    ofBlocks w ((place, block) :: rest) = .ok (found ++ others) := by
  obtain ⟨parts, hparts, rfl⟩ := map_eq_ok hrest
  unfold ofBlocks
  rw [List.mapM_cons, hparts]
  dsimp only
  rw [h]
  rfl

theorem ofBlocks_notes (h : ∀ block ∈ told, AreNotes block.2)
    (hrest : ofBlocks w rest = .ok others) : ofBlocks w (told ++ rest) = .ok others := by
  induction told with
  | nil => exact hrest
  | cons block told ih =>
    rw [List.forall_mem_cons] at h
    exact ofBlocks_cons (ofBlock_notes w block.1 h.1) (ih h.2)

end

section
variable {w : Workspace} {p : PrintedRule}

/-- **The line in front of a rule** tells its place. -/
theorem placeOf?_position (hp : p.IsPrintable w) :
    placeOf? ('#' :: ' ' :: p.position w) = some (p.position w) := by
  obtain ⟨front, hfront⟩ :
      ∃ front, Location.text (p.place.dir w ++ [p.file]) = front ++ p.file := by
    unfold Location.text
    by_cases hnil : p.place.dir w = []
    · exact ⟨"/", by rw [hnil, List.nil_append, String.intercalate_singleton]⟩
    · refine ⟨"/" ++ String.intercalate "/" (p.place.dir w) ++ "/", ?_⟩
      rw [String.intercalate_append_of_ne_nil hnil (by simp), String.intercalate_singleton]
      simp only [String.append_assoc]
  obtain ⟨ending, hending⟩ : ∃ ending, p.file = "BUILD" ++ ending := by
    rcases List.mem_pair.1 hp.file with h | h <;> rw [h]
    · exact ⟨".bazel", rfl⟩
    · exact ⟨"", rfl⟩
  have hposition : p.position w = front.toList ++ "BUILD".toList ++ (ending.toList ++
      ':' :: ((toString p.line).toList ++ ':' :: (toString p.column).toList)) := by
    rw [PrintedRule.position, hfront, hending]
    simp only [String.toList_append, List.append_assoc]
  have hstrip : Text.strip? ['#', ' '] ('#' :: ' ' :: p.position w) = some (p.position w) :=
    Text.strip?_eq_some_iff.2 rfl
  rw [placeOf?, hstrip]
  dsimp only
  rw [if_pos]
  rw [hposition]
  exact Text.isSome_cut? _ _ _

theorem head?_callLines : ∀ line ∈ p.callLines, line.head? ≠ some '#' := by
  intro line hline
  rw [PrintedRule.callLines, List.mem_cons, List.mem_append, List.mem_singleton] at hline
  rcases hline with rfl | hline | rfl
  · obtain ⟨c, cs, hname, hc, -, -⟩ := isName_function p.function
    rw [hname]
    rintro hhash
    cases hhash
    exact absurd hc (by decide)
  · obtain ⟨argument, -, rfl⟩ := List.mem_map.1 hline
    simp [ArgumentLine.written]
  · decide

/-- What the block of a printed rule says, whatever notes stand behind the rule. -/
def Says (w : Workspace) (p : PrintedRule) (found : QueriedRule) : Prop :=
  ∀ notes, AreNotes notes →
    ofBlock w (p.position w) (printLines p.callLines ++ notes) = .ok [found]

/-- **An answer falls into the printed rules**, whose blocks say them one by one. -/
theorem ofBlocks_printed {rules : List PrintedRule} {found : PrintedRule → QueriedRule}
    (hp : ∀ p ∈ rules, p.IsPrintable w) (h : ∀ p ∈ rules, Says w p (found p)) :
    (blocks (rules.flatMap (·.printed w))).1 = [] ∧
      ofBlocks w (blocks (rules.flatMap (·.printed w))).2 = .ok (rules.map found) := by
  induction rules with
  | nil => exact ⟨rfl, rfl⟩
  | cons p rules ih =>
    rw [List.forall_mem_cons] at hp h
    obtain ⟨hnil, hrest⟩ := ih hp.2 h.2
    obtain ⟨front, told, hnotes, hfront, htold⟩ := exists_blocks_notes hp.1.notes hnil
    have hcall : ∀ line ∈ p.callLines, placeOf? line = none := fun line hline =>
      placeOf?_of_head? (head?_callLines line hline)
    have hblocks : blocks ((p :: rules).flatMap (·.printed w)) =
        ([], (p.position w, printLines p.callLines ++ front) ::
          (told ++ (blocks (rules.flatMap (·.printed w))).2)) := by
      rw [List.flatMap_cons, PrintedRule.printed, List.cons_append, List.append_assoc,
        blocks_cons (placeOf?_position hp.1), blocks_append hcall, hnotes]
    rw [hblocks]
    exact ⟨rfl, ofBlocks_cons (h.1 front hfront) (ofBlocks_notes htold hrest)⟩

theorem newline_not_mem_name {name : String} (h : IsName name) : '\n' ∉ name.toList := by
  obtain ⟨c, cs, hname, hc, -, hcs⟩ := h
  rw [hname, List.mem_cons, not_or]
  refine ⟨?_, fun hmem => ?_⟩
  · rintro rfl
    exact absurd hc (by decide)
  · exact absurd (hcs _ hmem) (by decide)

theorem newline_not_mem_quote (cs : List Char) : '\n' ∉ quote cs := by
  have hescape : ∀ c ∈ cs, '\n' ∉ escapeChar c := by
    intro c _
    unfold escapeChar
    split
    · decide
    · split
      · decide
      · split
        · decide
        · rename_i hc
          exact fun hmem => hc (List.mem_singleton.1 hmem).symm
  simpa [quote] using hescape

theorem newline_not_mem_position (hp : p.IsPrintable w) : '\n' ∉ p.position w := by
  have hdigits : ∀ n : Nat, '\n' ∉ (toString n).toList := fun n hmem =>
    absurd (isDigit_toString n _ hmem) (by decide)
  have hfiles : ∀ name ∈ buildFileNames, '\n' ∉ name.toList := by decide
  have htext : '\n' ∉ (Location.text (p.place.dir w ++ [p.file])).toList := by
    intro hmem
    rcases mem_toList_text hmem with hslash | ⟨name, hname, hmem⟩
    · exact absurd hslash (by decide)
    · rw [List.mem_append, List.mem_singleton] at hname
      rcases hname with hname | rfl
      · exact (hp.dir name hname).2.2 hmem
      · exact hfiles _ hp.file hmem
  rw [PrintedRule.position, List.mem_append, List.mem_cons, List.mem_append, List.mem_cons]
  rintro (hmem | hmem | hmem | hmem | hmem)
  · exact htext hmem
  · exact absurd hmem (by decide)
  · exact hdigits _ hmem
  · exact absurd hmem (by decide)
  · exact hdigits _ hmem

/-- The place of a rule ends with a digit. -/
theorem exists_getLast?_position (w : Workspace) (p : PrintedRule) :
    ∃ c, (p.position w).getLast? = some c ∧ c.isDigit = true := by
  have hdigits : (toString p.column).toList ≠ [] := by
    have hlist : (toString p.column).toList = Nat.toDigits 10 p.column := Nat.toList_repr
    rw [hlist]
    exact Nat.toDigits_ne_nil
  refine ⟨(toString p.column).toList.getLast hdigits, ?_,
    isDigit_toString _ _ (List.getLast_mem hdigits)⟩
  have hposition : p.position w = (Location.text (p.place.dir w ++ [p.file])).toList ++
      ':' :: ((toString p.line).toList ++ [':']) ++ (toString p.column).toList := by
    simp [PrintedRule.position]
  rw [hposition, List.getLast?_append_of_ne_nil _ hdigits, List.getLast?_eq_some_getLast hdigits]

/-- **What is printed falls into lines.** -/
theorem isLine_printed (hp : p.IsPrintable w) :
    ∀ line ∈ p.printed w, '\n' ∉ line ∧ line.getLast? ≠ some '\r' := by
  have hvalues : ∀ line ∈ p.lines, '\n' ∉ line.value :=
    List.forall_mem_cons.2 ⟨newline_not_mem_quote _, fun line hline => (hp.arguments line hline).2⟩
  have hcall : ∀ line ∈ p.callLines, '\n' ∉ line ∧ line.getLast? ≠ some '\r' := by
    intro line hline
    rw [PrintedRule.callLines, List.mem_cons, List.mem_append, List.mem_singleton] at hline
    rcases hline with rfl | hline | rfl
    · have hname := newline_not_mem_name (isName_function p.function)
      simp [hname]
    · obtain ⟨argument, hmem, rfl⟩ := List.mem_map.1 hline
      have hname := newline_not_mem_name argument.isName
      have hvalue := hvalues argument hmem
      rw [ArgumentLine.written, ← List.append_assoc, List.getLast?_concat]
      simp [namedText, hname, hvalue]
    · decide
  obtain ⟨c, hlast, hdigit⟩ := exists_getLast?_position w p
  have hplace : ('#' :: ' ' :: p.position w).getLast? = some c := by
    rw [List.getLast?_cons, List.getLast?_cons, hlast]
    rfl
  refine List.forall_mem_cons.2 ⟨⟨?_, ?_⟩, List.forall_mem_append.2 ⟨hcall, fun note hnote => ?_⟩⟩
  · simpa using newline_not_mem_position hp
  · rw [hplace]
    rintro hreturn
    cases hreturn
    exact absurd hdigit (by decide)
  · exact ⟨(hp.notes note hnote).newline, (hp.notes note hnote).last⟩

/-- An answer says what its blocks say. -/
theorem ofOutput_of_says {rules : List PrintedRule} {found : PrintedRule → QueriedRule}
    (hp : ∀ p ∈ rules, p.IsPrintable w) (h : ∀ p ∈ rules, Says w p (found p)) :
    ofOutput w (print w rules) = .ok (rules.map found) := by
  have hlines : ∀ line ∈ rules.flatMap (·.printed w), '\n' ∉ line ∧ line.getLast? ≠ some '\r' := by
    intro line hline
    obtain ⟨p, hmem, hline⟩ := List.mem_flatMap.1 hline
    exact isLine_printed (hp p hmem) line hline
  have hread := (ofBlocks_printed hp h).2
  rw [ofOutput, print, String.toList_ofList, lines_printLines hlines]
  exact hread

/-- **An answer is read back** as the rules that were printed, in order. -/
theorem ofOutput_printed {rules : List PrintedRule}
    (hp : ∀ p ∈ rules, p.IsPrintable w) (h : ∀ p ∈ rules, p.IsTold) :
    ofOutput w (print w rules) = .ok (rules.map (·.queried)) := by
  refine ofOutput_of_says hp fun p hmem notes hnotes => ?_
  have htold := h p hmem
  rw [ofBlock_call (hp p hmem) (packageAt?_position (hp p hmem) htold) htold.deps hnotes]
  have hrule : ofRule p.place.repo? p.place.package (p.rule p.place.package) = p.queried := by
    rw [ofRule, PrintedRule.queried, ← labelIn_place htold]
    rfl
  rw [hrule]

end

end QueriedRule

/-! ## Two answers -/

theorem isName_moduleName : IsName "module_name" :=
  isName_of_all rfl (by decide) (by decide) (by decide)

/-- A test rule with a module name. One of the notes behind it looks like a place. -/
def moduleRule (place : PrintedPlace) (file name moduleName : String) : PrintedRule where
  place := place
  file := file
  line := 3
  column := 11
  function := .library false
  name := name
  arguments := [.ofText isName_moduleName moduleName, .ofTest]
  notes := ["# Instantiated at:".toList, "#   /ws/BUILD:3:11 in <toplevel>".toList, []]

theorem hasDeps_moduleRule (place : PrintedPlace) (file name moduleName package : String) :
    (moduleRule place file name moduleName).HasDeps package := by
  simp [PrintedRule.HasDeps, moduleRule, ArgumentLine.ofText, ArgumentLine.ofTest]

section
variable {place : PrintedPlace} {file name moduleName : String}

theorem isPrintable_moduleRule (hfile : file ∈ buildFileNames)
    (hdir : ∀ name ∈ place.dir ⟨["ws"]⟩, Path.IsName name ∧ ':' ∉ name.toList ∧ '\n' ∉ name.toList)
    (houtside : place.repo?.isSome = true →
      (Workspace.mk ["ws"]).relative? (place.dir ⟨["ws"]⟩) = none) :
    (moduleRule place file name moduleName).IsPrintable ⟨["ws"]⟩ := by
  have hname : "module_name" ≠ "name" := by decide
  refine ⟨hfile, hdir, houtside, rfl, ?_, ?_⟩
  · rw [moduleRule, List.forall_mem_cons, List.forall_mem_singleton]
    exact ⟨⟨hname, QueriedRule.newline_not_mem_quote _⟩, by decide, by decide⟩
  · rw [moduleRule, List.forall_mem_cons, List.forall_mem_cons, List.forall_mem_singleton]
    exact ⟨⟨by decide, by decide, .inr rfl⟩, ⟨by decide, by decide, .inr rfl⟩,
      by decide, by decide, .inl rfl⟩

end

def widgetRule : PrintedRule :=
  moduleRule (.inside ["third_party", "widgets"]) "BUILD" "widgets" "widgets"

def lodashRule : PrintedRule :=
  moduleRule (.external ["cache", "output"] "npm" ["lodash"]) "BUILD.bazel" "lodash" "lodash"

theorem isPrintable_widgetRule : widgetRule.IsPrintable ⟨["ws"]⟩ :=
  isPrintable_moduleRule (by decide) (by decide) fun h => by cases h

theorem isPrintable_lodashRule : lodashRule.IsPrintable ⟨["ws"]⟩ :=
  isPrintable_moduleRule (by decide) (by decide) fun _ => by decide

theorem isTold_widgetRule : widgetRule.IsTold := by
  refine ⟨by simp [widgetRule, moduleRule, PrintedPlace.between], fun h => ?_,
    hasDeps_moduleRule _ _ _ _ _⟩
  cases h

theorem isTold_lodashRule : lodashRule.IsTold := by
  refine ⟨by simp [lodashRule, moduleRule, PrintedPlace.between], fun _ => ?_,
    hasDeps_moduleRule _ _ _ _ _⟩
  refine ⟨⟨by decide, Label.isPlainText_of_all rfl⟩, Label.isPlainText_of_all rfl,
    ⟨by decide, by decide⟩, ?_⟩
  rintro repo hrepo
  cases hrepo
  have hplain : Label.IsPlainText "npm" := Label.isPlainText_of_all rfl
  exact ⟨by decide, fun c hc => (hplain c hc).1, by decide⟩

/-- A rule of the workspace and one of a repository are read back. -/
theorem QueriedRule.ofOutput_printed_two :
    (∀ p ∈ [widgetRule, lodashRule], p.IsPrintable ⟨["ws"]⟩) ∧
    (∀ p ∈ [widgetRule, lodashRule], p.IsTold) ∧
    ofOutput ⟨["ws"]⟩ (print ⟨["ws"]⟩ [widgetRule, lodashRule]) =
      .ok [⟨⟨none, "third_party/widgets", "widgets"⟩, .library true, some "widgets", []⟩,
        ⟨⟨some "npm", "lodash", "lodash"⟩, .library true, some "lodash", []⟩] := by
  have hprintable : ∀ p ∈ [widgetRule, lodashRule], p.IsPrintable ⟨["ws"]⟩ := by
    rw [List.forall_mem_cons, List.forall_mem_singleton]
    exact ⟨isPrintable_widgetRule, isPrintable_lodashRule⟩
  have htold : ∀ p ∈ [widgetRule, lodashRule], p.IsTold := by
    rw [List.forall_mem_cons, List.forall_mem_singleton]
    exact ⟨isTold_widgetRule, isTold_lodashRule⟩
  refine ⟨hprintable, htold, ?_⟩
  rw [ofOutput_printed hprintable htold]
  cbv

/-- A rule below a directory that is called as the one of all repositories. -/
def nestedRule : PrintedRule :=
  moduleRule (.external ["out"] "npm" ["a", "external", "b"]) "BUILD" "x" "m"

/-- **A rule can be taken for one of another repository**: the last directory called `external` is
taken for the one of all repositories. -/
theorem QueriedRule.ofOutput_misplaced : nestedRule.IsPrintable ⟨["ws"]⟩ ∧
    nestedRule.queried.label = ⟨some "npm", "a/external/b", "x"⟩ ∧
    ∃ found, ofOutput ⟨["ws"]⟩ (print ⟨["ws"]⟩ [nestedRule]) = .ok [found] ∧
      found.label = ⟨some "b", "", "x"⟩ := by
  have hprintable : nestedRule.IsPrintable ⟨["ws"]⟩ :=
    isPrintable_moduleRule (by decide) (by decide) fun _ => by decide
  have hplace : packageAt? ⟨["ws"]⟩ (nestedRule.position ⟨["ws"]⟩) = some (some "b", "") := by
    decide +kernel
  have hsays : ∀ p ∈ [nestedRule], Says ⟨["ws"]⟩ p (ofRule (some "b") "" (p.rule "")) := by
    rw [List.forall_mem_singleton]
    exact fun notes hnotes => ofBlock_call hprintable hplace (hasDeps_moduleRule _ _ _ _ _) hnotes
  refine ⟨hprintable, rfl, _, ofOutput_of_says (List.forall_mem_singleton.2 hprintable) hsays, ?_⟩
  decide +kernel

example : print ⟨["ws"]⟩ [{ nestedRule with arguments := [], notes := [] }] =
    "# /out/external/npm/a/external/b/BUILD:3:11\nts_library(\n  name = \"x\",\n)\n" := by
  decide +kernel

end BuildSync.Query
