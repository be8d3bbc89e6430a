import Mathlib.Data.List.Forall2
import BuildSync.Proofs.Text.Positions
import BuildSync.Proofs.TypeScript.Clauses
import BuildSync.TypeScript.Imports

/-!
# Imports stand where they are said to

* `Tells`: what an import tells of its declaration in a text.
* `exists_importOf`: a clause of a program makes an import that does.
* `imports_tell`: so do all imports of a source that starts with no mark for the order of its bytes.
-/

namespace BuildSync.TypeScript

open BuildSync.Parser Text

/-! ## One clause -/

/-- The parts of a text of which an import tells: the declaration of a clause, and in it the name of
the module, as a string. -/
structure TellsAt (g : Grammar) (text : List Char) (clause : Clause) (i : Import)
    (front before literal after back : List Char) : Prop where
  parts : text = front ++ ((before ++ (literal ++ after)) ++ back)
  declares : g.Declares (before ++ (literal ++ after)) back i.kind
    ⟨width (literal ++ (after ++ back)), width (after ++ back)⟩
  kind : clause.kind = i.kind
  whole : clause.whole = ⟨width ((before ++ (literal ++ after)) ++ back), width back⟩
  name : clause.name = ⟨width (literal ++ (after ++ back)), width (after ++ back)⟩
  string : Reads rawString (literal ++ (after ++ back)) () (after ++ back)
  start : i.start = width front
  slice : slice? text i.start i.stop = some (before ++ (literal ++ after))
  specifier : ∀ quote body, literal = quote :: (body ++ [quote]) → i.specifier = String.ofList body
  line : i.line = front.count '\n' + 1
  endLine : i.endLine = (front ++ (before ++ (literal ++ after)).dropLast).count '\n' + 1

/-- An import tells where the declaration of a clause stands in a text, on which lines, how it uses
the module, and what stands between the quotation marks of the module's name. -/
def Tells (g : Grammar) (text : List Char) (clause : Clause) (i : Import) : Prop :=
  ∃ front before literal after back, TellsAt g text clause i front before literal after back

theorem unquoted_closed {quote : Char} (h : IsQuote quote) (body : List Char) :
    unquoted (quote :: (body ++ [quote])) = body := by
  have hsize : quote.utf8Size = 1 := by
    obtain rfl | rfl := h <;> rfl
  have hslice := slice?_width [quote] body [quote]
  have hwidth : width (quote :: (body ++ [quote])) - 1 = width [quote] + width body := by
    simp only [width_cons, width_append, width_nil]
    omega
  have hone : width [quote] = 1 := by simpa using hsize
  rw [unquoted, hwidth, ← hone]
  simp only [List.cons_append, List.nil_append] at hslice
  rw [hslice]
  rfl

/-- The line on which the last byte of a part of a text is. -/
theorem lineAt_last {front held back : List Char} (h : held ≠ []) :
    lineAt (front ++ (held ++ back)) (max (width (front ++ held) - 1) (width front)) =
      (front ++ held.dropLast).count '\n' + 1 := by
  obtain ⟨init, c, rfl⟩ : ∃ init c, held = init ++ [c] := by
    obtain rfl | ⟨init, c, hheld⟩ := List.eq_nil_or_concat held
    · exact absurd rfl h
    · exact ⟨init, c, by simpa using hheld⟩
  have hc := c.utf8Size_pos
  have hmax : max (width (front ++ (init ++ [c])) - 1) (width front) =
      width (front ++ init) + (c.utf8Size - 1) := by
    simp only [width_append, width_cons, width_nil]
    omega
  have hwithin := newlinesBefore_within (front ++ init) (c := c) (n := c.utf8Size - 1)
    (by omega) back
  rw [hmax, lineAt, List.dropLast_concat, ← hwithin]
  simp

/-- **A clause of a text makes an import that tells where it stands.** -/
theorem exists_importOf {g : Grammar} {text : List Char} {clause : Clause}
    (h : g.Stands text clause) :
    ∃ i, importOf text (width text) clause = .ok i ∧ Tells g text clause i := by
  obtain ⟨front, held, back, rfl, hwhole, hdeclares⟩ := h
  obtain ⟨before, literal, after, hheld, hname, hreads⟩ := hdeclares.names
  have hheld : held = before ++ (literal ++ after) :=
    List.append_cancel_right (hheld.trans (by simp))
  subst hheld
  obtain ⟨quote, inner, hquote, hliteral, -⟩ := exists_of_reads_rawString hreads
  have hliteral : literal = quote :: inner :=
    List.append_cancel_right (hliteral.trans (by simp))
  obtain ⟨kind, whole, name⟩ := clause
  dsimp only at hwhole hdeclares hname
  subst hwhole hname
  have hstart : width (front ++ (before ++ (literal ++ after) ++ back)) -
      width (before ++ (literal ++ after) ++ back) = width front := by
    simp only [width_append]
    omega
  have hstop : width (front ++ (before ++ (literal ++ after) ++ back)) - width back =
      width (front ++ (before ++ (literal ++ after))) := by
    simp only [width_append]
    omega
  have hname : slice? (front ++ (before ++ (literal ++ after) ++ back))
      (width (front ++ (before ++ (literal ++ after) ++ back)) - width (literal ++ (after ++ back)))
      (width (front ++ (before ++ (literal ++ after) ++ back)) - width (after ++ back)) =
        some literal := by
    have hslice := slice?_width (front ++ before) literal (after ++ back)
    simp only [List.append_assoc] at hslice ⊢
    rw [← hslice]
    congr 1 <;> simp only [width_append] <;> omega
  simp only [importOf, hname, hstart, hstop]
  refine ⟨_, rfl, front, before, literal, after, back, rfl, hdeclares, rfl, rfl, rfl, hreads, rfl,
    ?slice, ?specifier, ?line, ?endLine⟩
  case slice =>
    rw [width_append front, ← List.append_assoc front]
    exact slice?_width front (before ++ (literal ++ after)) back
  case specifier =>
    rintro quote' body hclosed
    rw [hliteral] at hclosed
    cases hclosed
    rw [hliteral, unquoted_closed hquote]
  case line => rw [lineAt, newlinesBefore_width]
  case endLine => exact lineAt_last (by simp [hliteral])

/-! ## All clauses -/

theorem exists_mapM {ε α β : Type} {f : α → Except ε β} {R : α → β → Prop} {xs : List α}
    (h : ∀ x ∈ xs, ∃ y, f x = .ok y ∧ R x y) : ∃ ys, xs.mapM f = .ok ys ∧ List.Forall₂ R xs ys := by
  induction xs with
  | nil => exact ⟨[], rfl, .nil⟩
  | cons x xs ih =>
    rw [List.forall_mem_cons] at h
    obtain ⟨y, hy, hR⟩ := h.1
    obtain ⟨ys, hys, hall⟩ := ih h.2
    refine ⟨y :: ys, ?_, .cons hR hall⟩
    rw [List.mapM_cons, hy, hys]
    rfl

theorem stands_of_clauses? {markup : Bool} {text : List Char} {clauses : List Clause}
    (h : clauses? markup text = some clauses) :
    (∀ clause ∈ clauses, (grammarFor markup text).Stands text clause) ∧
      clauses.Pairwise ((grammarFor markup text).Follows text) := by
  obtain ⟨r, hr, rfl⟩ := Option.map_eq_some_iff.1 h
  exact Grammar.stands_of_reads_program (reads_of_eq_some hr)

/-- The clauses of a text make imports, each of which tells where it stands. -/
theorem exists_found {markup : Bool} {text : List Char} {clauses : List Clause}
    (h : clauses? markup text = some clauses) :
    ∃ found, clauses.mapM (importOf text (width text)) = .ok found ∧
      List.Forall₂ (Tells (grammarFor markup text) text) clauses found :=
  exists_mapM fun clause hclause => exists_importOf ((stands_of_clauses? h).1 clause hclause)

section
variable {file text : String} {clauses : List Clause}
  (h : clauses? (holdsMarkup file) (programText text.toList) = some clauses)
include h

theorem imports_ok {found : List Import}
    (hfound : clauses.mapM (importOf text.toList (width (programText text.toList))) = .ok found) :
    imports file text = .ok (Header.references text.toList ++ found) := by
  unfold imports
  dsimp only
  rw [h]
  dsimp only
  rw [hfound]

theorem imports_error {fault : ScanFault}
    (hfault : clauses.mapM (importOf text.toList (width (programText text.toList))) =
      .error fault) : imports file text = .error fault := by
  unfold imports
  dsimp only
  rw [h]
  dsimp only
  rw [hfault]

end

theorem programText_eq_self {text : List Char} (h : text.head? ≠ some '\uFEFF') :
    programText text = text := by
  unfold programText
  split
  · exact absurd rfl h
  · rfl

/-- **Each import tells where its declaration stands**, in a text that starts with no mark for the
order of its bytes; and the imports of such a text can be told if it is a program. -/
theorem imports_tell {file text : String} {clauses : List Clause}
    (hmark : text.toList.head? ≠ some '\uFEFF')
    (h : clauses? (holdsMarkup file) text.toList = some clauses) :
    ∃ found, imports file text = .ok (Header.references text.toList ++ found) ∧
      List.Forall₂ (Tells (grammarFor (holdsMarkup file) text.toList) text.toList) clauses
        found := by
  have hprogram := programText_eq_self hmark
  obtain ⟨found, hfound, htells⟩ := exists_found h
  refine ⟨found, @imports_ok _ _ clauses ?_ _ ?_, htells⟩
  · rw [hprogram, h]
  · rw [hprogram]
    exact hfound

/-! ## Wide characters, without and with a mark in front -/

def wideText : String :=
  "import é,\n {b} from \"éa\";\nexport * from 'b'\n"

def wideClauses : List Clause :=
  [⟨.value, ⟨46, 19⟩, ⟨25, 20⟩⟩, ⟨.reexport, ⟨18, 1⟩, ⟨4, 1⟩⟩]

theorem imports_tell_wide :
    wideText.toList.head? ≠ some '\uFEFF' ∧
      clauses? (holdsMarkup "a.ts") wideText.toList = some wideClauses ∧
      ∃ found, imports "a.ts" wideText = .ok (Header.references wideText.toList ++ found) ∧
        List.Forall₂ (Tells (grammarFor (holdsMarkup "a.ts") wideText.toList) wideText.toList)
          wideClauses found := by
  have hmark : wideText.toList.head? ≠ some '\uFEFF' := by decide
  have hclauses : clauses? (holdsMarkup "a.ts") wideText.toList = some wideClauses := by
    decide +kernel
  exact ⟨hmark, hclauses, imports_tell hmark hclauses⟩

def markedText : String :=
  "\uFEFFimport \"éa\";\n"

/-- **Behind a mark** a program is read, and its imports cannot be told: the name of the module is
looked for three bytes in front of its place, and would start or end inside a character. -/
theorem imports_marked :
    clauses? (holdsMarkup "a.ts") (programText markedText.toList) =
        some [⟨.sideEffect, ⟨14, 1⟩, ⟨7, 2⟩⟩] ∧
      imports "a.ts" markedText = .error .splitCharacter := by
  have hclauses : clauses? (holdsMarkup "a.ts") (programText markedText.toList) =
      some [⟨.sideEffect, ⟨14, 1⟩, ⟨7, 2⟩⟩] := by decide +kernel
  exact ⟨hclauses, imports_error hclauses rfl⟩

end BuildSync.TypeScript
