import BuildSync.Proofs.Reads
import BuildSync.TypeScript.Program

/-!
# Declarations that name a module

* `skipTrivia_idem`: what follows blanks and comments starts with neither.
* `exists_of_reads_rawString`: a string as it is written.
* `Names`: the name of a module stands somewhere in what a declaration reads; `TellsName`,
  `TellsUse`: a parser says where.
* `Grammar.tellsUse_importDeclaration`, `Grammar.tellsUse_exportDeclaration`: every declaration that
  names a module does.
* `Grammar.stands_of_reads_program`: the clauses of a program say where their declarations stand.
-/

namespace BuildSync.TypeScript

open BuildSync.Parser Text

/-! ## Lexemes -/

theorem skipTrivia_idem (crossed crossed' : Bool) (trivia : Trivia) (cs : List Char) :
    (skipTrivia crossed' .blank (skipTrivia crossed trivia cs).2).2 =
      (skipTrivia crossed trivia cs).2 := by
  fun_induction skipTrivia crossed trivia cs with
  | case1 => rfl
  | case2 _ _ ih => exact ih
  | case3 _ _ _ _ ih => exact ih
  | case4 _ _ _ _ ih => exact ih
  | case5 _ _ _ _ ih => exact ih
  | case6 _ _ ih => exact ih
  | case7 _ _ ih => exact ih
  | case8 _ _ ih => exact ih
  | case9 _ _ _ _ _ _ _ ih => exact ih
  | case10 _ _ _ _ _ _ _ _ ih => exact ih
  | case11 => simp_all [skipTrivia]

/-- A text starts with a lexeme: no blank or comment stands in front. -/
def AtLexeme (text : List Char) : Prop :=
  (skipTrivia false .blank text).2 = text

theorem reads_trivia {text rest : List Char} {crossed : Bool} :
    Reads trivia text crossed rest ↔
      crossed = (skipTrivia false .blank text).1 ∧ rest = (skipTrivia false .blank text).2 := by
  constructor
  · rintro ⟨_, h⟩
    cases h
    exact ⟨rfl, rfl⟩
  · rintro ⟨rfl, rfl⟩
    exact ⟨skipTrivia_suffix false .blank text, rfl⟩

theorem reads_token {p : Parser α} {text rest : List Char} {a : α} :
    Reads (token p) text a rest ↔ Reads p (skipTrivia false .blank text).2 a rest := by
  rw [token, reads_bind]
  constructor
  · rintro ⟨_, mid, hmid, ha⟩
    rwa [(reads_trivia.1 hmid).2] at ha
  · exact fun h => ⟨_, _, reads_trivia.2 ⟨rfl, rfl⟩, h⟩

theorem reads_stretch {p : Parser α} {text rest : List Char} {a : α} {place : Stretch} :
    Reads (Grammar.stretch p) text (a, place) rest ↔
      Reads p (skipTrivia false .blank text).2 a rest ∧
        place = ⟨width (skipTrivia false .blank text).2, width rest⟩ := by
  simp only [Grammar.stretch, Grammar.position, reads_bind, reads_trivia, reads_bytesLeft,
    reads_pure, Prod.mk.injEq]
  constructor
  · rintro ⟨_, _, ⟨_, _, ⟨rfl, rfl⟩, rfl, rfl⟩, _, _, ha, _, _, ⟨rfl, rfl⟩, ⟨rfl, rfl⟩, rfl⟩
    exact ⟨ha, rfl⟩
  · rintro ⟨ha, rfl⟩
    exact ⟨_, _, ⟨_, _, ⟨rfl, rfl⟩, rfl, rfl⟩, _, _, ha, _, _, ⟨rfl, rfl⟩, ⟨rfl, rfl⟩, rfl⟩

/-- A quotation mark. -/
def IsQuote (c : Char) : Prop :=
  c = '\x22' ∨ c = '\x27'

/-- **A string as it is written**: it is closed, or its line or the text ends. -/
theorem exists_of_reads_rawString {text rest : List Char} {u : Unit}
    (h : Reads rawString text u rest) :
    ∃ quote inner, IsQuote quote ∧ text = quote :: (inner ++ rest) ∧
      ((∃ body, inner = body ++ [quote]) ∨ ∀ c, rest.head? = some c → c = '\n' ∨ c = '\r') := by
  simp only [rawString, reads_bind, reads_satisfy, reads_orElse, reads_ahead, reads_notAhead,
    chars, reads_pure] at h
  obtain ⟨quote, tail, ⟨rfl, hquote⟩, _, mid, hmid, hend⟩ := h
  have hquote : IsQuote quote := by simpa [IsQuote] using hquote
  obtain ⟨front, rfl⟩ := hmid.suffix
  obtain ⟨_, _, ⟨rfl, hclosed⟩, -, rfl⟩ |
    ⟨-, ⟨rfl, _, _, _, ⟨rfl, hline⟩, -⟩ | ⟨-, rfl, hnone⟩⟩ := hend
  · rw [decide_eq_true_eq] at hclosed
    subst hclosed
    exact ⟨_, front ++ [_], hquote, by simp, .inl ⟨front, rfl⟩⟩
  · refine ⟨quote, front, hquote, rfl, .inr fun c hc => ?_⟩
    cases hc
    simpa using hline
  · refine ⟨quote, front, hquote, rfl, .inr fun c hc => ?_⟩
    cases rest with
    | nil => cases hc
    | cons d rest => cases hnone

/-! ## Names of modules -/

/-- The name of a module stands in a text, in front of what is left of it; its place is counted from
the end. -/
def Names (text : List Char) (place : Stretch) (rest : List Char) : Prop :=
  ∃ before literal after, text = before ++ (literal ++ (after ++ rest)) ∧
    place = ⟨width (literal ++ (after ++ rest)), width (after ++ rest)⟩ ∧
    Reads rawString (literal ++ (after ++ rest)) () (after ++ rest)

theorem Names.of_suffix {text text' rest : List Char} {place : Stretch} (h : Names text place rest)
    (hs : text <:+ text') : Names text' place rest := by
  obtain ⟨before, literal, after, rfl, hplace, hreads⟩ := h
  obtain ⟨front, rfl⟩ := hs
  exact ⟨front ++ before, literal, after, by simp, hplace, hreads⟩

theorem Names.behind {text rest rest' : List Char} {place : Stretch} (h : Names text place rest)
    (hs : rest' <:+ rest) : Names text place rest' := by
  obtain ⟨before, literal, after, rfl, hplace, hreads⟩ := h
  obtain ⟨front, rfl⟩ := hs
  exact ⟨before, literal, after ++ front, by simp, by simpa using hplace, by simpa using hreads⟩

/-- A parser that tells where the name of a module stands. -/
def TellsName (p : Parser Stretch) : Prop :=
  ∀ {text rest place}, Reads p text place rest → Names text place rest

/-- A parser that tells how a module is used and where its name stands, where it finds one. -/
def TellsUse (p : Parser (Option (ImportKind × Stretch))) : Prop :=
  ∀ {text rest kind place}, Reads p text (some (kind, place)) rest → Names text place rest

namespace Grammar

variable (g : Grammar)

theorem tellsName_moduleName : TellsName moduleName := by
  intro text rest place h
  simp only [moduleName, reads_bind, reads_pure] at h
  obtain ⟨⟨_, _⟩, _, hstretch, rfl, rfl⟩ := h
  obtain ⟨hstring, rfl⟩ := reads_stretch.1 hstretch
  rw [string, reads_token, skipTrivia_idem] at hstring
  obtain ⟨front, hfront⟩ := skipTrivia_suffix false .blank text
  obtain ⟨literal, hliteral⟩ := hstring.suffix
  refine ⟨front, literal, [], by simp [hliteral, hfront], by simp [hliteral], ?_⟩
  simpa [hliteral] using hstring

theorem tellsName_source : TellsName g.source := by
  intro text rest place h
  simp only [source, reads_bind, reads_pure] at h
  obtain ⟨name, mid, hname, _, mid', hattributes, _, _, hend, rfl, rfl⟩ := h
  exact (tellsName_moduleName hname).behind (hend.suffix.trans hattributes.suffix)

theorem tellsName_fromSource : TellsName g.fromSource := by
  intro text rest place h
  simp only [fromSource, reads_bind] at h
  obtain ⟨_, mid, hfrom, hsource⟩ := h
  exact (g.tellsName_source hsource).of_suffix hfrom.suffix

theorem names_parens {p : Parser Stretch} (hp : TellsName p) : TellsName (parens p) := by
  intro text rest place h
  simp only [parens, reads_bind, reads_pure] at h
  obtain ⟨_, _, hopen, _, _, hname, _, _, hclose, rfl, rfl⟩ := h
  exact ((hp hname).of_suffix hopen.suffix).behind hclose.suffix

theorem names_aliasTarget {text rest : List Char} {place : Stretch}
    (h : Reads aliasTarget text (some place) rest) : Names text place rest := by
  simp only [aliasTarget, reads_bind, reads_orElse, reads_map, reads_pure] at h
  obtain ⟨_, _, hsign, target, _, htarget, _, _, hend, rfl, rfl⟩ := h
  obtain ⟨_, _, hrequire, _, hname, hplace⟩ | ⟨-, _, _, -, hnone, -⟩ := htarget
  · cases hplace
    exact (((names_parens tellsName_moduleName hname).of_suffix hrequire.suffix).of_suffix
      hsign.suffix).behind hend.suffix
  · cases hnone

theorem tellsUse_importAlias : TellsUse importAlias := by
  intro text rest kind place h
  simp only [importAlias, reads_bind, reads_pure] at h
  obtain ⟨_, _, htype, _, _, hname, target, _, htarget, hvalue, rfl⟩ := h
  obtain ⟨_, rfl, hplace⟩ := Option.map_eq_some_iff.1 hvalue.symm
  cases hplace
  exact (names_aliasTarget htarget).of_suffix (hname.suffix.trans htype.suffix)

theorem names_importNames {text rest : List Char} {kind : ImportKind} {place : Stretch}
    (h : Reads g.importNames text (kind, place) rest) : Names text place rest := by
  simp only [importNames, reads_bind, reads_pure] at h
  obtain ⟨_, _, htype, _, _, hphase, _, _, hfirst, _, _, hcomma, _, _, hothers, _, _, hname, hvalue,
    rfl⟩ := h
  cases hvalue
  exact (g.tellsName_fromSource hname).of_suffix (hothers.suffix.trans (hcomma.suffix.trans
    (hfirst.suffix.trans (hphase.suffix.trans htype.suffix))))

theorem names_importEffect {text rest : List Char} {kind : ImportKind} {place : Stretch}
    (h : Reads g.importEffect text (kind, place) rest) : Names text place rest := by
  simp only [importEffect, reads_bind, reads_pure] at h
  obtain ⟨_, _, hname, hvalue, rfl⟩ := h
  cases hvalue
  exact g.tellsName_source hname

/-- **An import tells where the name of its module stands.** -/
theorem tellsUse_importDeclaration : TellsUse g.importDeclaration := by
  intro text rest kind place h
  simp only [importDeclaration, reads_bind, reads_orElse, reads_map] at h
  obtain ⟨_, _, hword, ⟨_, heffect, hvalue⟩ | ⟨-, halias | ⟨-, _, hnames, hvalue⟩⟩⟩ := h
  · cases hvalue
    exact (g.names_importEffect heffect).of_suffix hword.suffix
  · exact (tellsUse_importAlias halias).of_suffix hword.suffix
  · cases hvalue
    exact (g.names_importNames hnames).of_suffix hword.suffix

theorem tellsUse_exportAll : TellsUse g.exportAll := by
  intro text rest kind place h
  simp only [exportAll, reads_bind, reads_pure] at h
  obtain ⟨_, _, htype, _, _, hstar, _, _, has, _, _, hname, hvalue, rfl⟩ := h
  cases hvalue
  exact (g.tellsName_fromSource hname).of_suffix
    (has.suffix.trans (hstar.suffix.trans htype.suffix))

theorem tellsUse_exportNames : TellsUse g.exportNames := by
  intro text rest kind place h
  simp only [exportNames, reads_bind] at h
  obtain ⟨_, _, htype, _, _, hnames, elsewhere, _, hahead, h⟩ := h
  cases elsewhere with
  | some _ =>
    simp only [reads_bind, reads_pure] at h
    obtain ⟨_, _, hname, hvalue, rfl⟩ := h
    cases hvalue
    exact (g.tellsName_fromSource hname).of_suffix
      (hahead.suffix.trans (hnames.suffix.trans htype.suffix))
  | none =>
    simp only [reads_bind, reads_pure] at h
    obtain ⟨_, _, -, _, _, -, hvalue, -⟩ := h
    cases hvalue

theorem tellsUse_exportAlias : TellsUse exportAlias := by
  intro text rest kind place h
  simp only [exportAlias, reads_bind] at h
  obtain ⟨_, _, hword, halias⟩ := h
  exact (tellsUse_importAlias halias).of_suffix hword.suffix

/-- **An export tells where the name of its module stands**, if it names one. -/
theorem tellsUse_exportDeclaration : TellsUse g.exportDeclaration := by
  intro text rest kind place h
  simp only [exportDeclaration, reads_bind, reads_orElse, reads_pure] at h
  obtain ⟨_, _, hword, _, _, hdeclare, h⟩ := h
  refine Names.of_suffix ?_ (hdeclare.suffix.trans hword.suffix)
  obtain hall | ⟨-, hnames | ⟨-, halias | ⟨-, _, _, -, hnone, -⟩⟩⟩ := h
  · exact g.tellsUse_exportAll hall
  · exact g.tellsUse_exportNames hnames
  · exact tellsUse_exportAlias halias
  · cases hnone

/-! ## Items -/

/-- `held`, in front of `back`, is an import or export that names a module. -/
structure Declares (held back : List Char) (kind : ImportKind) (name : Stretch) : Prop where
  lexeme : AtLexeme (held ++ back)
  reads : Reads (g.importDeclaration <|> g.exportDeclaration) (held ++ back) (some (kind, name))
    back

variable {g}

theorem Declares.names {held back : List Char} {kind : ImportKind} {name : Stretch}
    (h : g.Declares held back kind name) : Names (held ++ back) name back := by
  obtain himport | ⟨-, hexport⟩ := reads_orElse.1 h.reads
  · exact g.tellsUse_importDeclaration himport
  · exact g.tellsUse_exportDeclaration hexport

/-- A clause tells where its declaration stands in a text. -/
def Stands (g : Grammar) (text : List Char) (clause : Clause) : Prop :=
  ∃ front held back, text = front ++ (held ++ back) ∧
    clause.whole = ⟨width (held ++ back), width back⟩ ∧
    g.Declares held back clause.kind clause.name

theorem Stands.of_suffix {text text' : List Char} {clause : Clause} (h : g.Stands text clause)
    (hs : text <:+ text') : g.Stands text' clause := by
  obtain ⟨front, held, back, rfl, hwhole, hdeclares⟩ := h
  obtain ⟨before, rfl⟩ := hs
  exact ⟨before ++ front, held, back, by simp, hwhole, hdeclares⟩

theorem suffix_of_reads_stretch {p : Parser α} {text rest : List Char} {a : α × Stretch}
    (h : Reads (stretch p) text a rest) : rest <:+ (skipTrivia false .blank text).2 :=
  (reads_stretch.1 h).1.suffix

theorem suffix_of_reads_symbol {mark : String} {text rest : List Char} {u : Unit}
    (h : Reads (symbol mark) text u rest) : rest <:+ (skipTrivia false .blank text).2 := by
  obtain ⟨_, _, hmark, hrest⟩ := reads_bind.1 h
  exact hrest.suffix.trans (reads_token.1 hmark).suffix

/-- Decorators are read from their first lexeme on. -/
theorem suffix_of_reads_decorators {text rest : List Char} {marks : List Unit}
    (h : Reads (many g.decorator) text marks rest) :
    (skipTrivia false .blank rest).2 <:+ (skipTrivia false .blank text).2 := by
  cases readsAll_of_reads_many h with
  | nil => exact List.suffix_refl _
  | cons head tail =>
    obtain ⟨_, _, hmark, hname⟩ := reads_bind.1 head
    exact (skipTrivia_suffix false .blank rest).trans (tail.suffix.trans
      (hname.suffix.trans (suffix_of_reads_symbol hmark)))

/-- An item is read from its first lexeme on. -/
theorem suffix_of_reads_item {text rest : List Char} {found : Option Clause}
    (h : Reads g.item text found rest) : rest <:+ (skipTrivia false .blank text).2 := by
  simp only [item, reads_bind, reads_orElse, reads_pure] at h
  obtain ⟨_, _, ⟨_, _, hdecorators, hstretch⟩ | ⟨-, hstretch⟩, -, rfl⟩ := h
  · exact (suffix_of_reads_stretch hstretch).trans (suffix_of_reads_decorators hdecorators)
  · exact suffix_of_reads_stretch hstretch

/-- A declaration ends where what is read next starts. -/
theorem exists_of_reads_item {text rest : List Char} {clause : Clause}
    (h : Reads g.item text (some clause) rest) :
    ∃ front held, (skipTrivia false .blank text).2 = front ++ (held ++ rest) ∧
      clause.whole = ⟨width (held ++ rest), width rest⟩ ∧
      g.Declares held rest clause.kind clause.name := by
  simp only [item, reads_bind, reads_orElse, reads_pure] at h
  obtain ⟨⟨found, whole⟩, _, ⟨_, mid, hdecorators, hstretch⟩ | ⟨-, hstretch⟩, hvalue, rfl⟩ := h
  · obtain ⟨⟨kind, name⟩, rfl, rfl⟩ := Option.map_eq_some_iff.1 hvalue.symm
    obtain ⟨hreads, rfl⟩ := reads_stretch.1 hstretch
    obtain ⟨front, hfront⟩ := suffix_of_reads_decorators hdecorators
    obtain ⟨held, hheld⟩ := hreads.suffix
    rw [← hheld] at hreads hfront
    refine ⟨front, held, hfront.symm, by rw [hheld], ?_, hreads⟩
    rw [AtLexeme, hheld, skipTrivia_idem]
  · obtain ⟨⟨kind, name⟩, rfl, rfl⟩ := Option.map_eq_some_iff.1 hvalue.symm
    obtain ⟨hreads, -⟩ := reads_stretch.1 hstretch
    obtain ⟨_, _, -, hnone⟩ := reads_bind.1 hreads
    cases (reads_pure.1 hnone).1

theorem stands_of_readsAll {text rest : List Char} {items : List (Option Clause)}
    (h : ReadsAll g.item text items rest) :
    ∀ clause ∈ items.filterMap id, g.Stands (skipTrivia false .blank text).2 clause := by
  induction h with
  | nil => simp
  | @cons text mid rest found items head tail ih =>
    -- Also an item that is no clause is read past the blanks and comments in front of it.
    have htail : ∀ clause ∈ items.filterMap id, g.Stands (skipTrivia false .blank text).2 clause :=
      fun clause hclause => (ih clause hclause).of_suffix
        ((skipTrivia_suffix false .blank mid).trans (suffix_of_reads_item head))
    cases found with
    | none => exact htail
    | some clause =>
      obtain ⟨front, held, htext, hwhole, hdeclares⟩ := exists_of_reads_item head
      exact List.forall_mem_cons.2 ⟨⟨front, held, mid, htext, hwhole, hdeclares⟩, htail⟩

/-- A clause stands behind another, where that ends or behind blanks and comments there. -/
def Follows (g : Grammar) (text : List Char) (a b : Clause) : Prop :=
  ∃ behind, behind <:+ text ∧ a.whole.stop = width behind ∧
    g.Stands (skipTrivia false .blank behind).2 b

theorem pairwise_of_readsAll {text rest : List Char} {items : List (Option Clause)}
    (h : ReadsAll g.item text items rest) :
    ∀ {whole}, text <:+ whole → (items.filterMap id).Pairwise (g.Follows whole) := by
  induction h with
  | nil => exact fun _ => .nil
  | @cons text mid rest found items head tail ih =>
    intro whole hs
    have hmid := head.suffix.trans hs
    cases found with
    | none => exact ih hmid
    | some clause =>
      obtain ⟨_, _, -, hwhole, -⟩ := exists_of_reads_item head
      exact List.pairwise_cons.2 ⟨fun b hb =>
        ⟨mid, hmid, by rw [hwhole], stands_of_readsAll tail b hb⟩, ih hmid⟩

/-- **The clauses of a program** tell where their declarations stand in it, one behind the other. -/
theorem stands_of_reads_program {text rest : List Char} {clauses : List Clause}
    (h : Reads (program g) text clauses rest) :
    (∀ clause ∈ clauses, g.Stands text clause) ∧ clauses.Pairwise (g.Follows text) := by
  simp only [program, reads_bind, reads_pure] at h
  obtain ⟨_, mid, hscript, found, _, hfound, _, _, -, rfl, -⟩ := h
  have hall := readsAll_of_reads_many hfound
  have hmid := hscript.suffix
  exact ⟨fun clause hclause => (stands_of_readsAll hall clause hclause).of_suffix
    ((skipTrivia_suffix false .blank mid).trans hmid), pairwise_of_readsAll hall hmid⟩

end Grammar

end BuildSync.TypeScript
