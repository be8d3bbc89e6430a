import BuildSync.Proofs.Build.NewRules

/-!
# Written loads

* `LoadArgument`: an argument of a load as it is written. `lexes_arguments`,
  `attributes_arguments`: arguments with commas between them.
* `LoadCall`: a written load. `LoadCall.isWritten`, `LoadCall.reads_line`: its tokens, and what is
  read of a line of its own (`LoadCall.outline`).
* `isWritten_pendingLines`, `reads_pendingLines`: the lines of new loads are such lines.
* `Load.IsWritable`: a load whose symbols can be written again, as those of each load that was read
  (`Load.isWritable_of_parse`).
-/

namespace BuildSync.Build

open Text

/-! ## Arguments -/

/-- An argument of a load: before a comma or a parenthesis its text is one part. -/
structure LoadArgument where
  text : List Char
  body : List Token
  said : Attribute
  lexes : ∀ c ∈ breaks, Lexes text body (some c)
  isNested : nest [] body = some []
  reads : attributes body = [said]

/-- The tokens of arguments with commas between them. -/
def argumentTokens : List LoadArgument → List Token
  | [] => []
  | [a] => a.body
  | a :: as => a.body ++ commaToken :: argumentTokens as

theorem lexes_arguments (as : List LoadArgument) :
    Lexes (commaSeparated (as.map LoadArgument.text)) (argumentTokens as) (some ')') := by
  have hgap : IsWritten [' '] [] := isWritten_gaps (by simp [isGap])
  induction as with
  | nil => exact .nil _
  | cons a as ih =>
    cases as with
    | nil => exact a.lexes ')' (by decide)
    | cons b as =>
      have hrest : Lexes ([','] ++ ([' '] ++ commaSeparated ((b :: as).map LoadArgument.text)))
          ([commaToken] ++ ([] ++ argumentTokens (b :: as))) (some ')') :=
        (isWritten_comma _).append ((hgap _).append ih)
      have h := (a.lexes ',' (by decide)).append hrest
      simpa [commaSeparated, joined, argumentTokens] using h

theorem nest_arguments (as : List LoadArgument) : nest [] (argumentTokens as) = some [] := by
  induction as with
  | nil => rfl
  | cons a as ih =>
    cases as with
    | nil => exact a.isNested
    | cons b as => exact nest_comma a.isNested rfl ih

/-- **What arguments with commas between them say.** -/
theorem attributes_arguments (as : List LoadArgument) :
    attributes (argumentTokens as) = as.map LoadArgument.said := by
  induction as with
  | nil => rfl
  | cons a as ih =>
    cases as with
    | nil => exact a.reads
    | cons b as =>
      rw [argumentTokens, attributes_comma (depthAfter_of_nest a.isNested) rfl, a.reads, ih]
      · rfl
      · simp

namespace LoadArgument

/-- A string. -/
def ofString (s : String) : LoadArgument where
  text := quote s.toList
  body := [literalToken s]
  said := Argument.attribute ⟨none, 0, [literalToken s]⟩
  lexes c hc := (IsToken.quote s.toList fun h => by
    cases h
    exact absurd hc (by decide)).lexes
  isNested := nest_literalToken s
  reads := by
    have hpart : IsPart 0 [literalToken s] := ⟨by simp [literalToken], trivial⟩
    rw [attributes_part hpart]
    simp [Argument.ofTokens?, literalToken, Token.isTrivia, Argument.attribute,
      Argument.significant]

theorem text?_ofString (s : String) : (ofString s).said.text? = some s := by
  have hwords : (ofString s).said.words = [literalToken s] := rfl
  unfold Attribute.text?
  rw [hwords]
  simp [literalToken, literalValue_quote]

theorem symbol?_ofString (s : String) : (ofString s).said.symbol? = some s := by
  have hkey : (ofString s).said.key = none := rfl
  have hwords : (ofString s).said.words ≠ [] := List.cons_ne_nil _ _
  rw [Attribute.symbol?, if_neg hwords, hkey, text?_ofString]
  rfl

end LoadArgument

/-- A symbol of a load as it is written: the name that it gives a meaning, and its text. -/
def IsSymbolText (p : String × String) : Prop :=
  ∃ a : LoadArgument, a.text = p.2.toList ∧ a.said.symbol? = some p.1

theorem isSymbolText_ofString (symbol : String) :
    IsSymbolText (symbol, String.ofList (quote symbol.toList)) :=
  ⟨.ofString symbol, by rw [String.toList_ofList]; rfl, LoadArgument.symbol?_ofString symbol⟩

theorem exists_arguments {ps : List (String × String)} (h : ∀ p ∈ ps, IsSymbolText p) :
    ∃ as : List LoadArgument, as.map LoadArgument.text = ps.map (·.2.toList) ∧
      as.map (·.said.symbol?) = ps.map fun p => some p.1 := by
  induction ps with
  | nil => exact ⟨[], rfl, rfl⟩
  | cons p ps ih =>
    rw [List.forall_mem_cons] at h
    obtain ⟨a, htext, ha⟩ := h.1
    obtain ⟨as, htexts, has⟩ := ih h.2
    refine ⟨a :: as, ?_, ?_⟩
    · rw [List.map_cons, List.map_cons, htext, htexts]
    · rw [List.map_cons, List.map_cons, ha, has]

/-! ## Calls -/

/-- A load as it is written: a file and symbols, with the names that these give a meaning. -/
structure LoadCall where
  file : String
  symbols : List LoadArgument
  names : List String
  names_eq : symbols.map (·.said.symbol?) = names.map some

theorem loadCall_eq (file : String) (args : List (List Char)) : loadCall file args =
    "load".toList ++ (['('] ++ (commaSeparated (quote file.toList :: args) ++ [')'])) := by
  have hcall : ∀ rest, "load(".toList ++ rest = "load".toList ++ (['('] ++ rest) := fun _ => rfl
  exact (List.append_assoc ..).trans (hcall _)

namespace LoadCall

def text (call : LoadCall) : List Char :=
  loadCall call.file (call.symbols.map LoadArgument.text)

/-- The word that makes a call a load. -/
def callee : Token :=
  ⟨.word, 0, "load".toList⟩

/-- The tokens between the parentheses. -/
def inside (call : LoadCall) : List Token :=
  argumentTokens (.ofString call.file :: call.symbols)

def tokens (call : LoadCall) : List Token :=
  callee :: openingToken :: (call.inside ++ [closingToken])

/-- What is read of the load. -/
def outline (call : LoadCall) : Outline :=
  ⟨[], [fun name => decide (name ∈ call.names)]⟩

theorem isWritten (call : LoadCall) : IsWritten call.text call.tokens := by
  intro next
  have hword : Lexes "load".toList [callee] (some '(') :=
    (IsToken.word (by decide) (by decide) (List.all_eq_true.1 (by decide)) (by decide)
      (by decide)).lexes
  have hopening : IsWritten ['('] [openingToken] := fun next =>
    (IsToken.mark (fun _ => rfl) (by decide) (by decide) next).lexes
  have hclosing : IsWritten [')'] [closingToken] := fun next =>
    (IsToken.mark (fun _ => rfl) (by decide) (by decide) next).lexes
  have hinside : Lexes (commaSeparated (quote call.file.toList :: call.symbols.map
      LoadArgument.text) ++ [')']) (call.inside ++ [closingToken]) next :=
    (lexes_arguments (.ofString call.file :: call.symbols)).append (hclosing next)
  have h := hword.append ((hopening _).append hinside)
  have htext : call.text = "load".toList ++ (['('] ++ (commaSeparated (quote call.file.toList ::
      call.symbols.map LoadArgument.text) ++ [')'])) :=
    loadCall_eq ..
  rw [htext]
  exact h

theorem nest_inside (call : LoadCall) : nest [] call.inside = some [] :=
  nest_arguments _

theorem attributes_inside (call : LoadCall) : attributes call.inside =
    (LoadArgument.ofString call.file).said :: call.symbols.map LoadArgument.said := by
  rw [inside, attributes_arguments, List.map_cons]

theorem symbols_inside (call : LoadCall) : Build.symbols (attributes call.inside) = call.names := by
  have h := congrArg (List.filterMap id) call.names_eq
  rw [List.filterMap_map, List.filterMap_map, Function.id_comp, Function.id_comp,
    List.filterMap_some] at h
  rw [attributes_inside, Build.symbols, List.tail_cons, List.filterMap_map]
  exact h

/-- **A written load is read.** -/
theorem callReads (call : LoadCall) (package : String) :
    CallReads package callee call.inside call.outline := by
  have hload : IsLoad (attributes call.inside) := by
    rw [attributes_inside]
    refine ⟨_, _, rfl, rfl, by rw [LoadArgument.text?_ofString]; rfl, fun a ha => ?_⟩
    obtain ⟨b, hb, rfl⟩ := List.mem_map.1 ha
    have hsymbol : b.said.symbol? ∈ call.names.map some :=
      call.names_eq ▸ List.mem_map_of_mem hb
    obtain ⟨name, -, hname⟩ := List.mem_map.1 hsymbol
    exact .of_symbol? hname.symm
  have h := @callReads_load package callee call.inside rfl hload
  rwa [call.symbols_inside] at h

/-- The load on a line of its own. -/
def line (call : LoadCall) : List Char :=
  call.text ++ ['\n']

def lineTokens (call : LoadCall) : List Token :=
  call.tokens ++ [newlineToken]

theorem isWritten_line (call : LoadCall) : IsWritten call.line call.lineTokens :=
  call.isWritten.append fun next => (IsToken.newline next).lexes

/-- **A load on a line of its own** is read in front of a file. -/
theorem reads_line (call : LoadCall) {package : String} {ls : List Token} {o : Outline}
    (h : Reads package ls o) : Reads package (call.lineTokens ++ ls) (call.outline ++ o) := by
  have hreads := @Reads.call package ls o callee openingToken closingToken _ _ [newlineToken] _
    rfl rfl call.nest_inside rfl (call.callReads package) (isStatement_newline _)
    (fun h => absurd h (List.cons_ne_nil _ _)) h
  have hbare := lexemes_bare (call.isWritten_line none).lexemes
  rw [← hbare]
  simpa [lineTokens, tokens] using hreads

end LoadCall

/-! ## New loads -/

/-- The load for the pending symbols of a file. -/
def pendingCall (pending : List (String × String)) (file : String) : LoadCall where
  file := file
  symbols := (sortedTexts ((pending.filter (·.1 = file)).map (·.2))).map .ofString
  names := sortedTexts ((pending.filter (·.1 = file)).map (·.2))
  names_eq := by simp [Function.comp_def, LoadArgument.symbol?_ofString]

/-- The tokens of the lines for pending symbols. -/
def pendingTokens (pending : List (String × String)) : List Token :=
  (sortedTexts (pending.map (·.1))).flatMap fun file => (pendingCall pending file).lineTokens

theorem isWritten_pendingLines (pending : List (String × String)) :
    IsWritten (Descriptor.pendingLines pending) (pendingTokens pending) := by
  have hlines : Descriptor.pendingLines pending = (sortedTexts (pending.map (·.1))).flatMap
      fun file => (pendingCall pending file).line := by
    unfold Descriptor.pendingLines
    simp [pendingCall, LoadCall.line, LoadCall.text, LoadArgument.ofString, Function.comp_def]
  rw [hlines]
  exact .flatMap fun file _ => (pendingCall pending file).isWritten_line

/-- What is read of the lines for pending symbols: a load for each file. -/
def pendingOutline (pending : List (String × String)) : Outline :=
  ⟨[], (sortedTexts (pending.map (·.1))).map fun file name => decide ((file, name) ∈ pending)⟩

theorem pendingOutline_nil : pendingOutline [] = .empty := by
  simp [pendingOutline, sortedTexts, sortedSet, dropRepeats, Outline.empty]

theorem outline_pendingCall (pending : List (String × String)) (file : String) :
    (pendingCall pending file).outline = ⟨[], [fun name => decide ((file, name) ∈ pending)]⟩ := by
  have hmem : ∀ name, name ∈ (pendingCall pending file).names ↔ (file, name) ∈ pending := by
    simp [pendingCall, sortedTexts]
  simp only [LoadCall.outline, hmem]

/-- **The lines for pending symbols** are read in front of a file. -/
theorem reads_pendingLines (pending : List (String × String)) {package : String}
    {ls : List Token} {o : Outline} (h : Reads package ls o) :
    Reads package (pendingTokens pending ++ ls) (pendingOutline pending ++ o) := by
  unfold pendingTokens pendingOutline
  induction sortedTexts (pending.map (·.1)) with
  | nil => exact h
  | cons file files ih =>
    rw [List.flatMap_cons, List.append_assoc]
    have hline := (pendingCall pending file).reads_line ih
    rw [outline_pendingCall] at hline
    exact hline

/-! ## Loads that are read -/

/-- The symbols of a load can be written again. -/
def Load.IsWritable (load : Load) : Prop :=
  ∀ p ∈ load.positional ++ load.keyword, IsSymbolText p

/-! ### The text of an argument -/

/-- The tokens of a value without newlines and comments around it. -/
structure IsCore (value lead core trail : List Token) (first last : Token) : Prop where
  value_eq : value = lead ++ (core ++ trail)
  lead_eq : ∀ t ∈ lead, t.isTrivia = true
  trail_eq : ∀ t ∈ trail, t.isTrivia = true
  head : core.head? = some first
  getLast : core.getLast? = some last
  first_eq : first.isTrivia = false
  last_eq : last.isTrivia = false

theorem exists_isCore {value : List Token} (h : ∃ t ∈ value, t.isTrivia = false) :
    ∃ lead core trail first last, IsCore value lead core trail first last := by
  obtain ⟨front, last, trail, rfl, hlast, htrail⟩ := exists_last_of_mem h
  have hsplit := List.takeWhile_append_dropWhile (p := Token.isTrivia) (l := front)
  have hhead := List.head?_dropWhile_not Token.isTrivia front
  obtain ⟨first, hfirst, hne⟩ : ∃ first,
      (front.dropWhile Token.isTrivia ++ [last]).head? = some first ∧ first.isTrivia = false := by
    cases hd : front.dropWhile Token.isTrivia with
    | nil => exact ⟨last, rfl, hlast⟩
    | cons t ts =>
      rw [hd] at hhead
      exact ⟨t, rfl, by simpa using hhead⟩
  refine ⟨front.takeWhile Token.isTrivia, front.dropWhile Token.isTrivia ++ [last], trail, first,
    last, ⟨?_, fun t ht => List.mem_takeWhile_imp ht, htrail, hfirst, List.getLast?_concat, hne,
      hlast⟩⟩
  rw [List.append_assoc, List.singleton_append, ← List.append_assoc, hsplit]

section Core

variable {arg : Argument} {lead core trail : List Token} {first last : Token}

theorem IsCore.significant (h : IsCore arg.value lead core trail first last) :
    arg.significant = core.filter fun t => !t.isTrivia := by
  have hnone : ∀ {ts : List Token}, (∀ t ∈ ts, t.isTrivia = true) →
      ts.filter (fun t => !t.isTrivia) = [] := by
    intro ts hts
    exact List.filter_eq_nil_iff.2 fun t ht => by simp [hts t ht]
  unfold Argument.significant
  rw [h.value_eq, List.filter_append, List.filter_append, hnone h.lead_eq, hnone h.trail_eq,
    List.nil_append, List.append_nil]

/-- Where a value stands. -/
theorem IsCore.span? (h : IsCore arg.value lead core trail first last) :
    arg.span? = some ⟨first.start, last.stop⟩ := by
  obtain ⟨mid, hmid⟩ := List.head?_eq_some_iff.1 h.head
  obtain ⟨front, hfront⟩ := List.getLast?_eq_some_iff.1 h.getLast
  have hhead : arg.significant.head? = some first := by
    rw [h.significant, hmid, List.filter_cons_of_pos (by simp [h.first_eq])]
    rfl
  have hlast : arg.significant.getLast? = some last := by
    rw [h.significant, hfront, List.filter_append, List.filter_cons_of_pos (by simp [h.last_eq])]
    simp
  unfold Argument.span?
  rw [hhead, hlast]

/-- What a value says under a name. -/
theorem IsCore.symbol?_named (h : IsCore arg.value lead core trail first last) (key : String) :
    (namedAttribute key (core.map Token.bare)).symbol? = some key := by
  have hwords : (namedAttribute key (core.map Token.bare)).words ≠ [] := by
    obtain ⟨mid, hmid⟩ := List.head?_eq_some_iff.1 h.head
    simp [namedAttribute, Argument.attribute, Argument.significant, hmid, h.first_eq]
  rw [Attribute.symbol?, if_neg hwords]
  rfl

/-- A value that is one string. -/
theorem IsCore.exists_string (h : IsCore arg.value lead core trail first last) {s : String}
    (hs : arg.string? = some s) : ∃ t, core = [t] ∧ t.kind = .string := by
  obtain ⟨mid, rfl⟩ := List.head?_eq_some_iff.1 h.head
  unfold Argument.string? at hs
  rw [h.significant, List.filter_cons_of_pos (by simp [h.first_eq])] at hs
  split at hs
  · rename_i t hone
    obtain ⟨rfl, hmid⟩ := List.cons.inj hone
    split at hs
    · rename_i hk
      refine ⟨first, ?_, hk⟩
      obtain rfl | ⟨front, t, rfl⟩ := List.eq_nil_or_concat mid
      · rfl
      · -- The last token would be no newline and no comment.
        rw [List.concat_eq_append] at hmid
        have hlast := h.getLast
        rw [List.concat_eq_append, ← List.cons_append, List.getLast?_concat,
          Option.some.injEq] at hlast
        have htrivia := List.filter_eq_nil_iff.1 hmid t (by simp)
        simp [hlast, h.last_eq] at htrivia
    · cases hs
  · cases hs

end Core

/-- **The text of some tokens** lexes to them where a lexeme ends. -/
theorem exists_slice_core {pos : Nat} {cs : List Char} {front core back : List Token}
    {first last : Token} (h : tokens pos cs = .ok (front ++ (core ++ back)))
    (hfirst : core.head? = some first) (hlast : core.getLast? = some last)
    (hk : last.kind ≠ .comment) :
    ∃ xs text ys, cs = xs ++ (text ++ ys) ∧ first.start = pos + width xs ∧
      last.stop = pos + width (xs ++ text) ∧
      ∀ c ∈ breaks, Lexes text (core.map Token.bare) (some c) := by
  obtain ⟨mid, rfl⟩ := List.head?_eq_some_iff.1 hfirst
  rw [List.cons_append] at h
  obtain ⟨xs, ys, rfl, hstart, -, htoken, hrest⟩ := tokens_cut h
  have hends : ∀ {t : Token} {next : Option Char}, IsToken t.kind t.text next →
      t.kind ≠ .comment → ∀ c ∈ breaks, Lexes t.text [t.bare] (some c) := by
    intro t next ht hk c hc
    refine (ht.before (.inr (.inr ⟨⟨c, hc, rfl⟩, hk⟩)) fun _ hn => ?_).lexes
    cases hn
    exact absurd hc (by decide)
  obtain rfl | ⟨mid, last', rfl⟩ := List.eq_nil_or_concat mid
  · obtain rfl : first = last := by simpa using hlast
    refine ⟨xs, first.text, ys, rfl, hstart, ?_, hends htoken hk⟩
    rw [Token.stop, hstart, width_append, Nat.add_assoc]
  · rw [List.concat_eq_append] at *
    obtain rfl : last' = last := by
      rw [← List.cons_append, List.getLast?_concat] at hlast
      exact Option.some.inj hlast
    rw [List.append_assoc] at hrest
    obtain ⟨zs, us, rfl, hstart', hzs, htoken', -⟩ := tokens_cut hrest
    refine ⟨xs, first.text ++ (zs ++ last'.text), us, by simp, hstart, ?_, fun c hc => ?_⟩
    · rw [Token.stop, hstart', Token.stop, hstart]
      simp only [width_append]
      omega
    · obtain ⟨d, ds, htext, -⟩ := htoken'.lexeme
      have hnext : (zs ++ (last'.text ++ us)).head? = (zs ++ last'.text).head?.or (some c) := by
        simp [htext]
      have hmiddle : Lexes zs (mid.map Token.bare) (last'.text.head?.or (some c)) := by
        simpa [htext] using hzs
      have hlexes := (hnext ▸ htoken.lexes).append (hmiddle.append (hends htoken' hk c hc))
      simpa [Token.bare] using hlexes

/-- An argument is what stands between two commas. -/
theorem exists_part_of_mem {inside : List Token} (hnest : nest [] inside = some [])
    {arg : Argument} (h : arg ∈ arguments inside) :
    ∃ front part back, inside = front ++ (part ++ back) ∧ IsPart 0 part ∧
      nest [] part = some [] ∧ Argument.ofTokens? part = some arg := by
  induction inside using parts_induction with
  | part xs hpart =>
    rw [arguments_part hpart, Option.mem_toList] at h
    exact ⟨[], xs, [], by simp, hpart, hnest, h⟩
  | comma xs c ys hc hpart hdepth ih =>
    obtain ⟨hxs, hys⟩ := nest_of_comma hc hnest hdepth
    rw [arguments_comma hdepth hc, List.mem_append] at h
    rcases h with h | h
    · rw [arguments_part hpart, Option.mem_toList] at h
      exact ⟨[], xs, c :: ys, by simp, hpart, hxs, h⟩
    · obtain ⟨front, part, back, rfl, hp, hn, ha⟩ := ih hys h
      exact ⟨xs ++ c :: front, part, back, by simp, hp, hn, ha⟩

/-- The tokens of an argument: newlines and comments, the name and the equals sign, if it has one,
and its value. -/
theorem exists_of_ofTokens? {part : List Token} {arg : Argument}
    (h : Argument.ofTokens? part = some arg) :
    ∃ lead, (∀ t ∈ lead, t.isTrivia = true) ∧
      (arg.key = none ∧ part = lead ++ arg.value ∨
        ∃ name equals, arg.key = some (String.ofList name.text) ∧ name.kind = .word ∧
          equals.kind = .equals ∧ part = lead ++ name :: equals :: arg.value) := by
  have hpart := List.takeWhile_append_dropWhile (p := Token.isTrivia) (l := part)
  refine ⟨part.takeWhile Token.isTrivia, fun t ht => List.mem_takeWhile_imp ht, ?_⟩
  unfold Argument.ofTokens? at h
  split at h
  · cases h
  · rename_i first rest hfirst
    rw [hfirst] at hpart
    split at h
    · rename_i second value
      split at h
      · rename_i hkinds
        cases h
        exact .inr ⟨first, second, rfl, hkinds.1, hkinds.2, hpart.symm⟩
      · cases h
        exact .inl ⟨rfl, hpart.symm⟩
    · cases h
      exact .inl ⟨rfl, hpart.symm⟩

/-- A string that is an argument. -/
theorem attributes_string {t : Token} (hk : t.kind = .string) :
    attributes [t] = [Argument.attribute ⟨none, 0, [t]⟩] := by
  have hpart : IsPart 0 [t] := ⟨by simp [hk], trivial⟩
  rw [attributes_part hpart]
  simp [Argument.ofTokens?, Token.isTrivia, hk, Argument.attribute, Argument.significant,
    Argument.list?, Argument.strings?, Argument.bracketed?]

/-- **The value of an argument** among the tokens between the parentheses: it is one part, with its
brackets balanced, and the name stands in front of it. -/
theorem exists_value {inside : List Token} (hnest : nest [] inside = some []) {arg : Argument}
    (h : arg ∈ arguments inside) {span : Span} (hspan : arg.span? = some span) :
    ∃ front lead core trail back first last, inside = front ++ (core ++ back) ∧
      IsCore arg.value lead core trail first last ∧ IsPart 0 core ∧ nest [] core = some [] ∧
      ∀ key, arg.key = some key →
        ∃ name ∈ front, name.kind = .word ∧ String.ofList name.text = key := by
  obtain ⟨before, part, behind, rfl, hpart, hnested, harg⟩ := exists_part_of_mem hnest h
  obtain ⟨plead, hplead, hshape⟩ := exists_of_ofTokens? harg
  have hvalue : ∃ t ∈ arg.value, t.isTrivia = false := by
    refine Classical.byContradiction fun hnone => ?_
    have hsome : arg.span? ≠ none := by simp [hspan]
    refine hsome (span?_eq_none.2 ?_)
    have hempty : arg.significant = [] := List.filter_eq_nil_iff.2 fun t ht => by
      have htrivia : t.isTrivia = true := Bool.of_not_eq_false fun hf => hnone ⟨t, ht, hf⟩
      simp [htrivia]
    rw [Argument.attribute, hempty]
    rfl
  obtain ⟨lead, core, trail, first, last, hcore⟩ := exists_isCore hvalue
  -- What stands before the value is flat.
  obtain ⟨pre, hpre, hflat, hkey⟩ : ∃ pre, part = pre ++ (core ++ trail) ∧
      (∀ t ∈ pre, t.isFlat = true) ∧ ∀ key, arg.key = some key →
        ∃ name ∈ pre, name.kind = .word ∧ String.ofList name.text = key := by
    have htrivia : ∀ {ts : List Token}, (∀ t ∈ ts, t.isTrivia = true) →
        ∀ t ∈ ts, t.isFlat = true := fun hts t ht => isFlat_of_isTrivia (hts t ht)
    rcases hshape with ⟨hnone, rfl⟩ | ⟨name, equals, hname, hword, hequals, rfl⟩
    · refine ⟨plead ++ lead, by rw [hcore.value_eq]; simp, ?_, by simp [hnone]⟩
      rw [List.forall_mem_append]
      exact ⟨htrivia hplead, htrivia hcore.lead_eq⟩
    · refine ⟨plead ++ name :: equals :: lead, by rw [hcore.value_eq]; simp, ?_, ?_⟩
      · rw [List.forall_mem_append, List.forall_mem_cons, List.forall_mem_cons]
        exact ⟨htrivia hplead, by simp [Token.isFlat, hword], by simp [Token.isFlat, hequals],
          htrivia hcore.lead_eq⟩
      · intro key hkey
        exact ⟨name, by simp, hword, Option.some.inj (hname.symm.trans hkey)⟩
  subst hpre
  rw [isPart_append, depthAfter_flat hflat, isPart_append] at hpart
  rw [nest_append, nest_flat hflat, Option.bind_some, nest_append] at hnested
  obtain ⟨stack, hstack, hrest⟩ := Option.bind_eq_some_iff.1 hnested
  rw [nest_flat fun t ht => isFlat_of_isTrivia (hcore.trail_eq t ht), Option.some.injEq] at hrest
  subst hrest
  refine ⟨before ++ pre, lead, core, trail, trail ++ behind, first, last, by simp, hcore,
    hpart.2.1, hstack, fun key hk => ?_⟩
  obtain ⟨name, hmem, hname⟩ := hkey key hk
  exact ⟨name, List.mem_append_right _ hmem, hname⟩

section Read

variable {text : List Char} {front inside back : List Token} (hts : tokens 0 text =
  .ok (front ++ (inside ++ back))) (hnest : nest [] inside = some [])
include hts hnest

/-- **The text of the value of an argument** is that of its tokens. -/
theorem exists_core_text {arg : Argument} (h : arg ∈ arguments inside) {span : Span}
    (hspan : arg.span? = some span) :
    ∃ lead core trail first last written, IsCore arg.value lead core trail first last ∧
      spanText text span = String.ofList written ∧ IsPart 0 core ∧ nest [] core = some [] ∧
      (∀ c ∈ breaks, Lexes written (core.map Token.bare) (some c)) ∧
      ∀ key, arg.key = some key → Lexes key.toList [⟨.word, 0, key.toList⟩] (some ' ') := by
  obtain ⟨before, lead, core, trail, behind, first, last, hinside, hcore, hpart, hnested, hkey⟩ :=
    exists_value hnest h hspan
  have hcomment : last.kind ≠ .comment := by
    intro hk
    have hlast := hcore.last_eq
    simp [Token.isTrivia, hk] at hlast
  have hcut : tokens 0 text = .ok (front ++ before ++ (core ++ (behind ++ back))) := by
    rw [hts, hinside]
    simp
  obtain ⟨xs, written, ys, rfl, hstart, hstop, hlexes⟩ :=
    exists_slice_core hcut hcore.head hcore.getLast hcomment
  refine ⟨lead, core, trail, first, last, written, hcore, ?_, hpart, hnested, hlexes,
    fun key hk => ?_⟩
  · cases hspan.symm.trans hcore.span?
    unfold spanText
    have hslice := slice?_width xs written ys
    rw [List.append_assoc] at hslice
    rw [hstart, hstop, width_append, Nat.zero_add, Nat.zero_add, hslice]
    rfl
  · obtain ⟨name, hmem, hword, rfl⟩ := hkey key hk
    obtain ⟨us, vs, rfl⟩ := List.append_of_mem hmem
    have hname : tokens 0 (xs ++ (written ++ ys)) =
        .ok (front ++ us ++ name :: (vs ++ (core ++ (behind ++ back)))) := by
      rw [hcut]
      simp
    obtain ⟨_, _, -, -, -, htoken, -⟩ := tokens_cut hname
    rw [hword] at htoken
    rw [String.toList_ofList]
    exact (htoken.before (.inr (.inr ⟨⟨' ', by decide, rfl⟩, by simp⟩)) (by simp)).lexes

/-- An argument adds a symbol that can be written again. -/
theorem Load.IsWritable.argument {load load' : Load} (hw : load.IsWritable) {arg : Argument}
    (h : arg ∈ arguments inside) (hl : Load.argument text load arg = .ok load') :
    load'.IsWritable := by
  unfold Load.argument at hl
  split at hl
  · cases hl
    exact hw
  · rename_i span hspan
    obtain ⟨lead, core, trail, first, last, written, hcore, hwritten, hpart, hnested, hlexes,
      hkey⟩ := exists_core_text hts hnest h hspan
    have hmore : ∀ {symbol : String × String} {ps qs : List (String × String)},
        (∀ p ∈ ps ++ qs, IsSymbolText p) → IsSymbolText symbol →
        (∀ p ∈ ps ++ [symbol] ++ qs, IsSymbolText p) ∧
          ∀ p ∈ ps ++ (qs ++ [symbol]), IsSymbolText p := by
      intro symbol ps qs hall hsymbol
      simp only [List.forall_mem_append, List.forall_mem_singleton] at hall ⊢
      exact ⟨⟨⟨hall.1, hsymbol⟩, hall.2⟩, hall.1, hall.2, hsymbol⟩
    split at hl
    · rename_i key hk
      cases hl
      -- The symbol is loaded under another name.
      let symbol : LoadArgument :=
        { text := namedText key written
          body := namedTokens key (core.map Token.bare)
          said := namedAttribute key (core.map Token.bare)
          lexes := fun c hc => lexes_namedText (hkey key hk) (hlexes c hc)
          isNested := (nest_bare [] core).trans hnested
          reads := @attributes_namedTokens key _ [] (isPart_bare.2 hpart) (by simp) }
      refine (hmore hw ⟨symbol, ?_, hcore.symbol?_named key⟩).2
      rw [hwritten]
      simp [symbol, namedText]
    · split at hl
      · rename_i name hs
        cases hl
        obtain ⟨t, rfl, ht⟩ := hcore.exists_string hs
        let symbol : LoadArgument :=
          { text := written
            body := [t.bare]
            said := Argument.attribute ⟨none, 0, [t.bare]⟩
            lexes := hlexes
            isNested := (nest_bare [] [t]).trans hnested
            reads := attributes_string ht }
        refine (hmore hw ⟨symbol, ?_, ?_⟩).1
        · rw [hwritten, String.toList_ofList]
        · -- The string is the value that was read.
          have hsaid : symbol.said.words = arg.attribute.words := by
            unfold Argument.attribute
            rw [hcore.significant]
            simp [symbol, Argument.attribute, Argument.significant, Token.isTrivia, ht]
          have hwords : symbol.said.words = [t.bare] := by
            simp [symbol, Argument.attribute, Argument.significant, Token.isTrivia, ht]
          rw [string?_eq] at hs
          have hkey : symbol.said.key = none := rfl
          have htext : symbol.said.text? = some name := by
            rw [← hs]
            unfold Attribute.text?
            rw [hsaid]
          rw [Attribute.symbol?, if_neg (by simp [hwords]), hkey, htext]
          rfl
      · cases hl

/-- **A load that is read** can be written again, with more symbols. -/
theorem Load.isWritable_of_parse {callee close : Token} {load : Load}
    (h : Load.parse text callee inside close = .ok load) : load.IsWritable := by
  have hfold : ∀ {args : List Argument}, (∀ arg ∈ args, arg ∈ arguments inside) →
      ∀ {start load : Load}, start.IsWritable →
        args.foldlM (Load.argument text) start = .ok load → load.IsWritable := by
    intro args hargs
    induction args with
    | nil =>
      intro start load hw hl
      cases hl
      exact hw
    | cons arg args ih =>
      intro start load hw hl
      rw [List.forall_mem_cons] at hargs
      rw [List.foldlM_cons] at hl
      obtain ⟨next, hnext, hl⟩ := bind_eq_ok.1 hl
      exact ih hargs.2 (hw.argument hts hnest hargs.1 hnext) hl
  unfold Load.parse at h
  dsimp only at h
  split at h
  · cases h
  · rename_i first args hargs
    split at h
    · refine hfold (fun arg harg => ?_) (by simp [IsWritable]) h
      rw [hargs]
      exact List.mem_cons_of_mem _ harg
    · cases h

end Read

theorem mem_of_mem_dropRepeatsOf {α β : Type} [DecidableEq β] {key : α → β} {xs : List α} {x : α}
    (h : x ∈ dropRepeatsOf key xs) : x ∈ xs := by
  have hrest : ∀ (last : β) (rest : List α), dropRepeatsAfter key last rest ⊆ rest := by
    intro last rest
    fun_induction dropRepeatsAfter key last rest with
    | case1 => exact List.Subset.refl _
    | case2 a rest ih => exact List.subset_cons_of_subset a ih
    | case3 last a rest _ ih => exact List.cons_subset_cons a ih
  cases xs with
  | nil => cases h
  | cons a rest => exact (List.mem_cons.1 h).elim (· ▸ List.mem_cons_self) fun h =>
      List.mem_cons_of_mem a (hrest (key a) rest h)

theorem map_dropRepeatsOf {α β : Type} [DecidableEq β] (key : α → β) (xs : List α) :
    (dropRepeatsOf key xs).map key = dropRepeats (xs.map key) := by
  cases xs with
  | nil => rfl
  | cons a rest =>
    rw [dropRepeatsOf, List.map_cons, List.map_cons]
    generalize key a = last
    fun_induction dropRepeatsAfter key last rest with
    | case1 => rfl
    | case2 b rest ih => rw [ih, List.map_cons, dropRepeats, if_pos rfl]
    | case3 last b rest hkey ih =>
      rw [List.map_cons, ih, List.map_cons, dropRepeats, if_neg hkey]

/-- **A load with added symbols** is written as a load that binds the same names. -/
theorem Load.IsWritable.exists_call {load : Load} (h : load.IsWritable) :
    ∃ call : LoadCall, load.layout = call.text ∧ call.outline = .of [] [load] := by
  let symbols := (load.positional ++
    load.added.map fun symbol => (symbol, String.ofList (quote symbol.toList))).mergeSort
      fun a b => textLe a.1 b.1
  obtain ⟨args, htexts, hnames⟩ :=
    @exists_arguments (dropRepeatsOf (·.1) symbols ++ load.keyword) fun p hp => by
      rcases List.mem_append.1 hp with hp | hp
      · have hp := List.mem_mergeSort.1 (mem_of_mem_dropRepeatsOf hp)
        rcases List.mem_append.1 hp with hp | hp
        · exact h p (List.mem_append_left _ hp)
        · obtain ⟨symbol, -, rfl⟩ := List.mem_map.1 hp
          exact isSymbolText_ofString symbol
      · exact h p (List.mem_append_right _ hp)
  refine ⟨⟨load.file, args, (dropRepeatsOf (·.1) symbols ++ load.keyword).map (·.1), ?_⟩, ?_, ?_⟩
  · rw [hnames]
    exact List.map_map.symm
  · unfold LoadCall.text
    dsimp only
    rw [htexts, List.map_append]
    rfl
  · have hsymbols : (symbols.map (·.1)).Perm (load.positional.map (·.1) ++ load.added) := by
      have hsorted := (List.mergeSort_perm (load.positional ++
        load.added.map fun symbol => (symbol, String.ofList (quote symbol.toList)))
        fun a b => textLe a.1 b.1).map (·.1)
      simpa [Function.comp_def] using hsorted
    have hbinds : ∀ name, name ∈ (dropRepeatsOf (·.1) symbols ++ load.keyword).map (·.1) ↔
        load.binds name = true := by
      intro name
      rw [List.map_append, List.mem_append, map_dropRepeatsOf, mem_dropRepeats, hsymbols.mem_iff]
      simpa [Load.binds] using or_right_comm
    simp only [LoadCall.outline, Outline.of, List.map_nil, List.map_singleton, hbinds,
      Bool.decide_eq_true]

end BuildSync.Build
