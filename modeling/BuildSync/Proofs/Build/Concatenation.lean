import BuildSync.Proofs.Build.LoadStatements
import BuildSync.Proofs.Build.Places
import BuildSync.Proofs.Build.Standing
import BuildSync.Proofs.Text.Positions

/-!
# Files behind one another

Nothing is carried over from one statement to the next, so a file that ends in a newline can be
followed by another: what is read of the two is what is read of each.

* `Contents.behind`: the contents of a file at the places where it stands in a longer text.
* `Rule.parse_within`, `Load.parse_within`: calls are read in a longer text as in their own.
* `Contents.ofTokens_within`: so are whole files, and what follows them.
* `Contents.parse_append`: two files behind one another.
-/

namespace BuildSync.Build

open Text

/-! ## Contents at another place -/

def Span.behind (n : Nat) (span : Span) : Span :=
  ⟨n + span.start, n + span.stop⟩

def Origin.behind (n : Nat) (origin : Origin) : Origin :=
  { origin with
    span := origin.span.behind n
    insertAt := n + origin.insertAt
    lastArgEnd := n + origin.lastArgEnd
    srcs := origin.srcs.map (Span.behind n)
    deps := origin.deps.map (Span.behind n) }

/-- A rule of a file that stands behind `n` bytes of another. -/
def Rule.behind (n : Nat) (rule : Rule) : Rule :=
  { rule with origin := rule.origin.map (Origin.behind n) }

/-- A load of a file that stands behind `n` bytes of another. -/
def Load.behind (n : Nat) (load : Load) : Load :=
  { load with span := load.span.behind n }

/-- The contents of a file that stands behind `n` bytes of another. -/
def Contents.behind (n : Nat) (c : Contents) : Contents :=
  ⟨c.rules.map (Rule.behind n), c.loads.map (Load.behind n), c.called⟩

@[simp] theorem Contents.append_empty (c : Contents) : c ++ empty = c := by
  change append c empty = c
  simp [append, empty]

@[simp] theorem Contents.behind_append (n : Nat) (a b : Contents) :
    (a ++ b).behind n = a.behind n ++ b.behind n := by
  change behind n (append a b) = append (behind n a) (behind n b)
  simp [behind, append]

@[simp] theorem Contents.behind_zero (c : Contents) : c.behind 0 = c := by
  have hspan : Span.behind 0 = id := by
    funext span
    simp [Span.behind]
  have horigin : Origin.behind 0 = id := by
    funext origin
    simp [Origin.behind, hspan]
  have hrule : Rule.behind 0 = id := by
    funext rule
    simp [Rule.behind, horigin]
  have hload : Load.behind 0 = id := by
    funext load
    simp [Load.behind, hspan]
  simp [behind, hrule, hload]

theorem Contents.exists_of_parse {text : List Char} {package : String} {c : Contents}
    (h : parse text package = .ok c) :
    ∃ ts, tokens 0 text = .ok ts ∧ ofTokens text package ts = .ok c := by
  unfold parse at h
  cases hts : tokens 0 text with
  | error offset =>
    rw [hts] at h
    cases h
  | ok ts =>
    rw [hts] at h
    exact ⟨ts, rfl, h⟩

/-! ## Statements in a longer text -/

theorem map_bare_moved (f : Nat → Nat) (ts : List Token) :
    (ts.map (Token.moved f)).map Token.bare = ts.map Token.bare := by
  rw [List.map_map]
  rfl

theorem callOpening?_moved (f : Nat → Nat) {t : Token} {ts : List Token}
    (h : callOpening? t ts = none) : callOpening? (t.moved f) (ts.map (Token.moved f)) = none := by
  cases ts with
  | nil => rfl
  | cons u us =>
    simp only [callOpening?, ite_eq_right_iff, reduceCtorEq, imp_false] at h
    rw [List.map_cons, callOpening?]
    exact if_neg h

section Within

variable {front text back : List Char} {package : String}

/-- The indent of what stands behind something on its first line is the same in a longer text. -/
theorem indentAt?_within (front : List Char) {xs : List Char} (h : ∃ c ∈ xs, isIndent c = false)
    (ys back : List Char) :
    RuleReader.indentAt? (front ++ (xs ++ ys ++ back)) (width front + width xs) =
      RuleReader.indentAt? (xs ++ ys) (width xs) := by
  have hnone : ∀ line : List Char, (∃ c ∈ line, isIndent c = false) →
      ¬ (line ≠ [] ∧ line.all isIndent = true) := by
    rintro line ⟨c, hc, hi⟩ ⟨-, hall⟩
    exact absurd (List.all_eq_true.1 hall c hc) (by simp [hi])
  unfold RuleReader.indentAt?
  dsimp only
  rcases exists_last_line xs with hline | ⟨us, vs, rfl, hline⟩
  · obtain ⟨c, hc, hi⟩ := h
    -- The line starts in the front part, so it holds what stands before the position.
    have hlong : ∃ line, lineFront (front ++ (xs ++ ys ++ back)) (width front + width xs) =
        line ++ xs := by
      obtain ⟨line, hfront⟩ := lineFrontFrom_append [] front (xs ++ ys ++ back) (width xs)
      refine ⟨line.reverse, hfront.trans ?_⟩
      rw [List.append_assoc]
      exact lineFrontFrom_line hline line _
    obtain ⟨line, hlong⟩ := hlong
    rw [hlong, lineFront_first hline, if_neg (hnone _ ⟨c, hc, hi⟩),
      if_neg (hnone _ ⟨c, List.mem_append_right _ hc, hi⟩)]
  · have hshort := lineFront_later us hline ys
    have hlong := lineFront_later (front ++ us) hline (ys ++ back)
    rw [width_append, Nat.add_assoc] at hlong
    rw [width_append, show us ++ '\n' :: vs ++ ys = us ++ '\n' :: (vs ++ ys) by simp, hshort,
      show front ++ (us ++ '\n' :: (vs ++ ys) ++ back) =
        front ++ us ++ '\n' :: (vs ++ (ys ++ back)) by simp, hlong]

theorem attribute_moved (f : Nat → Nat) (arg : Argument) :
    (arg.moved f).attribute = arg.attribute := by
  rw [← attribute_bare, ← attribute_bare arg]
  unfold Argument.bare Argument.moved
  rw [List.map_map]
  rfl

theorem significant_moved (f : Nat → Nat) (arg : Argument) :
    (arg.moved f).significant = arg.significant.map (Token.moved f) := by
  unfold Argument.significant Argument.moved
  rw [List.filter_map]
  rfl

theorem string?_moved (f : Nat → Nat) (arg : Argument) : (arg.moved f).string? = arg.string? := by
  rw [string?_eq, attribute_moved, ← string?_eq]

theorem span?_moved (n : Nat) (arg : Argument) :
    (arg.moved (n + ·)).span? = arg.span?.map (Span.behind n) := by
  unfold Argument.span?
  rw [significant_moved, List.head?_map, List.getLast?_map]
  cases arg.significant.head? <;> cases arg.significant.getLast? <;>
    simp [Span.behind, Token.moved, Token.stop, Nat.add_assoc]

@[simp] theorem stop_behind (n : Nat) (t : Token) : (t.moved (n + ·)).stop = n + t.stop :=
  Nat.add_assoc n t.start (width t.text)

variable (front back) in
/-- What is between two positions of a file is the same in a longer text. -/
theorem spanText_within {span : Span} (h : span.stop ≤ width text) :
    spanText (front ++ (text ++ back)) (span.behind (width front)) = spanText text span := by
  unfold spanText Span.behind
  rw [slice?_within front text back h]

/-- An argument stands within its text, and behind something on its line or an earlier one. -/
structure Argument.IsIn (text : List Char) (arg : Argument) : Prop where
  start : ∃ xs ys, text = xs ++ ys ∧ arg.start = width xs ∧ ∃ c ∈ xs, isIndent c = false
  stop : ∀ span, arg.span? = some span → span.stop ≤ width text

theorem Argument.IsIn.indentAt? {arg : Argument} (h : arg.IsIn text) :
    RuleReader.indentAt? (front ++ (text ++ back)) (width front + arg.start) =
      RuleReader.indentAt? text arg.start := by
  obtain ⟨xs, ys, rfl, hstart, hxs⟩ := h.start
  rw [hstart]
  exact indentAt?_within front hxs ys back

namespace RuleReader

/-- What is read of a rule, with its places behind `n` bytes. -/
def behind (n : Nat) (r : RuleReader) : RuleReader :=
  { r with srcsSpan := r.srcsSpan.map (Span.behind n), depsSpan := r.depsSpan.map (Span.behind n) }

theorem accept_within (r : RuleReader) {arg : Argument} (h : arg.IsIn text) :
    (r.behind (width front)).accept (front ++ (text ++ back)) package
        (arg.moved (width front + ·)) =
      (r.accept text package arg).behind (width front) := by
  have hkey : (arg.moved (width front + ·)).key = arg.key := rfl
  have hstart : (arg.moved (width front + ·)).start = width front + arg.start := rfl
  unfold accept
  rw [attribute_moved, string?_moved, span?_moved, hkey, hstart, h.indentAt?]
  unfold behind
  dsimp only
  congr 1
  · split <;> rfl
  · split <;> rfl

theorem foldl_accept_within (r : RuleReader) {args : List Argument}
    (h : ∀ arg ∈ args, arg.IsIn text) :
    (args.map (Argument.moved (width front + ·))).foldl
        (accept (front ++ (text ++ back)) package) (r.behind (width front)) =
      (args.foldl (accept text package) r).behind (width front) := by
  induction args generalizing r with
  | nil => rfl
  | cons arg args ih =>
    rw [List.forall_mem_cons] at h
    rw [List.map_cons, List.foldl_cons, List.foldl_cons, accept_within r h.1, ih _ h.2]

end RuleReader

theorem map_attribute_moved (f : Nat → Nat) (args : List Argument) :
    (args.map (Argument.moved f)).map Argument.attribute = args.map Argument.attribute := by
  rw [List.map_map]
  exact List.map_congr_left fun arg _ => attribute_moved f arg

/-- **A rule is read in a longer text** as it is in its own. -/
theorem Rule.parse_within {kind : RuleKind} {callee opening close : Token} {inside : List Token}
    {rule : Rule} (hin : ∀ arg ∈ arguments inside, arg.IsIn text)
    (h : Rule.parse text package kind callee opening inside close = .ok rule) :
    Rule.parse (front ++ (text ++ back)) package kind (callee.moved (width front + ·))
      (opening.moved (width front + ·)) (inside.map (Token.moved (width front + ·)))
      (close.moved (width front + ·)) = .ok (rule.behind (width front)) := by
  unfold Rule.parse at h ⊢
  obtain ⟨r, hr, h⟩ := bind_eq_ok.1 h
  obtain ⟨hread, hr⟩ := RuleReader.foldlM_argument_eq_ok.1 hr
  rw [arguments_moved]
  refine bind_eq_ok.2 ⟨_, RuleReader.foldlM_argument_eq_ok.2
    ⟨(map_attribute_moved _ _).symm ▸ hread,
      (RuleReader.foldl_accept_within (RuleReader.start kind) hin).symm⟩, ?_⟩
  change r = (arguments inside).foldl (RuleReader.accept text package) (RuleReader.start kind) at hr
  rw [← hr]
  have htrivia : Token.isTrivia ∘ Token.moved (width front + ·) = Token.isTrivia := rfl
  cases hname : r.name with
  | none =>
    rw [hname] at h
    cases h
  | some name =>
    rw [hname] at h
    cases h
    dsimp only [RuleReader.behind]
    rw [hname]
    dsimp only
    have hnewline : (fun t : Token => decide (t.kind = .newline)) ∘ Token.moved (width front + ·) =
        fun t => decide (t.kind = .newline) := rfl
    rw [← List.map_reverse, List.takeWhile_map, dropWhile_moved, htrivia, List.head?_map,
      List.getLast?_map, List.any_map, hnewline]
    refine congrArg Except.ok ?_
    unfold Rule.behind Origin.behind
    cases (inside.reverse.dropWhile Token.isTrivia).head? with
    | none => simp [Span.behind, Token.moved, Token.stop, Nat.add_assoc]
    | some last =>
      cases (inside.reverse.takeWhile Token.isTrivia).getLast? with
      | none => simp [Span.behind, Token.moved, Token.stop, Nat.add_assoc]
      | some t =>
        by_cases ht : t.kind = .comment <;>
          simp [ht, Span.behind, Token.moved, Token.stop, Nat.add_assoc]

namespace Load

theorem argument_within {load load' : Load} {arg : Argument} (hin : arg.IsIn text)
    (h : argument text load arg = .ok load') :
    argument (front ++ (text ++ back)) (load.behind (width front))
      (arg.moved (width front + ·)) = .ok (load'.behind (width front)) := by
  have hkey : (arg.moved (width front + ·)).key = arg.key := rfl
  unfold argument at h ⊢
  rw [span?_moved, string?_moved, hkey]
  cases hspan : arg.span? with
  | none =>
    rw [hspan] at h
    cases h
    rfl
  | some span =>
    rw [hspan] at h
    have htext := spanText_within front back (hin.stop span hspan)
    simp only [Option.map_some] at h ⊢
    rw [htext]
    cases hk : arg.key with
    | some key =>
      rw [hk] at h
      cases h
      rfl
    | none =>
      rw [hk] at h
      simp only at h ⊢
      cases hs : arg.string? with
      | none =>
        rw [hs] at h
        cases h
      | some symbol =>
        rw [hs] at h
        cases h
        rfl

variable (front back) in
theorem foldlM_argument_within {load load' : Load} {args : List Argument}
    (hin : ∀ arg ∈ args, arg.IsIn text) (h : args.foldlM (argument text) load = .ok load') :
    (args.map (Argument.moved (width front + ·))).foldlM (argument (front ++ (text ++ back)))
      (load.behind (width front)) = .ok (load'.behind (width front)) := by
  induction args generalizing load with
  | nil =>
    cases h
    rfl
  | cons arg args ih =>
    rw [List.forall_mem_cons] at hin
    rw [List.foldlM_cons] at h
    obtain ⟨load₁, h₁, h⟩ := bind_eq_ok.1 h
    rw [List.map_cons, List.foldlM_cons]
    exact bind_eq_ok.2 ⟨_, argument_within hin.1 h₁, ih hin.2 h⟩

/-- **A load is read in a longer text** as it is in its own. -/
theorem parse_within {callee close : Token} {inside : List Token} {load : Load}
    (hin : ∀ arg ∈ arguments inside, arg.IsIn text)
    (h : Load.parse text callee inside close = .ok load) :
    Load.parse (front ++ (text ++ back)) (callee.moved (width front + ·))
      (inside.map (Token.moved (width front + ·))) (close.moved (width front + ·)) =
        .ok (load.behind (width front)) := by
  unfold Load.parse at h ⊢
  rw [arguments_moved]
  cases hargs : arguments inside with
  | nil =>
    rw [hargs] at h
    cases h
  | cons first args =>
    rw [hargs] at h hin
    rw [List.forall_mem_cons] at hin
    have hkey : (first.moved (width front + ·)).key = first.key := rfl
    dsimp only at h
    rw [List.map_cons]
    dsimp only
    rw [string?_moved, hkey]
    cases hk : first.key with
    | some key =>
      rw [hk] at h
      cases h
    | none =>
      cases hs : first.string? with
      | none =>
        rw [hk, hs] at h
        cases h
      | some file =>
        rw [hk, hs] at h
        have hread := foldlM_argument_within front back hin.2 h
        rw [stop_behind]
        exact hread

end Load

variable (front back) in
/-- **A call makes in a longer text** what it makes in its own. -/
theorem Contents.ofCall_within {callee opening close : Token} {inside : List Token} {c : Contents}
    (hin : ∀ arg ∈ arguments inside, arg.IsIn text)
    (h : ofCall text package callee opening inside close = .ok c) :
    ofCall (front ++ (text ++ back)) package (callee.moved (width front + ·))
      (opening.moved (width front + ·)) (inside.map (Token.moved (width front + ·)))
      (close.moved (width front + ·)) = .ok (c.behind (width front)) := by
  unfold ofCall at h ⊢
  dsimp only [text_moved] at h ⊢
  by_cases hload : String.ofList callee.text = "load"
  · rw [if_pos hload] at h ⊢
    obtain ⟨load, hparse, hc⟩ := bind_eq_ok.1 h
    cases hc
    exact bind_eq_ok.2 ⟨_, Load.parse_within hin hparse, rfl⟩
  · rw [if_neg hload] at h ⊢
    cases hkind : RuleKind.ofFunction? (String.ofList callee.text) with
    | none =>
      rw [hkind] at h
      cases h
      rfl
    | some kind =>
      rw [hkind] at h
      obtain ⟨rule, hparse, hc⟩ := bind_eq_ok.1 h
      cases hc
      exact bind_eq_ok.2 ⟨_, Rule.parse_within hin hparse, rfl⟩

/-! ## The arguments of a call in its text -/

theorem exists_start {ts : List Token} {arg : Argument} (h : Argument.ofTokens? ts = some arg) :
    ∃ t ∈ ts, arg.start = t.start := by
  have hts : ∀ u ∈ ts.dropWhile Token.isTrivia, u ∈ ts :=
    fun u hu => (List.dropWhile_sublist _).subset hu
  unfold Argument.ofTokens? at h
  split at h
  · cases h
  · rename_i first rest hfirst
    rw [hfirst] at hts
    have hmem := hts first List.mem_cons_self
    split at h
    · split at h <;> cases h <;> exact ⟨first, hmem, rfl⟩
    · cases h
      exact ⟨first, hmem, rfl⟩

/-- The first character of a token is no indent. -/
theorem IsToken.exists_not_isIndent {kind : TokenKind} {text : List Char} {next : Option Char}
    (h : IsToken kind text next) : ∃ c ∈ text, isIndent c = false := by
  obtain ⟨c, cs, rfl, -⟩ := h.lexeme
  refine ⟨c, List.mem_cons_self, ?_⟩
  have hgap : isGap c = false := by simpa using h.not_gap
  simp only [isGap, Bool.or_eq_false_iff, decide_eq_false_iff_not] at hgap
  simp [isIndent, hgap]

/-- The arguments of a call stand in its text, behind its first token. -/
theorem isIn_of_tokens {before rest inside : List Token} {callee : Token}
    (h : tokens 0 text = .ok (before ++ callee :: rest)) (hin : ∀ t ∈ inside, t ∈ rest) :
    ∀ arg ∈ arguments inside, arg.IsIn text := by
  obtain ⟨xs, ys, rfl, hcallee, -, htoken, hrest⟩ := tokens_cut h
  intro arg harg
  have hplace : ∀ t ∈ inside, ∃ zs back, ys = zs ++ (t.text ++ back) ∧
      t.start = callee.stop + width zs := by
    intro t ht
    obtain ⟨zs, back, hys, hstart, -⟩ := exists_append_of_mem_tokens hrest (hin t ht)
    exact ⟨zs, back, hys, hstart⟩
  constructor
  · obtain ⟨part, hpart, hof⟩ := List.mem_filterMap.1 harg
    obtain ⟨t, ht, hstart⟩ := exists_start hof
    obtain ⟨zs, back, rfl, ht⟩ := hplace t (mem_of_mem_splitArguments hpart t ht)
    obtain ⟨c, hc, hindent⟩ := htoken.exists_not_isIndent
    refine ⟨xs ++ (callee.text ++ zs), t.text ++ back, by simp, ?_, c, by simp [hc], hindent⟩
    rw [hstart, ht, Token.stop, hcallee]
    simp only [width_append]
    omega
  · intro span hspan
    unfold Argument.span? at hspan
    split at hspan
    · rename_i first last hfirst hlast
      cases hspan
      have hmem := mem_of_mem_arguments harg last
        (List.mem_of_mem_filter (List.mem_of_getLast? hlast))
      obtain ⟨zs, back, rfl, hstart⟩ := hplace last hmem
      rw [Token.stop, hstart, Token.stop, hcallee]
      simp only [width_append]
      omega
    · cases hspan

/-! ## A file in a longer text -/

/-- A newline ends the last statement, and what follows is not looked at. -/
theorem skipStatement_closed {start : Nat} {stack : List Bracket} {ts : List Token}
    {newline : Token} (hn : newline.kind = .newline)
    (h : skipStatement start stack (ts ++ [newline]) = .ok []) (more : List Token) :
    skipStatement start stack (ts ++ newline :: more) = .ok more := by
  fun_induction skipStatement start stack ts with
  | case1 => simp [skipStatement, hn]
  | case2 => simp [skipStatement, hn] at h
  | case3 start t ts hk => simp [skipStatement, hk] at h
  | case4 start t ts b hk ih =>
    simpa [skipStatement, hk] using ih (by simpa [skipStatement, hk] using h)
  | case5 start t ts b stack hs hk ih =>
    cases stack with
    | nil => exact absurd rfl hs
    | cons top below =>
      simpa [skipStatement, hk] using ih (by simpa [skipStatement, hk] using h)
  | case6 => simp_all [skipStatement]
  | case7 start t ts b below hk ih =>
    simpa [skipStatement, hk] using ih (by simpa [skipStatement, hk] using h)
  | case8 => simp_all [skipStatement]
  | case9 start t ts stack h₁ h₂ h₃ h₄ h₅ ih =>
    have ih := ih (by cases stack <;> simp_all [skipStatement])
    cases stack <;> simp_all [skipStatement]

theorem EndsLine.of_append {xs ys : List Token} (h : EndsLine (xs ++ ys)) : EndsLine ys := by
  rcases List.eq_nil_or_concat ys with rfl | ⟨front, t, rfl⟩
  · exact .inl rfl
  · obtain hnil | ⟨front', newline, heq, hn⟩ := h
    · simp at hnil
    · rw [List.concat_eq_append, ← List.append_assoc] at heq
      obtain ⟨-, ht⟩ := List.append_inj' heq rfl
      exact .inr ⟨front, newline, by rw [List.concat_eq_append, ht], hn⟩

theorem EndsLine.newline {xs : List Token} {t : Token} (h : EndsLine (xs ++ [t])) :
    t.kind = .newline := by
  obtain hnil | ⟨front, newline, heq, hn⟩ := EndsLine.of_append h
  · simp at hnil
  · have hlast := congrArg List.getLast? heq
    rw [List.getLast?_concat, ← List.nil_append [t], List.getLast?_concat] at hlast
    cases hlast
    exact hn

/-- **A statement is skipped in a longer text** as it is in its own, up to what follows it there. -/
theorem IsStatement.skip_within {tail rest more : List Token} (h : IsStatement tail rest)
    (hend : more = [] ∨ EndsLine (tail ++ rest)) (hnil : tail ++ rest = [] → more = [])
    (f : Nat → Nat) (start : Nat) :
    skipStatement start [] (tail.map (Token.moved f) ++ (rest.map (Token.moved f) ++ more)) =
      .ok (rest.map (Token.moved f) ++ more) := by
  have hbare := map_bare_moved f tail
  by_cases hrest : rest = []
  · subst hrest
    have hskip := h.skips start _ [] hbare fun _ => rfl
    rw [List.append_nil] at hend hnil hskip
    rcases List.eq_nil_or_concat tail with rfl | ⟨front, t, rfl⟩
    · rw [hnil rfl]
      exact hskip
    · rw [List.concat_eq_append] at hend hskip ⊢
      by_cases ht : t.kind = .newline
      · rw [List.map_append] at hskip ⊢
        have ht' : (t.moved f).kind = .newline := ht
        simpa using skipStatement_closed ht' hskip more
      · rw [hend.resolve_right fun h => ht h.newline]
        simpa using hskip
  · exact h.skips start _ _ hbare fun hnil => absurd hnil (by simpa using hrest)

/-- **A file is read in a longer text** as it is on its own, and what follows it there behind it. -/
theorem Contents.ofTokens_within {ts more : List Token} {c d : Contents}
    (h : ofTokens text package ts = .ok c) {before : List Token}
    (ht : tokens 0 text = .ok (before ++ ts)) (hend : more = [] ∨ EndsLine ts)
    (hmore : ofTokens (front ++ (text ++ back)) package more = .ok d) :
    ofTokens (front ++ (text ++ back)) package (ts.map (Token.moved (width front + ·)) ++ more) =
      .ok (c.behind (width front) ++ d) := by
  revert before
  revert hend
  refine Contents.ofTokens_induction ?nil ?trivia ?plain ?call h
  case nil =>
    intro hend before ht
    exact hmore
  case trivia =>
    intro t ts c htrivia hc ih hend before ht
    rw [List.map_cons, List.cons_append, ofTokens_trivia (by exact htrivia)]
    have hend : more = [] ∨ EndsLine ([t] ++ ts) := hend
    have ht : tokens 0 text = .ok ((before ++ [t]) ++ ts) := by simpa using ht
    exact ih (hend.imp_right EndsLine.of_append) ht
  case plain =>
    intro t tail rest c htrivia hopening hs hc ih hend before ht
    have hskip := @IsStatement.skip_within _ _ more hs hend (by simp) (width front + ·) 0
    rw [List.map_cons, List.cons_append] at hskip
    rw [List.map_cons, List.cons_append, List.map_append, List.append_assoc,
      ofTokens_plain (by exact htrivia) ?_ hskip]
    · rw [← List.cons_append] at ht hend
      have ht : tokens 0 text = .ok ((before ++ t :: tail) ++ rest) := by simpa using ht
      exact ih (hend.imp_right EndsLine.of_append) ht
    -- What follows the file could only turn its last token into a call if that is a word, and then
    -- nothing follows.
    · rw [← List.append_assoc, ← List.map_append]
      refine callOpening?_append (callOpening?_moved _ hopening) fun hnil u hu => ?_
      rw [List.map_eq_nil_iff] at hnil
      rw [hnil] at hend
      have hmore : more = [] := hend.resolve_right fun h => by
        have hn : t.kind = .newline := EndsLine.newline (show EndsLine ([] ++ [t]) from h)
        simp [Token.isTrivia, hn] at htrivia
      rw [hmore] at hu
      cases hu
  case call =>
    intro t opening inside close tail rest first c hword hopen hnest hclose hfirst hs hc ih hend
      before ht
    have hshape : t :: opening :: (inside ++ close :: (tail ++ rest)) =
        (t :: opening :: (inside ++ [close])) ++ (tail ++ rest) := by
      simp
    have hafter : more = [] ∨ EndsLine (tail ++ rest) := by
      rw [hshape] at hend
      exact hend.imp_right EndsLine.of_append
    have hskip := hs.skip_within hafter (fun hnil => by
      rw [hshape, hnil, List.append_nil, ← List.cons_append, ← List.cons_append] at hend
      exact hend.resolve_right fun h => by simpa [hclose] using h.newline) (width front + ·) 0
    have hgroup := (@group_eq_ok (opening.moved (width front + ·)).start [] .round _
      (inside.map (Token.moved (width front + ·)))
      (tail.map (Token.moved (width front + ·)) ++
        (rest.map (Token.moved (width front + ·)) ++ more))
      (close.moved (width front + ·))).2 ⟨rfl,
        by rw [nest_congr (map_bare_moved _ _), hnest], hclose⟩
    have hmade := ofCall_within front back (isIn_of_tokens ht fun u hu => by simp [hu]) hfirst
    have hbehind : tokens 0 text =
        .ok ((before ++ t :: opening :: (inside ++ close :: tail)) ++ rest) := by
      simpa using ht
    have hrest := ih (hafter.imp_right EndsLine.of_append) hbehind
    have hmoved : (t :: opening :: (inside ++ close :: (tail ++ rest))).map
        (Token.moved (width front + ·)) ++ more = t.moved (width front + ·) ::
          opening.moved (width front + ·) :: (inside.map (Token.moved (width front + ·)) ++
            close.moved (width front + ·) :: (tail.map (Token.moved (width front + ·)) ++
              (rest.map (Token.moved (width front + ·)) ++ more))) := by
      simp
    rw [hmoved, ofTokens_call (by simp [Token.isTrivia, hword])
      (by simp [callOpening?, hword, hopen]) hgroup hmade hskip, hrest]
    simp only [Except.map, behind_append, append_assoc]

end Within

/-! ## Two files -/

/-- Tokens stand where their text does. -/
theorem tokens_moved (n : Nat) {pos : Nat} {cs : List Char} {ts : List Token}
    (h : tokens pos cs = .ok ts) : tokens (n + pos) cs = .ok (ts.map (Token.moved (n + ·))) := by
  fun_induction tokens pos cs generalizing ts with
  | case1 =>
    cases h
    rw [tokens]
    rfl
  | case2 pos c cs hg ih =>
    rw [tokens, if_pos hg]
    exact ih h
  | case3 pos c cs hg hj ih =>
    rw [tokens, if_neg hg, if_pos hj]
    exact ih h
  | case4 => cases h
  | case5 pos c cs hg hj kind k hl token =>
    rename_i ih
    obtain ⟨us, hus, rfl⟩ := map_eq_ok h
    have hstop : (token.moved (n + ·)).stop = n + token.stop := stop_behind n token
    have hrest := ih hus
    rw [← hstop] at hrest
    rw [tokens, if_neg hg, if_neg hj, hl]
    exact congrArg (Except.map (token.moved (n + ·) :: ·)) hrest

/-- What holds no token is passed over. -/
theorem tokens_append_gap {pos : Nat} {xs : List Char} (h : tokens pos xs = .ok [])
    (ys : List Char) : tokens pos (xs ++ ys) = tokens (pos + width xs) ys := by
  fun_induction tokens pos xs with
  | case1 => rfl
  | case2 pos c cs hg ih =>
    rw [List.cons_append, tokens, if_pos hg, ih h, width_cons, utf8Size_of_isGap hg, Nat.add_assoc]
  | case3 pos c cs hg hj ih =>
    obtain ⟨rfl, hn⟩ := hj
    obtain ⟨cs, rfl⟩ := List.head?_eq_some_iff.1 hn
    rw [List.tail_cons] at h ih
    rw [List.cons_append, List.cons_append, tokens, if_neg hg, if_pos (by simp), List.tail_cons,
      ih h]
    have hb : ('\\' : Char).utf8Size = 1 := rfl
    have hl : ('\n' : Char).utf8Size = 1 := rfl
    rw [width_cons, width_cons, hb, hl]
    congr 1
    omega
  | case4 => cases h
  | case5 pos c cs hg hj kind n hl token ih =>
    obtain ⟨ts, -, hts⟩ := map_eq_ok h
    cases hts

/-- **Two files behind one another are lexed one after the other** if the first ends its last
line. -/
theorem tokens_append {xs ys : List Char} {ts us : List Token} (hxs : tokens 0 xs = .ok ts)
    (hend : EndsLine ts) (hys : tokens 0 ys = .ok us) :
    tokens 0 (xs ++ ys) = .ok (ts ++ us.map (Token.moved (width xs + ·))) := by
  rcases hend with rfl | ⟨ts, newline, rfl, hn⟩
  · rw [tokens_append_gap hxs, Nat.zero_add]
    exact tokens_moved (width xs) hys
  · obtain ⟨front, gap, rfl, hstart, htoken, hgap, hmore⟩ := tokens_behind hxs
    have htext : newline.text = ['\n'] := by
      rw [hn] at htoken
      exact htoken.eq_newline
    have hbehind := hmore (gap ++ ys) (by rw [htext, hn]; exact .newline _)
    have hstop : newline.stop + width gap = width (front ++ (newline.text ++ gap)) + 0 := by
      rw [Token.stop, hstart]
      simp only [width_append]
      omega
    rw [tokens_append_gap hgap, hstop, tokens_moved _ hys] at hbehind
    simpa [Except.map] using hbehind

/-- **A file goes on with another**: what is read of two files behind one another is what is read
of the first and then what is read of the second, at the places where it stands now. The first may
have no tokens, or has a newline as its last one. -/
theorem Contents.parse_append {package : String} {xs ys : List Char} {c c' : Contents}
    {ts : List Token} (hxs : parse xs package = .ok c) (hts : tokens 0 xs = .ok ts)
    (hend : EndsLine ts) (hys : parse ys package = .ok c') :
    parse (xs ++ ys) package =
      .ok ⟨c.rules ++ c'.rules.map (Rule.behind (width xs)),
        c.loads ++ c'.loads.map (Load.behind (width xs)), c.called ++ c'.called⟩ := by
  change parse (xs ++ ys) package = .ok (c ++ c'.behind (width xs))
  obtain ⟨ts', hts', hfirst⟩ := exists_of_parse hxs
  cases hts'.symm.trans hts
  obtain ⟨us, hus, hsecond⟩ := exists_of_parse hys
  have hbehind := @ofTokens_within xs ys [] _ _ _ _ _ hsecond [] hus (.inl rfl) ofTokens_nil
  have hwhole := @ofTokens_within [] xs (ys ++ []) _ _ _ _ _ hfirst [] hts (.inr hend) hbehind
  have hzero : Token.moved (width [] + ·) = id := by
    funext t
    simp [Token.moved]
  rw [hzero, List.map_id, List.append_nil, List.append_nil, List.nil_append, width_nil,
    behind_zero, append_empty] at hwhole
  unfold parse
  rw [tokens_append hts hend hus]
  exact hwhole

/-! ## Two files, the first of which ends in a blank line without its end -/

def firstText : List Char :=
  "load(\"//:r.bzl\", \"ts_library\")\nts_library(\n  name = \"a\",\n)\n  ".toList

def firstContents : Contents :=
  { rules := [{
      kind := .library false, name := "a", srcs := .absent, deps := .absent, moduleName := none
      origin := some ⟨⟨31, 58⟩, 56, 56, true, true, "  ", none, none⟩
      srcsChanged := false, depsChanged := false }]
    loads := [⟨⟨0, 30⟩, "//:r.bzl", [("ts_library", "\"ts_library\"")], [], []⟩]
    called := ["load", "ts_library"] }

/-- The tokens of the first text in front of its last newline. -/
def firstTokens : List Token :=
  ((tokens 0 firstText).toOption.getD []).dropLast

def secondText : List Char :=
  "ts_library(name = \"b\",\n  srcs = [\n    \"b.ts\",  # keep\n  ])\ngenrule()".toList

def secondRule : Rule :=
  { kind := .library false, name := "b", srcs := .literal ⟨[⟨"b.ts", some "# keep", []⟩], []⟩
    deps := .absent, moduleName := none
    origin := some ⟨⟨0, 58⟩, 57, 57, false, true, "  ", some ⟨32, 57⟩, none⟩
    srcsChanged := false, depsChanged := false }

theorem Contents.parse_append_two :
    parse firstText "p" = .ok firstContents ∧
      tokens 0 firstText = .ok (firstTokens ++ [⟨.newline, 58, ['\n']⟩]) ∧
      EndsLine (firstTokens ++ [⟨.newline, 58, ['\n']⟩]) ∧
      parse secondText "p" = .ok ⟨[secondRule], [], ["ts_library", "genrule"]⟩ ∧
      parse (firstText ++ secondText) "p" =
        .ok ⟨firstContents.rules ++ [secondRule].map (Rule.behind (width firstText)),
          firstContents.loads ++ [].map (Load.behind (width firstText)),
          firstContents.called ++ ["ts_library", "genrule"]⟩ := by
  have hfirst : parse firstText "p" = .ok firstContents := toOption_eq_some.1 (by decide +kernel)
  have htokens : tokens 0 firstText = .ok (firstTokens ++ [⟨.newline, 58, ['\n']⟩]) :=
    toOption_eq_some.1 (by decide +kernel)
  have hend : EndsLine (firstTokens ++ [⟨.newline, 58, ['\n']⟩]) := .inr ⟨_, _, rfl, rfl⟩
  have hsecond : parse secondText "p" = .ok ⟨[secondRule], [], ["ts_library", "genrule"]⟩ :=
    toOption_eq_some.1 (by decide +kernel)
  exact ⟨hfirst, htokens, hend, hsecond, parse_append hfirst htokens hend hsecond⟩

end BuildSync.Build
