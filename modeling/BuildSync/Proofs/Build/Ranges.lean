import BuildSync.Proofs.Build.Concatenation
import BuildSync.Proofs.Build.Frame

/-!
# The places that are read of a file

* `IsBalanced`: brackets that are closed in the order in which they were opened
  (`isBalanced_iff`). The tokens of a file that is read are, as are those of each call.
* `pairwise_arguments`: the values of the arguments of a call stand one behind another.
* `IsGapText`: what separates tokens.
* `Origin.IsPlaced`: what a rule tells of its place. `Contents.IsPlaced`: what a file does.
  `Contents.parse_isPlaced`: every file that is read does so.
-/

namespace BuildSync.Build

open Text

/-! ## Balanced brackets -/

/-- Tokens whose brackets are closed in the order in which they were opened. -/
inductive IsBalanced : List Token → Prop
  | nil : IsBalanced []
  | flat {t : Token} {ts : List Token} : t.isFlat = true → IsBalanced ts → IsBalanced (t :: ts)
  | bracket {b : Bracket} {opening close : Token} {inside ts : List Token} :
      opening.kind = .opening b → IsBalanced inside → close.kind = .closing b → IsBalanced ts →
      IsBalanced (opening :: (inside ++ close :: ts))

theorem IsBalanced.append {ts us : List Token} (ht : IsBalanced ts) (hu : IsBalanced us) :
    IsBalanced (ts ++ us) := by
  induction ht with
  | nil => exact hu
  | flat hflat _ ih => exact .flat hflat ih
  | bracket hopening hinside hclose _ _ ih =>
    rw [List.cons_append, List.append_assoc]
    exact .bracket hopening hinside hclose ih

theorem nest_cons_flat {t : Token} (h : t.isFlat = true) (stack : List Bracket) (ts : List Token) :
    nest stack (t :: ts) = nest stack ts := by
  rw [← List.singleton_append, nest_append, nest_flat (by simpa using h), Option.bind_some]

/-- Balanced tokens leave open what was open. -/
theorem IsBalanced.nest {ts : List Token} (h : IsBalanced ts) (stack : List Bracket) :
    nest stack ts = some stack := by
  induction h generalizing stack with
  | nil => rfl
  | @flat t ts hflat _ ih =>
    rw [nest_cons_flat hflat]
    exact ih stack
  | @bracket b opening close inside ts hopening _ hclose _ hinside hts =>
    have hopen : Build.nest stack (opening :: (inside ++ close :: ts)) =
        Build.nest (b :: stack) (inside ++ close :: ts) := by
      simp [Build.nest, hopening]
    rw [hopen, nest_append, hinside]
    simpa [Build.nest, hclose] using hts stack

/-- The bracket that closes the outermost of some open ones. -/
theorem exists_close {above : List Bracket} {b : Bracket} {ts : List Token}
    (h : nest (above ++ [b]) ts = some []) : ∃ inside close rest, ts = inside ++ close :: rest ∧
      nest above inside = some [] ∧ close.kind = .closing b ∧ nest [] rest = some [] := by
  induction ts generalizing above with
  | nil => simp [nest] at h
  | cons t ts ih =>
    cases hk : t.kind with
    | opening b' =>
      have h' : nest (b' :: above ++ [b]) ts = some [] := by simpa [nest, hk] using h
      obtain ⟨inside, close, rest, rfl, hinside, hclose, hrest⟩ := ih h'
      exact ⟨t :: inside, close, rest, rfl, by simpa [nest, hk] using hinside, hclose, hrest⟩
    | closing b' =>
      cases above with
      | nil =>
        simp only [nest, hk, List.nil_append] at h
        split at h
        · rename_i hb
          exact ⟨[], t, ts, rfl, rfl, by rw [hk, hb], h⟩
        · cases h
      | cons top above =>
        simp only [nest, hk, List.cons_append] at h
        split at h
        · rename_i hb
          obtain ⟨inside, close, rest, rfl, hinside, hclose, hrest⟩ := ih h
          exact ⟨t :: inside, close, rest, rfl, by simpa [nest, hk, hb] using hinside, hclose,
            hrest⟩
        · cases h
    | _ =>
      have h' : nest (above ++ [b]) ts = some [] := by simpa [nest, hk] using h
      obtain ⟨inside, close, rest, rfl, hinside, hclose, hrest⟩ := ih h'
      exact ⟨t :: inside, close, rest, rfl, by simpa [nest, hk] using hinside, hclose, hrest⟩

/-- **Balanced tokens** are those that leave nothing open and close nothing that is not. -/
theorem isBalanced_iff {ts : List Token} : IsBalanced ts ↔ nest [] ts = some [] := by
  refine ⟨fun h => h.nest [], fun h => ?_⟩
  induction hn : ts.length using Nat.strong_induction_on generalizing ts with
  | h n ih =>
    cases ts with
    | nil => exact .nil
    | cons t ts =>
      rw [List.length_cons] at hn
      cases hk : t.kind with
      | opening b =>
        have h' : nest ([] ++ [b]) ts = some [] := by simpa [nest, hk] using h
        obtain ⟨inside, close, rest, rfl, hinside, hclose, hrest⟩ := exists_close h'
        simp only [List.length_append, List.length_cons] at hn
        exact .bracket hk (ih inside.length (by omega) hinside rfl) hclose
          (ih rest.length (by omega) hrest rfl)
      | closing b => simp [nest, hk] at h
      | _ =>
        have h' : nest [] ts = some [] := by simpa [nest, hk] using h
        exact .flat (by simp [Token.isFlat, hk]) (ih ts.length (by omega) h' rfl)

/-- A statement closes what it opens. -/
theorem nest_of_skipStatement {start : Nat} {stack : List Bracket} {ts rest : List Token}
    (h : skipStatement start stack ts = .ok rest) :
    ∃ tail, ts = tail ++ rest ∧ nest stack tail = some [] := by
  fun_induction skipStatement start stack ts with
  | case1 =>
    cases h
    exact ⟨[], rfl, rfl⟩
  | case3 start t ts hk =>
    cases h
    exact ⟨[t], rfl, by simp [nest, hk]⟩
  | case4 start t ts b hk ih =>
    obtain ⟨tail, rfl, hnest⟩ := ih h
    exact ⟨t :: tail, rfl, by simpa [nest, hk] using hnest⟩
  | case5 start t ts b stack _ hk ih =>
    obtain ⟨tail, rfl, hnest⟩ := ih h
    exact ⟨t :: tail, rfl, by simpa [nest, hk] using hnest⟩
  | case7 start t ts b below hk ih =>
    obtain ⟨tail, rfl, hnest⟩ := ih h
    exact ⟨t :: tail, rfl, by simpa [nest, hk] using hnest⟩
  | case9 start t ts stack h₁ h₂ h₃ h₄ h₅ ih =>
    obtain ⟨tail, rfl, hnest⟩ := ih h
    have hflat : t.isFlat = true := by
      unfold Token.isFlat
      cases stack <;> split <;> simp_all
    exact ⟨t :: tail, rfl, by rw [nest_cons_flat hflat, hnest]⟩
  | _ => cases h

theorem IsStatement.isBalanced {tail rest : List Token} (h : IsStatement tail rest) :
    IsBalanced tail := by
  obtain ⟨tail', htail, hnest⟩ := nest_of_skipStatement (h.skips 0 tail rest rfl id)
  rw [List.append_cancel_right htail]
  exact isBalanced_iff.2 hnest

/-- **The brackets of a file that is read are balanced**, and calls make its rules. -/
theorem Contents.isBalanced_of_ofTokens {text : List Char} {package : String} {ts : List Token}
    {c : Contents} (h : ofTokens text package ts = .ok c) : IsBalanced ts ∧ ∀ rule ∈ c.rules,
      ∃ s : Site, s.IsIn text package ts ∧ s.opening.kind = .opening .round ∧
        rule ∈ s.made.rules := by
  -- The calls behind some tokens.
  have hbehind : ∀ (us : List Token) {ts : List Token} {rule : Rule},
      (∃ s : Site, s.IsIn text package ts ∧ s.opening.kind = .opening .round ∧
        rule ∈ s.made.rules) →
      ∃ s : Site, s.IsIn text package (us ++ ts) ∧ s.opening.kind = .opening .round ∧
        rule ∈ s.made.rules := by
    rintro us ts rule ⟨s, hin, hs⟩
    exact ⟨s, hin.behind us, hs⟩
  refine ofTokens_induction ?nil ?trivia ?plain ?call h
  case nil => exact ⟨.nil, by simp [empty]⟩
  case trivia =>
    rintro t ts c ht - ⟨hts, hrules⟩
    exact ⟨.flat (isFlat_of_isTrivia ht) hts, fun rule hrule => hbehind [t] (hrules rule hrule)⟩
  case plain =>
    rintro t tail rest c - - hs - ⟨hrest, hrules⟩
    exact ⟨hs.isBalanced.append hrest, fun rule hrule => hbehind (t :: tail) (hrules rule hrule)⟩
  case call =>
    rintro t opening inside close tail rest first c hk ho hnest hclose hfirst hs - ⟨hrest, hrules⟩
    have hword : t.isFlat = true := by simp [Token.isFlat, hk]
    have hbalanced := IsBalanced.bracket ho (isBalanced_iff.2 hnest) hclose
      (hs.isBalanced.append hrest)
    refine ⟨.flat hword hbalanced, fun rule hrule => ?_⟩
    rcases List.mem_append.1 hrule with hrule | hrule
    · refine ⟨⟨t, opening, inside, close, first⟩, ⟨?_, hk, hnest, hclose, hfirst⟩, ho, hrule⟩
      exact ⟨[], tail ++ rest, by simp [Site.tokens]⟩
    · have hshape : t :: opening :: (inside ++ close :: (tail ++ rest)) =
          t :: opening :: (inside ++ close :: tail) ++ rest := by
        simp
      rw [hshape]
      exact hbehind _ (hrules rule hrule)

/-! ## Arguments -/

/-- The value of an argument ends before that of another one begins. -/
def Argument.Before (a b : Argument) : Prop :=
  ∀ t ∈ a.value, ∀ u ∈ b.value, t.stop ≤ u.start

/-- **The values of arguments** stand one behind another. -/
theorem pairwise_arguments {inside : List Token}
    (h : inside.Pairwise fun a b => a.stop ≤ b.start) :
    (arguments inside).Pairwise Argument.Before := by
  have hone : ∀ xs, IsPart 0 xs → (arguments xs).Pairwise Argument.Before := by
    intro xs hpart
    rw [arguments_part hpart]
    cases Argument.ofTokens? xs with
    | none => exact .nil
    | some arg => exact List.pairwise_singleton _ arg
  induction inside using parts_induction with
  | part xs hpart => exact hone xs hpart
  | comma xs c ys hc hpart hdepth ih =>
    obtain ⟨-, hys, hbetween⟩ := List.pairwise_append.1 h
    rw [arguments_comma hdepth hc, List.pairwise_append]
    refine ⟨hone xs hpart, ih (List.pairwise_cons.1 hys).2, fun a ha b hb t ht u hu => ?_⟩
    exact hbetween t (mem_of_mem_arguments ha t ht) u
      (List.mem_cons_of_mem c (mem_of_mem_arguments hb u hu))

/-! ## What separates tokens -/

/-- Blanks and continued lines. -/
inductive IsGapText : List Char → Prop
  | nil : IsGapText []
  | blank {c : Char} {cs : List Char} : isGap c = true → IsGapText cs → IsGapText (c :: cs)
  | joined {cs : List Char} : IsGapText cs → IsGapText ('\\' :: '\n' :: cs)

/-- A text without tokens. -/
theorem isGapText_of_tokens {pos : Nat} {cs : List Char} (h : tokens pos cs = .ok []) :
    IsGapText cs := by
  fun_induction tokens pos cs with
  | case1 => exact .nil
  | case2 pos c cs hg ih => exact .blank hg (ih h)
  | case3 pos c cs hg hj ih =>
    obtain ⟨rfl, hn⟩ := hj
    obtain ⟨cs, rfl⟩ := List.head?_eq_some_iff.1 hn
    exact .joined (ih h)
  | case4 => cases h
  | case5 pos c cs hg hj kind n hl token ih =>
    obtain ⟨ts, -, hts⟩ := map_eq_ok h
    cases hts

theorem isGapText_of_lexes {gap : List Char} (h : Lexes gap [] none) : IsGapText gap := by
  obtain ⟨ts, hts, hbare⟩ := exists_tokens h.lexemes 0
  rw [List.map_eq_nil_iff] at hbare
  exact isGapText_of_tokens (hbare ▸ hts)

/-- What stands between the last argument of a call and the place where more are added: nothing, or
a comment behind what separates tokens. -/
def IsRemark (text : List Char) : Prop :=
  text = [] ∨ ∃ gap remark, text = gap ++ '#' :: remark ∧ IsGapText gap ∧ '\n' ∉ remark

/-- The place behind a token, or behind the comment that follows it. -/
def placeBehind (last : Token) (trail : List Token) : Nat :=
  trail.head?.elim last.stop fun t => if t.kind = .comment then t.stop else last.stop

theorem exists_placeBehind (last : Token) (trail : List Token) :
    ∃ t ∈ last :: trail, placeBehind last trail = t.stop := by
  unfold placeBehind
  cases trail with
  | nil => exact ⟨last, List.mem_cons_self, rfl⟩
  | cons t trail =>
    by_cases hk : t.kind = .comment
    · exact ⟨t, by simp, by simp [hk]⟩
    · exact ⟨last, List.mem_cons_self, by simp [hk]⟩

theorem exists_remark {text : List Char} {front trail back : List Token} {last : Token}
    (h : tokens 0 text = .ok (front ++ last :: (trail ++ back))) :
    ∃ xs remark ys, text = xs ++ (remark ++ ys) ∧ width xs = last.stop ∧
      width (xs ++ remark) = placeBehind last trail ∧ IsRemark remark := by
  obtain ⟨xs, ys, rfl, hstart, -, -, hrest⟩ := tokens_cut h
  have hstop : width (xs ++ last.text) = last.stop := by
    rw [width_append, Token.stop, hstart, Nat.zero_add]
  have hnothing : placeBehind last trail = last.stop → ∃ xs' remark ys',
      xs ++ (last.text ++ ys) = xs' ++ (remark ++ ys') ∧ width xs' = last.stop ∧
        width (xs' ++ remark) = placeBehind last trail ∧ IsRemark remark := fun hplace =>
    ⟨xs ++ last.text, [], ys, by simp, hstop, by rw [List.append_nil, hstop, hplace], .inl rfl⟩
  cases trail with
  | nil => exact hnothing rfl
  | cons t trail =>
    by_cases hk : t.kind = .comment
    · obtain ⟨gap, zs, rfl, hcomment, hgap, htoken, -⟩ := tokens_cons hrest
      rw [hk] at htoken
      obtain ⟨remark, htext, hremark, -⟩ := htoken.comment_eq
      refine ⟨xs ++ last.text, gap ++ t.text, zs, by simp, hstop, ?_, .inr ⟨gap, remark, ?_,
        isGapText_of_lexes (hgap none), hremark⟩⟩
      · have hplace : placeBehind last (t :: trail) = t.stop := by simp [placeBehind, hk]
        have hend : t.stop = last.stop + width gap + width t.text := by rw [Token.stop, hcomment]
        rw [hplace, width_append, hstop, width_append]
        omega
      · rw [htext]
    · exact hnothing (by simp [placeBehind, hk])

/-! ## Ranges -/

/-- Some characters of a text. -/
structure Span.IsCut (text : List Char) (span : Span) : Prop where
  lt : span.start < span.stop
  start : IsBoundary 0 text span.start
  stop : IsBoundary 0 text span.stop

/-- Two ranges have no byte in common. -/
def Span.IsApart (a b : Span) : Prop :=
  a.stop ≤ b.start ∨ b.stop ≤ a.start

/-- **The range of a value** between the parentheses of a call: from the first byte to the last of
balanced tokens. -/
structure Span.IsValue (text : List Char) (inside : List Token) (span : Span) : Prop where
  isCut : span.IsCut text
  exists_core : ∃ front core back first last, inside = front ++ (core ++ back) ∧
    IsBalanced core ∧ core.head? = some first ∧ core.getLast? = some last ∧
    span = ⟨first.start, last.stop⟩

/-- **The places of a rule** in a text, by the call that makes it. -/
structure Origin.IsPlaced (text : List Char) (s : Site) (origin : Origin) : Prop where
  span : origin.span = s.span
  values : ∀ span, origin.srcs = some span ∨ origin.deps = some span →
    span.IsValue text s.inside ∧ s.opening.stop ≤ span.start ∧ span.stop ≤ origin.lastArgEnd
  apart : ∀ srcs deps, origin.srcs = some srcs → origin.deps = some deps → srcs.IsApart deps
  lastArgEnd_le : origin.lastArgEnd ≤ origin.insertAt
  insertAt_le : origin.insertAt ≤ s.close.start
  remark : ∃ front remark back, text = front ++ (remark ++ back) ∧
    width front = origin.lastArgEnd ∧ width (front ++ remark) = origin.insertAt ∧ IsRemark remark

/-- The first of some tokens starts before another one of them ends. -/
theorem AreTokens.start_lt_stop {first last : Token} {ts : List Token}
    (h : AreTokens (first :: ts)) (hlast : last ∈ first :: ts) : first.start < last.stop := by
  have hfirst := (h.proper first List.mem_cons_self).start_lt_stop
  rcases List.mem_cons.1 hlast with rfl | hlast
  · exact hfirst
  · have hle := (List.pairwise_cons.1 h.ordered).1 last hlast
    have hlt := (h.proper last (List.mem_cons_of_mem first ‹_›)).start_lt_stop
    omega

/-- The last token that is no newline and no comment ends behind the others. -/
theorem stop_le_last {front trail : List Token} {last t : Token}
    (h : (front ++ last :: trail).Pairwise fun a b => a.stop ≤ b.start)
    (htrail : ∀ t ∈ trail, t.isTrivia = true) (ht : t ∈ front ++ last :: trail)
    (hk : t.isTrivia = false) : t.stop ≤ last.stop := by
  rcases List.mem_append.1 ht with ht | ht
  · have hle := (List.pairwise_append.1 h).2.2 t ht last List.mem_cons_self
    exact hle.trans (Nat.le_add_right _ _)
  · rcases List.mem_cons.1 ht with rfl | ht
    · exact Nat.le_refl _
    · rw [htrail t ht] at hk
      cases hk

section Call

variable {text : List Char} {package : String} {ts : List Token} {s : Site}
  (hts : tokens 0 text = .ok ts) (hs : s.IsIn text package ts)
include hts hs

theorem isCut_span : s.span.IsCut text where
  lt := Site.span_lt (hs.areTokens (areTokens_of_tokens hts).1)
  start := isBoundary_start hts (hs.mem (t := s.callee) (by simp [Site.tokens]))
  stop := isBoundary_stop hts (hs.mem (t := s.close) (by simp [Site.tokens]))

/-- What stands between the parentheses of a call is behind one and before the other. -/
theorem ordered_inside : s.inside.Pairwise (fun a b => a.stop ≤ b.start) ∧
    ∀ t ∈ s.inside, s.opening.stop ≤ t.start ∧ t.stop ≤ s.close.start := by
  have hordered := (hs.areTokens (areTokens_of_tokens hts).1).ordered
  simp only [Site.tokens, List.pairwise_cons, List.pairwise_append] at hordered
  obtain ⟨-, hopening, hinside, -, hclose⟩ := hordered
  exact ⟨hinside, fun t ht => ⟨hopening t (List.mem_append_left _ ht),
    hclose t ht s.close (List.mem_singleton_self _)⟩⟩

/-- **The value of the last argument of a name.** -/
theorem isValue_of_spanOf {name : String} {span : Span} (h : spanOf name s.inside = some span) :
    span.IsValue text s.inside ∧ ∃ arg ∈ arguments s.inside, arg.key = some name ∧
      ∃ first ∈ arg.value, ∃ last ∈ arg.value, last.isTrivia = false ∧
        span = ⟨first.start, last.stop⟩ := by
  obtain ⟨arg, harg, hspan⟩ := Option.bind_eq_some_iff.1 h
  obtain ⟨hmem, hkey⟩ := lastNamed_some harg
  obtain ⟨front, lead, core, trail, back, first, last, hinside, hcore, -, hnest, -⟩ :=
    exists_value hs.nest hmem hspan
  obtain rfl := Option.some.inj (hspan.symm.trans hcore.span?)
  obtain ⟨mid, hmid⟩ := List.head?_eq_some_iff.1 hcore.head
  have hlast := List.mem_of_getLast? hcore.getLast
  have hvalue : ∀ t ∈ core, t ∈ arg.value := by
    intro t ht
    rw [hcore.value_eq]
    simp [ht]
  have htokens : ∀ t ∈ core, t ∈ ts := fun t ht => hs.mem (by simp [Site.tokens, hinside, ht])
  have hfirst : first ∈ core := by simp [hmid]
  have hareTokens : AreTokens core := by
    have hall := hs.areTokens (areTokens_of_tokens hts).1
    rw [Site.tokens, hinside] at hall
    exact @AreTokens.of_append (s.callee :: s.opening :: front) core (back ++ [s.close])
      (by simpa using hall)
  refine ⟨⟨⟨?_, isBoundary_start hts (htokens first hfirst),
    isBoundary_stop hts (htokens last hlast)⟩, front, core, back, first, last, hinside,
    isBalanced_iff.2 hnest, hcore.head, hcore.getLast, rfl⟩, arg, hmem, hkey, first,
    hvalue first hfirst, last, hvalue last hlast, hcore.last_eq, rfl⟩
  rw [hmid] at hareTokens hlast
  exact hareTokens.start_lt_stop hlast

/-- Values of two names have no byte in common. -/
theorem isApart_of_spanOf {name other : String} (hne : name ≠ other) {a b : Span}
    (ha : spanOf name s.inside = some a) (hb : spanOf other s.inside = some b) : a.IsApart b := by
  obtain ⟨-, arg, harg, hkey, first, hfirst, last, hlast, -, rfl⟩ := isValue_of_spanOf hts hs ha
  obtain ⟨-, arg', harg', hkey', first', hfirst', last', hlast', -, rfl⟩ :=
    isValue_of_spanOf hts hs hb
  have hargs : arg ≠ arg' := by
    rintro rfl
    exact hne (Option.some.inj (hkey.symm.trans hkey'))
  have hbefore := pairwise_arguments (ordered_inside hts hs).1
  rcases or_of_pairwise hbefore harg harg' hargs with h | h
  · exact .inl (h last hlast first' hfirst')
  · exact .inr (h last' hlast' first hfirst)

/-- **A rule tells where it stands.** -/
theorem isPlaced_of_mem {rule : Rule} (hrule : rule ∈ s.made.rules) :
    ∃ origin, rule.origin = some origin ∧ origin.IsPlaced text s := by
  obtain ⟨-, hattr, origin, horigin, hof⟩ := hs.spans.2 rule hrule
  obtain ⟨front, last, trail, hinside, hlast, htrail⟩ := exists_last hattr
  obtain ⟨hend, -, hinsert⟩ := hof.places front last trail hinside hlast htrail
  obtain ⟨hordered, hbounds⟩ := ordered_inside hts hs
  have hvalues : ∀ name span, spanOf name s.inside = some span →
      span.IsValue text s.inside ∧ s.opening.stop ≤ span.start ∧ span.stop ≤ origin.lastArgEnd := by
    intro name span hspan
    obtain ⟨hvalue, arg, harg, -, a, ha, b, hb, hsignificant, rfl⟩ :=
      isValue_of_spanOf hts hs hspan
    have hmem := mem_of_mem_arguments harg
    refine ⟨hvalue, (hbounds a (hmem a ha)).1, ?_⟩
    rw [hend]
    exact stop_le_last (hinside ▸ hordered) htrail (hinside ▸ hmem b hb) hsignificant
  obtain ⟨before, after, hfile⟩ := hs.tokens
  have hcut : tokens 0 text = .ok (before ++ s.callee :: s.opening :: front ++
      last :: (trail ++ s.close :: after)) := by
    rw [hts, ← hfile, Site.tokens, hinside]
    simp
  obtain ⟨xs, remark, ys, htext, hxs, hremark, hshape⟩ := exists_remark hcut
  refine ⟨origin, horigin, hof.span, ?_, ?_, ?_, ?_, ⟨xs, remark, ys, htext, ?_, ?_, hshape⟩⟩
  · rintro span (hspan | hspan)
    · exact hvalues "srcs" span (hof.srcs ▸ hspan)
    · exact hvalues "deps" span (hof.deps ▸ hspan)
  · intro srcs deps hsrcs hdeps
    exact isApart_of_spanOf hts hs (by decide) (hof.srcs ▸ hsrcs) (hof.deps ▸ hdeps)
  · rw [hend, ← hxs, hinsert, ← placeBehind, ← hremark, width_append]
    exact Nat.le_add_right _ _
  · obtain ⟨t, ht, hplace⟩ := exists_placeBehind last trail
    rw [hinsert, ← placeBehind, hplace]
    exact (hbounds t (hinside ▸ List.mem_append_right _ ht)).2
  · rw [hxs, hend]
  · rw [hremark, hinsert, placeBehind]

end Call

/-! ## Files -/

/-- Where a rule stands, if it has a place. -/
def Rule.span? (rule : Rule) : Option Span :=
  rule.origin.map Origin.span

namespace Contents

/-- Where the rules and the loads of a file stand. -/
def spans (c : Contents) : List Span :=
  c.rules.filterMap Rule.span? ++ c.loads.map Load.span

/-- **The places in a file**: its brackets are balanced, its rules stand one behind another, as its
loads do, and each of them has its characters to itself. -/
structure IsPlaced (text : List Char) (package : String) (ts : List Token) (c : Contents) :
    Prop where
  balanced : IsBalanced ts
  cut : ∀ span ∈ c.spans, span.IsCut text
  apart : c.spans.Pairwise Span.IsApart
  rulesAscend : (c.rules.filterMap Rule.span?).Pairwise fun a b => a.stop ≤ b.start
  loadsAscend : c.loads.Pairwise fun a b => a.span.stop ≤ b.span.start
  rules : ∀ rule ∈ c.rules, ∃ s : Site, s.IsIn text package ts ∧
    s.opening.kind = .opening .round ∧
    ∃ origin, rule.origin = some origin ∧ origin.IsPlaced text s

end Contents

/-- A call makes at most one rule or load, and that stands where the call does. -/
theorem Site.IsIn.spans_sublist {text : List Char} {package : String} {ts : List Token} {s : Site}
    (h : s.IsIn text package ts) : s.made.spans.Sublist [s.span] := by
  unfold Contents.spans
  rcases Contents.ofCall_eq_ok h.made with ⟨-, load, hload, hr, hl⟩ |
    ⟨kind, rule, -, hrule, hr, hl⟩ | ⟨-, -, hr, hl⟩
  · have hspan := h.spans.1 load (by simp [hl])
    simp [hr, hl, hspan]
  · obtain ⟨-, -, origin, horigin, hof⟩ := h.spans.2 rule (by simp [hr])
    simp [hr, hl, Rule.span?, horigin, hof.span, Site.span]
  · simp [hr, hl]

theorem flatMap_sublist_map {α β : Type} {f : α → List β} {g : α → β} {xs : List α}
    (h : ∀ x ∈ xs, (f x).Sublist [g x]) : (xs.flatMap f).Sublist (xs.map g) := by
  induction xs with
  | nil => exact .slnil
  | cons x xs ih =>
    rw [List.forall_mem_cons] at h
    exact h.1.append (ih h.2)

namespace Contents

/-- **What is read of a file tells where it stands.** -/
theorem parse_isPlaced {text : List Char} {package : String} {c : Contents}
    (h : parse text package = .ok c) :
    ∃ ts, tokens 0 text = .ok ts ∧ c.IsPlaced text package ts := by
  obtain ⟨ts, hts, hread⟩ := exists_of_parse h
  obtain ⟨hbalanced, hmade⟩ := isBalanced_of_ofTokens hread
  obtain ⟨sites, hin, hbefore, hrules, hloads⟩ := exists_sites hread (areTokens_of_tokens hts).1
  have hrules' : c.rules.filterMap Rule.span? =
      sites.flatMap fun s => s.made.rules.filterMap Rule.span? := by
    rw [hrules, List.filterMap_flatMap]
  have hloads' : c.loads.map Load.span = sites.flatMap fun s => s.made.loads.map Load.span := by
    rw [hloads, List.map_flatMap]
  -- All of them are among the places of the calls, which ascend.
  have hcalls : (sites.map Site.span).Pairwise fun a b => a.stop ≤ b.start :=
    List.pairwise_map.2 (hbefore.imp fun hab => hab.le)
  have hall : (sites.flatMap fun s => s.made.spans).Sublist (sites.map Site.span) :=
    flatMap_sublist_map fun s hs => (hin s hs).spans_sublist
  have hperm : (sites.flatMap fun s => s.made.spans).Perm c.spans := by
    unfold spans
    rw [hrules', hloads']
    exact (List.flatMap_append_perm sites _ _).symm
  refine ⟨ts, hts, hbalanced, fun span hspan => ?_, ?_, ?_, ?_, fun rule hrule => ?_⟩
  · obtain ⟨s, hs, rfl⟩ := List.mem_map.1 (hall.subset (hperm.mem_iff.2 hspan))
    exact isCut_span hts (hin s hs)
  · have hapart : (sites.flatMap fun s => s.made.spans).Pairwise Span.IsApart :=
      (hcalls.sublist hall).imp Or.inl
    exact hapart.perm hperm fun hab => hab.symm
  · rw [hrules']
    exact hcalls.sublist (flatMap_sublist_map fun s hs =>
      (List.sublist_append_left _ _).trans (hin s hs).spans_sublist)
  · rw [← List.pairwise_map (f := Load.span) (R := fun a b => a.stop ≤ b.start), hloads']
    exact hcalls.sublist (flatMap_sublist_map fun s hs =>
      (List.sublist_append_right _ _).trans (hin s hs).spans_sublist)
  · obtain ⟨s, hs, hopening, hmem⟩ := hmade rule hrule
    exact ⟨s, hs, hopening, isPlaced_of_mem hts hs hmem⟩

/-- A load and a rule, behind whose last comma a comment follows on a continued line. -/
def continuedText : List Char :=
  ("load(\":a.bzl\", \"a\")\nts_library(name = \"é\", deps = [(\":b\")], srcs = [], \\\n" ++
    "  # last\n)\n").toList

def continuedContents : Contents where
  rules := [{
    kind := .library false, name := "é", srcs := .literal ⟨[], []⟩, deps := .computed
    moduleName := none
    origin := some ⟨⟨20, 84⟩, 82, 71, true, true, "    ", some ⟨68, 70⟩, some ⟨51, 59⟩⟩
    srcsChanged := false, depsChanged := false }]
  loads := [⟨⟨0, 19⟩, ":a.bzl", [("a", "\"a\"")], [], []⟩]
  called := ["load", "ts_library"]

theorem parse_isPlaced_continued : parse continuedText "p" = .ok continuedContents ∧
    ∃ ts, tokens 0 continuedText = .ok ts ∧ continuedContents.IsPlaced continuedText "p" ts := by
  have hparse : parse continuedText "p" = .ok continuedContents :=
    toOption_eq_some.1 (by decide +kernel)
  exact ⟨hparse, parse_isPlaced hparse⟩

end Contents

end BuildSync.Build
