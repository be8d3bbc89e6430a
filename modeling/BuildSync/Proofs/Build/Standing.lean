import BuildSync.Proofs.Build.Changes

/-!
# Calls that stand in a BUILD file

* `StandsBehind`: a call stands among the tokens of a file, outside all brackets.
* `StandsBehind.skip`: skipping a statement does not pass over a call that starts another one.
* `Contents.exists_rule`: a call of a managed function that starts a statement is read as a rule of
  its name. `Descriptor.mem_names_of_isTaken`: the name is one of the descriptor's rules.
-/

namespace BuildSync.Build

/-- A call of `callee` stands behind the tokens `before`, outside all brackets. -/
structure StandsBehind (before : List Token) (callee : Token) (inside ts : List Token) : Prop where
  outside : nest [] before = some []
  isWord : callee.kind = .word
  call : ∃ opening close after, ts = before ++ callee :: opening :: (inside ++ close :: after) ∧
    opening.kind = .opening .round ∧ nest [] inside = some [] ∧ close.kind = .closing .round

/-- What follows some tokens is on a new line. -/
def EndsLine (before : List Token) : Prop :=
  before = [] ∨ ∃ front newline, before = front ++ [newline] ∧ newline.kind = .newline

/-- The name that a call gives: the string literal of its last `name`. -/
def nameOf? (inside : List Token) : Option String :=
  (lastAttribute "name" (attributes inside)).bind Attribute.text?

/-- Some call in the text, outside all brackets, gives the name. -/
def IsCalled (text : List Char) (name : String) : Prop :=
  ∃ ts before callee inside, tokens 0 text = .ok ts ∧ StandsBehind before callee inside ts ∧
    nameOf? inside = some name

/-- A statement of the text starts with a call of a managed function that gives the name. -/
def IsTaken (text : List Char) (name : String) : Prop :=
  ∃ ts before callee inside, tokens 0 text = .ok ts ∧ StandsBehind before callee inside ts ∧
    EndsLine before ∧ (RuleKind.ofFunction? (String.ofList callee.text)).isSome = true ∧
      nameOf? inside = some name

/-! ## Skipping statements -/

theorem nest_cons_of_isFlat {t : Token} (h : t.isFlat = true) (stack : List Bracket)
    (ts : List Token) : nest stack (t :: ts) = nest stack ts := by
  rw [← List.singleton_append, nest_append, nest_flat (by simpa using h)]
  rfl

/-- Tokens behind a bracket are skipped up to the one that closes it. -/
theorem skipStatement_group {start : Nat} {above : List Bracket} {b : Bracket}
    {inside after : List Token} {close : Token} (hi : nest above inside = some [])
    (hc : close.kind = .closing b) :
    skipStatement start (above ++ [b]) (inside ++ close :: after) =
      skipStatement start [] after := by
  induction inside generalizing above with
  | nil =>
    cases hi
    simp [skipStatement, hc]
  | cons t inside ih =>
    unfold nest at hi
    cases hk : t.kind with
    | opening b' =>
      simp only [hk] at hi
      cases above <;> simpa [skipStatement, hk] using ih hi
    | closing b' =>
      simp only [hk] at hi
      cases above with
      | nil => cases hi
      | cons top above =>
        dsimp only at hi
        split at hi
        · rename_i htop
          simpa [skipStatement, hk, htop] using ih hi
        · cases hi
    | _ =>
      simp only [hk] at hi
      cases above <;> simpa [skipStatement, hk] using ih hi

/-- A statement ends at the first newline outside all brackets, or before it. -/
theorem skipStatement_newline {start : Nat} {stack : List Bracket} {front : List Token}
    (hf : nest stack front = some []) {newline : Token} (hn : newline.kind = .newline)
    (ts : List Token) :
    skipStatement start stack (front ++ newline :: ts) = .ok ts ∨
      ∃ front', nest [] front' = some [] ∧
        skipStatement start stack (front ++ newline :: ts) = .ok (front' ++ newline :: ts) := by
  fun_induction nest stack front generalizing start with
  | case1 stack =>
    cases hf
    exact .inl (by simp [skipStatement, hn])
  | case2 stack t front b hk ih =>
    cases stack <;> simpa [skipStatement, hk] using ih hf
  | case3 => cases hf
  | case4 t front b below hk ih => simpa [skipStatement, hk] using ih hf
  | case5 => cases hf
  | case6 stack t front ho hc ih =>
    cases stack with
    | nil =>
      by_cases hk : t.kind = .newline
      · exact .inr ⟨front, hf, by simp [skipStatement, hk]⟩
      · cases hk' : t.kind <;> simp_all [skipStatement]
    | cons b below => cases hk' : t.kind <;> simp_all [skipStatement]

/-- **Skipping a statement** does not pass over a call that starts another one. -/
theorem StandsBehind.skip {before inside ts rest : List Token} {callee : Token} {start : Nat}
    (h : StandsBehind before callee inside ts) (hb : EndsLine before) (hne : before ≠ [])
    (hs : skipStatement start [] ts = .ok rest) :
    ∃ before', EndsLine before' ∧ StandsBehind before' callee inside rest := by
  obtain ⟨opening, close, after, rfl, ho, hi, hc⟩ := h.call
  obtain ⟨front, newline, rfl, hn⟩ := hb.resolve_left hne
  have hfront : nest [] front = some [] := by
    have houtside := h.outside
    rw [nest_append] at houtside
    obtain ⟨stack, hstack, hlast⟩ := Option.bind_eq_some_iff.1 houtside
    rw [hstack, ← hlast, nest_cons_of_isFlat (by simp [Token.isFlat, hn])]
    rfl
  rw [List.append_assoc, List.singleton_append] at hs
  rcases skipStatement_newline hfront hn (callee :: opening :: (inside ++ close :: after)) with
    hskip | ⟨front', hfront', hskip⟩
  · cases hskip.symm.trans hs
    exact ⟨[], .inl rfl, rfl, h.isWord, opening, close, after, rfl, ho, hi, hc⟩
  · cases hskip.symm.trans hs
    refine ⟨front' ++ [newline], .inr ⟨front', newline, rfl, hn⟩, ?_, h.isWord, opening, close,
      after, by simp, ho, hi, hc⟩
    rw [nest_append, hfront']
    exact nest_flat (by simp [Token.isFlat, hn]) []

/-! ## Calls that are read -/

/-- **A call of a managed function** that starts a statement is read as a rule of its name. -/
theorem Contents.exists_rule {text : List Char} {package : String} {ts : List Token} {c : Contents}
    (h : ofTokens text package ts = .ok c) {before inside : List Token} {callee : Token}
    (hc : StandsBehind before callee inside ts) (hb : EndsLine before)
    (hk : (RuleKind.ofFunction? (String.ofList callee.text)).isSome = true) :
    ∃ rule ∈ c.rules, nameOf? inside = some rule.name := by
  suffices hall : ∀ before, StandsBehind before callee inside ts → EndsLine before →
      ∃ rule ∈ c.rules, nameOf? inside = some rule.name from hall before hc hb
  clear hc hb
  refine Contents.ofTokens_induction ?nil ?trivia ?plain ?call h
  case nil =>
    intro before hc _
    obtain ⟨opening, close, after, hts, -⟩ := hc.call
    simp at hts
  case trivia =>
    intro t ts c ht _ ih before hc hb
    obtain ⟨opening, close, after, hts, ho, hi, hclose⟩ := hc.call
    cases before with
    | nil =>
      obtain ⟨rfl, -⟩ := List.cons.inj hts
      simp [Token.isTrivia, hc.isWord] at ht
    | cons u before =>
      obtain ⟨rfl, rfl⟩ := List.cons.inj hts
      have houtside : nest [] before = some [] := by
        rw [← hc.outside, nest_cons_of_isFlat (isFlat_of_isTrivia ht)]
      refine ih before ⟨houtside, hc.isWord, opening, close, after, rfl, ho, hi, hclose⟩ ?_
      rcases hb with hb | ⟨front, newline, hb, hn⟩
      · cases hb
      · cases front with
        | nil => exact .inl (List.cons.inj hb).2
        | cons v front => exact .inr ⟨front, newline, (List.cons.inj hb).2, hn⟩
  case plain =>
    intro t tail rest c _ hopening hs _ ih before hc hb
    obtain ⟨opening, close, after, hts, ho, -, -⟩ := hc.call
    cases before with
    | nil =>
      obtain ⟨rfl, hrest⟩ := List.cons.inj hts
      rw [hrest] at hopening
      simp [callOpening?, hc.isWord, ho] at hopening
    | cons u before =>
      obtain ⟨before', hb', hc'⟩ := hc.skip hb (by simp) (hs.skips 0 (t :: tail) rest rfl id)
      exact ih before' hc' hb'
  case call =>
    intro t opening inside' close tail rest first c ht ho hnest hclose hfirst hs _ ih before hc hb
    obtain ⟨opening', close', after, hts, ho', hi, hclose'⟩ := hc.call
    cases before with
    | nil =>
      obtain ⟨rfl, htail⟩ := List.cons.inj hts
      obtain ⟨-, hcall⟩ := List.cons.inj htail
      -- Both calls end at the bracket that closes the one they open.
      have hsame :=
        (@group_eq_ok 0 [] .round _ inside' (tail ++ rest) close).2 ⟨rfl, hnest, hclose⟩
      rw [hcall, (@group_eq_ok 0 [] .round _ inside after close').2 ⟨rfl, hi, hclose'⟩] at hsame
      obtain ⟨rfl, -⟩ := Prod.mk.inj (Except.ok.inj hsame)
      rcases ofCall_eq_ok hfirst with ⟨hload, -⟩ | ⟨kind, rule, -, hrule, hrules, -⟩ | ⟨-, hnone, -⟩
      · rw [hload] at hk
        cases hk
      · refine ⟨rule, List.mem_append_left _ (hrules ▸ List.mem_singleton_self rule), ?_⟩
        exact (Rule.parse_eq_ok hrule).1.name
      · rw [hnone] at hk
        cases hk
    | cons u before =>
      have hskip : skipStatement 0 [] (t :: opening :: (inside' ++ close :: (tail ++ rest))) =
          .ok rest := by
        simp only [skipStatement, ht, ho]
        rw [← List.nil_append [Bracket.round], skipStatement_group hnest hclose]
        exact hs.skips _ tail rest rfl id
      obtain ⟨before', hb', hc'⟩ := hc.skip hb (by simp) hskip
      obtain ⟨rule, hmem, hname⟩ := ih before' hc' hb'
      exact ⟨rule, List.mem_append_right _ hmem, hname⟩

/-- **A taken name is the name of a rule** of the BUILD file. -/
theorem Descriptor.mem_names_of_isTaken {path package text : String} {d : Descriptor}
    (h : parse path package text = .ok d) {name : String} (hn : IsTaken text.toList name) :
    name ∈ d.rules.map (·.name) := by
  obtain ⟨ts, hts, hcontents, -⟩ := parse_eq_ok h
  obtain ⟨ts', before, callee, inside, hts', hc, hb, hk, hname⟩ := hn
  cases hts.symm.trans hts'
  obtain ⟨rule, hmem, hrule⟩ := Contents.exists_rule hcontents hc hb hk
  rw [hname, Option.some.injEq] at hrule
  exact hrule ▸ List.mem_map_of_mem hmem

end BuildSync.Build
