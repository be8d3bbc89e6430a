import BuildSync.Proofs.Build.Reading

/-!
# Statements of a BUILD file

* `Contents.ofTokens_induction`: going through a file statement by statement.
* `Outline`: the rules of a file, and what its loads bind.
* `Reads`: tokens without positions are read as some rules and loads, wherever they stand.
  `Reads.trivia`, `Reads.plain`, `Reads.call`: statement by statement.
* `Reads.newline`: a newline and more statements behind a file.
-/

namespace BuildSync.Build

/-! ## Going through a file -/

/-- The rest of a statement, and what follows it: the statement ends in a newline or at the end of
the file, wherever its tokens stand. -/
structure IsStatement (tail rest : List Token) : Prop where
  ends : rest = [] ∨ ∃ front t, tail = front ++ [t] ∧ t.kind = .newline
  skips : ∀ start tail' rest', tail'.map Token.bare = tail.map Token.bare →
    (rest = [] → rest' = []) → skipStatement start [] (tail' ++ rest') = .ok rest'

theorem exists_statement {start : Nat} {ts rest : List Token}
    (h : skipStatement start [] ts = .ok rest) :
    ∃ tail, ts = tail ++ rest ∧ IsStatement tail rest := by
  obtain ⟨tail, hts, hend, hskip⟩ := skipStatement_eq_ok h
  exact ⟨tail, hts, hend, hskip⟩

namespace Contents

variable {text : List Char} {package : String}

theorem append_assoc (a b c : Contents) : a ++ b ++ c = a ++ (b ++ c) := by
  change append (append a b) c = append a (append b c)
  simp [append]

@[simp] theorem ofTokens_nil : ofTokens text package [] = .ok .empty := by
  rw [ofTokens]

theorem ofTokens_trivia {t : Token} (h : t.isTrivia = true) (ts : List Token) :
    ofTokens text package (t :: ts) = ofTokens text package ts := by
  rw [ofTokens, if_pos h]

theorem ofTokens_plain {t : Token} {ts rest : List Token} (h : t.isTrivia = false)
    (hc : callOpening? t ts = none) (hs : skipStatement 0 [] (t :: ts) = .ok rest) :
    ofTokens text package (t :: ts) = ofTokens text package rest := by
  rw [ofTokens, if_neg (by simp [h])]
  split
  · split
    · rename_i hs'
      cases hs.symm.trans hs'
    · rename_i hs'
      cases hs.symm.trans hs'
      rfl
  · rename_i hc'
    cases hc.symm.trans hc'

theorem ofTokens_call {t opening close : Token} {ts inner inside after rest : List Token}
    {first : Contents} (h : t.isTrivia = false)
    (hc : callOpening? t ts = some (opening, inner))
    (hg : group opening.start [.round] inner = .ok (inside, close, after))
    (hf : ofCall text package t opening inside close = .ok first)
    (hs : skipStatement 0 [] after = .ok rest) :
    ofTokens text package (t :: ts) = (ofTokens text package rest).map (first ++ ·) := by
  rw [ofTokens, if_neg (by simp [h])]
  split
  · rename_i hc'
    cases hc.symm.trans hc'
  · rename_i hc'
    cases hc.symm.trans hc'
    split
    · rename_i hg'
      cases hg.symm.trans hg'
    · rename_i hg'
      cases hg.symm.trans hg'
      rw [hf]
      dsimp only
      split
      · rename_i hs'
        cases hs.symm.trans hs'
      · rename_i hs'
        cases hs.symm.trans hs'
        rfl

/-- A call loads symbols, makes a rule, or is only noted. -/
theorem ofCall_eq_ok {callee opening close : Token} {inside : List Token} {first : Contents}
    (h : ofCall text package callee opening inside close = .ok first) :
    (String.ofList callee.text = "load" ∧ ∃ load, Load.parse text callee inside close = .ok load ∧
      first.rules = [] ∧ first.loads = [load]) ∨
    (∃ kind rule, RuleKind.ofFunction? (String.ofList callee.text) = some kind ∧
      Rule.parse text package kind callee opening inside close = .ok rule ∧
      first.rules = [rule] ∧ first.loads = []) ∨
    (String.ofList callee.text ≠ "load" ∧
      RuleKind.ofFunction? (String.ofList callee.text) = none ∧
      first.rules = [] ∧ first.loads = []) := by
  unfold ofCall at h
  dsimp only at h
  split at h
  · rename_i hname
    obtain ⟨load, hload, h⟩ := bind_eq_ok.1 h
    cases h
    exact .inl ⟨hname, load, hload, rfl, rfl⟩
  · rename_i hname
    split at h
    · rename_i kind hkind
      obtain ⟨rule, hrule, h⟩ := bind_eq_ok.1 h
      cases h
      exact .inr (.inl ⟨kind, rule, hkind, hrule, rfl, rfl⟩)
    · rename_i hkind
      cases h
      exact .inr (.inr ⟨hname, hkind, rfl, rfl⟩)

/-- **Going through a file statement by statement.** -/
@[elab_as_elim]
theorem ofTokens_induction {motive : List Token → Contents → Prop} (nil : motive [] .empty)
    (trivia : ∀ t ts c, t.isTrivia = true → ofTokens text package ts = .ok c → motive ts c →
      motive (t :: ts) c)
    (plain : ∀ t tail rest c, t.isTrivia = false → callOpening? t (tail ++ rest) = none →
      IsStatement (t :: tail) rest → ofTokens text package rest = .ok c → motive rest c →
      motive (t :: (tail ++ rest)) c)
    (call : ∀ t opening inside close tail rest first c, t.kind = .word →
      opening.kind = .opening .round → nest [] inside = some [] → close.kind = .closing .round →
      ofCall text package t opening inside close = .ok first → IsStatement tail rest →
      ofTokens text package rest = .ok c → motive rest c →
      motive (t :: opening :: (inside ++ close :: (tail ++ rest))) (first ++ c))
    {ts : List Token} {c : Contents} (h : ofTokens text package ts = .ok c) : motive ts c := by
  induction hn : ts.length using Nat.strong_induction_on generalizing ts c with
  | h n ih =>
    cases ts with
    | nil =>
      rw [ofTokens_nil] at h
      cases h
      exact nil
    | cons t ts =>
      by_cases ht : t.isTrivia = true
      · rw [ofTokens_trivia ht] at h
        exact trivia t ts c ht h (ih ts.length (by simp at hn; omega) h rfl)
      · rw [Bool.not_eq_true] at ht
        have hunfold := h
        rw [ofTokens, if_neg (by simp [ht])] at hunfold
        split at hunfold
        · rename_i hc
          split at hunfold
          · cases hunfold
          · rename_i rest hs
            have hlen := length_skipStatement_cons_le hs
            have hmotive := ih rest.length (by simp at hn; omega) hunfold rfl
            obtain ⟨tail, hts, hstatement⟩ := exists_statement hs
            cases tail with
            | nil =>
              obtain hend | ⟨front, u, hend, -⟩ := hstatement.ends
              · rw [hend] at hts
                cases hts
              · simp at hend
            | cons u tail =>
              obtain ⟨rfl, rfl⟩ := List.cons.inj hts
              exact plain t tail rest c ht hc hstatement hunfold hmotive
        · rename_i opening inner hc
          split at hunfold
          · cases hunfold
          · rename_i inside close after hg
            split at hunfold
            · cases hunfold
            · rename_i first hf
              split at hunfold
              · cases hunfold
              · rename_i rest hs
                obtain ⟨c', hc', rfl⟩ := map_eq_ok hunfold
                have hlen₁ := length_group_le hg
                have hlen₂ := length_skipStatement_le hs
                obtain rfl := eq_cons_of_callOpening? hc
                have hkinds : t.kind = .word ∧ opening.kind = .opening .round := by
                  simp only [callOpening?] at hc
                  split at hc
                  · assumption
                  · cases hc
                obtain ⟨rfl, hnest, hclose⟩ := (@group_eq_ok _ [] .round _ _ _ _).1 hg
                obtain ⟨tail, rfl, hstatement⟩ := exists_statement hs
                exact call t opening inside close tail rest first c' hkinds.1 hkinds.2 hnest hclose
                  hf hstatement hc' (ih rest.length (by simp at hn; omega) hc' rfl)

end Contents

/-! ## What is read -/

/-- What is read of a file wherever it stands: its rules, and which names each of its loads
binds. -/
@[ext]
structure Outline where
  rules : List Rule
  loads : List (String → Bool)

namespace Outline

/-- The outline of a file without statements. -/
def empty : Outline :=
  ⟨[], []⟩

/-- The outline of a file that goes on with another. -/
def append (a b : Outline) : Outline :=
  ⟨a.rules ++ b.rules, a.loads ++ b.loads⟩

instance : Append Outline := ⟨append⟩

@[simp] theorem rules_append (a b : Outline) : (a ++ b).rules = a.rules ++ b.rules := rfl

@[simp] theorem loads_append (a b : Outline) : (a ++ b).loads = a.loads ++ b.loads := rfl

@[simp] theorem empty_append (a : Outline) : empty ++ a = a := rfl

@[simp] theorem append_empty (a : Outline) : a ++ empty = a := by
  ext1 <;> simp [empty]

theorem append_assoc (a b c : Outline) : a ++ b ++ c = a ++ (b ++ c) := by
  ext1 <;> simp

/-- The outline of some rules and loads. -/
def of (rules : List Rule) (loads : List Load) : Outline :=
  ⟨rules.map Rule.plain, loads.map Load.binds⟩

theorem of_append (rules rules' : List Rule) (loads loads' : List Load) :
    of (rules ++ rules') (loads ++ loads') = of rules loads ++ of rules' loads' := by
  ext1 <;> simp [of]

end Outline

/-- The outline of a file. -/
def Contents.outline (c : Contents) : Outline :=
  .of c.rules c.loads

theorem Contents.outline_append (c c' : Contents) :
    (c ++ c').outline = c.outline ++ c'.outline :=
  Outline.of_append ..

/-- **Tokens without positions are read as some rules and loads**, wherever they stand in whatever
text. -/
def Reads (package : String) (ls : List Token) (o : Outline) : Prop :=
  ∀ text ts, ts.map Token.bare = ls →
    ∃ c, Contents.ofTokens text package ts = .ok c ∧ c.outline = o

/-- A text is read as some rules and loads. -/
def TextReads (package : String) (text : List Char) (o : Outline) : Prop :=
  ∃ ls, lexemes text = some ls ∧ Reads package ls o

/-- A call is read as some rules and loads. -/
def CallReads (package : String) (callee : Token) (inside : List Token) (o : Outline) : Prop :=
  ∀ text (callee' opening close : Token) (inside' : List Token), callee'.text = callee.text →
    inside'.map Token.bare = inside.map Token.bare →
    ∃ c, Contents.ofCall text package callee' opening inside' close = .ok c ∧ c.outline = o

section Reads

variable {package : String} {ls : List Token} {o : Outline}

theorem TextReads.exists_parse {text : List Char} (h : TextReads package text o) :
    ∃ c, Contents.parse text package = .ok c ∧ c.outline = o := by
  obtain ⟨ls, hlex, hreads⟩ := h
  obtain ⟨ts, hts, hbare⟩ := exists_tokens hlex 0
  unfold Contents.parse
  rw [hts]
  exact hreads text ts hbare

theorem Reads.nil (package : String) : Reads package [] .empty := by
  intro text ts hts
  rw [List.map_eq_nil_iff] at hts
  subst hts
  exact ⟨.empty, Contents.ofTokens_nil, rfl⟩

theorem Reads.trivia {t : Token} (ht : t.isTrivia = true) (h : Reads package ls o) :
    Reads package (t.bare :: ls) o := by
  intro text ts hts
  obtain ⟨u, us, rfl, hu, hus⟩ := List.map_eq_cons_iff.1 hts
  have hu' : u.isTrivia = true := by
    rw [← isTrivia_bare u, hu, isTrivia_bare, ht]
  rw [Contents.ofTokens_trivia hu']
  exact h text us hus

/-- A statement that is no call. -/
theorem Reads.plain {t : Token} {tail rest : List Token} (ht : t.isTrivia = false)
    (hc : callOpening? t (tail ++ rest) = none) (hs : IsStatement (t :: tail) rest)
    (hrest : rest = [] → ls = []) (h : Reads package ls o) :
    Reads package (t.bare :: (tail.map Token.bare ++ ls)) o := by
  intro text ts hts
  rw [← List.cons_append, ← List.map_cons] at hts
  obtain ⟨stmt', rest', rfl, hstmt, hrest'⟩ := List.map_eq_append_iff.1 hts
  obtain ⟨u, us, rfl, hu, hus⟩ := List.map_eq_cons_iff.1 hstmt
  have hkind : u.kind = t.kind := by simpa using congrArg Token.kind hu
  have hu' : u.isTrivia = false := by
    rw [← isTrivia_bare u, hu, isTrivia_bare, ht]
  have hskip := hs.skips 0 (u :: us) rest' hstmt fun h => by
    rw [hrest h, List.map_eq_nil_iff] at hrest'
    exact hrest'
  have hopening : callOpening? u (us ++ rest') = none := by
    cases us with
    | nil =>
      cases tail with
      | cons v tail => simp at hus
      | nil =>
        -- A statement of one token ends the file, since that token is no newline.
        rcases hs.ends with hend | ⟨front, v, hend, hv⟩
        · rw [hrest hend, List.map_eq_nil_iff] at hrest'
          rw [hrest']
          rfl
        · cases front with
          | nil =>
            cases hend
            simp [Token.isTrivia, hv] at ht
          | cons w front => simp at hend
    | cons v us =>
      obtain ⟨v', tail', rfl, hv, -⟩ := List.map_eq_cons_iff.1 hus.symm
      have hvkind : v.kind = v'.kind := by simpa using (congrArg Token.kind hv).symm
      simpa [callOpening?, hkind, hvkind] using hc
  rw [List.cons_append] at hskip ⊢
  rw [Contents.ofTokens_plain hu' hopening hskip]
  exact h text rest' hrest'

/-- A statement that starts with a call. -/
theorem Reads.call {t opening close : Token} {inside tail rest : List Token} {made : Outline}
    (ht : t.kind = .word) (ho : opening.kind = .opening .round) (hnest : nest [] inside = some [])
    (hclose : close.kind = .closing .round) (hcall : CallReads package t inside made)
    (hs : IsStatement tail rest) (hrest : rest = [] → ls = []) (h : Reads package ls o) :
    Reads package
      (t.bare :: opening.bare ::
        (inside.map Token.bare ++ close.bare :: (tail.map Token.bare ++ ls)))
      (made ++ o) := by
  intro text ts hts
  obtain ⟨t', ts₁, rfl, ht', hts₁⟩ := List.map_eq_cons_iff.1 hts
  obtain ⟨opening', ts₂, rfl, ho', hts₂⟩ := List.map_eq_cons_iff.1 hts₁
  obtain ⟨inside', ts₃, rfl, hinside, hts₃⟩ := List.map_eq_append_iff.1 hts₂
  obtain ⟨close', ts₄, rfl, hclose', hts₄⟩ := List.map_eq_cons_iff.1 hts₃
  obtain ⟨tail', rest', rfl, htail, hrest'⟩ := List.map_eq_append_iff.1 hts₄
  have htk : t'.kind = .word := by simpa [ht] using congrArg Token.kind ht'
  have hok : opening'.kind = .opening .round := by simpa [ho] using congrArg Token.kind ho'
  have hck : close'.kind = .closing .round := by simpa [hclose] using congrArg Token.kind hclose'
  have htext : t'.text = t.text := by simpa using congrArg Token.text ht'
  have hgroup := (@group_eq_ok opening'.start [] .round _ inside' (tail' ++ rest') close').2
    ⟨rfl, by rw [nest_congr hinside, hnest], hck⟩
  have hskip := hs.skips 0 tail' rest' htail fun h => by
    rw [hrest h, List.map_eq_nil_iff] at hrest'
    exact hrest'
  obtain ⟨first, hfirst, hmade⟩ := hcall text t' opening' close' inside' htext hinside
  obtain ⟨c, hc, hread⟩ := h text rest' hrest'
  refine ⟨first ++ c, ?_, ?_⟩
  · rw [Contents.ofTokens_call (by simp [Token.isTrivia, htk]) (by simp [callOpening?, htk, hok])
      hgroup hfirst hskip, hc]
    rfl
  · rw [Contents.outline_append, hmade, hread]

theorem callReads_load {t : Token} {inside : List Token} (ht : String.ofList t.text = "load")
    (h : IsLoad (attributes inside)) :
    CallReads package t inside ⟨[], [fun name => decide (name ∈ symbols (attributes inside))]⟩ := by
  intro text t' opening' close' inside' htext hinside
  rw [← attributes_congr hinside] at h ⊢
  obtain ⟨load, hload⟩ := Load.exists_parse h text t' close'
  obtain ⟨-, -, -, hbinds⟩ := Load.parse_eq_ok hload
  unfold Contents.ofCall
  rw [htext, ht, if_pos rfl, hload]
  refine ⟨_, rfl, ?_⟩
  rw [← hbinds]
  rfl

theorem callReads_rule {t : Token} {inside : List Token} {kind : RuleKind} {r : Rule}
    (ht : RuleKind.ofFunction? (String.ofList t.text) = some kind)
    (h : r.IsReadFrom package kind (attributes inside)) :
    CallReads package t inside ⟨[r.plain], []⟩ := by
  intro text t' opening' close' inside' htext hinside
  obtain ⟨r', hr', hplain⟩ :=
    Rule.exists_parse (attributes_congr hinside ▸ h) text t' opening' close'
  have hload : RuleKind.ofFunction? "load" = none := by decide
  have hne : String.ofList t.text ≠ "load" := by
    intro hl
    rw [hl, hload] at ht
    cases ht
  unfold Contents.ofCall
  rw [htext, if_neg hne, ht]
  dsimp only
  rw [hr']
  refine ⟨_, rfl, ?_⟩
  rw [← hplain]
  rfl

theorem callReads_other {t : Token} {inside : List Token} (hne : String.ofList t.text ≠ "load")
    (ht : RuleKind.ofFunction? (String.ofList t.text) = none) :
    CallReads package t inside .empty := by
  intro text t' opening' close' inside' htext hinside
  unfold Contents.ofCall
  rw [htext, if_neg hne, ht]
  exact ⟨_, rfl, rfl⟩

end Reads

/-! ## More behind a file -/

theorem callOpening?_append {t : Token} {ts us : List Token} (hc : callOpening? t ts = none)
    (h : ts = [] → ∀ u ∈ us.head?, u.kind ≠ .opening .round) :
    callOpening? t (ts ++ us) = none := by
  cases ts with
  | cons v ts => simpa [callOpening?] using hc
  | nil =>
    cases us with
    | nil => rfl
    | cons u us => simp [callOpening?, h rfl u rfl]

/-- **A newline behind a file** ends its last statement, and what follows is read on its own. -/
theorem Contents.ofTokens_newline {text : List Char} {package : String} {ts more : List Token}
    {c c' : Contents} (h : ofTokens text package ts = .ok c) {newline : Token}
    (hn : newline.kind = .newline) (h' : ofTokens text package more = .ok c') :
    ofTokens text package (ts ++ newline :: more) = .ok (c ++ c') := by
  have hhead : ∀ u ∈ (newline :: more).head?, u.kind ≠ .opening .round := by
    intro u hu
    cases hu
    simp [hn]
  -- After the statement that the newline may end.
  have hafter : ∀ {tail rest : List Token} {c : Contents}, IsStatement tail rest →
      ofTokens text package rest = .ok c →
      ofTokens text package (rest ++ newline :: more) = .ok (c ++ c') →
      ∃ rest', skipStatement 0 [] (tail ++ (rest ++ newline :: more)) = .ok rest' ∧
        ofTokens text package rest' = .ok (c ++ c') := by
    intro tail rest c hs hc hrest
    have hskip := hs.skips 0 tail rest rfl id
    rcases skipStatement_append hskip hn more with hskip | ⟨rfl, hskip⟩
    · exact ⟨_, by rw [← List.append_assoc, hskip], hrest⟩
    · rw [ofTokens_nil] at hc
      cases hc
      exact ⟨more, by simpa using hskip, h'⟩
  refine Contents.ofTokens_induction ?nil ?trivia ?plain ?call h
  case nil =>
    rw [List.nil_append, ofTokens_trivia (by simp [Token.isTrivia, hn])]
    exact h'
  case trivia =>
    intro t ts c ht hc ih
    rw [List.cons_append, ofTokens_trivia ht]
    exact ih
  case plain =>
    intro t tail rest c ht hopening hs hc ih
    obtain ⟨rest', hskip, hrest⟩ := hafter hs hc ih
    rw [List.cons_append] at hskip ⊢
    rw [List.append_assoc, ofTokens_plain ht ?_ hskip, hrest]
    rw [← List.append_assoc]
    exact callOpening?_append hopening fun _ => hhead
  case call =>
    intro t opening inside close tail rest first c ht ho hnest hclose hfirst hs hc ih
    obtain ⟨rest', hskip, hrest⟩ := hafter hs hc ih
    have hgroup := (@group_eq_ok opening.start [] .round _ inside
      (tail ++ (rest ++ newline :: more)) close).2 ⟨rfl, hnest, hclose⟩
    have hshape : t :: opening :: (inside ++ close :: (tail ++ rest)) ++ newline :: more =
        t :: opening :: (inside ++ close :: (tail ++ (rest ++ newline :: more))) := by
      simp
    rw [hshape, ofTokens_call (by simp [Token.isTrivia, ht]) (by simp [callOpening?, ht, ho])
      hgroup hfirst hskip, hrest]
    simp only [Except.map, Except.ok.injEq]
    exact (append_assoc first c c').symm

/-- An operator at the end belongs to the last statement, or follows it. -/
theorem skipStatement_operator {start : Nat} {stack : List Bracket} {ts rest : List Token}
    {op : Token} (ho : op.kind = .operator)
    (h : skipStatement start stack (ts ++ [op]) = .ok rest) :
    rest = [] ∧ skipStatement start stack ts = .ok [] ∨
      ∃ rest', rest = rest' ++ [op] ∧ skipStatement start stack ts = .ok rest' := by
  fun_induction skipStatement start stack ts with
  | case1 => simp_all [skipStatement]
  | case2 => simp [skipStatement, ho] at h
  | case3 start t ts hk =>
    simp only [List.cons_append, skipStatement, hk, Except.ok.injEq] at h
    exact .inr ⟨ts, h.symm, rfl⟩
  | case4 start t ts b hk ih => exact ih (by simpa [skipStatement, hk] using h)
  | case5 start t ts b stack hs hk ih =>
    cases stack with
    | nil => exact absurd rfl hs
    | cons top below => exact ih (by simpa [skipStatement, hk] using h)
  | case6 => simp_all [skipStatement]
  | case7 start t ts b below hk ih => exact ih (by simpa [skipStatement, hk] using h)
  | case8 => simp_all [skipStatement]
  | case9 start t ts stack h₁ h₂ h₃ h₄ h₅ ih =>
    refine ih ?_
    cases stack <;> simp_all [skipStatement]

/-- **An operator at the end of a file** says nothing. -/
theorem Contents.ofTokens_operator {text : List Char} {package : String} {ts : List Token}
    {c : Contents} {op : Token} (ho : op.kind = .operator)
    (h : ofTokens text package (ts ++ [op]) = .ok c) : ofTokens text package ts = .ok c := by
  -- What is left of a statement and the file behind it without the operator.
  have hbehind : ∀ {tail rest : List Token} {c : Contents}, IsStatement tail rest →
      ofTokens text package rest = .ok c → (∀ ts', rest = ts' ++ [op] →
        ofTokens text package ts' = .ok c) → ∀ ts', tail ++ rest = ts' ++ [op] →
      ∃ rest', skipStatement 0 [] ts' = .ok rest' ∧ ofTokens text package rest' = .ok c := by
    intro tail rest c hs hc ih ts' hts
    have hskip := hs.skips 0 tail rest rfl id
    rw [hts] at hskip
    rcases skipStatement_operator ho hskip with ⟨rfl, hskip'⟩ | ⟨rest', rfl, hskip'⟩
    · exact ⟨[], hskip', hc⟩
    · exact ⟨rest', hskip', ih rest' rfl⟩
  suffices hall : ∀ us, ofTokens text package us = .ok c → ∀ ts, us = ts ++ [op] →
      ofTokens text package ts = .ok c from hall _ h ts rfl
  intro us hus
  clear h
  refine Contents.ofTokens_induction ?nil ?trivia ?plain ?call hus
  case nil =>
    intro ts hts
    simp at hts
  case trivia =>
    rintro t us c ht hc ih (- | ⟨t', ts⟩) hts
    · cases hts
      simp [Token.isTrivia, ho] at ht
    · obtain ⟨rfl, rfl⟩ := List.cons.inj hts
      rw [ofTokens_trivia ht]
      exact ih ts rfl
  case plain =>
    rintro t tail rest c ht hopening hs hc ih (- | ⟨t', ts⟩) hts
    · obtain ⟨-, hnil⟩ := List.cons.inj hts
      rw [(List.append_eq_nil_iff.1 hnil).2] at hc
      exact hc
    · obtain ⟨rest', hskip, hrest⟩ := hbehind hs hc ih (t' :: ts) hts
      obtain ⟨rfl, htail⟩ := List.cons.inj hts
      rw [ofTokens_plain ht ?_ hskip, hrest]
      rw [htail] at hopening
      cases ts with
      | nil => rfl
      | cons v ts => simpa [callOpening?] using hopening
  case call =>
    intro t opening inside close tail rest first c ht hopen hnest hclose hfirst hs hc ih ts hts
    obtain ⟨ts', rfl, hts'⟩ : ∃ ts', ts = t :: opening :: (inside ++ close :: ts') ∧
        tail ++ rest = ts' ++ [op] := by
      obtain hnil | ⟨ts', u, hu⟩ := List.eq_nil_or_concat (tail ++ rest)
      · rw [hnil] at hts
        have hlast := congrArg List.getLast? hts
        rw [List.getLast?_concat] at hlast
        have hop : close = op := by
          rw [← List.cons_append, ← List.cons_append, List.getLast?_concat] at hlast
          exact Option.some.inj hlast
        rw [hop, ho] at hclose
        cases hclose
      · rw [List.concat_eq_append] at hu
        have hshape : t :: opening :: (inside ++ close :: (ts' ++ [u])) =
            t :: opening :: (inside ++ close :: ts') ++ [u] := by
          simp
        rw [hu, hshape] at hts
        obtain ⟨hts, hop⟩ := List.append_inj' hts rfl
        exact ⟨ts', hts.symm, by rw [hu, hop]⟩
    obtain ⟨rest', hskip, hrest⟩ := hbehind hs hc ih ts' hts'
    have hgroup := (@group_eq_ok opening.start [] .round _ inside ts' close).2
      ⟨rfl, hnest, hclose⟩
    rw [ofTokens_call (by simp [Token.isTrivia, ht]) (by simp [callOpening?, ht, hopen])
      hgroup hfirst hskip, hrest]
    rfl

section Reads

variable {package : String} {ls ls' : List Token} {o o' : Outline}

/-- **A newline and more behind a file.** -/
theorem Reads.newline (h : Reads package ls o) (h' : Reads package ls' o') :
    Reads package (ls ++ ⟨.newline, 0, ['\n']⟩ :: ls') (o ++ o') := by
  intro text ts hts
  obtain ⟨ts₁, ts₂, rfl, h₁, h₂⟩ := List.map_eq_append_iff.1 hts
  obtain ⟨newline, ts₂, rfl, hn, h₂⟩ := List.map_eq_cons_iff.1 h₂
  obtain ⟨c, hc, hread⟩ := h text ts₁ h₁
  obtain ⟨c', hc', hread'⟩ := h' text ts₂ h₂
  have hkind : newline.kind = .newline := by simpa using congrArg Token.kind hn
  refine ⟨c ++ c', Contents.ofTokens_newline hc hkind hc', ?_⟩
  rw [Contents.outline_append, hread, hread']

theorem Reads.dropOperator {op : Token} (ho : op.kind = .operator)
    (h : Reads package (ls ++ [op.bare]) o) : Reads package ls o := by
  intro text ts hts
  obtain ⟨c, hc, hread⟩ := h text (ts ++ [op]) (by simp [hts])
  exact ⟨c, Contents.ofTokens_operator ho hc, hread⟩

end Reads

end BuildSync.Build
