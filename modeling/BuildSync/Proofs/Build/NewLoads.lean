import BuildSync.Proofs.Build.Frame

/-!
# New loads in an edited file

New loads go behind the line of the last load, or behind the comments at the top of a file without
loads. If a statement ends with that line (`Descriptor.hasClosedLoads`), that is between two
statements.

* `IsFront`: the tokens of a text on which a newline follows.
* `Contents.exists_lastLoad`, `exists_headerFront`, `exists_isLoadFront`: the front of a file up to
  the place for new loads, and what is read of it.
* `FrontReads`: a text that is read on its own, whatever file stands behind it.
* `Descriptor.IsEditOf.exists_reads`: an edited file is read as its changed rules and loads, with
  the new loads among these.
-/

namespace BuildSync.Build

open Text

/-! ## The ends of lines -/

/-- A statement may end with a line: the brackets opened on it are closed on it, and no backslash
continues it. -/
def isClosed (line : List Char) : Bool :=
  (lexemes line).any fun ls => nest [] ls = some [] && ls.getLast?.all (·.text ≠ ['\\'])

/-- **A statement ends with the line of the last load.** -/
def Descriptor.hasClosedLoads (d : Descriptor) : Bool :=
  (d.loads.map (·.span.stop)).max?.all fun stop =>
    isClosed ((dropBytes stop d.text.toList).takeWhile (· ≠ '\n'))

/-- **A front of a text**: the tokens `us`, up to a newline, which is one too. -/
structure IsFront (pos : Nat) (front : List Char) (us : List Token) : Prop where
  tokens : tokens pos front = .ok us
  behind : ∀ more, Build.tokens pos (front ++ '\n' :: more) =
    (Build.tokens (pos + width front + 1) more).map
      (us ++ ⟨.newline, pos + width front, ['\n']⟩ :: ·)

theorem tokens_newline (pos : Nat) (more : List Char) :
    tokens pos ('\n' :: more) = (tokens (pos + 1) more).map (⟨.newline, pos, ['\n']⟩ :: ·) :=
  (IsToken.newline more.head?).tokens_append pos rfl

/-- What is left after the last token goes on otherwise. -/
theorem tokens_append_of_nil {pos : Nat} {cs : List Char} (h : tokens pos cs = .ok [])
    (more : List Char) : tokens pos (cs ++ more) = tokens (pos + width cs) more := by
  fun_induction tokens pos cs with
  | case1 => rfl
  | case2 pos c cs hg ih =>
    rw [List.cons_append, tokens, if_pos hg, ih h, width_cons, utf8Size_of_isGap hg, Nat.add_assoc]
  | case3 pos c cs hg hj ih =>
    obtain ⟨rfl, hn⟩ := hj
    obtain ⟨cs, rfl⟩ := List.head?_eq_some_iff.1 hn
    have hb : ('\\' : Char).utf8Size = 1 := rfl
    have hl : ('\n' : Char).utf8Size = 1 := rfl
    have hpos : pos + width ('\\' :: '\n' :: cs) = pos + 2 + width cs := by
      rw [width_cons, width_cons, hb, hl]
      omega
    rw [List.cons_append, List.cons_append, tokens, if_neg hg, if_pos (by simp), hpos]
    exact ih h
  | case4 => cases h
  | case5 pos c cs hg hj kind n hl token ih =>
    obtain ⟨ts, -, hts⟩ := map_eq_ok h
    cases hts

/-- **A lexed text is a front** if no backslash stands at its end. -/
theorem isFront_of_tokens {pos : Nat} {cs : List Char} {ts : List Token}
    (h : tokens pos cs = .ok ts) (hb : ∀ t ∈ ts.getLast?, t.text ≠ ['\\']) :
    IsFront pos cs ts := by
  refine ⟨h, fun more => ?_⟩
  obtain rfl | ⟨front, t, rfl⟩ := List.eq_nil_or_concat ts
  · rw [tokens_append_of_nil h, tokens_newline]
    rfl
  · rw [List.concat_eq_append] at *
    obtain ⟨xs, ys, rfl, hstart, htoken, hys, hmore⟩ := tokens_behind h
    -- The last token stays one before the newline.
    have hstays : IsToken t.kind t.text (ys ++ '\n' :: more).head? := by
      cases ys with
      | cons y ys => exact htoken
      | nil => exact htoken.before (.inr (.inl rfl)) fun htext => absurd htext (hb t (by simp))
    have hstop : pos + width (xs ++ (t.text ++ ys)) = t.stop + width ys := by
      rw [Token.stop, hstart, width_append, width_append]
      omega
    have hline := hmore (ys ++ '\n' :: more) hstays
    rw [tokens_append_of_nil hys, tokens_newline] at hline
    rw [List.append_assoc, List.append_assoc, hline, hstop]
    cases tokens (t.stop + width ys + 1) more <;> simp [Except.map]

theorem isFront_comment {line : List Char} (h : '\n' ∉ line) (pos : Nat) :
    IsFront pos ('#' :: line) [⟨.comment, pos, '#' :: line⟩] := by
  refine isFront_of_tokens ?_ (by simp)
  have hlex := @IsToken.tokens_append _ _ _ (IsToken.hash h (.inl rfl)) pos [] rfl
  rw [List.append_nil] at hlex
  rw [hlex, tokens]
  rfl

/-- The tokens of a line with which a statement may end. -/
theorem exists_isFront_closed {line : List Char} (h : isClosed line = true) (pos : Nat) :
    ∃ us, nest [] us = some [] ∧ IsFront pos line us := by
  obtain ⟨ls, hlex, hls⟩ := (Option.any_eq_true _ _).1 h
  obtain ⟨hnest, hlast⟩ := Bool.and_eq_true_iff.1 hls
  obtain ⟨us, hus, rfl⟩ := exists_tokens hlex pos
  rw [nest_bare, decide_eq_true_eq] at hnest
  refine ⟨us, hnest, isFront_of_tokens hus fun t ht => ?_⟩
  rw [List.getLast?_map, Option.mem_def.1 ht] at hlast
  exact of_decide_eq_true hlast

theorem kind_ne_newline {pos : Nat} {line : List Char} {us : List Token}
    (h : tokens pos line = .ok us) (hn : '\n' ∉ line) : ∀ t ∈ us, t.kind ≠ .newline := by
  intro t ht hk
  obtain ⟨front, back, rfl⟩ := List.append_of_mem ht
  obtain ⟨xs, ys, rfl, -, -, htoken, -⟩ := tokens_cut h
  rw [hk] at htoken
  rw [htoken.eq_newline] at hn
  simp at hn

/-- A front behind a text that lexes to some tokens, whatever follows it. -/
theorem IsFront.append {pos : Nat} {pre front : List Char} {ps us : List Token}
    (hp : ∀ zs, Build.tokens pos (pre ++ zs) =
      (Build.tokens (pos + width pre) zs).map (ps ++ ·))
    (h : IsFront (pos + width pre) front us) : IsFront pos (pre ++ front) (ps ++ us) := by
  refine ⟨by rw [hp, h.tokens]; rfl, fun more => ?_⟩
  rw [List.append_assoc, hp, h.behind, width_append, Nat.add_assoc pos]
  cases Build.tokens (pos + (width pre + width front) + 1) more <;> simp [Except.map]

/-! ## The last load -/

/-- Tokens of a line whose brackets are closed are skipped. -/
theorem skipStatement_nested {stack : List Bracket} {us : List Token}
    (h : nest stack us = some []) (hn : ∀ t ∈ us, t.kind ≠ .newline) (start : Nat)
    (rest : List Token) :
    ∃ start', skipStatement start stack (us ++ rest) = skipStatement start' [] rest := by
  fun_induction nest stack us generalizing start with
  | case1 stack =>
    cases h
    exact ⟨start, rfl⟩
  | case2 stack t us b hk ih =>
    rw [List.forall_mem_cons] at hn
    cases stack <;> simpa [skipStatement, hk] using ih h hn.2 _
  | case3 => cases h
  | case4 t us b below hk ih =>
    rw [List.forall_mem_cons] at hn
    simpa [skipStatement, hk] using ih h hn.2 start
  | case5 => cases h
  | case6 stack t us ho hc ih =>
    rw [List.forall_mem_cons] at hn
    have hskip : skipStatement start stack (t :: us ++ rest) =
        skipStatement start stack (us ++ rest) := by
      cases stack <;> cases hk : t.kind <;> simp_all [skipStatement]
    rw [hskip]
    exact ih h hn.2 start

theorem max?_append_of_le {xs ys : List Nat} {m : Nat} (h : ys.max? = some m)
    (hle : ∀ x ∈ xs, x ≤ m) : (xs ++ ys).max? = some m := by
  obtain ⟨hmem, hys⟩ := List.max?_eq_some_iff.1 h
  refine List.max?_eq_some_iff.2 ⟨List.mem_append_right xs hmem, ?_⟩
  rw [List.forall_mem_append]
  exact ⟨hle, hys⟩

namespace Contents

variable {text : List Char} {package : String} {ts : List Token} {c : Contents}

theorem span_of_ofCall {callee opening close : Token} {inside : List Token} {first : Contents}
    (h : ofCall text package callee opening inside close = .ok first) :
    ∀ load ∈ first.loads, load.span = ⟨callee.start, close.stop⟩ := by
  rcases ofCall_eq_ok h with ⟨-, _, hparse, -, hl⟩ | ⟨-, -, -, -, -, hl⟩ | ⟨-, -, -, hl⟩
  · rw [hl, List.forall_mem_singleton]
    exact (Load.parse_eq_ok hparse).2.1
  · simp [hl]
  · simp [hl]

theorem ofTokens_statement {t opening close : Token} {inside after rest : List Token}
    {first c : Contents} (hk : t.kind = .word) (ho : opening.kind = .opening .round)
    (hnest : nest [] inside = some []) (hclose : close.kind = .closing .round)
    (hfirst : ofCall text package t opening inside close = .ok first)
    (hskip : skipStatement 0 [] after = .ok rest) (hrest : ofTokens text package rest = .ok c) :
    ofTokens text package (t :: opening :: (inside ++ close :: after)) = .ok (first ++ c) := by
  have hgroup := (@group_eq_ok opening.start [] .round _ inside after close).2 ⟨rfl, hnest, hclose⟩
  rw [ofTokens_call (by simp [Token.isTrivia, hk]) (by simp [callOpening?, hk, ho]) hgroup hfirst
    hskip, hrest]
  rfl

/-- **The last load of a file**: where it closes, and what is read up to the end of its line and
behind that, if a statement ends there. -/
theorem exists_lastLoad (h : ofTokens text package ts = .ok c) (ht : AreTokens ts)
    (hne : c.loads ≠ []) :
    ∃ front close behind, ts = front ++ close :: behind ∧ close.kind = .closing .round ∧
      (c.loads.map (·.span.stop)).max? = some close.stop ∧
      ∀ line newline rest, behind = line ++ newline :: rest → nest [] line = some [] →
        (∀ t ∈ line, t.kind ≠ .newline) → newline.kind = .newline →
        ∃ c₁ c₂, ofTokens text package (front ++ close :: line) = .ok c₁ ∧
          ofTokens text package rest = .ok c₂ ∧ c = c₁ ++ c₂ := by
  revert ht hne
  refine Contents.ofTokens_induction ?nil ?trivia ?plain ?call h
  case nil => exact fun _ hne => absurd rfl hne
  case trivia =>
    intro t ts c htrivia _ ih ht hne
    obtain ⟨front, close, behind, rfl, hclose, hmax, hsides⟩ :=
      ih (@AreTokens.of_append [t] ts [] (by simpa using ht)) hne
    refine ⟨t :: front, close, behind, rfl, hclose, hmax, fun line newline rest hb hr hl hn => ?_⟩
    obtain ⟨c₁, c₂, h₁, h₂⟩ := hsides line newline rest hb hr hl hn
    refine ⟨c₁, c₂, ?_, h₂⟩
    rw [List.cons_append, ofTokens_trivia htrivia]
    exact h₁
  case plain =>
    intro t tail rest c htrivia hopening hs _ ih ht hne
    obtain ⟨front, close, behind, rfl, hclose, hmax, hsides⟩ :=
      ih (@AreTokens.of_append (t :: tail) rest [] (by simpa using ht)) hne
    refine ⟨t :: (tail ++ front), close, behind, by simp, hclose, hmax,
      fun line newline rest hb hr hl hn => ?_⟩
    obtain ⟨c₁, c₂, h₁, h₂⟩ := hsides line newline rest hb hr hl hn
    refine ⟨c₁, c₂, ?_, h₂⟩
    have hskip := hs.skips 0 (t :: tail) (front ++ close :: line) rfl (by simp)
    rw [List.cons_append] at hskip
    rw [List.cons_append, List.append_assoc, ofTokens_plain htrivia ?_ hskip]
    · exact h₁
    · -- What opens the call is the next token, which is the same.
      cases tail <;> cases front <;> simpa [callOpening?] using hopening
  case call =>
    intro t opening inside close tail rest first c hk ho hnest hclose hfirst hs hc ih ht hne
    have hspans := span_of_ofCall hfirst
    have hloads : (first ++ c).loads = first.loads ++ c.loads := rfl
    by_cases hlast : c.loads = []
    · refine ⟨t :: opening :: inside, close, tail ++ rest, by simp, hclose, ?_,
        fun line newline rest' hb hr hl hn => ?_⟩
      · rw [hloads, hlast, List.append_nil] at hne ⊢
        obtain ⟨load, hload⟩ := List.exists_mem_of_ne_nil _ hne
        refine List.max?_eq_some_iff.2 ⟨List.mem_map.2 ⟨load, hload, by rw [hspans load hload]⟩, ?_⟩
        rw [List.forall_mem_map]
        exact fun other hother => by rw [hspans other hother]
      · -- The statement ends with this newline.
        have hskip := hs.skips 0 tail rest rfl id
        obtain ⟨_, hline⟩ := skipStatement_nested hr hl 0 (newline :: rest')
        rw [hb, hline] at hskip
        obtain rfl : rest' = rest := by simpa [skipStatement, hn] using hskip
        refine ⟨first ++ .empty, c, ?_, hc, ?_⟩
        · obtain ⟨_, hend⟩ := skipStatement_nested hr hl 0 []
          rw [List.append_nil, skipStatement] at hend
          exact ofTokens_statement hk ho hnest hclose hfirst hend ofTokens_nil
        · exact (append_assoc first .empty c).symm
    · have hshape : t :: opening :: (inside ++ close :: (tail ++ rest)) =
          t :: opening :: (inside ++ close :: tail) ++ rest := by
        simp
      rw [hshape] at ht
      obtain ⟨front, close', behind, rfl, hclose', hmax, hsides⟩ :=
        ih (@AreTokens.of_append _ rest [] (by rwa [List.append_nil])) hlast
      refine ⟨t :: opening :: (inside ++ close :: (tail ++ front)), close', behind, by simp,
        hclose', ?_, fun line newline rest' hb hr hl hn => ?_⟩
      · have hbefore : close.stop ≤ close'.start :=
          (List.pairwise_append.1 ht.ordered).2.2 close (by simp) close' (by simp)
        rw [hloads, List.map_append]
        refine max?_append_of_le hmax ?_
        rw [List.forall_mem_map]
        intro load hload
        rw [hspans load hload]
        exact Nat.le_trans hbefore (Nat.le_add_right _ _)
      · obtain ⟨c₁, c₂, h₁, h₂, rfl⟩ := hsides line newline rest' hb hr hl hn
        refine ⟨first ++ c₁, c₂, ?_, h₂, (append_assoc first c₁ c₂).symm⟩
        have hskip := hs.skips 0 tail (front ++ close' :: line) rfl (by simp)
        have hcall := ofTokens_statement hk ho hnest hclose hfirst hskip h₁
        simpa using hcall

end Contents

/-! ## The place for new loads -/

/-- The last line of a text is not empty. -/
def EndsInLine (cs : List Char) : Prop :=
  ∃ xs c, cs = xs ++ [c] ∧ c ≠ '\n'

theorem endsInLine_append (pre : List Char) {c : Char} {line : List Char} (h : '\n' ∉ c :: line) :
    EndsInLine (pre ++ c :: line) := by
  obtain hnil | ⟨xs, d, hd⟩ := List.eq_nil_or_concat (c :: line)
  · cases hnil
  · rw [List.concat_eq_append] at hd
    refine ⟨pre ++ xs, d, by rw [hd, List.append_assoc], fun hn => h ?_⟩
    rw [hd, hn]
    simp

/-- Nothing stands in front of a byte on its line just if a newline stands before it. -/
theorem lineFrontFrom_concat (front xs : List Char) (c : Char) (ys : List Char) :
    lineFrontFrom front (width (xs ++ [c])) (xs ++ c :: ys) = [] ↔ c = '\n' := by
  induction xs generalizing front with
  | nil =>
    obtain ⟨n, hn⟩ : ∃ n, width [c] = n + 1 := ⟨width [c] - 1, by
      have := c.utf8Size_pos
      simp
      omega⟩
    have hsub : n + 1 - c.utf8Size = 0 := by simp at hn; omega
    rw [List.nil_append, List.nil_append, hn, lineFrontFrom, hsub]
    by_cases hc : c = '\n' <;> simp [lineFrontFrom, hc]
  | cons x xs ih =>
    have hx := x.utf8Size_pos
    obtain ⟨n, hn⟩ : ∃ n, width (x :: xs ++ [c]) = n + 1 :=
      ⟨width (x :: xs ++ [c]) - 1, by simp; omega⟩
    have hsub : n + 1 - x.utf8Size = width (xs ++ [c]) := by
      rw [List.cons_append, width_cons] at hn
      omega
    rw [hn, List.cons_append, lineFrontFrom, hsub]
    exact ih _

/-- The comments at the top of a file, if it has some. -/
theorem exists_headerFront (pos : Nat) (cs : List Char) :
    Descriptor.headerWidth (splitOnChar '\n' cs) = 0 ∨
      ∃ front us, IsFront pos front us ∧ (∀ t ∈ us, t.isTrivia = true) ∧ EndsInLine front ∧
        (cs = front ∧ Descriptor.headerWidth (splitOnChar '\n' cs) = width front ∨
          ∃ back, cs = front ++ '\n' :: back ∧
            Descriptor.headerWidth (splitOnChar '\n' cs) = width front + 1) := by
  induction hn : cs.length using Nat.strong_induction_on generalizing pos cs with
  | h n ih =>
    by_cases hhash : cs.head? = some '#'
    · obtain ⟨rest, rfl⟩ := List.head?_eq_some_iff.1 hhash
      obtain ⟨line, back, rfl, hline, -, hback⟩ := exists_line rest
      have hcomment : '\n' ∉ '#' :: line := by simp [hline]
      have hfront := isFront_comment hline pos
      have htrivia : ∀ t ∈ [(⟨.comment, pos, '#' :: line⟩ : Token)], t.isTrivia = true := by
        simp [Token.isTrivia]
      have hends : EndsInLine ('#' :: line) := endsInLine_append [] hcomment
      rcases hback with rfl | ⟨more, rfl⟩
      · refine .inr ⟨_, _, hfront, htrivia, hends, .inl ⟨by simp, ?_⟩⟩
        rw [List.append_nil, (headerWidth_splitOnChar_comment hline []).1]
      · rw [(headerWidth_splitOnChar_comment hline more).2]
        rcases ih more.length (by simp at hn; omega) (pos + width ('#' :: line) + 1) more rfl with
          hzero | ⟨front, vs, hmore, hvs, hends', hsides⟩
        · exact .inr ⟨_, _, hfront, htrivia, hends, .inr ⟨more, rfl, by rw [hzero]⟩⟩
        · -- The next lines are comments, too.
          have hsize : ('\n' : Char).utf8Size = 1 := rfl
          have hwidth : width ('#' :: line ++ ['\n']) = width ('#' :: line) + 1 := by
            rw [width_append, width_cons '\n', hsize, width_nil]
          have happend := @IsFront.append pos ('#' :: line ++ ['\n']) front
            ([⟨.comment, pos, '#' :: line⟩] ++ [⟨.newline, pos + width ('#' :: line), ['\n']⟩]) vs
            (fun zs => by
              rw [List.append_assoc, List.singleton_append, hfront.behind, hwidth, Nat.add_assoc]
              simp)
            (by rwa [hwidth, ← Nat.add_assoc])
          refine .inr ⟨_, _, happend, ?_, ?_, ?_⟩
          · simp only [List.forall_mem_append, List.forall_mem_singleton]
            exact ⟨⟨rfl, rfl⟩, hvs⟩
          · obtain ⟨xs, c, rfl, hc⟩ := hends'
            exact ⟨'#' :: line ++ ['\n'] ++ xs, c, by simp, hc⟩
          · rw [width_append, hwidth]
            rcases hsides with ⟨rfl, hw⟩ | ⟨back, rfl, hw⟩
            · exact .inl ⟨by simp, by rw [hw]⟩
            · exact .inr ⟨back, by simp, by rw [hw]; omega⟩
    · exact .inl (headerWidth_eq_zero hhash)

section Front

variable {text : List Char} {package : String} {ts : List Token} {c : Contents}

/-- **The front of a file**, with `c₁`, goes up to a byte: to the end of the text, or it ends with a
line, behind which the rest is read on its own. -/
structure IsLoadFront (text : List Char) (package : String) (c : Contents) (point : Nat)
    (front : List Char) (us : List Token) (c₁ : Contents) : Prop where
  isFront : IsFront 0 front us
  ends : EndsInLine front
  contents : Contents.ofTokens text package us = .ok c₁
  sides : text = front ∧ point = width front ∨ ∃ back ts₂ c₂, text = front ++ '\n' :: back ∧
    point = width front + 1 ∧ tokens point back = .ok ts₂ ∧
    Contents.ofTokens text package ts₂ = .ok c₂ ∧ c = c₁ ++ c₂

theorem ofTokens_trivia_append {us : List Token} (h : ∀ t ∈ us, t.isTrivia = true)
    (ts : List Token) : Contents.ofTokens text package (us ++ ts) =
      Contents.ofTokens text package ts := by
  induction us with
  | nil => rfl
  | cons t us ih =>
    rw [List.forall_mem_cons] at h
    rw [List.cons_append, Contents.ofTokens_trivia h.1, ih h.2]

/-- The front of a file that ends with a line, and the rest. -/
theorem IsFront.exists_behind {front back : List Char} {us : List Token} (h : IsFront 0 front us)
    (hts : Build.tokens 0 (front ++ '\n' :: back) = .ok ts) : ∃ newline ts₂,
      newline.kind = .newline ∧ Build.tokens (width front + 1) back = .ok ts₂ ∧
      ts = us ++ newline :: ts₂ := by
  rw [h.behind, Nat.zero_add] at hts
  obtain ⟨ts₂, hback, rfl⟩ := map_eq_ok hts
  exact ⟨_, ts₂, rfl, hback, rfl⟩

/-- **New loads go to the start of a file or behind its front.** -/
theorem exists_isLoadFront (hts : tokens 0 text = .ok ts)
    (hc : Contents.ofTokens text package ts = .ok c)
    (hclosed : ∀ stop, (c.loads.map (·.span.stop)).max? = some stop →
      isClosed ((dropBytes stop text).takeWhile (· ≠ '\n')) = true) :
    Descriptor.loadPoint text c.loads = 0 ∨ ∃ front us c₁,
      IsLoadFront text package c (Descriptor.loadPoint text c.loads) front us c₁ := by
  by_cases hne : c.loads = []
  · -- Behind the comments at the top.
    have hpoint : Descriptor.loadPoint text c.loads =
        Descriptor.headerWidth (splitOnChar '\n' text) := by
      simp [hne, Descriptor.loadPoint]
    rw [hpoint]
    refine (exists_headerFront 0 text).imp_right fun ⟨front, us, hfront, htrivia, hends, hsides⟩ =>
      ⟨front, us, .empty, hfront, hends, ?_, hsides.imp_right fun ⟨back, htext, hwidth⟩ => ?_⟩
    · rw [← List.append_nil us, ofTokens_trivia_append htrivia, Contents.ofTokens_nil]
    · obtain ⟨newline, ts₂, hn, hback, rfl⟩ := hfront.exists_behind (htext ▸ hts)
      rw [ofTokens_trivia_append htrivia,
        Contents.ofTokens_trivia (by simp [Token.isTrivia, hn])] at hc
      exact ⟨back, ts₂, c, htext, hwidth, hwidth ▸ hback, hc, rfl⟩
  · obtain ⟨pre, close, behind, rfl, hclose, hmax, hsides⟩ :=
      Contents.exists_lastLoad hc (areTokens_of_tokens hts).1 hne
    obtain ⟨xs, ys, rfl, hstart, -, hbehind, hmore⟩ := tokens_behind hts
    obtain ⟨_, _, -, -, -, htoken, -⟩ := tokens_cut hts
    rw [hclose] at htoken hmore
    have htext := htoken.eq_closing
    rw [htext] at hmore
    have hstop : close.stop = 0 + width (xs ++ [')']) := by
      rw [Token.stop, hstart, htext, width_append, Nat.add_assoc]
    have hpre : ∀ zs, tokens 0 (xs ++ [')'] ++ zs) =
        (tokens (0 + width (xs ++ [')'])) zs).map ((pre ++ [close]) ++ ·) := by
      intro zs
      have h := hmore zs (.mark (fun _ => rfl) (by decide) (by decide) _)
      rw [hstop] at h
      simpa using h
    -- The line of the load.
    obtain ⟨line, back, rfl, hline, htake, hback⟩ := exists_line ys
    have hdrop : dropBytes close.stop (xs ++ (close.text ++ (line ++ back))) = line ++ back := by
      rw [hstop, Nat.zero_add, htext, ← List.append_assoc, dropBytes_width]
    have hlineClosed := hclosed _ hmax
    rw [hdrop, htake] at hlineClosed
    obtain ⟨ls, hls, hlineFront⟩ := exists_isFront_closed hlineClosed (0 + width (xs ++ [')']))
    have hflat := kind_ne_newline hlineFront.tokens hline
    have hfront := hlineFront.append hpre
    have hends : EndsInLine (xs ++ [')'] ++ line) := by
      have h := @endsInLine_append xs ')' line (by simp [hline])
      simpa using h
    rw [Descriptor.loadPoint, hmax]
    dsimp only
    rw [hdrop, htake]
    have hcs : xs ++ (close.text ++ (line ++ back)) = xs ++ [')'] ++ line ++ back := by
      rw [htext]
      simp
    refine .inr ?_
    rcases hback with rfl | ⟨more, rfl⟩
    · -- The load stands on the last line.
      rw [if_pos (by simp)]
      rw [List.append_nil, List.append_nil] at *
      have hus : pre ++ close :: behind = pre ++ [close] ++ ls := by
        rw [hcs, hfront.tokens] at hts
        exact (Except.ok.inj hts).symm
      exact ⟨_, _, c, hfront, hends, hus ▸ hc, .inl ⟨hcs, by rw [hcs]⟩⟩
    · rw [if_neg (by simp)]
      rw [hcs] at hts hc
      obtain ⟨newline, ts₂, hn, htokens, heq⟩ := hfront.exists_behind hts
      obtain ⟨c₁, c₂, h₁, h₂, rfl⟩ := hsides ls newline ts₂ (by simpa using heq) hls hflat hn
      rw [hcs] at h₁ h₂ ⊢
      have hpoint : close.stop + width line + 1 = width (xs ++ [')'] ++ line) + 1 := by
        rw [hstop, width_append (xs ++ [')'])]
        omega
      rw [hpoint]
      exact ⟨_, _, c₁, hfront, hends, by simpa using h₁,
        .inr ⟨more, ts₂, c₂, rfl, rfl, htokens, h₂, rfl⟩⟩

end Front

/-! ## What is read of a front -/

/-- **A text is read as some rules and loads on its own**, whatever file stands behind it. -/
def FrontReads (package : String) (front : List Char) (o : Outline) : Prop :=
  ∃ us, IsWritten front us ∧ ∀ {ls o'}, Reads package ls o' →
    Reads package (us ++ ls) (o ++ o')

section FrontReads

variable {package : String} {xs ys : List Char} {o o' : Outline}

theorem FrontReads.nil (package : String) : FrontReads package [] .empty :=
  ⟨[], Lexes.nil, id⟩

theorem FrontReads.append (h : FrontReads package xs o) (h' : FrontReads package ys o') :
    FrontReads package (xs ++ ys) (o ++ o') := by
  obtain ⟨us, hus, hread⟩ := h
  obtain ⟨vs, hvs, hread'⟩ := h'
  refine ⟨us ++ vs, hus.append hvs, fun hls => ?_⟩
  rw [List.append_assoc, Outline.append_assoc]
  exact hread (hread' hls)

/-- **A file behind a front** is read on its own. -/
theorem FrontReads.textReads (h : FrontReads package xs o) (h' : TextReads package ys o') :
    TextReads package (xs ++ ys) (o ++ o') := by
  obtain ⟨us, hus, hread⟩ := h
  obtain ⟨ls, hls, hread'⟩ := h'
  refine ⟨us ++ ls, ?_, hread hread'⟩
  rw [hus _ ys rfl, hls]
  rfl

theorem frontReads_newline (package : String) : FrontReads package ['\n'] .empty :=
  ⟨[newlineToken], fun next => (IsToken.newline next).lexes, reads_newlineToken⟩

theorem frontReads_pendingLines (package : String) (pending : List (String × String)) :
    FrontReads package (Descriptor.pendingLines pending) (pendingOutline pending) :=
  ⟨pendingTokens pending, isWritten_pendingLines pending, reads_pendingLines pending⟩

/-- **A text that ends with a newline** is read on its own. -/
theorem frontReads_of_newline {us : List Token} (hlex : lexemes xs = some (us ++ [newlineToken]))
    (h : Reads package us o) : FrontReads package xs o := by
  refine ⟨us ++ [newlineToken], ?_, fun hls => ?_⟩
  · obtain ⟨ts, hts, hbare⟩ := exists_tokens hlex 0
    obtain ⟨vs, ns, rfl, hvs, hns⟩ := List.map_eq_append_iff.1 hbare
    obtain ⟨n, rfl, hn⟩ := List.map_eq_singleton_iff.1 hns
    obtain ⟨front, gap, rfl, -, hfront, htoken, hgap⟩ := tokens_cut hts
    have hkind : n.kind = .newline := congrArg Token.kind hn
    rw [hkind] at htoken
    rw [htoken.eq_newline] at hfront ⊢
    rw [← hvs]
    exact fun next =>
      hfront.append ((IsToken.newline _).lexes.append (lexes_of_tokens_nil hgap next))
  · rw [List.append_assoc]
    exact h.newline hls

end FrontReads

/-! ## A file with its edits -/

/-- The loads of a file can be written again. -/
theorem Site.IsIn.isWritable {text : List Char} {package : String} {ts : List Token} {s : Site}
    (h : s.IsIn text package ts) (hts : Build.tokens 0 text = .ok ts) {load : Load}
    (hload : load ∈ s.made.loads) : load.IsWritable := by
  rcases Contents.ofCall_eq_ok h.made with ⟨-, _, hparse, -, hl⟩ | ⟨-, -, -, -, -, hl⟩ |
    ⟨-, -, -, hl⟩
  · rw [hl, List.mem_singleton] at hload
    obtain ⟨front, back, heq⟩ := h.tokens
    have hcut : Build.tokens 0 text =
        .ok (front ++ [s.callee, s.opening] ++ (s.inside ++ (s.close :: back))) := by
      rw [hts, ← heq]
      simp [Site.tokens]
    exact hload ▸ Load.isWritable_of_parse hcut h.nest hparse
  · rw [hl] at hload
    cases hload
  · rw [hl] at hload
    cases hload

/-- **The front of a file is edited** on its own. -/
theorem IsFront.exists_edited {text front : List Char} {package : String} {us : List Token}
    {c : Contents} (h : IsFront 0 front us) (hc : Contents.ofTokens text package us = .ok c)
    {rules : List Rule} {loads : List Load} (he : c.IsEdit rules loads)
    (hw : ∀ load ∈ loads, load.IsWritable) (hl : ∀ rule ∈ rules, rule.HasLabels package) :
    ∃ es front', Splices 0 front es front' ∧ es.Perm (allEditsOf text package rules loads) ∧
      FrontReads package (front' ++ ['\n']) (.of rules loads) := by
  obtain ⟨es, vs, hrewrites, hperm, hreads⟩ :=
    Contents.rewrites True hc (areTokens_of_tokens h.tokens).1 he fun _ => hw
  obtain ⟨front', hsplices, hlex⟩ := hrewrites.exists_splices h.tokens
  refine ⟨es, front', hsplices, hperm, ?_⟩
  -- The newline is one behind the edited front, too.
  have hnewline : Build.tokens 0 (front ++ ['\n']) =
      .ok (us ++ [⟨.newline, 0 + width front, ['\n']⟩]) := by
    rw [h.behind, Build.tokens]
    rfl
  obtain ⟨_, hsplices', hlex'⟩ :=
    (hrewrites.append (.keep True [⟨.newline, 0 + width front, ['\n']⟩])).exists_splices hnewline
  have hresult : splice? 0 (front ++ ['\n']) (es ++ []) = some (front' ++ ['\n']) :=
    splice?_append hsplices.result rfl
  cases hsplices'.result.symm.trans hresult
  refine @frontReads_of_newline package _ _ vs (hlex' trivial) ?_
  exact lexemes_bare (hlex trivial) ▸ hreads trivial hl

namespace Descriptor.IsEditOf

variable {text package : String} {ts : List Token} {sites : List Site} {read news : List Rule}
  {e : Descriptor}

theorem isWritable (h : IsEditOf text package ts sites read news e) :
    ∀ load ∈ e.loads, load.IsWritable := by
  intro load hload
  obtain ⟨old, hold, heq⟩ := exists_of_forall₂ h.loads hload
  obtain ⟨s, hs, hold⟩ := List.mem_flatMap.1 hold
  have hwritable := (h.isIn s hs).isWritable h.tokens hold
  rw [heq]
  exact hwritable

/-- **A file is edited on the two sides** of the place for new loads. -/
theorem exists_sides (h : IsEditOf text package ts sites read news e)
    (hl : ∀ rule ∈ read, rule.HasLabels package) (hclosed : e.hasClosedLoads = true) :
    ∃ front back front' back' es₁ es₂ o₁ o₂, text.toList = front ++ back ∧
      loadPoint text.toList e.loads = width front ∧ Splices 0 front es₁ front' ∧
      Splices (width front) back es₂ back' ∧
      (es₁ ++ es₂).Perm (allEditsOf text.toList package read e.loads) ∧
      FrontReads package (front' ++ if lineFront text.toList (width front) = [] then [] else ['\n'])
        o₁ ∧
      TextReads package back' o₂ ∧ .of read e.loads = o₁ ++ o₂ := by
  obtain ⟨called, hc⟩ := h.contents
  have hedit := h.isEdit called
  have hw := h.isWritable
  have hpoint := h.loadPoint_eq
  rw [h.text] at hpoint
  have hlast : ∀ stop, ((sites.flatMap (·.made.loads)).map (·.span.stop)).max? = some stop →
      isClosed ((dropBytes stop text.toList).takeWhile (· ≠ '\n')) = true := by
    intro stop hmax
    have hstops : e.loads.map (·.span.stop) = (sites.flatMap (·.made.loads)).map (·.span.stop) :=
      map_eq_of_forall₂ h.loads fun old new hl => by rw [hl]
    unfold hasClosedLoads at hclosed
    rw [hstops, hmax, h.text] at hclosed
    exact hclosed
  rw [hpoint]
  rcases exists_isLoadFront h.tokens hc hlast with hzero | ⟨front, us, c₁, hfront⟩
  · -- New loads go to the start.
    obtain ⟨es, out, hsplices, hperm, hreads⟩ := Contents.exists_splices True h.tokens hc hedit
      fun _ => hw
    refine ⟨[], text.toList, [], out, [], es, .empty, _, rfl, hzero, .keep 0 [], hsplices, hperm,
      ?_, hreads trivial hl, rfl⟩
    simpa [lineFront, lineFrontFrom] using FrontReads.nil package
  · obtain ⟨xs, d, rfl, hd⟩ := hfront.ends
    rcases hfront.sides with ⟨htext, hwidth⟩ | ⟨back, ts₂, c₂, htext, hwidth, hback, hc₂, heq⟩
    · -- New loads go to the end.
      obtain rfl : us = ts := by
        have htokens := h.tokens
        rw [htext, hfront.isFront.tokens] at htokens
        exact Except.ok.inj htokens
      obtain rfl := Except.ok.inj (hfront.contents.symm.trans hc)
      obtain ⟨es, front', hsplices, hperm, hreads⟩ :=
        hfront.isFront.exists_edited hfront.contents hedit hw hl
      have hline : lineFront text.toList (width (xs ++ [d])) ≠ [] := by
        rw [htext]
        exact fun hnil => hd ((lineFrontFrom_concat [] xs d []).1 hnil)
      refine ⟨xs ++ [d], [], front', [], es, [], _, .empty, by rw [htext, List.append_nil], hwidth,
        hsplices, .keep _ [], by rwa [List.append_nil], ?_, ⟨[], lexemes_nil, .nil package⟩,
        (Outline.append_empty _).symm⟩
      rwa [if_neg hline]
    · -- New loads go behind a line.
      rw [heq] at hedit
      obtain ⟨rules₁, rules₂, loads₁, loads₂, rfl, hloads, he₁, he₂⟩ := hedit.split
      rw [hloads, List.forall_mem_append] at hw
      rw [List.forall_mem_append] at hl
      obtain ⟨es₁, front', hsplices₁, hperm₁, hreads₁⟩ :=
        hfront.isFront.exists_edited hfront.contents he₁ hw.1 hl.1
      rw [hwidth] at hback
      obtain ⟨es₂, back', hsplices₂, hperm₂, hreads₂⟩ :=
        Contents.exists_splices True hback hc₂ he₂ fun _ => hw.2
      have hsize : ('\n' : Char).utf8Size = 1 := rfl
      have hnewline : width (xs ++ [d] ++ ['\n']) = width (xs ++ [d]) + 1 := by
        rw [width_append, width_cons '\n', hsize, width_nil]
      have hline : lineFront text.toList (width (xs ++ [d] ++ ['\n'])) = [] := by
        rw [htext]
        exact (lineFrontFrom_concat [] (xs ++ [d]) '\n' back).2 rfl
      have hkeep := hsplices₁.append (.keep (0 + width (xs ++ [d])) ['\n'])
      rw [List.append_nil] at hkeep
      refine ⟨xs ++ [d] ++ ['\n'], back, front' ++ ['\n'], back', es₁, es₂, .of rules₁ loads₁, _,
        by rw [htext]; simp, hwidth.trans hnewline.symm, hkeep,
        hnewline ▸ hsplices₂, ?_, ?_, hreads₂ trivial hl.2, ?_⟩
      · rw [hloads]
        exact (hperm₁.append hperm₂).trans (allEditsOf_append _ _ _ _)
      · rw [if_pos hline, List.append_nil]
        exact hreads₁
      · rw [hloads]
        exact Outline.of_append ..

/-- **An edited file is read as its changed rules and loads**, with the new loads among these, if a
statement ends with the line of the last load where new ones are added. -/
theorem exists_reads (h : IsEditOf text package ts sites read news e)
    (hl : ∀ rule ∈ read, rule.HasLabels package)
    (hclosed : e.pendingLoads ≠ [] → e.hasClosedLoads = true) :
    ∃ edited o₁ o₂, splice? 0 text.toList e.edits = some edited ∧
      TextReads package edited (o₁ ++ pendingOutline e.pendingLoads ++ o₂) ∧
      .of read e.loads = o₁ ++ o₂ := by
  by_cases hpending : e.pendingLoads = []
  · obtain ⟨called, hc⟩ := h.contents
    obtain ⟨es, out, hsplices, hperm, hreads⟩ :=
      Contents.exists_splices True h.tokens hc (h.isEdit called) fun _ => h.isWritable
    have hedits : e.edits = es := h.edits_eq hsplices.sorted (by simpa [pendingEdits, hpending])
    refine ⟨out, .empty, .of read e.loads, hedits ▸ hsplices.result, ?_,
      (Outline.empty_append _).symm⟩
    rw [hpending, pendingOutline_nil]
    exact hreads trivial hl
  · obtain ⟨front, back, front', back', es₁, es₂, o₁, o₂, htext, hpoint, hfront, hback, hperm,
      hreads₁, hreads₂, houtline⟩ := h.exists_sides hl (hclosed hpending)
    obtain ⟨before, after, hnew, hbefore, hafter⟩ : ∃ before after,
        e.pendingEdits = [⟨width front, width front,
          before ++ pendingLines e.pendingLoads ++ after⟩] ∧
        before = (if lineFront text.toList (width front) = [] then [] else ['\n']) ∧
        (after = [] ∨ after = ['\n']) := by
      unfold pendingEdits
      dsimp only
      rw [if_neg hpending, h.text, hpoint]
      refine ⟨_, _, rfl, rfl, ?_⟩
      split
      · exact .inl rfl
      · exact .inr rfl
    -- An edit behind the new loads does not start with them.
    have hbehind : ∀ x ∈ es₂, width front < x.start := by
      intro x hx
      have hordered := (Fits.of_splice? hback.result).1.ordered x hx
      have hapart := h.apart_loadPoint (hperm.subset (List.mem_append_right es₁ hx)) hordered
      have hstart := (hback.starts x hx).1
      omega
    obtain ⟨hsorted, hresult⟩ := hfront.put (Nat.zero_add _).symm hback hbehind
      (before ++ pendingLines e.pendingLoads ++ after)
    have hedits := h.edits_eq hsorted (by
      rw [hnew]
      exact List.perm_middle.trans (hperm.cons _))
    refine ⟨_, o₁, o₂, by rw [hedits, htext, hresult], ?_, houtline⟩
    have hmore : FrontReads package (front' ++ before) o₁ := hbefore ▸ hreads₁
    have hend : FrontReads package after .empty := by
      rcases hafter with rfl | rfl
      · exact .nil package
      · exact frontReads_newline package
    have hreads := ((hmore.append (frontReads_pendingLines package e.pendingLoads)).append
      hend).textReads hreads₂
    simpa using hreads

end Descriptor.IsEditOf

end BuildSync.Build
