import BuildSync.Proofs.Build.Changes

/-!
# Where a file is edited

* `Site`: a call at the start of a statement. `Contents.exists_sites`: a file is read from its
  calls, and a newline stands between each two of them.
* `Rule.EditedAt`: the places of a call at which its rule is edited (`editedAt_of_mem_ruleEdits`).
* `loadPoint_spec`: new loads go between characters, and into no call.
-/

namespace BuildSync.Build

open Text

/-! ## The calls of a file -/

/-- A call at the start of a statement, and what it makes. -/
structure Site where
  callee : Token
  opening : Token
  inside : List Token
  close : Token
  made : Contents

namespace Site

/-- The tokens of the call. -/
def tokens (s : Site) : List Token :=
  s.callee :: s.opening :: (s.inside ++ [s.close])

def span (s : Site) : Span :=
  ⟨s.callee.start, s.close.stop⟩

/-- The call stands among the tokens of a file. -/
structure IsIn (text : List Char) (package : String) (ts : List Token) (s : Site) : Prop where
  tokens : s.tokens <:+: ts
  callee : s.callee.kind = .word
  nest : nest [] s.inside = some []
  close : s.close.kind = .closing .round
  made : Contents.ofCall text package s.callee s.opening s.inside s.close = .ok s.made

/-- A newline stands between two calls. -/
def Before (ts : List Token) (a b : Site) : Prop :=
  ∃ newline ∈ ts, newline.kind = .newline ∧ a.span.stop ≤ newline.start ∧
    newline.stop ≤ b.span.start

variable {text : List Char} {package : String} {ts : List Token} {s a b : Site}

theorem IsIn.mem (h : s.IsIn text package ts) {t : Token} (ht : t ∈ s.tokens) : t ∈ ts :=
  h.tokens.subset ht

theorem IsIn.areTokens (h : s.IsIn text package ts) (ht : AreTokens ts) : AreTokens s.tokens := by
  obtain ⟨front, back, heq⟩ := h.tokens
  exact @AreTokens.of_append front s.tokens back (by rwa [← List.append_assoc, heq])

/-- A file that goes on with more tokens. -/
theorem IsIn.behind (h : s.IsIn text package ts) (us : List Token) :
    s.IsIn text package (us ++ ts) :=
  ⟨h.tokens.trans (List.suffix_append us ts).isInfix, h.callee, h.nest, h.close, h.made⟩

theorem Before.behind (h : Before ts a b) (us : List Token) : Before (us ++ ts) a b := by
  obtain ⟨newline, hmem, h⟩ := h
  exact ⟨newline, List.mem_append_right us hmem, h⟩

theorem Before.le (h : Before ts a b) : a.span.stop ≤ b.span.start := by
  obtain ⟨newline, -, -, hstart, hstop⟩ := h
  have hle : newline.start ≤ newline.stop := Nat.le_add_right _ _
  omega

/-- What stands inside the parentheses of a call is between its first token and its last. -/
theorem bounds_inside (ht : AreTokens s.tokens) {t : Token} (hmem : t ∈ s.inside) :
    s.span.start < t.start ∧ t.stop < s.span.stop := by
  have hordered := ht.ordered
  simp only [tokens, List.pairwise_cons, List.pairwise_append] at hordered
  obtain ⟨hcallee, hopening, -, -, hclose⟩ := hordered
  have h₁ := (ht.proper s.callee (by simp [tokens])).start_lt_stop
  have h₂ := (ht.proper s.opening (by simp [tokens])).start_lt_stop
  have h₃ := (ht.proper s.close (by simp [tokens])).start_lt_stop
  have h₄ := hcallee s.opening List.mem_cons_self
  have h₅ := hopening t (List.mem_append_left _ hmem)
  have h₆ := hclose t hmem s.close List.mem_cons_self
  simp only [span]
  omega

theorem span_lt (ht : AreTokens s.tokens) : s.span.start < s.span.stop := by
  have hordered := ht.ordered
  rw [tokens, List.pairwise_cons] at hordered
  have h₁ := (ht.proper s.callee (by simp [tokens])).start_lt_stop
  have h₂ := (ht.proper s.close (by simp [tokens])).start_lt_stop
  have h₃ := hordered.1 s.close (by simp)
  simp only [span]
  omega

end Site

section Sites

variable {text : List Char} {package : String}

/-- **A file is read from its calls**, and a newline stands between each two of them. -/
theorem Contents.exists_sites {ts : List Token} {c : Contents}
    (h : Contents.ofTokens text package ts = .ok c) (ht : AreTokens ts) :
    ∃ sites : List Site, (∀ s ∈ sites, s.IsIn text package ts) ∧
      sites.Pairwise (Site.Before ts) ∧ c.rules = sites.flatMap (·.made.rules) ∧
      c.loads = sites.flatMap (·.made.loads) := by
  -- The calls behind some tokens.
  have hbehind : ∀ (us : List Token) {ts : List Token} {sites : List Site},
      (∀ s ∈ sites, s.IsIn text package ts) → sites.Pairwise (Site.Before ts) →
      (∀ s ∈ sites, s.IsIn text package (us ++ ts)) ∧ sites.Pairwise (Site.Before (us ++ ts)) :=
    fun us ts sites hin hbefore =>
      ⟨fun s hs => (hin s hs).behind us, hbefore.imp fun hab => hab.behind us⟩
  revert ht
  refine Contents.ofTokens_induction ?nil ?trivia ?plain ?call h
  case nil => exact fun _ => ⟨[], by simp, .nil, rfl, rfl⟩
  case trivia =>
    intro t ts c _ _ ih ht
    obtain ⟨sites, hin, hbefore, hrules, hloads⟩ :=
      ih (@AreTokens.of_append [t] ts [] (by simpa using ht))
    obtain ⟨hin, hbefore⟩ := hbehind [t] hin hbefore
    exact ⟨sites, hin, hbefore, hrules, hloads⟩
  case plain =>
    intro t tail rest c _ _ _ _ ih ht
    obtain ⟨sites, hin, hbefore, hrules, hloads⟩ :=
      ih (@AreTokens.of_append (t :: tail) rest [] (by simpa using ht))
    obtain ⟨hin, hbefore⟩ := hbehind (t :: tail) hin hbefore
    exact ⟨sites, hin, hbefore, hrules, hloads⟩
  case call =>
    intro t opening inside close tail rest first c hk ho hnest hclose hfirst hs hc ih ht
    obtain ⟨sites, hin, hbefore, hrules, hloads⟩ := ih
      (@AreTokens.of_append (t :: opening :: (inside ++ close :: tail)) rest [] (by simpa using ht))
    have hshape : t :: opening :: (inside ++ close :: (tail ++ rest)) =
        t :: opening :: (inside ++ close :: tail) ++ rest := by
      simp
    have hordered := ht.ordered
    rw [hshape] at hordered ⊢
    let site : Site := ⟨t, opening, inside, close, first⟩
    have hsite : site.IsIn text package (t :: opening :: (inside ++ close :: tail) ++ rest) :=
      ⟨⟨[], tail ++ rest, by simp [Site.tokens, site]⟩, hk, hnest, hclose, hfirst⟩
    have hfirst : ∀ s ∈ sites,
        site.Before (t :: opening :: (inside ++ close :: tail) ++ rest) s := by
      intro s hmem
      have hcallee : s.callee ∈ rest := (hin s hmem).mem List.mem_cons_self
      rcases hs.ends with hend | ⟨front, newline, rfl, hn⟩
      · rw [hend] at hcallee
        cases hcallee
      · refine ⟨newline, by simp, hn, ?_, ?_⟩
        · have hle := (List.pairwise_append.1 hordered).1
          have hsplit : t :: opening :: (inside ++ close :: (front ++ [newline])) =
              t :: opening :: (inside ++ close :: front) ++ [newline] := by simp
          rw [hsplit] at hle
          exact (List.pairwise_append.1 hle).2.2 close (by simp) newline (by simp)
        · exact (List.pairwise_append.1 hordered).2.2 newline (by simp) s.callee hcallee
    obtain ⟨hin, hbefore⟩ := hbehind (t :: opening :: (inside ++ close :: tail)) hin hbefore
    refine ⟨site :: sites, ?_, .cons hfirst hbefore, ?_, ?_⟩
    · rw [List.forall_mem_cons]
      exact ⟨hsite, hin⟩
    · rw [List.flatMap_cons, ← hrules]
      rfl
    · rw [List.flatMap_cons, ← hloads]
      rfl

end Sites

/-! ## The places of a rule -/

/-- The value of the last argument of a name is made of tokens between the parentheses. -/
theorem spanOf_eq_some {name : String} {inside : List Token} {span : Span}
    (h : spanOf name inside = some span) :
    ∃ first ∈ inside, ∃ last ∈ inside, span = ⟨first.start, last.stop⟩ := by
  obtain ⟨arg, harg, hspan⟩ := Option.bind_eq_some_iff.1 h
  have hmem : arg ∈ arguments inside := (lastNamed_some harg).1
  have hvalue : ∀ t ∈ arg.significant, t ∈ inside :=
    fun t ht => mem_of_mem_arguments hmem t (List.mem_of_mem_filter ht)
  unfold Argument.span? at hspan
  split at hspan
  · rename_i first last hfirst hlast
    cases hspan
    exact ⟨first, hvalue first (List.mem_of_head? hfirst), last,
      hvalue last (List.mem_of_getLast? hlast), rfl⟩
  · cases hspan

/-- The list attribute of a name was set. -/
def Rule.Sets (rule : Rule) (name : String) : Prop :=
  name = "srcs" ∧ rule.srcsChanged = true ∨ name = "deps" ∧ rule.depsChanged = true

/-- **Where a rule is edited**, by the tokens between the parentheses of its call: from which byte
up to which. -/
inductive Rule.EditedAt (rule : Rule) (inside : List Token) : Nat → Nat → Prop
  /-- The value of a list that was set. -/
  | value {name : String} {span : Span} : rule.Sets name → spanOf name inside = some span →
      EditedAt rule inside span.start span.stop
  /-- Behind the last argument, or the comma after it, for a list that the rule had not. -/
  | argument {name : String} {front trail : List Token} {last : Token} : rule.Sets name →
      spanOf name inside = none → inside = front ++ last :: trail → last.isTrivia = false →
      (∀ t ∈ trail, t.isTrivia = true) → EditedAt rule inside last.stop last.stop
  /-- Behind the comment on the line of the last argument. -/
  | remark {name : String} {front trail : List Token} {last remark : Token} : rule.Sets name →
      spanOf name inside = none → inside = front ++ last :: remark :: trail →
      last.isTrivia = false → remark.kind = .comment → (∀ t ∈ trail, t.isTrivia = true) →
      EditedAt rule inside remark.stop remark.stop

theorem mem_listEdit {α : Type} {text : List Char} {key : String} {changed : Bool}
    {span : Option Span} {attr : ListAttr α} {write : α → List Char} :
    (∀ e ∈ (Descriptor.listEdit text key changed span attr write).1, changed = true ∧
      ∃ s, span = some s ∧ e.start = s.start ∧ e.stop = s.stop) ∧
    ((Descriptor.listEdit text key changed span attr write).2 ≠ [] → changed = true ∧
      span = none) := by
  unfold Descriptor.listEdit
  split
  · split
    · simp
    · simp
  · simp

/-- **The edits of a rule** are at these places. -/
theorem editedAt_of_mem_ruleEdits {text : List Char} {package : String} {rule : Rule}
    {origin : Origin} {callee close : Token} {inside : List Token}
    (ho : rule.origin = some origin) (hof : origin.IsOf callee inside close)
    (hattr : attributes inside ≠ []) {e : Edit}
    (he : e ∈ Descriptor.ruleEdits text package rule) :
    rule.EditedAt inside e.start e.stop := by
  unfold Descriptor.ruleEdits at he
  rw [ho] at he
  dsimp only at he
  rw [hof.srcs, hof.deps] at he
  obtain ⟨hsrcs, hsrcsNew⟩ := @mem_listEdit _ text "srcs" rule.srcsChanged (spanOf "srcs" inside)
    rule.srcs writeSource
  obtain ⟨hdeps, hdepsNew⟩ := @mem_listEdit _ text "deps" rule.depsChanged (spanOf "deps" inside)
    rule.deps (writeDep package)
  rcases List.mem_append.1 he with he | he
  · rcases List.mem_append.1 he with he | he
    · obtain ⟨hc, span, hspan, hstart, hstop⟩ := hsrcs e he
      rw [hstart, hstop]
      exact .value (.inl ⟨rfl, hc⟩) hspan
    · obtain ⟨hc, span, hspan, hstart, hstop⟩ := hdeps e he
      rw [hstart, hstop]
      exact .value (.inr ⟨rfl, hc⟩) hspan
  · unfold Descriptor.insertions at he
    split at he
    · cases he
    · rename_i hnew
      obtain ⟨name, hset, hnone⟩ : ∃ name, rule.Sets name ∧ spanOf name inside = none := by
        rw [List.append_eq_nil_iff, Classical.not_and_iff_not_or_not] at hnew
        rcases hnew with hnew | hnew
        · exact ⟨"srcs", .inl ⟨rfl, (hsrcsNew hnew).1⟩, (hsrcsNew hnew).2⟩
        · exact ⟨"deps", .inr ⟨rfl, (hdepsNew hnew).1⟩, (hdepsNew hnew).2⟩
      obtain ⟨front, last, trail, hinside, hlast, htrail⟩ := exists_last hattr
      obtain ⟨hend, -, hinsert⟩ := hof.places front last trail hinside hlast htrail
      have hargument : rule.EditedAt inside origin.lastArgEnd origin.lastArgEnd := by
        rw [hend]
        exact .argument hset hnone hinside hlast htrail
      have hremark : rule.EditedAt inside origin.insertAt origin.insertAt := by
        rw [hinsert]
        cases trail with
        | nil => exact .argument hset hnone hinside hlast htrail
        | cons t trail =>
          rw [List.head?_cons, Option.elim_some]
          split
          · rename_i hk
            exact .remark hset hnone hinside hlast hk fun u hu =>
              htrail u (List.mem_cons_of_mem t hu)
          · exact .argument hset hnone hinside hlast htrail
      rcases List.mem_append.1 he with he | he
      · split at he
        · rw [List.mem_singleton.1 he]
          exact hargument
        · cases he
      · rw [List.mem_singleton.1 he]
        exact hremark

/-- A rule is edited inside its call, and not in front of it. -/
theorem Rule.EditedAt.bounds {rule : Rule} {s : Site} {start stop : Nat}
    (h : rule.EditedAt s.inside start stop) (ht : AreTokens s.tokens) :
    s.span.start < start ∧ stop < s.span.stop := by
  cases h with
  | value hset hspan =>
    obtain ⟨first, hfirst, last, hlast, rfl⟩ := spanOf_eq_some hspan
    exact ⟨(Site.bounds_inside ht hfirst).1, (Site.bounds_inside ht hlast).2⟩
  | @argument name front trail last hset hnone hinside =>
    obtain ⟨hstart, hstop⟩ := @Site.bounds_inside s ht last (by simp [hinside])
    exact ⟨Nat.lt_of_lt_of_le hstart (Nat.le_add_right _ _), hstop⟩
  | @remark name front trail last remark hset hnone hinside =>
    obtain ⟨hstart, hstop⟩ := @Site.bounds_inside s ht remark (by simp [hinside])
    exact ⟨Nat.lt_of_lt_of_le hstart (Nat.le_add_right _ _), hstop⟩

/-! ## Where new loads go -/

/-- A token in its text. -/
theorem exists_append_of_mem_tokens {pos : Nat} {cs : List Char} {ts : List Token}
    (h : tokens pos cs = .ok ts) {t : Token} (ht : t ∈ ts) :
    ∃ xs ys, cs = xs ++ (t.text ++ ys) ∧ t.start = pos + width xs ∧
      IsToken t.kind t.text ys.head? := by
  obtain ⟨front, back, rfl⟩ := List.append_of_mem ht
  obtain ⟨xs, ys, hcs, hstart, -, htoken, -⟩ := tokens_cut h
  exact ⟨xs, ys, hcs, hstart, htoken⟩

theorem isBoundary_stop {pos : Nat} {cs : List Char} {ts : List Token}
    (h : tokens pos cs = .ok ts) {t : Token} (ht : t ∈ ts) : IsBoundary pos cs t.stop := by
  obtain ⟨xs, ys, rfl, hstart, -⟩ := exists_append_of_mem_tokens h ht
  refine ⟨xs ++ t.text, ys, by simp, ?_⟩
  rw [Token.stop, hstart, width_append]
  omega

/-- The first line of a text, and what is behind it. -/
theorem exists_line (cs : List Char) : ∃ line back, cs = line ++ back ∧ '\n' ∉ line ∧
    cs.takeWhile (· ≠ '\n') = line ∧ (back = [] ∨ ∃ more, back = '\n' :: more) := by
  refine ⟨_, _, (List.takeWhile_append_dropWhile (p := (· ≠ '\n')) (l := cs)).symm,
    fun hc => by simpa using List.mem_takeWhile_imp hc, rfl, ?_⟩
  have hhead := List.head?_dropWhile_not (· ≠ '\n') cs
  cases hd : cs.dropWhile (· ≠ '\n') with
  | nil => exact .inl rfl
  | cons c more =>
    rw [hd] at hhead
    exact .inr ⟨more, by simpa using hhead⟩

theorem headerWidth_splitOnChar_comment {cs : List Char} (h : '\n' ∉ cs) (rest : List Char) :
    Descriptor.headerWidth (splitOnChar '\n' ('#' :: cs)) = width ('#' :: cs) ∧
      Descriptor.headerWidth (splitOnChar '\n' ('#' :: (cs ++ '\n' :: rest))) =
        width ('#' :: cs) + 1 + Descriptor.headerWidth (splitOnChar '\n' rest) := by
  have hline : ∀ cs : List Char, '\n' ∉ cs → splitOnChar '\n' cs = [cs] ∧
      splitOnChar '\n' (cs ++ '\n' :: rest) = cs :: splitOnChar '\n' rest := by
    intro cs
    induction cs with
    | nil => simp [splitOnChar]
    | cons c cs ih =>
      intro hc
      rw [List.mem_cons, not_or] at hc
      obtain ⟨h₁, h₂⟩ := ih hc.2
      have hne : c ≠ '\n' := fun h => hc.1 h.symm
      rw [List.cons_append, splitOnChar, splitOnChar, if_neg hne, if_neg hne, h₁, h₂]
      exact ⟨rfl, rfl⟩
  have hc : '\n' ∉ '#' :: cs := by simp [h]
  obtain ⟨h₁, h₂⟩ := hline ('#' :: cs) hc
  rw [← List.cons_append, h₁, h₂]
  simp [Descriptor.headerWidth, splitOnChar_ne_nil]

theorem headerWidth_eq_zero {cs : List Char} (h : cs.head? ≠ some '#') :
    Descriptor.headerWidth (splitOnChar '\n' cs) = 0 := by
  cases cs with
  | nil => rfl
  | cons c cs =>
    have hc : c ≠ '#' := by simpa using h
    by_cases hn : c = '\n'
    · simp [splitOnChar, hn, Descriptor.headerWidth]
    · rw [splitOnChar, if_neg hn]
      split <;> simp [Descriptor.headerWidth, hc]

/-- **The comments at the top of a file** end between characters, and no call starts in them. -/
theorem headerWidth_tokens {pos : Nat} {cs : List Char} {ts : List Token}
    (h : tokens pos cs = .ok ts) :
    IsBoundary pos cs (pos + Descriptor.headerWidth (splitOnChar '\n' cs)) ∧
      ∀ t ∈ ts, t.isTrivia = false →
        pos + Descriptor.headerWidth (splitOnChar '\n' cs) ≤ t.start := by
  induction hn : cs.length using Nat.strong_induction_on generalizing pos cs ts with
  | h n ih =>
    by_cases hhash : cs.head? = some '#'
    · obtain ⟨rest, rfl⟩ := List.head?_eq_some_iff.1 hhash
      obtain ⟨line, back, rfl, hline, -, hback⟩ := exists_line rest
      rcases hback with rfl | ⟨more, rfl⟩
      · -- The file is one comment.
        have hts := @IsToken.tokens_append _ _ _ (IsToken.hash hline (.inl rfl)) pos [] rfl
        rw [List.append_nil] at h hts ⊢
        rw [h, tokens] at hts
        cases hts
        rw [(headerWidth_splitOnChar_comment hline []).1]
        exact ⟨⟨'#' :: line, [], by simp, rfl⟩, by simp [Token.isTrivia]⟩
      · have hts := @IsToken.tokens_append _ _ _ (IsToken.hash hline (.inr rfl)) pos ('\n' :: more)
          rfl
        have hnewline := @IsToken.tokens_append _ _ _ (IsToken.newline more.head?)
          (pos + width ('#' :: line)) more rfl
        rw [List.singleton_append] at hnewline
        rw [List.cons_append] at hts
        rw [h, hnewline] at hts
        obtain ⟨us, hus, rfl⟩ := map_eq_ok hts.symm
        obtain ⟨vs, hvs, rfl⟩ := map_eq_ok hus
        obtain ⟨hboundary, hstarts⟩ := ih more.length (by simp at hn; omega) hvs rfl
        have hsize : ('\n' : Char).utf8Size = 1 := rfl
        have hpos : pos + (width ('#' :: line) + 1) = pos + width ('#' :: line) + width ['\n'] := by
          rw [width_cons '\n', hsize, width_nil]
          omega
        rw [(headerWidth_splitOnChar_comment hline more).2, ← Nat.add_assoc pos, hpos]
        refine ⟨?_, fun t ht htrivia => ?_⟩
        · have hsplit : '#' :: (line ++ '\n' :: more) = ('#' :: line ++ ['\n']) ++ more := by simp
          rw [hsplit]
          rw [Nat.add_assoc pos, ← width_append] at hboundary ⊢
          exact hboundary.behind
        · rcases List.mem_cons.1 ht with rfl | ht
          · simp [Token.isTrivia] at htrivia
          · rcases List.mem_cons.1 ht with rfl | ht
            · simp [Token.isTrivia] at htrivia
            · exact hstarts t ht htrivia
    · rw [headerWidth_eq_zero hhash]
      exact ⟨⟨[], cs, rfl, rfl⟩, fun t ht _ => (areTokens_of_tokens h).2 t ht⟩

theorem IsToken.eq_newline {text : List Char} {next : Option Char}
    (h : IsToken .newline text next) : text = ['\n'] := by
  obtain ⟨c, cs, rfl, hlex⟩ := h.exists_lexeme
  obtain ⟨rfl, hn⟩ := lexeme?_kind hlex
  rw [List.length_eq_zero_iff.1 hn]

/-- The line on which a part of a text ends is over by the next newline. -/
theorem width_takeWhile_le {zs vs : List Char} :
    width ((zs ++ '\n' :: vs).takeWhile (· ≠ '\n')) ≤ width zs := by
  induction zs with
  | nil => simp
  | cons z zs ih =>
    by_cases hz : z = '\n'
    · simp [hz]
    · rw [List.cons_append, List.takeWhile_cons_of_pos (by simpa using hz), width_cons, width_cons]
      omega

/-- What a load or a rule tells of its place is that of its call. -/
theorem Site.IsIn.spans {text : List Char} {package : String} {ts : List Token} {s : Site}
    (h : s.IsIn text package ts) :
    (∀ load ∈ s.made.loads, load.span = s.span) ∧
      ∀ rule ∈ s.made.rules, s.made.loads = [] ∧ attributes s.inside ≠ [] ∧
        ∃ origin, rule.origin = some origin ∧ origin.IsOf s.callee s.inside s.close := by
  rcases Contents.ofCall_eq_ok h.made with ⟨-, load, hload, hr, hl⟩ |
    ⟨kind, rule, -, hrule, hr, hl⟩ | ⟨-, -, hr, hl⟩
  · rw [hr, hl]
    obtain ⟨-, hspan, -⟩ := Load.parse_eq_ok hload
    refine ⟨fun l hmem => ?_, by simp⟩
    rw [List.mem_singleton.1 hmem]
    exact hspan
  · rw [hr, hl]
    obtain ⟨hread, -, -, horigin⟩ := Rule.parse_eq_ok hrule
    have hattr : attributes s.inside ≠ [] := by
      intro hnil
      have hname := hread.name
      rw [hnil] at hname
      cases hname
    exact ⟨by simp, by simpa using ⟨hattr, horigin⟩⟩
  · rw [hr, hl]
    exact ⟨by simp, by simp⟩

/-- **New loads go between characters, and into no call**; every load is before them. -/
theorem loadPoint_spec {text : List Char} {package : String} {ts : List Token}
    (hts : tokens 0 text = .ok ts) {sites : List Site} (hin : ∀ s ∈ sites, s.IsIn text package ts)
    (hbefore : sites.Pairwise (Site.Before ts)) {loads : List Load}
    (hl : loads = sites.flatMap (·.made.loads)) :
    IsBoundary 0 text (Descriptor.loadPoint text loads) ∧ ∀ s ∈ sites,
      (s.span.stop ≤ Descriptor.loadPoint text loads ∨
        Descriptor.loadPoint text loads ≤ s.span.start) ∧
      (s.made.loads ≠ [] → s.span.stop ≤ Descriptor.loadPoint text loads) := by
  unfold Descriptor.loadPoint
  cases hmax : (loads.map (·.span.stop)).max? with
  | none =>
    have hnil : loads = [] := by simpa using hmax
    obtain ⟨hboundary, hstarts⟩ := headerWidth_tokens hts
    rw [Nat.zero_add] at hboundary hstarts
    refine ⟨hboundary, fun s hs => ⟨.inr ?_, fun hne => absurd ?_ hne⟩⟩
    · refine hstarts s.callee ((hin s hs).mem List.mem_cons_self) ?_
      simp [Token.isTrivia, (hin s hs).callee]
    · rw [hl, List.flatMap_eq_nil_iff] at hnil
      exact hnil s hs
  | some last =>
    dsimp only
    obtain ⟨hlast, hle⟩ := List.max?_eq_some_iff.1 hmax
    have hstops : ∀ s ∈ sites, s.made.loads ≠ [] → s.span.stop ≤ last := by
      intro s hs hne
      obtain ⟨load, hload⟩ := List.exists_mem_of_ne_nil _ hne
      refine hle _ (List.mem_map.2 ⟨load, ?_, by rw [(hin s hs).spans.1 load hload]⟩)
      rw [hl]
      exact List.mem_flatMap.2 ⟨s, hs, hload⟩
    obtain ⟨s₀, hs₀, hstop₀⟩ : ∃ s₀ ∈ sites, s₀.span.stop = last := by
      obtain ⟨load, hload, rfl⟩ := List.mem_map.1 hlast
      rw [hl] at hload
      obtain ⟨s₀, hs₀, hload⟩ := List.mem_flatMap.1 hload
      exact ⟨s₀, hs₀, by rw [(hin s₀ hs₀).spans.1 load hload]⟩
    have hclose₀ : s₀.close ∈ ts := (hin s₀ hs₀).mem (by simp [Site.tokens])
    obtain ⟨xs, ys, rfl, hxs⟩ := isBoundary_stop hts hclose₀
    have hwidth : last = width xs := by
      rw [← hstop₀, ← Nat.zero_add (width xs), ← hxs]
      rfl
    rw [hwidth, dropBytes_width]
    rw [hwidth] at hstops hstop₀
    split
    · -- The last load stands on the last line.
      refine ⟨⟨xs ++ ys, [], by simp, by simp⟩, fun s hs => ?_⟩
      have hstop : s.span.stop ≤ width (xs ++ ys) := by
        obtain ⟨us, vs, hcs, hus⟩ :=
          isBoundary_stop hts ((hin s hs).mem (t := s.close) (by simp [Site.tokens]))
        have hclose : s.span.stop = s.close.stop := rfl
        rw [hcs, hclose, hus, width_append]
        omega
      exact ⟨.inl hstop, fun _ => hstop⟩
    · rename_i hline
      obtain ⟨line, more, hys, hnewline⟩ : ∃ line more, ys = line ++ '\n' :: more ∧
          ys.takeWhile (· ≠ '\n') = line := by
        obtain ⟨line, back, hys, -, hnewline, rfl | ⟨more, rfl⟩⟩ := exists_line ys
        · rw [List.append_nil] at hys
          exact absurd (by rw [hnewline, hys]) hline
        · exact ⟨line, more, hys, hnewline⟩
      have hsize : ('\n' : Char).utf8Size = 1 := rfl
      rw [hnewline]
      refine ⟨⟨xs ++ line ++ ['\n'], more, by rw [hys]; simp, ?_⟩, fun s hs => ⟨?_, fun hne => ?_⟩⟩
      · simp only [width_append, width_cons, width_nil, hsize]
        omega
      · by_cases heq : s = s₀
        · rw [heq, hstop₀]
          exact .inl (by omega)
        · rcases or_of_pairwise hbefore hs hs₀ heq with hb | ⟨newline, hmem, hk, hstart, hstop⟩
          · have hle' := hb.le
            have hspan₀ := Site.span_lt ((hin s₀ hs₀).areTokens (areTokens_of_tokens hts).1)
            exact .inl (by omega)
          · obtain ⟨us, vs, hcs, hus, htoken⟩ := exists_append_of_mem_tokens hts hmem
            rw [hk] at htoken
            have htext := htoken.eq_newline
            rw [htext] at hcs
            obtain ⟨zs, rfl, hzs⟩ := exists_between hcs (by omega)
            have hle' := @width_takeWhile_le zs vs
            rw [hzs, List.singleton_append] at hnewline
            rw [hnewline] at hle'
            rw [Token.stop, htext, hus, width_append] at hstop
            simp only [width_cons, width_nil, hsize] at hstop
            exact .inr (by omega)
      · have := hstops s hs hne
        omega

end BuildSync.Build
