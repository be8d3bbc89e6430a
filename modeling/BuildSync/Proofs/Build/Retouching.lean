import BuildSync.Proofs.Build.Pieces
import BuildSync.Proofs.Build.Reading
import BuildSync.Proofs.Build.WrittenLists

/-!
# Replacing the values of arguments

* `NewList`: a list to be written in place of a value. `Retouches`: attributes some of which say
  new lists.
* `allEdits`: the edits that write new lists where the last arguments of their names stand.
* `rewrites_arguments`: these edits turn the arguments into ones that say the new lists.
-/

namespace BuildSync.Build

open Text

/-! ## Replacing values -/

/-- A list that is to stand in place of a value: its text where the value starts at a byte, the
tokens in its brackets, and what they say. -/
structure NewList where
  text : Nat → List Char
  body : List Token
  list : ListValue String
  written : ∀ n, IsWritten (text n) (bracketTokens body)
  head : ∀ n, (text n).head? = some '['
  reads : listOf? body = some list

/-- Some attributes say new lists: for each name with a new list, the last one. -/
structure Retouches (news : String → Option NewList) (as as' : List Attribute) : Prop where
  each : ∀ a' ∈ as', a' ∈ as ∨
    ∃ name new, news name = some new ∧ a'.key = some name ∧ a'.list? = some new.list
  kept : ∀ name, news name = none ∨ lastAttribute name as = none →
    lastAttribute name as' = lastAttribute name as
  changed : ∀ name new, news name = some new → lastAttribute name as ≠ none →
    ∃ a', lastAttribute name as' = some a' ∧ a'.list? = some new.list

theorem Retouches.refl {news : String → Option NewList} {as : List Attribute}
    (h : ∀ name, news name ≠ none → lastAttribute name as = none) : Retouches news as as :=
  ⟨fun _ ha => .inl ha, fun _ _ => rfl,
    fun name new hn ha => absurd (h name (by simp [hn])) ha⟩

/-- The new lists of the names that do not come up again. -/
def newsBefore (news : String → Option NewList) (later : List Attribute) (name : String) :
    Option NewList :=
  if lastAttribute name later = none then news name else none

theorem Retouches.append {news : String → Option NewList} {as as' bs bs' : List Attribute}
    (ha : Retouches (newsBefore news bs) as as') (hb : Retouches news bs bs') :
    Retouches news (as ++ bs) (as' ++ bs') := by
  have hnone : ∀ name, lastAttribute name bs = none → lastAttribute name bs' = none :=
    fun name h => (hb.kept name (.inr h)).trans h
  refine ⟨fun a' h => ?_, fun name h => ?_, fun name new hn h => ?_⟩
  · rcases List.mem_append.1 h with h | h
    · rcases ha.each a' h with h | ⟨name, new, hn, hk, hl⟩
      · exact .inl (List.mem_append_left bs h)
      · unfold newsBefore at hn
        split at hn
        · exact .inr ⟨name, new, hn, hk, hl⟩
        · cases hn
    · rcases hb.each a' h with h | h
      · exact .inl (List.mem_append_right as h)
      · exact .inr h
  · simp only [lastAttribute_append] at h ⊢
    by_cases hl : lastAttribute name bs = none
    · rw [hnone name hl, hl, Option.none_or, Option.none_or]
      refine ha.kept name (h.imp (fun h => ?_) fun h => ?_)
      · simp [newsBefore, hl, h]
      · simpa [hl] using h
    · have hn : news name = none := by
        refine h.resolve_right fun h => hl ?_
        exact (Option.or_eq_none_iff.1 h).1
      have hkept := hb.kept name (.inl hn)
      obtain ⟨a, ha'⟩ := Option.ne_none_iff_exists'.1 hl
      rw [hkept, ha', Option.some_or, Option.some_or]
  · simp only [lastAttribute_append] at h ⊢
    by_cases hl : lastAttribute name bs = none
    · rw [hnone name hl, Option.none_or]
      refine ha.changed name new (by simp [newsBefore, hl, hn]) fun hnone => h ?_
      rw [hl, Option.none_or, hnone]
    · obtain ⟨a', ha', hlist⟩ := hb.changed name new hn hl
      exact ⟨a', by rw [ha', Option.some_or], hlist⟩

/-- The edit that writes a new list where a value stands. -/
def valueEdits (new : Option NewList) (span : Option Span) : List Edit :=
  match new, span with
  | some new, some span => [⟨span.start, span.stop, new.text span.start⟩]
  | _, _ => []

/-- The edits of all values. -/
def allEdits (news : String → Option NewList) (ts : List Token) : List Edit :=
  valueEdits (news "srcs") (spanOf "srcs" ts) ++ valueEdits (news "deps") (spanOf "deps" ts)

/-- New lists are for the attributes that are lists. -/
structure AreNews (news : String → Option NewList) (ts : List Token) : Prop where
  names : ∀ name, news name ≠ none → name = "srcs" ∨ name = "deps"
  lists : ∀ name a, news name ≠ none → lastAttribute name (attributes ts) = some a →
    a.list? ≠ none

@[simp] theorem valueEdits_none (span : Option Span) : valueEdits none span = [] := rfl

@[simp] theorem valueEdits_nowhere (new : Option NewList) : valueEdits new none = [] := by
  cases new <;> rfl

/-- The one argument of a part, with a new list for its value. -/
theorem rewrites_value (w : Prop) {xs : List Token} (hproper : ∀ t ∈ xs, t.IsProper)
    {arg : Argument} {name : String} (hx : Argument.ofTokens? xs = some arg)
    (hk : arg.key = some name) (hl : arg.list? ≠ none) (new : NewList) :
    ∃ us, Rewrites w xs (valueEdits (some new) arg.span?) us ∧ nest [] us = some [] ∧
      ∃ words, attributes us = [⟨some name, words, some new.list⟩] := by
  obtain ⟨front, rfl, hfront, hvalue⟩ := ofTokens?_eq_some hx hk
  have hbracketed : arg.bracketed? ≠ none := fun h => hl (by rw [list?_eq, h]; rfl)
  obtain ⟨body, hbody⟩ := Option.ne_none_iff_exists'.1 hbracketed
  obtain ⟨lead, first, last, trail, hval, hlead, htrail, hfirst, hlast⟩ :=
    bracketed?_eq_some.1 hbody
  have hspan := span?_of_value hval hlead htrail hfirst hlast
  have hopen : first.text = ['['] := (hproper first (by simp [hval])).square hfirst
  have hflat := kinds_of_listOf? new.reads
  have hlead' := isFlat_trivia hlead
  have htrail' := isFlat_trivia htrail
  -- The tokens that are meant, with positions in what is kept.
  let vs := front ++ (lead ++ (bracketTokens new.body ++ trail))
  have hbare : ((front ++ lead).map Token.bare ++
      (bracketTokens new.body ++ trail.map Token.bare)).map Token.bare = vs.map Token.bare := by
    simp [vs]
  refine ⟨(front ++ lead).map Token.bare ++ (bracketTokens new.body ++ trail.map Token.bare),
    ?_, ?_, ?_⟩
  · have hswap : Rewrites w (first :: (body ++ [last]))
        [⟨first.start, last.stop, new.text first.start⟩] (bracketTokens new.body) :=
      .swap fun _ => ⟨new.written _, fun h => by simpa [h] using new.head first.start,
        by rw [new.head, hopen]; rfl⟩
    have h := (Rewrites.keep w (front ++ lead)).append (hswap.append (.keep w trail))
    rw [hval, hspan]
    simpa [valueEdits] using h
  · have hnest : nest [] vs = some [] := by
      rw [nest_append, nest_flat fun t ht => (hfront t ht).1]
      simp only [Option.bind_some]
      rw [nest_append, nest_flat fun t ht => (hlead' t ht).1]
      simp only [Option.bind_some]
      rw [nest_append, nest_bracketTokens hflat]
      exact nest_flat (fun t ht => (htrail' t ht).1) _
    rw [← hnest]
    exact nest_congr hbare
  · have hpart : IsPart 0 vs := by
      refine isPart_append.2 ⟨isPart_flat (fun t ht => (hfront t ht).1)
        fun _ t ht => (hfront t ht).2, ?_⟩
      rw [depthAfter_flat fun t ht => (hfront t ht).1]
      refine isPart_append.2 ⟨isPart_flat (fun t ht => (hlead' t ht).1)
        fun _ t ht => (hlead' t ht).2, ?_⟩
      rw [depthAfter_flat fun t ht => (hlead' t ht).1]
      refine isPart_append.2 ⟨isPart_bracketTokens hflat 0, ?_⟩
      rw [depthAfter_bracketTokens hflat]
      exact isPart_flat (fun t ht => (htrail' t ht).1) fun _ t ht => (htrail' t ht).2
    have hlist : Argument.list? { arg with value := lead ++ (bracketTokens new.body ++ trail) } =
        some new.list := by
      have hvs : Argument.bracketed?
          { arg with value := lead ++ (bracketTokens new.body ++ trail) } = some new.body :=
        bracketed?_eq_some.2 ⟨lead, ⟨.opening .square, 0, ['[']⟩, ⟨.closing .square, 0, [']']⟩,
          trail, by simp [bracketTokens], hlead, htrail, rfl, rfl⟩
      rw [list?_eq, hvs]
      exact new.reads
    refine ⟨(Argument.attribute
      { arg with value := lead ++ (bracketTokens new.body ++ trail) }).words, ?_⟩
    rw [attributes_congr hbare, attributes_part hpart,
      hvalue, ← hlist, ← hk]
    rfl

/-- A part between commas. -/
theorem rewrites_part (w : Prop) {xs : List Token} (hproper : ∀ t ∈ xs, t.IsProper)
    (hpart : IsPart 0 xs) (hnest : nest [] xs = some []) {news : String → Option NewList}
    (hnews : AreNews news xs) :
    ∃ us, Rewrites w xs (allEdits news xs) us ∧ nest [] us = some [] ∧
      Retouches news (attributes xs) (attributes us) := by
  by_cases hx : ∃ arg name new, Argument.ofTokens? xs = some arg ∧ arg.key = some name ∧
      news name = some new
  · obtain ⟨arg, name, new, hx, hk, hn⟩ := hx
    have hlast : ∀ name', lastArgument name' (arguments xs) =
        if name' = name then some arg else none := by
      intro name'
      rw [arguments_part hpart, hx, Option.toList_some, lastArgument, lastNamed_singleton, hk]
      simp [eq_comm]
    have hl : arg.list? ≠ none := by
      refine hnews.lists name arg.attribute (by simp [hn]) ?_
      rw [attributes, lastAttribute_map, hlast, if_pos rfl]
      rfl
    obtain ⟨us, hus, hnest', words, hwords⟩ := rewrites_value w hproper hx hk hl new
    have hedits : allEdits news xs = valueEdits (some new) arg.span? := by
      unfold allEdits spanOf
      rw [hlast, hlast]
      rcases hnews.names name (by simp [hn]) with rfl | rfl <;> simp [hn]
    refine ⟨us, hedits ▸ hus, hnest', ?_⟩
    have hattr : attributes xs = [arg.attribute] := by
      rw [attributes_part hpart, hx]
      rfl
    have hkey : arg.attribute.key = some name := hk
    rw [hwords, hattr]
    refine ⟨fun a' h => ?_, fun name' h => ?_, fun name' new' hn' h => ?_⟩
    · rw [List.mem_singleton.1 h]
      exact .inr ⟨name, new, hn, rfl, rfl⟩
    · have hne : name ≠ name' := by
        rintro rfl
        rcases h with h | h
        · rw [hn] at h
          cases h
        · rw [lastAttribute, lastNamed_singleton, if_pos hkey] at h
          cases h
      simp [lastAttribute, lastNamed_singleton, hkey, hne]
    · have heq : name = name' := by
        refine Classical.byContradiction fun hne => h ?_
        rw [lastAttribute, lastNamed_singleton, hkey]
        simp [hne]
      subst heq
      cases hn.symm.trans hn'
      exact ⟨_, by rw [lastAttribute, lastNamed_singleton, if_pos rfl], rfl⟩
  · have hnone : ∀ name, news name ≠ none → lastArgument name (arguments xs) = none := by
      intro name hn
      rw [arguments_part hpart]
      cases hx' : Argument.ofTokens? xs with
      | none => rfl
      | some arg =>
        rw [Option.toList_some, lastArgument, lastNamed_singleton]
        refine if_neg fun hk => hx ?_
        obtain ⟨new, hn⟩ := Option.ne_none_iff_exists'.1 hn
        exact ⟨arg, name, new, hx', hk, hn⟩
    have hvalue : ∀ name, valueEdits (news name) (spanOf name xs) = [] := by
      intro name
      by_cases hn : news name = none
      · rw [hn]
        rfl
      · rw [spanOf, hnone name hn]
        exact valueEdits_nowhere _
    have hedits : allEdits news xs = [] := by
      unfold allEdits
      rw [hvalue, hvalue]
      rfl
    refine ⟨xs.map Token.bare, hedits ▸ .keep w xs, by rw [nest_bare, hnest], ?_⟩
    rw [attributes_bare]
    refine .refl fun name hn => ?_
    unfold attributes
    rw [lastAttribute_map, hnone name hn]
    rfl

/-- **The last arguments of their names get new lists.** -/
theorem rewrites_arguments (w : Prop) {xs : List Token} (hproper : ∀ t ∈ xs, t.IsProper)
    (hnest : nest [] xs = some []) {news : String → Option NewList} (hnews : AreNews news xs) :
    ∃ es us, Rewrites w xs es us ∧ es.Perm (allEdits news xs) ∧ nest [] us = some [] ∧
      Retouches news (attributes xs) (attributes us) := by
  induction xs using parts_induction generalizing news with
  | part xs hpart =>
    obtain ⟨us, hus, hnest', hretouch⟩ := rewrites_part w hproper hpart hnest hnews
    exact ⟨_, us, hus, .refl _, hnest', hretouch⟩
  | comma xs c ys hc hpart hdepth ih =>
    obtain ⟨hxs, hys⟩ := nest_of_comma hc hnest hdepth
    have hargs := arguments_comma hdepth hc ys
    have hattrs := attributes_comma hdepth hc ys
    have hlater : ∀ name, lastAttribute name (attributes ys) = none ↔
        lastArgument name (arguments ys) = none := by
      intro name
      unfold attributes
      rw [lastAttribute_map, Option.map_eq_none_iff]
    have hbefore : ∀ name, newsBefore news (attributes ys) name ≠ none →
        news name ≠ none ∧ lastArgument name (arguments ys) = none := by
      intro name h
      unfold newsBefore at h
      split at h
      · rename_i hl
        exact ⟨h, (hlater name).1 hl⟩
      · exact absurd rfl h
    have hnewsx : AreNews (newsBefore news (attributes ys)) xs := by
      refine ⟨fun name h => hnews.names name (hbefore name h).1, fun name a h ha => ?_⟩
      refine hnews.lists name a (hbefore name h).1 ?_
      rw [hattrs, lastAttribute_append, (hlater name).2 (hbefore name h).2, Option.none_or, ha]
    have hnewsy : AreNews news ys := by
      refine ⟨hnews.names, fun name a h ha => hnews.lists name a h ?_⟩
      rw [hattrs, lastAttribute_append, ha, Option.some_or]
    obtain ⟨us, hus, hnestu, hretouchx⟩ :=
      rewrites_part w (fun t ht => hproper t (by simp [ht])) hpart hxs hnewsx
    obtain ⟨es, vs, hvs, hperm, hnestv, hretouchy⟩ :=
      ih (fun t ht => hproper t (by simp [ht])) hys hnewsy
    have hvalue : ∀ name, valueEdits (news name) (spanOf name (xs ++ c :: ys)) =
        valueEdits (newsBefore news (attributes ys) name) (spanOf name xs) ++
          valueEdits (news name) (spanOf name ys) := by
      intro name
      unfold spanOf newsBefore
      rw [hargs, lastArgument_append]
      by_cases hl : lastArgument name (arguments ys) = none
      · rw [if_pos ((hlater name).2 hl), hl]
        simp
      · obtain ⟨arg, ha⟩ := Option.ne_none_iff_exists'.1 hl
        rw [if_neg fun h => hl ((hlater name).1 h), ha]
        simp
    have hcomma : Rewrites w [c] [] [c.bare] := .keep w [c]
    refine ⟨_, _, hus.append (hcomma.append hvs), ?_, ?_, ?_⟩
    · unfold allEdits
      rw [hvalue, hvalue, List.nil_append]
      refine (List.Perm.append_left _ hperm).trans ?_
      unfold allEdits
      rw [List.append_assoc, List.append_assoc]
      refine List.Perm.append_left _ ?_
      exact List.perm_append_comm_assoc _ _ _
    · rw [nest_append, hnestu, Option.bind_some, List.singleton_append]
      simpa [nest, hc] using hnestv
    · have hdepthu : depthAfter 0 us = 0 := depthAfter_of_nest hnestu
      have hc' : c.bare.kind = .comma := hc
      rw [attributes_comma hdepth hc, List.singleton_append, attributes_comma hdepthu hc']
      exact hretouchx.append hretouchy

end BuildSync.Build
