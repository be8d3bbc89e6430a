import BuildSync.Proofs.Build.Lists

/-!
# What is read of a statement

What a call says depends on its arguments without their positions, and for each attribute of a
rule on the last argument of that name.

* `Attribute`: what an argument says. `attributes_comma`, `attributes_append_trivia`: attributes
  are read part by part, and newlines and comments between them say nothing.
* `Rule.IsReadFrom`: a rule is what some attributes say. `Rule.parse_eq_ok`, `Rule.exists_parse`:
  exactly such rules are read.
* `Load.parse_eq_ok`, `Load.exists_parse`: a load binds the symbols that its arguments name, and
  is read again from the same arguments.
-/

namespace BuildSync.Build

/-! ## Attributes -/

/-- What an argument says: its name, the tokens of its value and the list that this is. -/
structure Attribute where
  key : Option String
  words : List Token
  list? : Option (ListValue String)

def Argument.attribute (arg : Argument) : Attribute :=
  ⟨arg.key, arg.significant.map Token.bare, arg.list?⟩

/-- What the arguments of a call say. -/
def attributes (inside : List Token) : List Attribute :=
  (arguments inside).map Argument.attribute

namespace Attribute

/-- The text of a value that is one string literal. -/
def text? (a : Attribute) : Option String :=
  match a.words with
  | [t] => if t.kind = .string then some (String.ofList (literalValue t.text)) else none
  | _ => none

/-- The value is one of the words that switch an attribute on. -/
def isTrue (a : Attribute) : Bool :=
  match a.words with
  | [t] => t.text = "True".toList || t.text = "1".toList
  | _ => false

end Attribute

theorem string?_eq (arg : Argument) : arg.string? = arg.attribute.text? := by
  unfold Argument.string? Attribute.text? Argument.attribute
  rcases arg.significant with - | ⟨t, - | ⟨u, us⟩⟩ <;> rfl

theorem isTrue_eq (arg : Argument) : arg.isTrue = arg.attribute.isTrue := by
  unfold Argument.isTrue Attribute.isTrue Argument.attribute
  rcases arg.significant with - | ⟨t, - | ⟨u, us⟩⟩ <;> rfl

theorem significant_bare (arg : Argument) :
    arg.bare.significant = arg.significant.map Token.bare := by
  unfold Argument.significant Argument.bare
  rw [List.filter_map]
  rfl

theorem attribute_bare (arg : Argument) : arg.bare.attribute = arg.attribute := by
  unfold Argument.attribute
  rw [significant_bare, list?_bare, List.map_map]
  rfl

/-- Attributes have no positions. -/
theorem attributes_bare (ts : List Token) : attributes (ts.map Token.bare) = attributes ts := by
  unfold attributes
  rw [arguments_bare, List.map_map]
  exact List.map_congr_left fun arg _ => attribute_bare arg

theorem attributes_congr {ts us : List Token} (h : ts.map Token.bare = us.map Token.bare) :
    attributes ts = attributes us := by
  rw [← attributes_bare ts, h, attributes_bare]

/-- **Attributes are read part by part.** -/
theorem attributes_comma {xs : List Token} (h : depthAfter 0 xs = 0) {comma : Token}
    (hc : comma.kind = .comma) (ys : List Token) :
    attributes (xs ++ comma :: ys) = attributes xs ++ attributes ys := by
  unfold attributes
  rw [arguments_comma h hc, List.map_append]

theorem attributes_part {ts : List Token} (h : IsPart 0 ts) :
    attributes ts = ((Argument.ofTokens? ts).map Argument.attribute).toList := by
  unfold attributes
  rw [arguments_part h]
  cases Argument.ofTokens? ts <;> rfl

theorem significant_append_trivia (arg : Argument) {trail : List Token}
    (h : ∀ t ∈ trail, t.isTrivia = true) :
    Argument.significant { arg with value := arg.value ++ trail } = arg.significant := by
  have hnone : trail.filter (fun t => !t.isTrivia) = [] :=
    List.filter_eq_nil_iff.2 fun t ht => by simp [h t ht]
  unfold Argument.significant
  rw [List.filter_append, hnone, List.append_nil]

theorem attribute_append_trivia (arg : Argument) {trail : List Token}
    (h : ∀ t ∈ trail, t.isTrivia = true) :
    Argument.attribute { arg with value := arg.value ++ trail } = arg.attribute := by
  have hbracketed : Argument.bracketed? { arg with value := arg.value ++ trail } =
      arg.bracketed? := by
    unfold Argument.bracketed?
    dsimp only
    rw [List.dropWhile_append]
    cases hd : arg.value.dropWhile Token.isTrivia with
    | nil => simp [List.dropWhile_eq_nil_iff.2 h]
    | cons first rest =>
      simp only [List.isEmpty_cons, Bool.false_eq_true, if_false, List.cons_append]
      rw [List.reverse_append,
        List.dropWhile_append_of_pos fun t ht => h t (List.mem_reverse.1 ht)]
  unfold Argument.attribute
  rw [significant_append_trivia arg h, list?_eq, list?_eq, hbracketed]

/-- Where an argument of a name stands. -/
def Argument.place (arg : Argument) : Option String × Option Span :=
  (arg.key, arg.span?)

theorem place_append_trivia (arg : Argument) {trail : List Token}
    (h : ∀ t ∈ trail, t.isTrivia = true) :
    Argument.place { arg with value := arg.value ++ trail } = arg.place := by
  unfold Argument.place Argument.span?
  rw [significant_append_trivia arg h]

section Trivia

variable {β : Type} {f : Argument → β} {trail : List Token}

/-- Newlines and comments behind an argument say nothing. -/
theorem ofTokens?_append_trivia (h : ∀ t ∈ trail, t.isTrivia = true)
    (hf : ∀ arg, f { arg with value := arg.value ++ trail } = f arg) (ts : List Token) :
    (Argument.ofTokens? (ts ++ trail)).map f = (Argument.ofTokens? ts).map f := by
  unfold Argument.ofTokens?
  rw [List.dropWhile_append]
  cases hd : ts.dropWhile Token.isTrivia with
  | nil => simp [List.dropWhile_eq_nil_iff.2 h]
  | cons first rest =>
    simp only [List.isEmpty_cons, Bool.false_eq_true, if_false, List.cons_append]
    have hwhole := hf ⟨none, first.start, first :: rest⟩
    cases rest with
    | nil =>
      cases trail with
      | nil => rfl
      | cons t trail =>
        have ht : t.kind ≠ .equals := by
          intro hk
          have := h t List.mem_cons_self
          simp [Token.isTrivia, hk] at this
        simpa [ht] using hwhole
    | cons second value =>
      by_cases hk : first.kind = .word ∧ second.kind = .equals
      · have hvalue := hf ⟨some (String.ofList first.text), first.start, value⟩
        simpa [hk] using hvalue
      · simpa [hk] using hwhole

/-- Tokens that neither nest nor separate belong to the last part. -/
theorem splitArguments_append_flat {ys : List Token}
    (h : ∀ t ∈ ys, t.isFlat = true ∧ t.kind ≠ .comma) (depth : Nat) (xs : List Token) :
    ∃ parts part, splitArguments depth xs = parts ++ [part] ∧
      splitArguments depth (xs ++ ys) = parts ++ [part ++ ys] := by
  induction xs generalizing depth with
  | nil =>
    have hpart : IsPart depth ys := isPart_flat (fun t ht => (h t ht).1) fun _ t ht => (h t ht).2
    exact ⟨[], [], rfl, splitArguments_of_isPart hpart⟩
  | cons t xs ih =>
    obtain ⟨parts, part, hxs, hys⟩ := ih (nextDepth depth t)
    rw [List.cons_append, splitArguments_cons, splitArguments_cons, hxs, hys]
    split
    · exact ⟨[] :: parts, part, rfl, rfl⟩
    · cases parts with
      | nil => exact ⟨[], t :: part, rfl, rfl⟩
      | cons p parts => exact ⟨(t :: p) :: parts, part, rfl, rfl⟩

theorem isFlat_trivia {ts : List Token} (h : ∀ t ∈ ts, t.isTrivia = true) :
    ∀ t ∈ ts, t.isFlat = true ∧ t.kind ≠ .comma := by
  intro t ht
  refine ⟨isFlat_of_isTrivia (h t ht), fun hk => ?_⟩
  have := h t ht
  simp [Token.isTrivia, hk] at this

/-- Newlines and comments behind the arguments change nothing about them. -/
theorem map_arguments_append_trivia (h : ∀ t ∈ trail, t.isTrivia = true)
    (hf : ∀ arg, f { arg with value := arg.value ++ trail } = f arg) (ts : List Token) :
    (arguments (ts ++ trail)).map f = (arguments ts).map f := by
  obtain ⟨parts, part, hts, htrail⟩ := splitArguments_append_flat (isFlat_trivia h) 0 ts
  unfold arguments
  rw [hts, htrail, List.map_filterMap, List.map_filterMap, List.filterMap_append,
    List.filterMap_append, List.filterMap_cons, List.filterMap_cons, ofTokens?_append_trivia h hf]

end Trivia

/-- **Newlines and comments** behind the arguments say nothing. -/
theorem attributes_append_trivia {trail : List Token} (h : ∀ t ∈ trail, t.isTrivia = true)
    (ts : List Token) : attributes (ts ++ trail) = attributes ts :=
  map_arguments_append_trivia h (fun arg => attribute_append_trivia arg h) ts

/-! ## The last argument of a name -/

/-- The last element of a name. -/
def lastNamed {α : Type} (nameOf : α → Option String) (name : String) (xs : List α) : Option α :=
  xs.reverse.find? fun x => nameOf x = some name

section LastNamed

variable {α : Type} {nameOf : α → Option String} {name : String}

@[simp] theorem lastNamed_nil : lastNamed nameOf name [] = none := rfl

theorem lastNamed_append (xs ys : List α) :
    lastNamed nameOf name (xs ++ ys) =
      (lastNamed nameOf name ys).or (lastNamed nameOf name xs) := by
  unfold lastNamed
  rw [List.reverse_append, List.find?_append]

theorem lastNamed_singleton (x : α) :
    lastNamed nameOf name [x] = if nameOf x = some name then some x else none := by
  unfold lastNamed
  by_cases h : nameOf x = some name <;> simp [h]

theorem lastNamed_some {xs : List α} {x : α} (h : lastNamed nameOf name xs = some x) :
    x ∈ xs ∧ nameOf x = some name :=
  ⟨List.mem_reverse.1 (List.mem_of_find?_eq_some h), by simpa using List.find?_some h⟩

end LastNamed

/-- The last argument of a name. -/
abbrev lastArgument (name : String) (args : List Argument) : Option Argument :=
  lastNamed Argument.key name args

/-- The last attribute of a name. -/
abbrev lastAttribute (name : String) (as : List Attribute) : Option Attribute :=
  lastNamed Attribute.key name as

theorem lastArgument_append (name : String) (xs ys : List Argument) :
    lastArgument name (xs ++ ys) = (lastArgument name ys).or (lastArgument name xs) :=
  lastNamed_append xs ys

theorem lastAttribute_append (name : String) (xs ys : List Attribute) :
    lastAttribute name (xs ++ ys) = (lastAttribute name ys).or (lastAttribute name xs) :=
  lastNamed_append xs ys

theorem lastNamed_map {α β : Type} (nameOf : β → Option String) (f : α → β) (name : String)
    (xs : List α) : lastNamed nameOf name (xs.map f) =
      (lastNamed (fun x => nameOf (f x)) name xs).map f := by
  unfold lastNamed
  rw [← List.map_reverse, List.find?_map]
  rfl

theorem lastAttribute_map (name : String) (args : List Argument) :
    lastAttribute name (args.map Argument.attribute) =
      (lastArgument name args).map Argument.attribute :=
  lastNamed_map Attribute.key Argument.attribute name args

/-- Where the last argument of a name stands. -/
def spanOf (name : String) (ts : List Token) : Option Span :=
  (lastArgument name (arguments ts)).bind Argument.span?

theorem spanOf_eq (name : String) (ts : List Token) :
    spanOf name ts =
      (lastNamed Prod.fst name ((arguments ts).map Argument.place)).bind Prod.snd := by
  rw [lastNamed_map]
  unfold spanOf
  cases h : lastArgument name (arguments ts) <;>
    simp only [lastArgument, Argument.place] at h ⊢ <;> rw [h] <;> rfl

theorem spanOf_append_trivia {trail : List Token} (h : ∀ t ∈ trail, t.isTrivia = true)
    (name : String) (ts : List Token) : spanOf name (ts ++ trail) = spanOf name ts := by
  rw [spanOf_eq, spanOf_eq,
    map_arguments_append_trivia h fun arg => place_append_trivia arg h]

/-! ## Attributes of a rule -/

/-- The sources that the last attribute of that name says. -/
def srcsFrom : Option Attribute → ListAttr String
  | none => .absent
  | some a => (a.list?.map ListAttr.literal).getD .computed

/-- The dependencies that the last attribute of that name says. -/
def depsFrom (package : String) : Option Attribute → ListAttr Label
  | none => .absent
  | some a => (a.list?.map fun list =>
      ((labels? package list).map ListAttr.literal).getD .computed).getD .computed

/-- The kind of a rule as `testonly` changes it. -/
def RuleKind.withTestonly (kind : RuleKind) : Option Attribute → RuleKind
  | none => kind
  | some a =>
    match kind with
    | .library _ => .library a.isTrue
    | k => k

/-- An attribute that a rule can have: a name is a string, and dependencies are labels. -/
structure Attribute.IsReadable (package : String) (a : Attribute) : Prop where
  name : a.key = some "name" → a.text?.isSome = true
  deps : a.key = some "deps" → ∀ list, a.list? = some list → (labels? package list).isSome = true

/-- **A rule is what its attributes say.** -/
structure Rule.IsReadFrom (package : String) (kind : RuleKind) (as : List Attribute) (rule : Rule) :
    Prop where
  readable : ∀ a ∈ as, a.IsReadable package
  kind : rule.kind = kind.withTestonly (lastAttribute "testonly" as)
  name : (lastAttribute "name" as).bind Attribute.text? = some rule.name
  srcs : rule.srcs = srcsFrom (lastAttribute "srcs" as)
  deps : rule.deps = depsFrom package (lastAttribute "deps" as)
  moduleName : rule.moduleName = (lastAttribute "module_name" as).bind Attribute.text?

/-- The rule without its place in a file. -/
def Rule.plain (rule : Rule) : Rule :=
  { rule with origin := none, srcsChanged := false, depsChanged := false }

namespace RuleReader

/-- What a keyword argument changes. -/
def accept (text : List Char) (package : String) (r : RuleReader) (arg : Argument) :
    RuleReader where
  kind := if arg.key = some "testonly" then r.kind.withTestonly arg.attribute else r.kind
  name := if arg.key = some "name" then arg.string? else r.name
  srcs := if arg.key = some "srcs" then srcsFrom arg.attribute else r.srcs
  deps := if arg.key = some "deps" then depsFrom package arg.attribute else r.deps
  srcsSpan := if arg.key = some "srcs" then arg.span? else r.srcsSpan
  depsSpan := if arg.key = some "deps" then arg.span? else r.depsSpan
  moduleName := if arg.key = some "module_name" then arg.string? else r.moduleName
  indent := if arg.key.isSome then r.indent <|> indentAt? text arg.start else r.indent

/-- Dependencies are read unless one of them is no label. -/
theorem dependencies_eq_ok_iff {package : String} {arg : Argument} {deps : ListAttr Label} :
    dependencies package arg = .ok deps ↔
      (∀ list, arg.list? = some list → (labels? package list).isSome = true) ∧
        deps = depsFrom package (some arg.attribute) := by
  have hfrom : depsFrom package (some arg.attribute) = (arg.list?.map fun list =>
      ((labels? package list).map ListAttr.literal).getD .computed).getD .computed := rfl
  rw [dependencies_eq_ok, hfrom]
  constructor
  · rintro (⟨hl, rfl⟩ | ⟨list, labels, hl, hlabels, rfl⟩)
    · simp [hl]
    · simp [hl, hlabels]
  · rintro ⟨hread, rfl⟩
    cases hl : arg.list? with
    | none => exact .inl ⟨rfl, rfl⟩
    | some list =>
      obtain ⟨labels, hlabels⟩ := Option.isSome_iff_exists.1 (hread list hl)
      exact .inr ⟨list, labels, rfl, hlabels, by simp [hlabels]⟩

theorem argument_eq_ok {text : List Char} {package : String} {r r' : RuleReader} {arg : Argument} :
    argument text package r arg = .ok r' ↔
      arg.attribute.IsReadable package ∧ r' = r.accept text package arg := by
  have hsources : sources arg = srcsFrom (some arg.attribute) := sources_eq arg
  have hattr : arg.attribute.key = arg.key := rfl
  have hok : ∀ {new : RuleReader} (p : Prop), p → (Except.ok new = Except.ok (ε := Fault) r' ↔
      p ∧ r' = new) := by
    intro new p hp
    exact ⟨fun h => ⟨hp, (Except.ok.inj h).symm⟩, fun h => by rw [h.2]⟩
  have hother : arg.key ≠ some "name" → arg.key ≠ some "deps" →
      arg.attribute.IsReadable package :=
    fun hn hd => ⟨fun h => absurd h hn, fun h => absurd h hd⟩
  unfold argument accept
  cases hkey : arg.key with
  | none => exact hok _ (hother (by simp [hkey]) (by simp [hkey]))
  | some key =>
    dsimp only
    by_cases hname : key = "name"
    · subst hname
      rw [if_pos rfl]
      cases hs : arg.string? with
      | none =>
        have hread : ¬ arg.attribute.IsReadable package := by
          intro h
          have := h.name (hattr.trans hkey)
          rw [← string?_eq, hs] at this
          cases this
        simp [hread]
      | some name =>
        have hread : arg.attribute.IsReadable package :=
          ⟨fun _ => by rw [← string?_eq, hs]; rfl, fun h => by simp [hattr, hkey] at h⟩
        simpa using hok _ hread
    · rw [if_neg hname]
      have hname' : arg.key ≠ some "name" := by simp [hkey, hname]
      by_cases hmodule : key = "module_name"
      · subst hmodule
        simpa using hok _ (hother hname' (by simp [hkey]))
      · by_cases htest : key = "testonly"
        · subst htest
          have hread := hother hname' (by simp [hkey])
          cases hkind : r.kind with
          | library b => simpa [RuleKind.withTestonly, ← isTrue_eq] using hok _ hread
          | declaration => simpa [RuleKind.withTestonly, hkind] using hok _ hread
          | config => simpa [RuleKind.withTestonly, hkind] using hok _ hread
          | devSources => simpa [RuleKind.withTestonly, hkind] using hok _ hread
        · by_cases hsrcs : key = "srcs"
          · subst hsrcs
            simpa [hsources] using hok _ (hother hname' (by simp [hkey]))
          · by_cases hdeps : key = "deps"
            · subst hdeps
              have hread : arg.attribute.IsReadable package ↔
                  ∀ list, arg.list? = some list → (labels? package list).isSome = true :=
                ⟨fun h => h.deps (hattr.trans hkey),
                  fun h => ⟨fun h => absurd h hname', fun _ => h⟩⟩
              simp only [String.reduceEq, if_false, if_true, bind_eq_ok, dependencies_eq_ok_iff,
                hread]
              constructor
              · rintro ⟨deps, ⟨hlabels, rfl⟩, hr⟩
                exact ⟨hlabels, (Except.ok.inj hr).symm⟩
              · rintro ⟨hlabels, rfl⟩
                exact ⟨_, ⟨hlabels, rfl⟩, rfl⟩
            · have hread := hother hname' (by simp [hkey, hdeps])
              simpa [hname, hmodule, htest, hsrcs, hdeps] using hok _ hread

theorem foldlM_argument_eq_ok {text : List Char} {package : String} {args : List Argument}
    {r r' : RuleReader} :
    args.foldlM (argument text package) r = .ok r' ↔
      (∀ a ∈ args.map Argument.attribute, a.IsReadable package) ∧
        r' = args.foldl (accept text package) r := by
  induction args generalizing r with
  | nil => exact ⟨fun h => ⟨by simp, (Except.ok.inj h).symm⟩, fun h => congrArg Except.ok h.2.symm⟩
  | cons arg args ih =>
    rw [List.foldlM_cons, bind_eq_ok]
    simp only [argument_eq_ok, ih, List.map_cons, List.forall_mem_cons, List.foldl_cons]
    constructor
    · rintro ⟨-, ⟨hread, rfl⟩, hall, hr⟩
      exact ⟨⟨hread, hall⟩, hr⟩
    · rintro ⟨⟨hread, hall⟩, hr⟩
      exact ⟨_, ⟨hread, rfl⟩, hall, hr⟩

section Fields

variable {β : Type} {text : List Char} {package : String} {f : RuleReader → β} {name : String}
  {v : Option Argument → β → β}

/-- A field that arguments of one name change, each undoing what another did, is what the last of
them makes it. -/
theorem field_foldl_accept (hnone : ∀ b, v none b = b)
    (hstep : ∀ r arg, f (accept text package r arg) =
      if arg.key = some name then v (some arg) (f r) else f r)
    (hlast : ∀ a a' b, v (some a) (v (some a') b) = v (some a) b)
    (args : List Argument) (r : RuleReader) :
    f (args.foldl (accept text package) r) = v (lastArgument name args) (f r) := by
  induction args generalizing r with
  | nil => exact (hnone _).symm
  | cons arg args ih =>
    have hcons : lastArgument name (arg :: args) =
        (lastArgument name args).or (if arg.key = some name then some arg else none) := by
      rw [← lastNamed_singleton, ← lastNamed_append]
      rfl
    rw [List.foldl_cons, ih, hstep, hcons]
    cases lastArgument name args with
    | none => by_cases hk : arg.key = some name <;> simp [hk, hnone]
    | some a => by_cases hk : arg.key = some name <;> simp [hk, hlast]

end Fields

/-- What is known of a rule before its arguments are read. -/
def start (kind : RuleKind) : RuleReader :=
  ⟨kind, none, .absent, .absent, none, none, none, none⟩

/-- The indent that is kept is blank. -/
theorem indent_foldl_accept (text : List Char) (package : String) (args : List Argument)
    {r : RuleReader} (h : ∀ s ∈ r.indent, ∀ c ∈ s.toList, Text.isIndent c = true) :
    ∀ s ∈ (args.foldl (accept text package) r).indent, ∀ c ∈ s.toList, Text.isIndent c = true := by
  induction args generalizing r with
  | nil => exact h
  | cons arg args ih =>
    refine ih fun s hs => ?_
    have hs' : s ∈ r.indent ∨ indentAt? text arg.start = some s := by
      simp only [accept] at hs
      split at hs
      · cases hi : r.indent with
        | none =>
          rw [hi] at hs
          exact .inr hs
        | some i =>
          rw [hi] at hs
          exact .inl hs
      · exact .inl hs
    rcases hs' with hs | hs
    · exact h s hs
    · unfold indentAt? at hs
      dsimp only at hs
      split at hs
      · rename_i hfront
        cases hs
        intro c hc
        rw [String.toList_ofList] at hc
        exact List.all_eq_true.1 hfront.2 c hc
      · cases hs

/-- **What the arguments of a rule make of it.** -/
theorem foldl_accept_start (text : List Char) (package : String) (kind : RuleKind)
    (args : List Argument) :
    ∃ indent : Option String, (∀ s ∈ indent, ∀ c ∈ s.toList, Text.isIndent c = true) ∧
      args.foldl (accept text package) (start kind) =
      { kind := kind.withTestonly (lastAttribute "testonly" (args.map Argument.attribute))
        name := (lastAttribute "name" (args.map Argument.attribute)).bind Attribute.text?
        srcs := srcsFrom (lastAttribute "srcs" (args.map Argument.attribute))
        deps := depsFrom package (lastAttribute "deps" (args.map Argument.attribute))
        srcsSpan := (lastArgument "srcs" args).bind Argument.span?
        depsSpan := (lastArgument "deps" args).bind Argument.span?
        moduleName := (lastAttribute "module_name" (args.map Argument.attribute)).bind
          Attribute.text?
        indent := indent } := by
  refine ⟨_, indent_foldl_accept text package args (r := start kind) (by simp [start]), ?_⟩
  simp only [lastAttribute_map]
  generalize hr : args.foldl (accept text package) (start kind) = r
  have hkind : r.kind =
      kind.withTestonly ((lastArgument "testonly" args).map Argument.attribute) := by
    rw [← hr]
    refine field_foldl_accept (f := RuleReader.kind)
      (v := fun o k => k.withTestonly (o.map Argument.attribute)) (fun _ => rfl)
      (fun _ _ => rfl) (fun a a' k => ?_) args (start kind)
    cases k <;> rfl
  have hother : ∀ {β : Type} (field : RuleReader → β) (name : String) (f : Argument → β),
      (∀ r arg, field (accept text package r arg) =
        if arg.key = some name then f arg else field r) →
      field r = (lastArgument name args).elim (field (start kind)) f := by
    intro β field name f hf
    rw [← hr]
    exact field_foldl_accept (v := fun o b => o.elim b f) (fun _ => rfl) hf
      (fun _ _ _ => rfl) args (start kind)
  have hname := hother RuleReader.name "name" _ fun _ _ => rfl
  have hsrcs := hother RuleReader.srcs "srcs" _ fun _ _ => rfl
  have hdeps := hother RuleReader.deps "deps" _ fun _ _ => rfl
  have hsrcsSpan := hother RuleReader.srcsSpan "srcs" _ fun _ _ => rfl
  have hdepsSpan := hother RuleReader.depsSpan "deps" _ fun _ _ => rfl
  have hmodule := hother RuleReader.moduleName "module_name" _ fun _ _ => rfl
  have htext : ∀ o : Option Argument,
      o.elim none Argument.string? = (o.map Argument.attribute).bind Attribute.text? := by
    rintro (- | arg)
    · rfl
    · exact string?_eq arg
  have hspan : ∀ o : Option Argument, o.elim none Argument.span? = o.bind Argument.span? := by
    rintro (- | arg) <;> rfl
  have hsources : ∀ o : Option Argument,
      (o.elim .absent fun arg => srcsFrom (some arg.attribute)) =
        srcsFrom (o.map Argument.attribute) := by
    rintro (- | arg) <;> rfl
  have hlabels : ∀ o : Option Argument,
      (o.elim .absent fun arg => depsFrom package (some arg.attribute)) =
        depsFrom package (o.map Argument.attribute) := by
    rintro (- | arg) <;> rfl
  rw [← htext, ← htext, ← hsources, ← hlabels, ← hspan, ← hspan]
  obtain ⟨_, _, _, _, _, _, _, _⟩ := r
  simp only [start] at *
  subst_vars
  rfl

end RuleReader

/-! ## Rules -/

/-- Where a rule stands, by the tokens of its call. -/
structure Origin.IsOf (callee : Token) (inside : List Token) (close : Token) (origin : Origin) :
    Prop where
  span : origin.span = ⟨callee.start, close.stop⟩
  /-- What is told by the last argument, or the comma after it. -/
  places : ∀ front last trail, inside = front ++ last :: trail → last.isTrivia = false →
    (∀ t ∈ trail, t.isTrivia = true) → origin.lastArgEnd = last.stop ∧
      origin.trailingComma = decide (last.kind = .comma) ∧
      origin.insertAt = (trail.head?.elim last.stop fun t =>
        if t.kind = .comment then t.stop else last.stop)
  multiline : origin.multiline = inside.any fun t => decide (t.kind = .newline)
  indent : ∀ c ∈ origin.indent.toList, Text.isIndent c = true
  srcs : origin.srcs = spanOf "srcs" inside
  deps : origin.deps = spanOf "deps" inside

theorem reverse_last (front : List Token) {trail : List Token} {last : Token}
    (hl : last.isTrivia = false) (ht : ∀ t ∈ trail, t.isTrivia = true) :
    (front ++ last :: trail).reverse.takeWhile Token.isTrivia = trail.reverse ∧
      (front ++ last :: trail).reverse.dropWhile Token.isTrivia = last :: front.reverse := by
  have ht' : ∀ t ∈ trail.reverse, t.isTrivia = true := fun t h => ht t (List.mem_reverse.1 h)
  rw [List.reverse_append, List.reverse_cons, List.append_assoc]
  rw [List.takeWhile_append_of_pos ht', List.dropWhile_append_of_pos ht']
  simp [hl]

/-- **A rule that is read** is what its arguments say, and tells where they stand. -/
theorem Rule.parse_eq_ok {text : List Char} {package : String} {kind : RuleKind}
    {callee opening close : Token} {inside : List Token} {rule : Rule}
    (h : Rule.parse text package kind callee opening inside close = .ok rule) :
    rule.IsReadFrom package kind (attributes inside) ∧ rule.srcsChanged = false ∧
      rule.depsChanged = false ∧
      ∃ origin, rule.origin = some origin ∧ origin.IsOf callee inside close := by
  unfold Rule.parse at h
  obtain ⟨r, hr, h⟩ := bind_eq_ok.1 h
  obtain ⟨hread, hr⟩ := RuleReader.foldlM_argument_eq_ok.1 hr
  obtain ⟨indent, hindent, hfold⟩ :=
    RuleReader.foldl_accept_start text package kind (arguments inside)
  have hr := hr.trans hfold
  subst hr
  dsimp only at h
  split at h
  · cases h
  · rename_i name hname
    cases h
    refine ⟨⟨hread, rfl, hname, rfl, rfl, rfl⟩, rfl, rfl, _, rfl, ?_⟩
    refine ⟨rfl, ?_, rfl, ?_, rfl, rfl⟩
    · rintro front last trail rfl hl ht
      obtain ⟨htake, hdrop⟩ := reverse_last front hl ht
      rw [htake, hdrop, List.head?_cons, List.getLast?_reverse]
      refine ⟨rfl, rfl, ?_⟩
      cases trail <;> rfl
    · cases indent with
      | none =>
        have hblank : ∀ c ∈ "    ".toList, Text.isIndent c = true :=
          List.all_eq_true.1 (by decide)
        exact hblank
      | some s => exact hindent s rfl

/-- **A rule is read** from any tokens that say what it is. -/
theorem Rule.exists_parse {package : String} {kind : RuleKind} {inside : List Token} {rule : Rule}
    (h : rule.IsReadFrom package kind (attributes inside)) (text : List Char)
    (callee opening close : Token) :
    ∃ rule', Rule.parse text package kind callee opening inside close = .ok rule' ∧
      rule'.plain = rule.plain := by
  obtain ⟨indent, -, hfold⟩ := RuleReader.foldl_accept_start text package kind (arguments inside)
  have hr : (arguments inside).foldlM (RuleReader.argument text package)
      (RuleReader.start kind) = .ok _ :=
    RuleReader.foldlM_argument_eq_ok.2 ⟨h.readable, hfold.symm⟩
  have hname := h.name
  unfold attributes at hname
  unfold Rule.parse
  simp only [RuleReader.start] at hr
  rw [hr]
  dsimp only [bind, Except.bind]
  rw [hname]
  refine ⟨_, rfl, ?_⟩
  obtain ⟨_, hkind, -, hsrcs, hdeps, hmodule⟩ := h
  unfold Rule.plain
  rw [hkind, hsrcs, hdeps, hmodule]
  rfl

/-! ## Loads -/

/-- An attribute that names a symbol, or is empty. -/
def Attribute.IsSymbol (a : Attribute) : Prop :=
  a.words = [] ∨ a.key.isSome = true ∨ a.text?.isSome = true

/-- The name that an attribute of a load gives a meaning: its own, or that of the symbol. -/
def Attribute.symbol? (a : Attribute) : Option String :=
  if a.words = [] then none else a.key <|> a.text?

theorem Attribute.IsSymbol.of_symbol? {a : Attribute} {name : String} (h : a.symbol? = some name) :
    a.IsSymbol := by
  unfold Attribute.symbol? at h
  split at h
  · cases h
  · right
    cases hkey : a.key with
    | some key => exact .inl rfl
    | none => exact .inr (by rw [hkey] at h; exact Option.isSome_of_eq_some h)

/-- What a load says: a file and symbols. -/
def IsLoad (as : List Attribute) : Prop :=
  ∃ first rest, as = first :: rest ∧ first.key = none ∧ first.text?.isSome = true ∧
    ∀ a ∈ rest, a.IsSymbol

/-- The names that the attributes of a load give a meaning. -/
def symbols (as : List Attribute) : List String :=
  as.tail.filterMap Attribute.symbol?

theorem span?_eq_none {arg : Argument} : arg.span? = none ↔ arg.attribute.words = [] := by
  unfold Argument.span? Argument.attribute
  cases hs : arg.significant with
  | nil => simp
  | cons t ts =>
    rw [List.getLast?_eq_some_getLast (List.cons_ne_nil t ts)]
    simp

namespace Load

theorem argument_eq_ok {text : List Char} {load load' : Load} {arg : Argument}
    (h : argument text load arg = .ok load') :
    arg.attribute.IsSymbol ∧ load'.span = load.span ∧ load'.added = load.added ∧
      ∀ name, load'.binds name = true ↔
        load.binds name = true ∨ arg.attribute.symbol? = some name := by
  unfold argument at h
  split at h
  · rename_i hspan
    cases h
    have hwords := span?_eq_none.1 hspan
    exact ⟨.inl hwords, rfl, rfl, fun name => by simp [Attribute.symbol?, hwords]⟩
  · rename_i span hspan
    have hwords : arg.attribute.words ≠ [] := fun hnil => by
      rw [span?_eq_none.2 hnil] at hspan
      cases hspan
    split at h
    · rename_i key hkey
      cases h
      have hkey : arg.attribute.key = some key := hkey
      refine ⟨.inr (.inl (by rw [hkey]; rfl)), rfl, rfl, fun name => ?_⟩
      simp only [binds, List.any_append, Attribute.symbol?, if_neg hwords, hkey]
      simp [or_comm, or_left_comm]
    · rename_i hkey
      split at h
      · rename_i symbol hs
        cases h
        rw [string?_eq] at hs
        have hkey : arg.attribute.key = none := hkey
        refine ⟨.inr (.inr (by rw [hs]; rfl)), rfl, rfl, fun name => ?_⟩
        simp only [binds, List.any_append, Attribute.symbol?, if_neg hwords, hkey, hs]
        simp [or_assoc, or_comm, or_left_comm]
      · cases h

theorem exists_argument {arg : Argument} (h : arg.attribute.IsSymbol) (text : List Char)
    (load : Load) : ∃ load', argument text load arg = .ok load' := by
  unfold argument
  cases hspan : arg.span? with
  | none => exact ⟨load, rfl⟩
  | some span =>
    cases hkey : arg.key with
    | some key => exact ⟨_, rfl⟩
    | none =>
      rcases h with h | h | h
      · rw [span?_eq_none.2 h] at hspan
        cases hspan
      · simp [Argument.attribute, hkey] at h
      · rw [← string?_eq] at h
        obtain ⟨symbol, hs⟩ := Option.isSome_iff_exists.1 h
        rw [hs]
        exact ⟨_, rfl⟩

theorem foldlM_argument_eq_ok {text : List Char} {args : List Argument} {load load' : Load}
    (h : args.foldlM (argument text) load = .ok load') :
    (∀ a ∈ args.map Argument.attribute, a.IsSymbol) ∧ load'.span = load.span ∧
      load'.added = load.added ∧ ∀ name, load'.binds name = true ↔ load.binds name = true ∨
        name ∈ (args.map Argument.attribute).filterMap Attribute.symbol? := by
  induction args generalizing load with
  | nil =>
    cases h
    exact ⟨by simp, rfl, rfl, by simp⟩
  | cons arg args ih =>
    rw [List.foldlM_cons] at h
    obtain ⟨load₁, h₁, h⟩ := bind_eq_ok.1 h
    obtain ⟨hsymbol, hspan₁, hadded₁, hbinds₁⟩ := argument_eq_ok h₁
    obtain ⟨hall, hspan, hadded, hbinds⟩ := ih h
    refine ⟨?_, hspan.trans hspan₁, hadded.trans hadded₁, fun name => ?_⟩
    · rw [List.map_cons, List.forall_mem_cons]
      exact ⟨hsymbol, hall⟩
    · rw [hbinds, hbinds₁, or_assoc, List.map_cons]
      simp only [List.mem_filterMap, List.mem_cons, or_and_right, exists_or, exists_eq_left]

theorem exists_foldlM_argument {args : List Argument}
    (h : ∀ a ∈ args.map Argument.attribute, a.IsSymbol) (text : List Char) (load : Load) :
    ∃ load', args.foldlM (argument text) load = .ok load' := by
  induction args generalizing load with
  | nil => exact ⟨load, rfl⟩
  | cons arg args ih =>
    rw [List.map_cons, List.forall_mem_cons] at h
    obtain ⟨load₁, h₁⟩ := exists_argument h.1 text load
    obtain ⟨load', h'⟩ := ih h.2 load₁
    exact ⟨load', by rw [List.foldlM_cons, h₁]; exact h'⟩

/-- **What is read of a load**: its arguments are a file and symbols, which it binds. -/
theorem parse_eq_ok {text : List Char} {callee close : Token} {inside : List Token} {load : Load}
    (h : Load.parse text callee inside close = .ok load) :
    IsLoad (attributes inside) ∧ load.span = ⟨callee.start, close.stop⟩ ∧ load.added = [] ∧
      load.binds = fun name => decide (name ∈ symbols (attributes inside)) := by
  unfold Load.parse at h
  dsimp only at h
  unfold attributes
  split at h
  · cases h
  · rename_i first args hargs
    split at h
    · rename_i file hkey hfile
      obtain ⟨hall, hspan, hadded, hbinds⟩ := foldlM_argument_eq_ok h
      refine ⟨⟨_, _, by rw [hargs, List.map_cons], hkey, by rw [← string?_eq, hfile]; rfl, hall⟩,
        hspan, hadded, ?_⟩
      funext name
      rw [Bool.eq_iff_iff, hbinds, hargs]
      simp [binds, symbols]
    · cases h

/-- **A load is read** from any tokens that say a file and symbols. -/
theorem exists_parse {inside : List Token} (h : IsLoad (attributes inside)) (text : List Char)
    (callee close : Token) : ∃ load, Load.parse text callee inside close = .ok load := by
  obtain ⟨first, rest, has, hkey, hfile, hall⟩ := h
  unfold attributes at has
  obtain ⟨arg, args, hargs, rfl, rfl⟩ := List.map_eq_cons_iff.1 has
  rw [← string?_eq] at hfile
  obtain ⟨file, hfile⟩ := Option.isSome_iff_exists.1 hfile
  have hkey : arg.key = none := hkey
  unfold Load.parse
  rw [hargs]
  dsimp only
  rw [hkey, hfile]
  exact exists_foldlM_argument hall text _

end Load

end BuildSync.Build
