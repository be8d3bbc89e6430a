import BuildSync.Proofs.Build.Lexing

/-!
# Brackets, statements and arguments

What grouping and splitting do depends on the kinds of the tokens only.

* `nest`: the brackets that are open after some tokens. `group_eq_ok`: a group is the balanced
  tokens up to the closing bracket.
* `skipStatement_eq_ok`: a statement is skipped whatever follows it.
* `IsPart`: tokens that no comma splits. `exists_part`: the first part of some tokens;
  `splitArguments_comma`: parts are split at a comma outside all brackets.
* `arguments_comma`: arguments are read part by part. `ofTokens?_eq_some`: a keyword argument is
  its name, the equals sign and its value.
* `arguments_moved`: arguments stand where their tokens do.
-/

namespace BuildSync.Build

@[simp] theorem kind_bare (t : Token) : t.bare.kind = t.kind := rfl

@[simp] theorem text_bare (t : Token) : t.bare.text = t.text := rfl

@[simp] theorem bare_bare (t : Token) : t.bare.bare = t.bare := rfl

@[simp] theorem bare_comp_bare : Token.bare ∘ Token.bare = Token.bare := rfl

@[simp] theorem isTrivia_bare (t : Token) : t.bare.isTrivia = t.isTrivia := rfl

/-- The token at another position. -/
def Token.moved (f : Nat → Nat) (t : Token) : Token :=
  { t with start := f t.start }

@[simp] theorem kind_moved (f : Nat → Nat) (t : Token) : (t.moved f).kind = t.kind := rfl

@[simp] theorem text_moved (f : Nat → Nat) (t : Token) : (t.moved f).text = t.text := rfl

@[simp] theorem bare_moved (f : Nat → Nat) (t : Token) : (t.moved f).bare = t.bare := rfl

/-! ## Brackets -/

/-- The open brackets after some tokens, none if one of them closes what is not open. -/
def nest : List Bracket → List Token → Option (List Bracket)
  | stack, [] => some stack
  | stack, t :: ts =>
    match t.kind with
    | .opening b => nest (b :: stack) ts
    | .closing b =>
      match stack with
      | [] => none
      | top :: below => if b = top then nest below ts else none
    | _ => nest stack ts

theorem nest_append (stack : List Bracket) (xs ys : List Token) :
    nest stack (xs ++ ys) = (nest stack xs).bind (nest · ys) := by
  fun_induction nest stack xs <;> simp_all [nest]

theorem nest_bare (stack : List Bracket) (ts : List Token) :
    nest stack (ts.map Token.bare) = nest stack ts := by
  fun_induction nest stack ts <;> simp_all [nest]

theorem nest_congr {stack : List Bracket} {ts us : List Token}
    (h : ts.map Token.bare = us.map Token.bare) : nest stack ts = nest stack us := by
  rw [← nest_bare stack ts, h, nest_bare]

/-- A token that is no bracket. -/
def Token.isFlat (t : Token) : Bool :=
  match t.kind with
  | .opening _ | .closing _ => false
  | _ => true

theorem nest_flat {ts : List Token} (h : ∀ t ∈ ts, t.isFlat = true) (stack : List Bracket) :
    nest stack ts = some stack := by
  induction ts with
  | nil => rfl
  | cons t ts ih =>
    have ht := h t List.mem_cons_self
    have hts := ih fun u hu => h u (List.mem_cons_of_mem t hu)
    unfold Token.isFlat at ht
    unfold nest
    split at ht
    · cases ht
    · cases ht
    · exact hts

/-- **A group** is what is balanced up to the bracket that closes it. -/
theorem group_eq_ok {start : Nat} {above : List Bracket} {b : Bracket}
    {ts inside rest : List Token} {close : Token} :
    group start (above ++ [b]) ts = .ok (inside, close, rest) ↔
      ts = inside ++ close :: rest ∧ nest above inside = some [] ∧ close.kind = .closing b := by
  constructor
  · intro h
    induction ts generalizing above inside with
    | nil => simp [group] at h
    | cons t ts ih =>
      have step : ∀ {above' : List Bracket},
          (group start (above' ++ [b]) ts).map (fun found => (t :: found.1, found.2))
            = .ok (inside, close, rest) → ∃ inside', inside = t :: inside' ∧
              ts = inside' ++ close :: rest ∧ nest above' inside' = some [] ∧
              close.kind = .closing b := by
        intro above' h
        obtain ⟨⟨inside', p⟩, hg, hp⟩ := map_eq_ok h
        obtain ⟨rfl, rfl⟩ := Prod.mk.inj hp
        exact ⟨inside', rfl, ih hg⟩
      unfold group at h
      split at h
      · rename_i b' hk
        obtain ⟨inside', rfl, rfl, hn, hc⟩ := @step (b' :: above) h
        exact ⟨rfl, by simp [nest, hk, hn], hc⟩
      · rename_i b' hk
        cases above with
        | nil =>
          simp only [List.nil_append] at h
          split at h
          · cases h
          · rename_i hb
            rw [if_pos trivial] at h
            cases h
            exact ⟨rfl, rfl, by rw [hk, not_not.1 hb]⟩
        | cons top above =>
          simp only [List.cons_append] at h
          split at h
          · cases h
          · rename_i hb
            rw [if_neg (by simp)] at h
            obtain ⟨inside', rfl, rfl, hn, hc⟩ := step h
            exact ⟨rfl, by simp [nest, hk, not_not.1 hb, hn], hc⟩
      · rename_i hno hnc
        obtain ⟨inside', rfl, rfl, hn, hc⟩ := step h
        refine ⟨rfl, ?_, hc⟩
        unfold nest
        split <;> simp_all
  · rintro ⟨rfl, hn, hc⟩
    induction inside generalizing above with
    | nil =>
      cases hn
      simp [group, hc]
    | cons t inside ih =>
      rw [List.cons_append, group]
      unfold nest at hn
      cases hk : t.kind with
      | opening b' =>
        simp only [hk] at hn
        dsimp only
        rw [← List.cons_append, ih hn]
        rfl
      | closing b' =>
        simp only [hk] at hn
        cases above with
        | nil => cases hn
        | cons top above =>
          simp only [List.cons_append] at hn ⊢
          split at hn
          · rename_i hb
            rw [if_neg (not_not.2 hb), if_neg (by simp), ih hn]
            rfl
          · cases hn
      | _ =>
        simp only [hk] at hn
        dsimp only
        rw [ih hn]
        rfl

/-! ## Statements -/

/-- Tokens that are the same but for their positions start with the same kind. -/
theorem exists_cons_of_bare {ts us : List Token} {t : Token}
    (h : us.map Token.bare = (t :: ts).map Token.bare) :
    ∃ u us', us = u :: us' ∧ u.kind = t.kind ∧ us'.map Token.bare = ts.map Token.bare := by
  obtain ⟨u, us', rfl, hu, hus⟩ := List.map_eq_cons_iff.1 h
  exact ⟨u, us', rfl, by simpa using congrArg Token.kind hu, hus⟩

/-- A newline ends the front part of a statement wherever the rest stands. -/
theorem newline_cons {t : Token} {tail rest : List Token}
    (h : rest = [] ∨ ∃ front u, tail = front ++ [u] ∧ u.kind = .newline) :
    rest = [] ∨ ∃ front u, t :: tail = front ++ [u] ∧ u.kind = .newline := by
  rcases h with h | ⟨front, u, rfl, hu⟩
  · exact .inl h
  · exact .inr ⟨t :: front, u, rfl, hu⟩

/-- **A statement** is skipped up to its newline, or to the end, wherever its tokens stand and
whatever follows the newline. -/
theorem skipStatement_eq_ok {start : Nat} {stack : List Bracket} {ts rest : List Token}
    (h : skipStatement start stack ts = .ok rest) :
    ∃ tail, ts = tail ++ rest ∧
      (rest = [] ∨ ∃ front t, tail = front ++ [t] ∧ t.kind = .newline) ∧
      ∀ start' tail' rest', tail'.map Token.bare = tail.map Token.bare →
        (rest = [] → rest' = []) → skipStatement start' stack (tail' ++ rest') = .ok rest' := by
  fun_induction skipStatement start stack ts with
  | case1 =>
    cases h
    refine ⟨[], rfl, .inl rfl, fun start' tail' rest' ht hr => ?_⟩
    rw [List.map_nil, List.map_eq_nil_iff] at ht
    rw [ht, hr rfl]
    rfl
  | case3 start t ts hk =>
    cases h
    refine ⟨[t], rfl, .inr ⟨[], t, rfl, hk⟩, fun start' tail' rest' ht _ => ?_⟩
    obtain ⟨u, us, rfl, hu, hus⟩ := exists_cons_of_bare ht
    rw [List.map_nil, List.map_eq_nil_iff] at hus
    simp [skipStatement, hu, hk, hus]
  | case4 start t ts b hk ih =>
    obtain ⟨tail, rfl, hend, hskip⟩ := ih h
    refine ⟨t :: tail, rfl, newline_cons hend, fun start' tail' rest' ht hr => ?_⟩
    obtain ⟨u, us, rfl, hu, hus⟩ := exists_cons_of_bare ht
    simp [skipStatement, hu, hk, hskip _ us rest' hus hr]
  | case5 start t ts b stack hs hk ih =>
    obtain ⟨tail, rfl, hend, hskip⟩ := ih h
    refine ⟨t :: tail, rfl, newline_cons hend, fun start' tail' rest' ht hr => ?_⟩
    obtain ⟨u, us, rfl, hu, hus⟩ := exists_cons_of_bare ht
    cases stack with
    | nil => exact absurd rfl hs
    | cons top below => simp [skipStatement, hu, hk, hskip _ us rest' hus hr]
  | case7 start t ts b below hk ih =>
    obtain ⟨tail, rfl, hend, hskip⟩ := ih h
    refine ⟨t :: tail, rfl, newline_cons hend, fun start' tail' rest' ht hr => ?_⟩
    obtain ⟨u, us, rfl, hu, hus⟩ := exists_cons_of_bare ht
    simp [skipStatement, hu, hk, hskip _ us rest' hus hr]
  | case9 start t ts stack h₁ h₂ h₃ h₄ h₅ ih =>
    obtain ⟨tail, rfl, hend, hskip⟩ := ih h
    refine ⟨t :: tail, rfl, newline_cons hend, fun start' tail' rest' ht hr => ?_⟩
    obtain ⟨u, us, rfl, hu, hus⟩ := exists_cons_of_bare ht
    have hrec := hskip start' us rest' hus hr
    cases stack <;> simp_all [skipStatement]
  | _ => cases h

/-- A newline behind a text ends its last statement, or follows it. -/
theorem skipStatement_append {start : Nat} {stack : List Bracket} {ts rest : List Token}
    (h : skipStatement start stack ts = .ok rest) {newline : Token}
    (hn : newline.kind = .newline) (more : List Token) :
    skipStatement start stack (ts ++ newline :: more) = .ok (rest ++ newline :: more) ∨
      rest = [] ∧ skipStatement start stack (ts ++ newline :: more) = .ok more := by
  fun_induction skipStatement start stack ts with
  | case1 =>
    cases h
    exact .inr ⟨rfl, by simp [skipStatement, hn]⟩
  | case3 start t ts hk =>
    cases h
    exact .inl (by simp [skipStatement, hk])
  | case4 start t ts b hk ih => simpa [skipStatement, hk] using ih h
  | case5 start t ts b stack hs hk ih =>
    cases stack with
    | nil => exact absurd rfl hs
    | cons top below => simpa [skipStatement, hk] using ih h
  | case7 start t ts b below hk ih => simpa [skipStatement, hk] using ih h
  | case9 start t ts stack h₁ h₂ h₃ h₄ h₅ ih =>
    have ih := ih h
    cases stack <;> simp_all [skipStatement]
  | _ => cases h

/-! ## Parts between commas -/

/-- How many brackets are open after a token. -/
def nextDepth (depth : Nat) (t : Token) : Nat :=
  match t.kind with
  | .opening _ => depth + 1
  | .closing _ => depth - 1
  | _ => depth

/-- How many brackets are open after some tokens. -/
def depthAfter (depth : Nat) (ts : List Token) : Nat :=
  ts.foldl nextDepth depth

/-- Tokens in which no comma stands outside all brackets. -/
def IsPart : Nat → List Token → Prop
  | _, [] => True
  | depth, t :: ts => (t.kind = .comma → depth ≠ 0) ∧ IsPart (nextDepth depth t) ts

theorem splitArguments_cons (depth : Nat) (t : Token) (ts : List Token) :
    splitArguments depth (t :: ts) =
      if t.kind = .comma ∧ depth = 0 then [] :: splitArguments (nextDepth depth t) ts
      else
        match splitArguments (nextDepth depth t) ts with
        | [] => [[t]]
        | part :: parts => (t :: part) :: parts := rfl

theorem splitArguments_ne_nil (depth : Nat) (ts : List Token) : splitArguments depth ts ≠ [] := by
  cases ts with
  | nil => simp [splitArguments]
  | cons t ts =>
    rw [splitArguments_cons]
    split
    · simp
    · split <;> simp

theorem depthAfter_append (depth : Nat) (xs ys : List Token) :
    depthAfter depth (xs ++ ys) = depthAfter (depthAfter depth xs) ys :=
  List.foldl_append

theorem depthAfter_of_nest {stack stack' : List Bracket} {ts : List Token}
    (h : nest stack ts = some stack') : depthAfter stack.length ts = stack'.length := by
  fun_induction nest stack ts with
  | case1 =>
    cases h
    rfl
  | case2 stack t ts b hk ih => simpa [depthAfter, nextDepth, hk] using ih h
  | case3 => cases h
  | case4 t ts below b hk ih => simpa [depthAfter, nextDepth, hk] using ih h
  | case5 => cases h
  | case6 stack t ts h₁ h₂ ih =>
    have hd : nextDepth stack.length t = stack.length := by
      unfold nextDepth
      split <;> simp_all
    rw [depthAfter, List.foldl_cons, hd]
    exact ih h

/-- A comma outside all brackets stands between balanced tokens. -/
theorem nest_of_comma {xs ys : List Token} {comma : Token} (hc : comma.kind = .comma)
    (h : nest [] (xs ++ comma :: ys) = some []) (hd : depthAfter 0 xs = 0) :
    nest [] xs = some [] ∧ nest [] ys = some [] := by
  rw [nest_append] at h
  obtain ⟨stack, hstack, hrest⟩ := Option.bind_eq_some_iff.1 h
  have hlen := depthAfter_of_nest hstack
  rw [List.length_nil, hd] at hlen
  obtain rfl := List.length_eq_zero_iff.1 hlen.symm
  exact ⟨hstack, by simpa [nest, hc] using hrest⟩

theorem isPart_append {depth : Nat} {xs ys : List Token} :
    IsPart depth (xs ++ ys) ↔ IsPart depth xs ∧ IsPart (depthAfter depth xs) ys := by
  induction xs generalizing depth with
  | nil => simp [IsPart, depthAfter]
  | cons t xs ih => simp [IsPart, ih, and_assoc, depthAfter]

theorem isPart_bare {depth : Nat} {ts : List Token} :
    IsPart depth (ts.map Token.bare) ↔ IsPart depth ts := by
  induction ts generalizing depth with
  | nil => rfl
  | cons t ts ih =>
    have hd : nextDepth depth t.bare = nextDepth depth t := rfl
    rw [List.map_cons, IsPart, IsPart, hd, ih, kind_bare]

theorem nextDepth_flat {t : Token} (h : t.isFlat = true) (depth : Nat) :
    nextDepth depth t = depth := by
  unfold Token.isFlat at h
  unfold nextDepth
  split <;> simp_all

theorem depthAfter_flat {ts : List Token} (h : ∀ t ∈ ts, t.isFlat = true) (depth : Nat) :
    depthAfter depth ts = depth := by
  induction ts with
  | nil => rfl
  | cons t ts ih =>
    rw [depthAfter, List.foldl_cons, nextDepth_flat (h t List.mem_cons_self)]
    exact ih fun u hu => h u (List.mem_cons_of_mem t hu)

/-- Tokens without brackets are a part, inside a bracket or without commas. -/
theorem isPart_flat {ts : List Token} (h : ∀ t ∈ ts, t.isFlat = true) {depth : Nat}
    (hc : depth = 0 → ∀ t ∈ ts, t.kind ≠ .comma) : IsPart depth ts := by
  induction ts with
  | nil => trivial
  | cons t ts ih =>
    refine ⟨fun hk hd => hc hd t List.mem_cons_self hk, ?_⟩
    rw [nextDepth_flat (h t List.mem_cons_self)]
    exact ih (fun u hu => h u (List.mem_cons_of_mem t hu))
      fun hd u hu => hc hd u (List.mem_cons_of_mem t hu)

theorem splitArguments_of_isPart {depth : Nat} {ts : List Token} (h : IsPart depth ts) :
    splitArguments depth ts = [ts] := by
  induction ts generalizing depth with
  | nil => rfl
  | cons t ts ih => rw [splitArguments_cons, if_neg fun hk => h.1 hk.1 hk.2, ih h.2]

/-- **Parts are split** at a comma outside all brackets. -/
theorem splitArguments_comma {depth : Nat} {xs : List Token} (h : depthAfter depth xs = 0)
    {comma : Token} (hc : comma.kind = .comma) (ys : List Token) :
    splitArguments depth (xs ++ comma :: ys) =
      splitArguments depth xs ++ splitArguments 0 ys := by
  induction xs generalizing depth with
  | nil =>
    cases h
    have hd : nextDepth 0 comma = 0 := by simp [nextDepth, hc]
    rw [List.nil_append, splitArguments_cons, if_pos ⟨hc, rfl⟩, hd]
    rfl
  | cons t xs ih =>
    have ih := @ih (nextDepth depth t) h
    rw [List.cons_append, splitArguments_cons, splitArguments_cons, ih]
    split
    · rfl
    · cases hs : splitArguments (nextDepth depth t) xs with
      | nil => exact absurd hs (splitArguments_ne_nil _ _)
      | cons part parts => rfl

/-- **The first part** of some tokens: all of them, or those up to a comma. -/
theorem exists_part (depth : Nat) (ts : List Token) :
    IsPart depth ts ∨ ∃ part comma rest, ts = part ++ comma :: rest ∧ comma.kind = .comma ∧
      IsPart depth part ∧ depthAfter depth part = 0 := by
  induction ts generalizing depth with
  | nil => exact .inl trivial
  | cons t ts ih =>
    by_cases hk : t.kind = .comma ∧ depth = 0
    · exact .inr ⟨[], t, ts, rfl, hk.1, trivial, hk.2⟩
    · rcases ih (nextDepth depth t) with ih | ⟨part, comma, rest, rfl, hc, hp, hd⟩
      · exact .inl ⟨fun h₁ h₂ => hk ⟨h₁, h₂⟩, ih⟩
      · exact .inr ⟨t :: part, comma, rest, rfl, hc, ⟨fun h₁ h₂ => hk ⟨h₁, h₂⟩, hp⟩, hd⟩

/-- Tokens are a part, or a part and more behind a comma. -/
theorem parts_induction {motive : List Token → Prop} (part : ∀ xs, IsPart 0 xs → motive xs)
    (comma : ∀ xs c ys, c.kind = .comma → IsPart 0 xs → depthAfter 0 xs = 0 → motive ys →
      motive (xs ++ c :: ys)) (ts : List Token) : motive ts := by
  induction hn : ts.length using Nat.strong_induction_on generalizing ts with
  | h n ih =>
    rcases exists_part 0 ts with hp | ⟨xs, c, ys, rfl, hc, hp, hd⟩
    · exact part ts hp
    · refine comma xs c ys hc hp hd (ih ys.length ?_ ys rfl)
      rw [← hn]
      simp
      omega

/-- Where the tokens stand makes no difference to how they are split. -/
theorem splitArguments_moved (f : Nat → Nat) (depth : Nat) (ts : List Token) :
    splitArguments depth (ts.map (Token.moved f)) =
      (splitArguments depth ts).map (List.map (Token.moved f)) := by
  induction ts generalizing depth with
  | nil => rfl
  | cons t ts ih =>
    have hd : nextDepth depth (t.moved f) = nextDepth depth t := rfl
    rw [List.map_cons, splitArguments_cons, splitArguments_cons, hd, ih, kind_moved]
    split
    · rfl
    · cases splitArguments (nextDepth depth t) ts <;> rfl

/-! ## Arguments -/

/-- The argument at another position. -/
def Argument.moved (f : Nat → Nat) (arg : Argument) : Argument :=
  ⟨arg.key, f arg.start, arg.value.map (Token.moved f)⟩

/-- The argument without positions. -/
def Argument.bare (arg : Argument) : Argument :=
  ⟨arg.key, 0, arg.value.map Token.bare⟩

theorem dropWhile_moved (f : Nat → Nat) (ts : List Token) :
    (ts.map (Token.moved f)).dropWhile Token.isTrivia =
      (ts.dropWhile Token.isTrivia).map (Token.moved f) := by
  rw [List.dropWhile_map]
  rfl

theorem dropWhile_bare (ts : List Token) :
    (ts.map Token.bare).dropWhile Token.isTrivia = (ts.dropWhile Token.isTrivia).map Token.bare :=
  dropWhile_moved (fun _ => 0) ts

theorem ofTokens?_moved (f : Nat → Nat) (ts : List Token) :
    Argument.ofTokens? (ts.map (Token.moved f)) =
      (Argument.ofTokens? ts).map (Argument.moved f) := by
  unfold Argument.ofTokens?
  rw [dropWhile_moved]
  cases ts.dropWhile Token.isTrivia with
  | nil => rfl
  | cons first rest =>
    cases rest with
    | nil => rfl
    | cons second value =>
      by_cases h : first.kind = .word ∧ second.kind = .equals <;>
        simp [h, Argument.moved, Token.moved]

/-- **Arguments stand where their tokens do.** -/
theorem arguments_moved (f : Nat → Nat) (ts : List Token) :
    arguments (ts.map (Token.moved f)) = (arguments ts).map (Argument.moved f) := by
  unfold arguments
  rw [splitArguments_moved, List.filterMap_map, List.map_filterMap]
  congr 1
  funext part
  exact ofTokens?_moved f part

theorem arguments_bare (ts : List Token) :
    arguments (ts.map Token.bare) = (arguments ts).map Argument.bare :=
  arguments_moved (fun _ => 0) ts

theorem isFlat_of_isTrivia {t : Token} (h : t.isTrivia = true) : t.isFlat = true := by
  unfold Token.isTrivia at h
  unfold Token.isFlat
  split <;> simp_all

theorem ofTokens?_trivia_append {xs : List Token} (h : ∀ t ∈ xs, t.isTrivia = true)
    (ys : List Token) : Argument.ofTokens? (xs ++ ys) = Argument.ofTokens? ys := by
  unfold Argument.ofTokens?
  rw [List.dropWhile_append_of_pos h]

theorem arguments_part {ts : List Token} (h : IsPart 0 ts) :
    arguments ts = (Argument.ofTokens? ts).toList := by
  unfold arguments
  rw [splitArguments_of_isPart h, List.filterMap_cons, List.filterMap_nil]
  cases Argument.ofTokens? ts <;> rfl

/-- Arguments are read part by part. -/
theorem arguments_comma {xs : List Token} (h : depthAfter 0 xs = 0) {comma : Token}
    (hc : comma.kind = .comma) (ys : List Token) :
    arguments (xs ++ comma :: ys) = arguments xs ++ arguments ys := by
  unfold arguments
  rw [splitArguments_comma h hc, List.filterMap_append]

/-- The tokens of a keyword argument: its name, the equals sign and its value. -/
theorem ofTokens?_eq_some {ts : List Token} {arg : Argument} {key : String}
    (h : Argument.ofTokens? ts = some arg) (hk : arg.key = some key) :
    ∃ front, ts = front ++ arg.value ∧ (∀ t ∈ front, t.isFlat = true ∧ t.kind ≠ .comma) ∧
      ∀ value, Argument.ofTokens? (front ++ value) = some { arg with value := value } := by
  have hts := List.takeWhile_append_dropWhile (p := Token.isTrivia) (l := ts)
  have htriv : ∀ t ∈ ts.takeWhile Token.isTrivia, t.isTrivia = true :=
    fun t ht => List.mem_takeWhile_imp ht
  unfold Argument.ofTokens? at h
  split at h
  · cases h
  · rename_i first rest hfirst
    rw [hfirst] at hts
    split at h
    · rename_i second value
      split at h
      · rename_i hkinds
        cases h
        refine ⟨ts.takeWhile Token.isTrivia ++ [first, second], by simpa using hts.symm,
          fun t ht => ?_, fun value => ?_⟩
        · rcases List.mem_append.1 ht with ht | ht
          · have := htriv t ht
            refine ⟨isFlat_of_isTrivia this, fun hc => ?_⟩
            simp [Token.isTrivia, hc] at this
          · rcases List.mem_cons.1 ht with rfl | ht
            · simp [Token.isFlat, hkinds.1]
            · rw [List.mem_singleton.1 ht]
              simp [Token.isFlat, hkinds.2]
        · rw [List.append_assoc, ofTokens?_trivia_append htriv]
          simp [Argument.ofTokens?, Token.isTrivia, hkinds]
      · cases h
        cases hk
    · cases h
      cases hk

end BuildSync.Build
