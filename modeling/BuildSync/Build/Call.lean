import BuildSync.Build.Defect
import BuildSync.Build.Literal

/-! # Calls in a BUILD file

A BUILD file is a sequence of statements, each on lines of its own; a bracket joins the lines up to
the one that closes it.

* `group`: the tokens inside a bracket; `skipStatement`: what follows a statement. Neither
  lengthens its input (`length_group_le`, `length_skipStatement_le`).
* `Argument`: an argument of a call; `arguments` takes them from the tokens inside its parentheses.
* `Argument.strings?`: an argument's value as a list of strings with their comments.
-/

namespace BuildSync.Build

/-! ## Brackets and statements -/

/-- The tokens up to the one that closes the innermost of `stack`, the token that closes the
outermost, and what follows it. The outermost bracket opens at the byte `start`. -/
def group (start : Nat) :
    List Bracket → List Token → Except Fault (List Token × Token × List Token)
  | _, [] => .error ⟨start, .openBracket⟩
  | stack, t :: ts =>
    match t.kind with
    | .opening b => (group start (b :: stack) ts).map fun (inside, rest) => (t :: inside, rest)
    | .closing b =>
      match stack with
      | [] => .error ⟨t.start, .mismatchedBracket⟩
      | top :: below =>
        if b ≠ top then .error ⟨t.start, .mismatchedBracket⟩
        else if below = [] then .ok ([], t, ts)
        else (group start below ts).map fun (inside, rest) => (t :: inside, rest)
    | _ => (group start stack ts).map fun (inside, rest) => (t :: inside, rest)

/-- What follows the statement that goes on with the given tokens inside the brackets `stack`, the
outermost of which opens at the byte `start`. -/
def skipStatement (start : Nat) : List Bracket → List Token → Except Fault (List Token)
  | [], [] => .ok []
  | _ :: _, [] => .error ⟨start, .openBracket⟩
  | stack, t :: ts =>
    match t.kind, stack with
    | .newline, [] => .ok ts
    | .opening b, [] => skipStatement t.start [b] ts
    | .opening b, stack => skipStatement start (b :: stack) ts
    | .closing _, [] => .error ⟨t.start, .strayBracket⟩
    | .closing b, top :: below =>
      if b = top then skipStatement start below ts else .error ⟨t.start, .mismatchedBracket⟩
    | _, stack => skipStatement start stack ts

theorem map_eq_ok {ε α β : Type} {x : Except ε α} {f : α → β} {b : β} (h : x.map f = .ok b) :
    ∃ a, x = .ok a ∧ f a = b := by
  cases x with
  | error e => cases h
  | ok a => exact ⟨a, rfl, Except.ok.inj h⟩

theorem bind_eq_ok {ε α β : Type} {x : Except ε α} {f : α → Except ε β} {b : β} :
    (x >>= f) = .ok b ↔ ∃ a, x = .ok a ∧ f a = .ok b := by
  cases x with
  | error e => simp [bind, Except.bind]
  | ok a => simp [bind, Except.bind]

theorem length_group_le {start : Nat} {stack : List Bracket} {ts inside rest : List Token}
    {close : Token} (h : group start stack ts = .ok (inside, close, rest)) :
    rest.length ≤ ts.length := by
  induction ts generalizing stack inside with
  | nil => simp [group] at h
  | cons t ts ih =>
    have step : ∀ {stack' : List Bracket},
        (group start stack' ts).map (fun (inside, rest) => (t :: inside, rest))
          = .ok (inside, close, rest) → rest.length ≤ (t :: ts).length := by
      intro stack' h
      obtain ⟨⟨inside', p⟩, hg, hp⟩ := map_eq_ok h
      obtain ⟨-, rfl⟩ := Prod.mk.inj hp
      exact Nat.le_succ_of_le (ih hg)
    unfold group at h
    split at h
    · exact step h
    · split at h
      · cases h
      · split at h
        · cases h
        · split at h
          · obtain ⟨-, hp⟩ := Prod.mk.inj (Except.ok.inj h)
            obtain ⟨-, rfl⟩ := Prod.mk.inj hp
            simp
          · exact step h
    · exact step h

theorem length_skipStatement_le {start : Nat} {stack : List Bracket} {ts rest : List Token}
    (h : skipStatement start stack ts = .ok rest) : rest.length ≤ ts.length := by
  fun_induction skipStatement start stack ts with
  | case1 => cases h; simp
  | case3 => cases h; simp
  | case4 start t ts b hk ih => exact Nat.le_succ_of_le (ih h)
  | case5 start t ts b stack _ hk ih => exact Nat.le_succ_of_le (ih h)
  | case7 start t ts b below hk ih => exact Nat.le_succ_of_le (ih h)
  | case9 start t ts stack _ _ _ _ _ ih => exact Nat.le_succ_of_le (ih h)
  | _ => cases h

theorem length_skipStatement_cons_le {start : Nat} {stack : List Bracket} {t : Token}
    {ts rest : List Token} (h : skipStatement start stack (t :: ts) = .ok rest) :
    rest.length ≤ ts.length := by
  generalize hu : t :: ts = us at h
  cases us with
  | nil => cases hu
  | cons u us =>
    obtain ⟨rfl, rfl⟩ := List.cons.inj hu
    cases stack <;> simp only [skipStatement] at h <;> split at h <;>
      first
      | exact length_skipStatement_le h
      | (cases h; exact Nat.le_refl _)
      | cases h
      | (split at h <;> first | exact length_skipStatement_le h | cases h)

/-- The parenthesis that makes the word `t` a call, and what follows it. -/
def callOpening? (t : Token) : List Token → Option (Token × List Token)
  | [] => none
  | opening :: inner =>
    if t.kind = .word ∧ opening.kind = .opening .round then some (opening, inner) else none

theorem eq_cons_of_callOpening? {t opening : Token} {ts inner : List Token}
    (h : callOpening? t ts = some (opening, inner)) : ts = opening :: inner := by
  cases ts with
  | nil => simp [callOpening?] at h
  | cons u us =>
    simp only [callOpening?] at h
    split at h
    · obtain ⟨rfl, rfl⟩ := Prod.mk.inj (Option.some.inj h); rfl
    · cases h

/-! ## Arguments -/

/-- The tokens between the commas that stand inside no further bracket, which `depth` counts. -/
def splitArguments (depth : Nat) : List Token → List (List Token)
  | [] => [[]]
  | t :: ts =>
    let depth' :=
      match t.kind with
      | .opening _ => depth + 1
      | .closing _ => depth - 1
      | _ => depth
    if t.kind = .comma ∧ depth = 0 then [] :: splitArguments depth' ts
    else
      match splitArguments depth' ts with
      | [] => [[t]]
      | part :: parts => (t :: part) :: parts

/-- An argument of a call. -/
structure Argument where
  /-- The keyword, for an argument that has one. -/
  key : Option String
  /-- Where the argument starts. -/
  start : Nat
  /-- The tokens of its value, with newlines and comments. -/
  value : List Token

/-- The argument that stands between two commas, if there is one. -/
def Argument.ofTokens? (ts : List Token) : Option Argument :=
  match ts.dropWhile Token.isTrivia with
  | [] => none
  | first :: rest =>
    match rest with
    | second :: value =>
      if first.kind = .word ∧ second.kind = .equals then
        some ⟨some (String.ofList first.text), first.start, value⟩
      else some ⟨none, first.start, first :: rest⟩
    | [] => some ⟨none, first.start, [first]⟩

/-- The arguments of a call from the tokens inside its parentheses. -/
def arguments (inside : List Token) : List Argument :=
  (splitArguments 0 inside).filterMap Argument.ofTokens?

namespace Argument

/-- The tokens of the value without newlines and comments. -/
def significant (arg : Argument) : List Token :=
  arg.value.filter fun t => !t.isTrivia

/-- Where the value stands, unless it is empty. -/
def span? (arg : Argument) : Option Span :=
  match arg.significant.head?, arg.significant.getLast? with
  | some first, some last => some ⟨first.start, last.stop⟩
  | _, _ => none

/-- The text of a value that is one string literal. -/
def string? (arg : Argument) : Option String :=
  match arg.significant with
  | [t] => if t.kind = .string then some (String.ofList (literalValue t.text)) else none
  | _ => none

/-- The value is one of the words that switch an attribute on. -/
def isTrue (arg : Argument) : Bool :=
  match arg.significant with
  | [t] => t.text = "True".toList || t.text = "1".toList
  | _ => false

end Argument

/-! ## Lists of strings -/

/-- A list of strings as far as it has been read. -/
structure ListReader where
  /-- The items so far, the last one first, each with the byte its literal starts at. -/
  items : List (ListItem (String × Nat))
  /-- The comments that stand above the next item. -/
  pending : List String
  /-- A newline stands after the last item. -/
  fresh : Bool

namespace ListReader

/-- A comment goes to the item before it on its line, else to what follows. -/
def comment (r : ListReader) (text : String) : ListReader :=
  match r.items with
  | item :: items =>
    if r.fresh ∨ item.trailing.isSome then { r with pending := r.pending ++ [text] }
    else { r with items := { item with trailing := some text } :: items }
  | [] => { r with pending := r.pending ++ [text] }

/-- The list with one more token, none if no list of strings holds it. -/
def token? (r : ListReader) (t : Token) : Option ListReader :=
  match t.kind with
  | .string =>
    some ⟨⟨(String.ofList (literalValue t.text), t.start), none, r.pending⟩ :: r.items, [], false⟩
  | .comma => some r
  | .newline => some { r with fresh := true }
  | .comment => some (r.comment (String.ofList (Text.trimEnd t.text)))
  | _ => none

/-- The list that the tokens between two brackets make. -/
def ofTokens? (ts : List Token) : Option (ListValue (String × Nat)) :=
  (ts.foldlM token? ⟨[], [], true⟩).map fun r => ⟨r.items.reverse, r.pending⟩

end ListReader

/-- The tokens between the square brackets that a value starts and ends with. -/
def Argument.bracketed? (arg : Argument) : Option (List Token) :=
  match arg.value.dropWhile Token.isTrivia with
  | [] => none
  | first :: rest =>
    match rest.reverse.dropWhile Token.isTrivia with
    | [] => none
    | last :: inside =>
      if first.kind = .opening .square ∧ last.kind = .closing .square then some inside.reverse
      else none

/-- A value that is a list of string literals, with the byte each of them starts at. -/
def Argument.strings? (arg : Argument) : Option (ListValue (String × Nat)) :=
  arg.bracketed?.bind ListReader.ofTokens?

end BuildSync.Build
