import BuildSync.Text.Cut

/-! # Globs

A glob matches whole paths, whose parts are separated by slashes. It compares bytes.

* `Glob.matches`: a path matches a glob.
* `Glob.parse?`: the globs that a written one stands for, one for each choice in braces.
-/

namespace BuildSync.Ignore

/-- A part of a glob. -/
inductive Piece
  | byte (b : UInt8)
  /-- One byte that is no slash. -/
  | one
  /-- Any number of bytes that are no slashes. -/
  | run
  /-- One byte in some ranges, or in none of them. -/
  | among (negated : Bool) (ranges : List (UInt8 × UInt8))
  /-- Any directories in front. -/
  | leading
  /-- A slash, or directories between slashes. -/
  | between
  /-- A slash and whatever is below. -/
  | trailing
  | anything
deriving DecidableEq, Repr

/-- A sequence of parts. -/
abbrev Glob := List Piece

/-! ## Matching -/

/-- The byte of a slash. -/
def slash : UInt8 := 47

/-- What may follow bytes that are no slashes. -/
def afterRun : List UInt8 → List (List UInt8)
  | [] => [[]]
  | b :: bs => (b :: bs) :: if b = slash then [] else afterRun bs

/-- What may follow a slash. -/
def afterSlash : List UInt8 → List (List UInt8)
  | [] => []
  | b :: bs => if b = slash then bs :: afterSlash bs else afterSlash bs

/-- What may follow any bytes. -/
def afterAny : List UInt8 → List (List UInt8)
  | [] => [[]]
  | b :: bs => (b :: bs) :: afterAny bs

/-- What may follow one byte that satisfies `p`. -/
def afterByte (p : UInt8 → Bool) : List UInt8 → List (List UInt8)
  | [] => []
  | b :: bs => if p b then [bs] else []

/-- What may follow a slash at the front of a text. -/
def afterFirst (p : List UInt8 → List (List UInt8)) : List UInt8 → List (List UInt8)
  | [] => []
  | b :: bs => if b = slash then p bs else []

/-- What may follow a part. -/
def Piece.after : Piece → List UInt8 → List (List UInt8)
  | byte b => afterByte (· = b)
  | one => afterByte (· ≠ slash)
  | run => afterRun
  | among negated ranges =>
    afterByte fun b => (ranges.any fun (low, high) => low ≤ b && b ≤ high) != negated
  | leading => fun bs => bs :: afterSlash bs
  | between => afterFirst fun bs => bs :: afterSlash bs
  | trailing => afterFirst afterAny
  | anything => afterAny

/-- A text matches a glob. -/
def Glob.matches : Glob → List UInt8 → Bool
  | [], bs => bs.isEmpty
  | piece :: pieces, bs => (piece.after bs).any (Glob.matches pieces)

/-! ## Written globs -/

/-- A lexeme of a written glob. -/
inductive Token
  | piece (piece : Piece)
  | opening
  | comma
  | closing
deriving DecidableEq, Repr

/-- The bytes of a character. -/
def bytesOf (c : Char) : List UInt8 :=
  String.utf8EncodeChar c

/-- The lexemes for a character that stands for itself, in reverse. -/
def plain (c : Char) : List Token :=
  ((bytesOf c).map fun b => .piece (.byte b)).reverse

/-- The byte that stands for a character in a class. -/
def classByte (c : Char) : UInt8 :=
  ((bytesOf c).head?).getD 0

/-- A class that is being read. -/
structure OpenClass where
  negated : Bool
  ranges : List (Char × Char)
  /-- A hyphen has been read that may join the last character with the next. -/
  joining : Bool
  /-- No member has been read. -/
  fresh : Bool

namespace OpenClass

/-- The class with one more member. -/
def add (k : OpenClass) (c : Char) : OpenClass :=
  { k with ranges := k.ranges ++ [(c, c)], joining := false, fresh := false }

/-- The class whose last member reaches up to a character. -/
def reach? (k : OpenClass) (c : Char) : Option OpenClass :=
  match k.ranges.getLast? with
  | some (low, _) =>
    if c < low then none
    else some { k with ranges := k.ranges.dropLast ++ [(low, c)], joining := false }
  | none => none

/-- The class with one more character of its text. -/
def step? (k : OpenClass) (c : Char) : Option OpenClass :=
  if k.joining then k.reach? c
  else if c = '-' ∧ !k.fresh then some { k with joining := true }
  else some (k.add c)

/-- The class as a part of a glob. -/
def piece (k : OpenClass) : Piece :=
  let ranges := if k.joining then k.ranges ++ [('-', '-')] else k.ranges
  .among k.negated (ranges.map fun (low, high) => (classByte low, classByte high))

end OpenClass

/-- What has been read of a written glob. -/
structure Reader where
  /-- The lexemes, the last first. -/
  tokens : List Token
  /-- How many braces are open. -/
  depth : Nat
  /-- The character before the next. -/
  before : Option Char

namespace Reader

/-- Nothing has been read since the glob, a brace or a choice began. -/
def isFresh (r : Reader) : Bool :=
  match r.tokens with
  | [] | .opening :: _ | .comma :: _ => true
  | _ => false

/-- One more lexeme, which ends with a character. -/
def push (r : Reader) (token : Token) (last : Char) : Reader :=
  { r with tokens := token :: r.tokens, before := some last }

/-- Directories behind a slash, at the end or in between. -/
def pushDirectories (r : Reader) (piece : Piece) (last : Char) : Reader :=
  match r.tokens with
  | .piece .leading :: _ | .piece .trailing :: _ => { r with before := some last }
  | _ :: tokens => { r with tokens := .piece piece :: tokens, before := some last }
  | [] => r

/-- Two stars that mean no more than one. -/
def pushRuns (r : Reader) : Reader :=
  (r.push (.piece .run) '*').push (.piece .run) '*'

end Reader

/-- The lexemes of a written glob, the last first; inside a class while one is open. -/
def tokens? (r : Reader) : Option OpenClass → List Char → Option (List Token)
  | some _, [] => none
  | some k, c :: cs =>
    if c = ']' ∧ !k.fresh then tokens? (r.push (.piece k.piece) ']') none cs
    else
      match k.step? c with
      | some k => tokens? r (some k) cs
      | none => none
  | none, [] => if r.depth = 0 then some r.tokens else none
  | none, '\\' :: c :: cs => tokens? ⟨plain c ++ r.tokens, r.depth, some c⟩ none cs
  | none, '\\' :: [] => none
  | none, '[' :: '!' :: cs => tokens? r (some ⟨true, [], false, true⟩) cs
  | none, '[' :: '^' :: cs => tokens? r (some ⟨true, [], false, true⟩) cs
  | none, '[' :: cs => tokens? r (some ⟨false, [], false, true⟩) cs
  | none, '\x7b' :: cs =>
    tokens? { r.push .opening '\x7b' with depth := r.depth + 1 } none cs
  | none, '\x7d' :: cs =>
    if r.depth = 0 then none
    else tokens? { r.push .closing '\x7d' with depth := r.depth - 1 } none cs
  | none, ',' :: cs =>
    if r.depth = 0 then tokens? ⟨plain ',' ++ r.tokens, r.depth, some ','⟩ none cs
    else tokens? (r.push .comma ',') none cs
  | none, '*' :: '*' :: '/' :: cs =>
    if r.isFresh then tokens? (r.push (.piece .leading) '/') none cs
    else if r.before = some '/' then tokens? (r.pushDirectories .between '/') none cs
    else tokens? ⟨plain '/' ++ r.pushRuns.tokens, r.depth, some '/'⟩ none cs
  | none, '*' :: '*' :: cs =>
    let last := cs = [] || (r.depth ≠ 0 && (cs.head? = some ',' || cs.head? = some '\x7d'))
    if r.isFresh then
      if cs = [] then tokens? (r.push (.piece .leading) '*') none cs
      else tokens? r.pushRuns none cs
    else if r.before = some '/' && last then
      tokens? (r.pushDirectories .trailing '*') none cs
    else tokens? r.pushRuns none cs
  | none, '*' :: cs => tokens? (r.push (.piece .run) '*') none cs
  | none, '?' :: cs => tokens? (r.push (.piece .one) '?') none cs
  | none, c :: cs => tokens? ⟨plain c ++ r.tokens, r.depth, some c⟩ none cs

/-! ## Choices -/

/-- The globs that lexemes stand for: those that go on now, and for each open brace those in front
of it and its finished choices. -/
def choices (now : List Glob) (outer : List (List Glob × List Glob)) : List Token → List Glob
  | [] => now
  | .piece p :: tokens => choices (now.map (· ++ [p])) outer tokens
  | .opening :: tokens => choices [[]] ((now, []) :: outer) tokens
  | .comma :: tokens =>
    match outer with
    | (front, finished) :: rest => choices [[]] ((front, finished ++ now) :: rest) tokens
    | [] => choices now outer tokens
  | .closing :: tokens =>
    match outer with
    | (front, finished) :: rest =>
      let all := (finished ++ now).filter (· ≠ [])
      let all := if all = [] then [[]] else all
      choices (front.flatMap fun a => all.map (a ++ ·)) rest tokens
    | [] => choices now outer tokens

/-- The globs that a written one stands for, none if it is malformed. -/
def Glob.parse? (text : List Char) : Option (List Glob) :=
  (tokens? ⟨[], 0, none⟩ none text).map fun tokens =>
    if tokens = [.piece .leading] then [[.anything]] else choices [[]] [] tokens.reverse

end BuildSync.Ignore
