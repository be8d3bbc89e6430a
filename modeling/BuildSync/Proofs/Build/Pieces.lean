import BuildSync.Proofs.Build.Lexing
import BuildSync.Proofs.Text.Splicing

/-!
# Going through a text while editing it

A list of `Piece`s goes through the tokens of a text: most are kept, some runs of tokens are
replaced, and texts are put between tokens.

* `oldTokens`, `newTokens`, `editsOf`: the tokens before and after, and the edits of the text.
* `Writable`: what is written lexes as it should, next to what it stands.
* `exists_splices`: the edits can be made, and give a text with the new tokens.
* `Rewrites`: tokens become others by edits; this adds up (`Rewrites.append`).
-/

namespace BuildSync.Build

open Text

/-- A step through the tokens of a text. -/
inductive Piece
  | keep (t : Token)
  /-- The text from `first` to `last` is replaced by one that lexes to `written`. -/
  | swap (first : Token) (middle : List Token) (last : Token) (text : List Char)
      (written : List Token)
  /-- A text that lexes to `written` is put right behind the token before `t`. -/
  | put (text : List Char) (written : List Token) (t : Token)

namespace Piece

/-- The tokens in the text as it was. -/
def old : Piece → List Token
  | keep t => [t]
  | swap first middle last _ _ => first :: middle ++ [last]
  | put _ _ t => [t]

/-- The tokens in the edited text, without positions. -/
def new : Piece → List Token
  | keep t => [t.bare]
  | swap _ _ _ _ written => written
  | put _ written t => written ++ [t.bare]

/-- The token that the piece ends with in the text as it was. -/
def last : Piece → Token
  | keep t => t
  | swap _ _ last _ _ => last
  | put _ _ t => t

/-- The edits of a piece that starts behind the byte `pos`. -/
def edits (pos : Nat) : Piece → List Edit
  | keep _ => []
  | swap first _ last text _ => [⟨first.start, last.stop, text⟩]
  | put text _ _ => [⟨pos, pos, text⟩]

end Piece

def oldTokens (ps : List Piece) : List Token :=
  ps.flatMap Piece.old

def newTokens (ps : List Piece) : List Token :=
  ps.flatMap Piece.new

/-- The edits of the pieces that start behind the byte `pos`, in order. -/
def editsOf (pos : Nat) : List Piece → List Edit
  | [] => []
  | p :: ps => p.edits pos ++ editsOf p.last.stop ps

/-- What can be put behind a token for its first character. -/
def Token.MayPrecede (t : Token) (next : Option Char) : Prop :=
  t.kind = .comma ∨ (∀ old, MayFollow t.kind old next) ∧ (t.text = ['\\'] → next ≠ some '\n')

/-- What is written lexes as it should: a replacement starts like what it replaces, and a text is
put only where its first character may stand. -/
def Writable (before : Option Token) : List Piece → Prop
  | [] => True
  | .keep t :: ps => Writable (some t) ps
  | .swap first _ last text written :: ps =>
    (IsWritten text written ∧ text ≠ [] ∧ text.head? = first.text.head?) ∧ Writable (some last) ps
  | .put text written t :: ps =>
    (IsWritten text written ∧ text ≠ [] ∧ ∃ b ∈ before, b.MayPrecede text.head?) ∧
      Writable (some t) ps

/-! ## Editing -/

theorem IsToken.before_of_mayPrecede {t : Token} {old new : Option Char}
    (h : IsToken t.kind t.text old) (hp : t.MayPrecede new) : IsToken t.kind t.text new := by
  rcases hp with hk | ⟨hf, hb⟩
  · rw [hk] at h ⊢
    rw [h.eq_comma]
    exact .comma new
  · exact h.before (hf old) hb

/-- **The edits of the pieces of a text can be made.** If what they write lexes as it should, the
edited text has the new tokens, and starts as the text did or with what may follow the token
before it. -/
theorem exists_splices {ps : List Piece} {pos : Nat} {cs : List Char}
    (h : tokens pos cs = .ok (oldTokens ps)) :
    ∃ cs', Splices pos cs (editsOf pos ps) cs' ∧
      ∀ before, Writable before ps → lexemes cs' = some (newTokens ps) ∧
        (cs'.head? = cs.head? ∨ ∃ b ∈ before, b.MayPrecede cs'.head?) := by
  induction ps generalizing pos cs with
  | nil =>
    refine ⟨cs, .keep pos cs, fun before _ => ⟨?_, .inl rfl⟩⟩
    simpa [newTokens, oldTokens] using lexemes_of_tokens h
  | cons p ps ih =>
    cases p with
    | keep t =>
      obtain ⟨gap, ys, rfl, hstart, hgap, htoken, hrest⟩ := tokens_cons h
      obtain ⟨ys', hys, hwritten⟩ := ih hrest
      refine ⟨gap ++ (t.text ++ ys'), ?_, fun before hw => ?_⟩
      · have hstop : pos + width (gap ++ t.text) = t.stop := by
          rw [Token.stop, hstart, width_append, Nat.add_assoc]
        rw [← List.append_assoc, ← List.append_assoc]
        exact (Splices.keep pos _).append (hstop ▸ hys)
      · obtain ⟨hlex, hhead⟩ := hwritten (some t) hw
        have htoken' : IsToken t.kind t.text ys'.head? := by
          rcases hhead with hhead | ⟨b, hb, hhead⟩
          · rwa [hhead]
          · cases hb
            exact htoken.before_of_mayPrecede hhead
        obtain ⟨c, ds, htext, -⟩ := htoken.lexeme
        refine ⟨?_, .inl (by simp [htext])⟩
        rw [hgap _ _ rfl, htoken'.lexemes_append rfl, hlex]
        rfl
    | swap first middle last text written =>
      have h' : tokens pos cs = .ok (first :: (middle ++ last :: oldTokens ps)) := by
        simpa [oldTokens, Piece.old] using h
      obtain ⟨gap, ys, rfl, hstart, hgap, htoken, hrest⟩ := tokens_cons h'
      obtain ⟨xs, zs, rfl, hlast, -, hlasttoken, hzs⟩ := tokens_cut hrest
      obtain ⟨zs', hsplices, hwritten⟩ := ih hzs
      refine ⟨gap ++ (text ++ zs'), ?_, fun before hwritable => ?_⟩
      · obtain ⟨c, ds, htext, -⟩ := htoken.lexeme
        have hold : first.text ++ xs ++ last.text ≠ [] := by simp [htext]
        have hspan : first.start + width (first.text ++ xs ++ last.text) = last.stop := by
          rw [Token.stop, hlast, Token.stop]
          simp only [width_append]
          omega
        have hswap := (Splices.swap first.start hold text).append (hspan.symm ▸ hsplices)
        rw [hspan, List.append_assoc, List.append_assoc] at hswap
        exact (Splices.keep pos gap).append (hstart ▸ hswap)
      · obtain ⟨⟨hlexes, hne, hhead⟩, hw⟩ := hwritable
        obtain ⟨hlex, -⟩ := hwritten (some last) hw
        refine ⟨?_, .inl ?_⟩
        · rw [hgap _ _ rfl, hlexes _ _ rfl, hlex]
          rfl
        · rw [List.head?_append, List.head?_append, List.head?_append, List.head?_append, hhead]
          obtain ⟨c, ds, htext, -⟩ := htoken.lexeme
          simp [htext]
    | put text written t =>
      obtain ⟨gap, ys, rfl, hstart, hgap, htoken, hrest⟩ := tokens_cons h
      obtain ⟨ys', hys, hwritten⟩ := ih hrest
      obtain ⟨c, ds, htext, -⟩ := htoken.lexeme
      refine ⟨text ++ (gap ++ (t.text ++ ys')), ?_, fun before hwritable => ?_⟩
      · have hold : gap ++ t.text ≠ [] := by simp [htext]
        have hstop : pos + width (gap ++ t.text) = t.stop := by
          rw [Token.stop, hstart, width_append, Nat.add_assoc]
        have hput := (Splices.insert pos hold text).append (hstop.symm ▸ hys)
        rw [hstop, List.append_assoc, List.append_assoc, List.append_assoc] at hput
        exact hput
      · obtain ⟨⟨hlexes, hne, hb⟩, hw⟩ := hwritable
        obtain ⟨hlex, hhead⟩ := hwritten (some t) hw
        have htoken' : IsToken t.kind t.text ys'.head? := by
          rcases hhead with hhead | ⟨b, hb, hhead⟩
          · rwa [hhead]
          · cases hb
            exact htoken.before_of_mayPrecede hhead
        refine ⟨?_, .inr ?_⟩
        · rw [hlexes _ _ rfl, hgap _ _ rfl, htoken'.lexemes_append rfl, hlex]
          simp [newTokens, Piece.new, Token.bare]
        · obtain ⟨e, es, rfl⟩ := List.exists_cons_of_ne_nil hne
          exact hb

/-! ## Rewriting parts of the tokens -/

/-- The byte behind the pieces. -/
def stopOf (pos : Nat) : List Piece → Nat
  | [] => pos
  | p :: ps => stopOf p.last.stop ps

/-- The last token of the pieces, or the one before them. -/
def lastToken (before : Option Token) : List Piece → Option Token
  | [] => before
  | p :: ps => lastToken (some p.last) ps

theorem editsOf_append (pos : Nat) (ps qs : List Piece) :
    editsOf pos (ps ++ qs) = editsOf pos ps ++ editsOf (stopOf pos ps) qs := by
  induction ps generalizing pos with
  | nil => rfl
  | cons p ps ih => simp [editsOf, stopOf, ih]

theorem writable_append {before : Option Token} {ps qs : List Piece} :
    Writable before (ps ++ qs) ↔ Writable before ps ∧ Writable (lastToken before ps) qs := by
  induction ps generalizing before with
  | nil => simp [Writable, lastToken]
  | cons p ps ih => cases p <;> simp [Writable, lastToken, ih, Piece.last, and_assoc]

theorem stopOf_concat (pos : Nat) (ps : List Piece) (p : Piece) :
    stopOf pos (ps ++ [p]) = p.last.stop := by
  induction ps generalizing pos with
  | nil => rfl
  | cons q ps ih => exact ih _

theorem lastToken_concat (before : Option Token) (ps : List Piece) (p : Piece) :
    lastToken before (ps ++ [p]) = some p.last := by
  induction ps generalizing before with
  | nil => rfl
  | cons q ps ih => exact ih _

theorem getLast?_old (p : Piece) : p.old.getLast? = some p.last := by
  cases p with
  | keep t => rfl
  | swap first middle last text written => exact List.getLast?_concat
  | put text written t => rfl

theorem oldTokens_singleton (p : Piece) : oldTokens [p] = p.old := by
  simp [oldTokens]

theorem oldTokens_append (ps qs : List Piece) :
    oldTokens (ps ++ qs) = oldTokens ps ++ oldTokens qs :=
  List.flatMap_append

theorem newTokens_append (ps qs : List Piece) :
    newTokens (ps ++ qs) = newTokens ps ++ newTokens qs :=
  List.flatMap_append

/-- **The tokens `ts` become `us` by the edits `es`**, wherever they stand. Under the condition `w`
what the edits write lexes as it should. -/
def Rewrites (w : Prop) (ts : List Token) (es : List Edit) (us : List Token) : Prop :=
  ∃ ps, oldTokens ps = ts ∧ newTokens ps = us ∧ (∀ pos, editsOf pos ps = es) ∧
    (w → ∀ before, Writable before ps)

namespace Rewrites

variable {w : Prop} {ts ts' us us' : List Token} {es es' : List Edit}

theorem nil (w : Prop) : Rewrites w [] [] [] :=
  ⟨[], rfl, rfl, fun _ => rfl, fun _ _ => trivial⟩

theorem append (h : Rewrites w ts es us) (h' : Rewrites w ts' es' us') :
    Rewrites w (ts ++ ts') (es ++ es') (us ++ us') := by
  obtain ⟨ps, rfl, rfl, hes, hw⟩ := h
  obtain ⟨qs, rfl, rfl, hes', hw'⟩ := h'
  refine ⟨ps ++ qs, oldTokens_append ps qs, newTokens_append ps qs, fun pos => ?_, fun hp b => ?_⟩
  · rw [editsOf_append, hes, hes']
  · exact writable_append.2 ⟨hw hp b, hw' hp _⟩

theorem eq_nil (h : Rewrites w [] es us) : es = [] ∧ us = [] := by
  obtain ⟨ps, hold, rfl, hes, -⟩ := h
  cases ps with
  | nil => exact ⟨(hes 0).symm, rfl⟩
  | cons p ps =>
    have hne : p.old ≠ [] := by cases p <;> simp [Piece.old]
    simp [oldTokens, hne] at hold

/-- Tokens that are kept. -/
theorem keep (w : Prop) (ts : List Token) : Rewrites w ts [] (ts.map Token.bare) := by
  induction ts with
  | nil => exact .nil w
  | cons t ts ih =>
    have ht : Rewrites w [t] [] [t.bare] := ⟨[.keep t], rfl, rfl, fun _ => rfl, fun _ _ => trivial⟩
    exact ht.append ih

/-- Tokens that are replaced. -/
theorem swap {first last : Token} {middle written : List Token} {text : List Char}
    (h : w → IsWritten text written ∧ text ≠ [] ∧ text.head? = first.text.head?) :
    Rewrites w (first :: (middle ++ [last])) [⟨first.start, last.stop, text⟩] written :=
  ⟨[.swap first middle last text written], by simp [oldTokens, Piece.old],
    by simp [newTokens, Piece.new], fun _ => rfl, fun hp _ => ⟨h hp, trivial⟩⟩

/-- **A text is put behind a token.** -/
theorem put {last t : Token} {front written : List Token} {text : List Char}
    (h : Rewrites w ts es us) (hts : ts = front ++ [last])
    (hw : w → IsWritten text written ∧ text ≠ [] ∧ last.MayPrecede text.head?) :
    Rewrites w (ts ++ [t]) (es ++ [⟨last.stop, last.stop, text⟩])
      (us ++ (written ++ [t.bare])) := by
  obtain ⟨ps, rfl, rfl, hes, hps⟩ := h
  obtain rfl | ⟨qs, p, rfl⟩ := List.eq_nil_or_concat ps
  · simp [oldTokens] at hts
  · rw [List.concat_eq_append] at *
    have hp : p.last = last := by
      have hlast := congrArg List.getLast? hts
      rwa [oldTokens_append, oldTokens_singleton, List.getLast?_append, getLast?_old,
        List.getLast?_concat, Option.some_or, Option.some.injEq] at hlast
    refine ⟨qs ++ [p] ++ [.put text written t], ?_, ?_, fun pos => ?_, fun hp' before => ?_⟩
    · rw [oldTokens_append]
      rfl
    · rw [newTokens_append]
      simp [newTokens, Piece.new]
    · rw [editsOf_append, hes, stopOf_concat, hp]
      rfl
    · obtain ⟨htext, hne, hb⟩ := hw hp'
      refine writable_append.2 ⟨hps hp' before, ⟨htext, hne, last, ?_, hb⟩, trivial⟩
      rw [lastToken_concat, hp]
      rfl

/-- **Rewriting the tokens of a text** is splicing it. -/
theorem exists_splices (h : Rewrites w ts es us) {pos : Nat} {cs : List Char}
    (ht : tokens pos cs = .ok ts) :
    ∃ cs', Splices pos cs es cs' ∧ (w → lexemes cs' = some us) := by
  obtain ⟨ps, rfl, rfl, hes, hps⟩ := h
  obtain ⟨cs', hcs, hlex⟩ := Build.exists_splices ht
  exact ⟨cs', hes pos ▸ hcs, fun hp => (hlex none (hps hp none)).1⟩

end Rewrites

end BuildSync.Build
