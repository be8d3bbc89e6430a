import BuildSync.Parser

/-!
# What parsers read

* `Reads`: a parser reads a value from the front of a text and leaves the rest.
* `reads_pure`, `reads_bind`, `reads_orElse`, …: what the combinators read, in terms of what their
  parts read.
* `Reads.suffix`: what is left stands at the end of the text.
* `ReadsAll`: a parser reads values one after the other; `readsAll_of_reads_many`: `many` does so.
-/

namespace BuildSync.Parser

/-- From the front of `text`, `p` reads `a` and leaves `rest`. -/
def Reads (p : Parser α) (text : List Char) (a : α) (rest : List Char) : Prop :=
  ∃ suffix, p text = some ⟨a, rest, suffix⟩

variable {p q : Parser α} {f : α → Parser β} {text rest : List Char} {a b : α}

theorem Reads.suffix (h : Reads p text a rest) : rest <:+ text :=
  h.1

theorem reads_of_eq_some {r : Reading text α} (h : p text = some r) : Reads p text r.value r.rest :=
  ⟨r.suffix, h⟩

@[simp] theorem reads_pure : Reads (pure a) text b rest ↔ b = a ∧ rest = text := by
  constructor
  · rintro ⟨_, h⟩
    cases h
    exact ⟨rfl, rfl⟩
  · rintro ⟨rfl, rfl⟩
    exact ⟨List.suffix_refl _, rfl⟩

theorem reads_bind {c : β} : Reads (p >>= f) text c rest ↔
    ∃ a mid, Reads p text a mid ∧ Reads (f a) mid c rest := by
  change Reads (andThen p f) text c rest ↔ _
  constructor
  · rintro ⟨_, h⟩
    unfold andThen at h
    split at h
    · cases h
    · rename_i r hr
      split at h
      · cases h
      · rename_i r' hr'
        cases h
        exact ⟨r.value, r.rest, reads_of_eq_some hr, reads_of_eq_some hr'⟩
  · rintro ⟨a, mid, ⟨hmid, ha⟩, ⟨hrest, hc⟩⟩
    exact ⟨hrest.trans hmid, by simp only [andThen, ha, hc]⟩

theorem reads_orElse : Reads (p <|> q) text a rest ↔
    Reads p text a rest ∨ p text = none ∧ Reads q text a rest := by
  change Reads (orElse p fun _ => q) text a rest ↔ _
  constructor
  · rintro ⟨hsuffix, h⟩
    unfold orElse at h
    split at h
    · rename_i r hr
      cases h
      exact .inl ⟨hsuffix, hr⟩
    · rename_i hnone
      exact .inr ⟨hnone, hsuffix, h⟩
  · rintro (⟨hsuffix, h⟩ | ⟨hnone, hsuffix, h⟩)
    · exact ⟨hsuffix, by simp only [orElse, h]⟩
    · exact ⟨hsuffix, by simp only [orElse, hnone, h]⟩

theorem reads_map {g : α → β} {c : β} :
    Reads (g <$> p) text c rest ↔ ∃ a, Reads p text a rest ∧ c = g a := by
  change Reads (p >>= fun a => pure (g a)) text c rest ↔ _
  rw [reads_bind]
  constructor
  · rintro ⟨a, mid, ha, hc⟩
    obtain ⟨rfl, rfl⟩ := reads_pure.1 hc
    exact ⟨a, ha, rfl⟩
  · rintro ⟨a, ha, rfl⟩
    exact ⟨a, rest, ha, reads_pure.2 ⟨rfl, rfl⟩⟩

@[simp] theorem reads_bytesLeft {n : Nat} :
    Reads bytesLeft text n rest ↔ n = Text.width text ∧ rest = text := by
  constructor
  · rintro ⟨_, h⟩
    cases h
    exact ⟨rfl, rfl⟩
  · rintro ⟨rfl, rfl⟩
    exact ⟨List.suffix_refl _, rfl⟩

theorem reads_satisfy {test : Char → Bool} {c : Char} :
    Reads (satisfy test) text c rest ↔ text = c :: rest ∧ test c = true := by
  constructor
  · rintro ⟨_, h⟩
    unfold satisfy at h
    split at h
    · cases h
    · rename_i d cs
      split at h
      · rename_i htest
        cases h
        exact ⟨rfl, htest⟩
      · cases h
  · rintro ⟨rfl, htest⟩
    exact ⟨List.suffix_cons c rest, by simp [satisfy, htest]⟩

theorem reads_ahead : Reads (ahead p) text a rest ↔ rest = text ∧ ∃ mid, Reads p text a mid := by
  constructor
  · rintro ⟨_, h⟩
    unfold ahead at h
    split at h
    · cases h
    · rename_i r hr
      cases h
      exact ⟨rfl, r.rest, reads_of_eq_some hr⟩
  · rintro ⟨rfl, mid, _, h⟩
    exact ⟨List.suffix_refl _, by simp only [ahead, h]⟩

theorem reads_notAhead {u : Unit} :
    Reads (notAhead p) text u rest ↔ rest = text ∧ p text = none := by
  constructor
  · rintro ⟨_, h⟩
    unfold notAhead at h
    split at h
    · rename_i hnone
      cases h
      exact ⟨rfl, hnone⟩
    · cases h
  · rintro ⟨rfl, hnone⟩
    exact ⟨List.suffix_refl _, by simp only [notAhead, hnone]⟩

/-! ## Reading again and again -/

/-- `p` reads values one after the other, each from what the one before left of the text. -/
inductive ReadsAll (p : Parser α) : (text : List Char) → List α → (rest : List Char) → Prop
  | nil (text : List Char) : ReadsAll p text [] text
  | cons {text mid rest : List Char} {a : α} {as : List α} (head : Reads p text a mid)
    (tail : ReadsAll p mid as rest) : ReadsAll p text (a :: as) rest

theorem readsAll_of_reads_upTo {n : Nat} {as : List α} (h : Reads (upTo p n) text as rest) :
    ReadsAll p text as rest := by
  induction n generalizing text as with
  | zero =>
    obtain ⟨rfl, rfl⟩ := reads_pure.1 h
    exact .nil _
  | succ n ih =>
    obtain ⟨_, h⟩ := h
    unfold upTo at h
    split at h
    · cases h
      exact .nil _
    · rename_i r hr
      split at h
      · cases h
        exact .nil _
      · split at h
        · cases h
        · rename_i r' hr'
          cases h
          exact .cons (reads_of_eq_some hr) (ih (reads_of_eq_some hr'))

theorem readsAll_of_reads_many {as : List α} (h : Reads (many p) text as rest) :
    ReadsAll p text as rest :=
  readsAll_of_reads_upTo (n := text.length) h

theorem ReadsAll.suffix {as : List α} (h : ReadsAll p text as rest) : rest <:+ text := by
  induction h with
  | nil => exact List.suffix_refl _
  | cons head tail ih => exact ih.trans head.suffix

end BuildSync.Parser
