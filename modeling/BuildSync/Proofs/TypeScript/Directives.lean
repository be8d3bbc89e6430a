import BuildSync.Proofs.Labels
import BuildSync.Proofs.Text.Cuts
import BuildSync.Proofs.Text.Lines
import BuildSync.TypeScript.Header

/-!
# What a directive says

* `Assigns`, `HasAttribute`: an attribute has the text in quotes behind the first sign that follows
  its name; `attribute?_eq_some`: this is what is read.
* `Names`, `Refers`: the module to which a directive refers; `directive?_eq_some`: this is the
  module that is found.
-/

namespace BuildSync.TypeScript.Header

open Text

/-! ## Values -/

/-- A text begins with this value, in quotes of either kind. -/
def IsQuoted (text value : List Char) : Prop :=
  ∃ quote back, (quote = '\x22' ∨ quote = '\x27') ∧ quote ∉ value ∧
    trimStart text = quote :: (value ++ quote :: back)

theorem exists_sign {text : List Char} {found : Option (List Char)}
    (h : attributeValue? text = some found) :
    ∃ gap rest, (∀ c ∈ gap, isBlank c = true) ∧ text = gap ++ '=' :: rest := by
  unfold attributeValue? at h
  split at h
  · rename_i rest htext
    obtain ⟨gap, hgap, hblank⟩ := exists_trimStart text
    exact ⟨gap, rest, hblank, htext ▸ hgap⟩
  · cases h

theorem attributeValue?_sign {gap : List Char} (h : ∀ c ∈ gap, isBlank c = true)
    (rest : List Char) :
    ∃ found, attributeValue? (gap ++ '=' :: rest) = some found ∧
      ∀ value, found = some value ↔ IsQuoted rest value := by
  have htext : trimStart (gap ++ '=' :: rest) = '=' :: rest := by
    rw [trimStart_append_of_eq_nil (trimStart_eq_nil.2 h), trimStart_cons_of_not (by decide)]
  simp only [attributeValue?, IsQuoted, htext]
  cases trimStart rest with
  | nil => exact ⟨none, rfl, by simp⟩
  | cons quote body =>
    dsimp only
    split
    · rename_i hquote
      refine ⟨_, rfl, fun value => ?_⟩
      constructor
      · intro hvalue
        obtain ⟨⟨_, back⟩, hcut, rfl⟩ := Option.map_eq_some_iff.1 hvalue
        refine ⟨quote, back, hquote, not_mem_of_cut? hcut, ?_⟩
        rw [cut?_eq_some hcut]
        simp
      · rintro ⟨_, back, -, hvalue, hbody⟩
        cases hbody
        rw [cut?_append hvalue]
        rfl
    · rename_i hquote
      refine ⟨none, rfl, fun value => ⟨fun hvalue => absurd hvalue (by simp), ?_⟩⟩
      rintro ⟨_, back, hkind, -, hbody⟩
      cases hbody
      exact absurd hkind hquote

/-! ## Attributes -/

/-- Behind `front`, which ends in a blank, the name of an attribute and a sign follow in a text, and
then `rest`. -/
def Assigns (name text front rest : List Char) : Prop :=
  (∃ c ∈ front.getLast?, isBlank c = true) ∧
    ∃ gap, (∀ c ∈ gap, isBlank c = true) ∧ text = front ++ name ++ (gap ++ '=' :: rest)

/-- An attribute has this value in a text, by the first of its signs. -/
def HasAttribute (name text value : List Char) : Prop :=
  ∃ front rest, Assigns name text front rest ∧ IsQuoted rest value ∧
    ∀ front' rest', Assigns name text front' rest' → front.length ≤ front'.length

section
variable {name text front back : List Char}

theorem Assigns.behind {zs rest : List Char} (h : Assigns name back zs rest) (before : List Char) :
    Assigns name (before ++ back) (before ++ zs) rest := by
  obtain ⟨⟨c, hlast, hblank⟩, gap, hgap, rfl⟩ := h
  exact ⟨⟨c, by simp [List.getLast?_append, Option.mem_def.1 hlast], hblank⟩, gap, hgap, by simp⟩

/-- A sign behind the first place of a name is that of the place, or of a later one. -/
theorem Assigns.cases (hname : ∀ c ∈ name, isBlank c = false)
    (hcut : cut? name text = some (front, back)) {front' rest : List Char}
    (h : Assigns name text front' rest) :
    (front' = front ∧ ∃ gap, (∀ c ∈ gap, isBlank c = true) ∧ back = gap ++ '=' :: rest) ∨
      ∃ zs, front' = front ++ name ++ zs ∧ Assigns name back zs rest := by
  obtain ⟨⟨c, hlast, hblank⟩, gap, hgap, htext⟩ := h
  have hcs := cut?_eq_some hcut
  have hle := length_le_of_cut? hcut htext
  rw [htext, List.append_assoc, List.append_assoc] at hcs
  obtain ⟨zs, rfl, hzs⟩ : ∃ zs, front' = front ++ zs ∧
      name ++ back = zs ++ (name ++ (gap ++ '=' :: rest)) := by
    rcases List.append_eq_append_iff.1 hcs with ⟨zs, hzs, hname⟩ | ⟨zs, hzs, hname⟩
    · have hlength := congrArg List.length hzs
      rw [List.length_append] at hlength
      have hnil : zs = [] := List.length_eq_zero_iff.1 (by omega)
      subst hnil
      exact ⟨[], by simpa using hzs.symm, by simpa using hname.symm⟩
    · exact ⟨zs, hzs, hname⟩
  cases zs with
  | nil => exact .inl ⟨List.append_nil front, gap, hgap, List.append_cancel_left hzs⟩
  | cons z zs =>
    -- The name holds no blank, so it does not go as far as the blank in front of the next one.
    have hlast' : (z :: zs).getLast? = some c := by
      rw [← List.getLast?_append_of_ne_nil front (by simp)]
      exact hlast
    have hsolid : ¬ z :: zs <+: name := fun hlead => by
      have hplain := hname c (hlead.subset (List.mem_of_getLast? hlast'))
      rw [hblank] at hplain
      cases hplain
    rcases List.append_eq_append_iff.1 hzs with ⟨us, hus, hback⟩ | ⟨us, hus, -⟩
    · cases us with
      | nil => exact absurd ⟨[], by simpa using hus⟩ hsolid
      | cons u us =>
        refine .inr ⟨u :: us, by rw [hus, List.append_assoc], ⟨c, ?_, hblank⟩, gap, hgap, ?_⟩
        · rwa [hus, List.getLast?_append_of_ne_nil name (by simp)] at hlast'
        · rw [hback, List.append_assoc]
    · exact absurd ⟨us, hus.symm⟩ hsolid

/-- **The value of an attribute** is what is read for it. -/
theorem attribute?_eq_some (hname : ∀ c ∈ name, isBlank c = false) (hne : name ≠ [])
    {value : List Char} : attribute? name hne text = some value ↔ HasAttribute name text value := by
  fun_induction attribute? name hne text with
  | case1 text hcut =>
    refine ⟨fun hvalue => absurd hvalue (by simp), ?_⟩
    rintro ⟨front, rest, ⟨-, gap, -, htext⟩, -, -⟩
    exact absurd htext (cut?_eq_none_iff.1 hcut _ _)
  | case2 text front back hcut found hfound =>
    obtain ⟨c, hc, hread⟩ := Option.bind_eq_some_iff.1 hfound
    obtain ⟨hlast, hblank⟩ := Option.filter_eq_some_iff.1 hc
    obtain ⟨gap, rest, hgap, hback⟩ := exists_sign hread
    constructor
    · rintro rfl
      obtain ⟨found, hsign, hquoted⟩ := attributeValue?_sign hgap rest
      rw [← hback, hread] at hsign
      obtain rfl := Option.some.inj hsign
      refine ⟨front, rest, ⟨⟨c, hlast, hblank⟩, gap, hgap, ?_⟩, (hquoted value).1 rfl, ?_⟩
      · rw [← hback]
        exact cut?_eq_some hcut
      · rintro front' rest' ⟨-, gap', -, htext⟩
        exact length_le_of_cut? hcut htext
    · rintro ⟨front', rest', hsign, hquoted, hfirst⟩
      have hle := hfirst front rest ⟨⟨c, hlast, hblank⟩, gap, hgap, hback ▸ cut?_eq_some hcut⟩
      rcases hsign.cases hname hcut with ⟨rfl, gap', hgap', hback'⟩ | ⟨zs, rfl, -⟩
      · obtain ⟨found, hsign, hvalue⟩ := attributeValue?_sign hgap' rest'
        rw [← hback', hread] at hsign
        exact Option.some.inj hsign ▸ (hvalue value).2 hquoted
      · have hpos := List.length_pos_iff.2 hne
        simp only [List.length_append] at hle
        omega
  | case3 text front back hcut hnone ih =>
    have hback := cut?_eq_some hcut
    have hbehind : ∀ front' rest, Assigns name text front' rest →
        ∃ zs, front' = front ++ name ++ zs ∧ Assigns name back zs rest := by
      intro front' rest hsign
      refine (hsign.cases hname hcut).resolve_left ?_
      rintro ⟨rfl, gap, hgap, rfl⟩
      obtain ⟨c, hlast, hblank⟩ := hsign.1
      obtain ⟨found, hfound, -⟩ := attributeValue?_sign hgap rest
      rw [Option.mem_def.1 hlast, Option.filter_some, if_pos hblank, Option.bind_some, hfound]
        at hnone
      cases hnone
    rw [ih]
    constructor
    · rintro ⟨zs, rest, hsign, hquoted, hfirst⟩
      refine ⟨front ++ name ++ zs, rest, hback ▸ hsign.behind _, hquoted, fun _ rest' h' => ?_⟩
      obtain ⟨zs', rfl, hback'⟩ := hbehind _ rest' h'
      have hle := hfirst zs' rest' hback'
      simp only [List.length_append]
      omega
    · rintro ⟨front', rest, hsign, hquoted, hfirst⟩
      obtain ⟨zs, rfl, hsign'⟩ := hbehind _ _ hsign
      refine ⟨zs, rest, hsign', hquoted, fun zs' rest' h' => ?_⟩
      have hle := hfirst _ rest' (hback ▸ h'.behind (front ++ name))
      simp only [List.length_append] at hle
      omega

end

/-! ## Directives -/

/-- A tag names this module, by the path to it or else by its types. -/
def Names (tag specifier : List Char) : Prop :=
  (∃ path, HasAttribute "path".toList tag path ∧ specifier = fromHere path) ∨
    (∀ path, ¬ HasAttribute "path".toList tag path) ∧ HasAttribute "types".toList tag specifier

/-- A line refers to this module: behind three slashes stands a tag that names it. -/
def Refers (line specifier : List Char) : Prop :=
  ∃ gap tag, (∀ c ∈ gap, isBlank c = true) ∧ line = "///".toList ++ gap ++ tag ∧
    "<reference".toList <+: tag ∧ Names tag specifier

theorem names_iff {tag specifier : List Char} :
    (match attribute? ['p', 'a', 't', 'h'] (by decide) tag with
      | some path => some (fromHere path)
      | none => attribute? ['t', 'y', 'p', 'e', 's'] (by decide) tag) = some specifier ↔
      Names tag specifier := by
  have hpath : ∀ path, HasAttribute "path".toList tag path ↔
      attribute? ['p', 'a', 't', 'h'] (by decide) tag = some path :=
    fun _ => (attribute?_eq_some (by simp [isBlank]) (by decide)).symm
  have htypes : HasAttribute "types".toList tag specifier ↔
      attribute? ['t', 'y', 'p', 'e', 's'] (by decide) tag = some specifier :=
    (attribute?_eq_some (by simp [isBlank]) (by decide)).symm
  simp only [Names, hpath, htypes]
  cases attribute? ['p', 'a', 't', 'h'] (by decide) tag <;> simp [eq_comm]

/-- **A directive names the module** to which it refers. -/
theorem directive?_eq_some {line specifier : List Char} :
    directive? line = some specifier ↔ Refers line specifier := by
  unfold directive?
  constructor
  · intro h
    split at h
    · cases h
    · rename_i rest hrest
      dsimp only at h
      split at h
      · rename_i htag
        obtain ⟨back, hback⟩ := startsWith_iff.1 htag
        obtain ⟨gap, hgap, hblank⟩ := exists_trimStart rest
        refine ⟨gap, trimStart rest, hblank, ?_, ⟨back, hback.symm⟩, names_iff.1 h⟩
        rw [strip?_eq_some_iff.1 hrest, List.append_assoc, ← hgap]
        rfl
      · cases h
  · rintro ⟨gap, tag, hgap, rfl, ⟨back, htag⟩, hspecifier⟩
    have hstrip : strip? ['/', '/', '/'] ("///".toList ++ gap ++ tag) = some (gap ++ tag) :=
      strip?_eq_some_iff.2 (List.append_assoc _ _ _)
    have htrim : trimStart (gap ++ tag) = tag := by
      rw [trimStart_append_of_eq_nil (trimStart_eq_nil.2 hgap), ← htag]
      exact trimStart_cons_of_not (by decide) _
    rw [hstrip]
    dsimp only
    rw [htrim, if_pos (startsWith_iff.2 ⟨back, htag.symm⟩)]
    exact names_iff.2 hspecifier

end BuildSync.TypeScript.Header
