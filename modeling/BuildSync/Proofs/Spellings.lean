import BuildSync.Proofs.SettledSources

/-!
# Sources that are listed already

What `Ownership.assign` adds to the lists of rules, in every run: also where a source comes back or
some source gets no owner.

* `Unclaimed`: the invariant of the loop, kept by each step (`Unclaimed.step`) and hence by the run
  (`Unclaimed.run`): a source is added to a rule only if no rule lists its name and no rule
  elsewhere lists it.
* `owns_assign`: what a rule lists afterwards it listed before, or it is such a source.
* `not_listsMore_assign`: a source that some rule lists by its name is not listed again.
* `assign_listsMore`: one that a rule lists in another spelling is.
-/

namespace BuildSync

open Build

namespace Build.Descriptor

/-- A rule that owns sources lists the file in some spelling: read as a label in the BUILD file, an
entry of its written list is the file. -/
def IsListed (d : Descriptor) (file : String) : Prop :=
  ∃ r ∈ d.rules, r.kind.isAggregate = false ∧ ∃ values, r.srcs.values? = some values ∧
    ∃ entry ∈ values, Label.parse? entry d.package = some (.ofPackage d.package file)

/-- The file is added to the list of a rule of `d`, or `d'` lists it in a new rule. -/
def ListsMore (d d' : Descriptor) (file : String) : Prop :=
  ∃ (i : Nat) (r' : Rule), d'.rules[i]? = some r' ∧ r'.owns file = true ∧
    ∀ r : Rule, d.rules[i]? = some r → r.owns file = false

end Build.Descriptor

namespace Ownership

variable {s : Surroundings} {d : Descriptor} {done : List (String × SourceKind)} {p : Progress}

/-! ## The loop -/

/-- A step adds its source to a rule at most, and only if no rule lists its name and no rule
elsewhere lists it. -/
theorem Progress.added_settle (s : Surroundings) (p : Progress) (source : String × SourceKind) :
    (settle s p source).added = p.added ∨
      p.descriptor.owners source.1 = [] ∧ s.external source.1 = [] ∧
        ∃ rule, (settle s p source).added = p.added ++ [(rule, source.1)] := by
  unfold settle
  split
  · exact .inl rfl
  · exact .inl rfl
  · rename_i ho
    split
    · rename_i he
      unfold place
      dsimp only
      split
      · exact .inr ⟨ho, he, _, rfl⟩
      · split
        · exact .inl rfl
        · exact .inr ⟨ho, he, _, rfl⟩
      · exact .inl rfl
    · exact .inl rfl

/-- What holds after the sources `done`, whatever was reported. -/
structure Unclaimed (s : Surroundings) (d : Descriptor) (done : List (String × SourceKind))
    (p : Progress) : Prop where
  /-- Rules are only added, without sources. -/
  rules : ∃ new, p.descriptor.rules = d.rules ++ new ∧ ∀ r ∈ new, ∀ file, r.owns file = false
  owners : ∀ file, p.descriptor.owners file = d.owners file
  added : ∀ entry ∈ p.added,
    entry.2 ∈ done.map (·.1) ∧ d.owners entry.2 = [] ∧ s.external entry.2 = []

namespace Unclaimed

theorem start (s : Surroundings) (d : Descriptor) : Unclaimed s d [] ⟨d, ⟨[]⟩, [], []⟩ :=
  ⟨⟨[], (List.append_nil _).symm, by simp⟩, fun _ => rfl, by simp⟩

/-- **A step keeps the invariant.** -/
theorem step (h : Unclaimed s d done p) (source : String × SourceKind) :
    Unclaimed s d (done ++ [source]) (Progress.settle s p source) := by
  refine ⟨?_, fun file => (Progress.owners_settle s p source file).trans (h.owners file),
    fun entry hentry => ?_⟩
  · obtain ⟨new, hrules, hnew⟩ := h.rules
    rcases Progress.descriptor_settle s p source with heq | ⟨-, heq⟩
    · exact ⟨new, heq ▸ hrules, hnew⟩
    · refine ⟨new ++ [.ofName (ruleKind source.2) (ruleName s.baseName source.2)], ?_, ?_⟩
      · rw [heq, Descriptor.rules_addRule, hrules, List.append_assoc]
      · rw [List.forall_mem_append]
        exact ⟨hnew, fun r hr file => by
          rw [List.mem_singleton.1 hr]
          simp [Rule.ofName, Rule.owns, ListValue.empty, ListValue.values]⟩
  · rw [List.map_append, List.mem_append]
    rcases Progress.added_settle s p source with heq | ⟨ho, he, rule, heq⟩
    · obtain ⟨hdone, hunclaimed⟩ := h.added entry (heq ▸ hentry)
      exact ⟨.inl hdone, hunclaimed⟩
    · rw [heq, List.mem_append] at hentry
      rcases hentry with hentry | hentry
      · obtain ⟨hdone, hunclaimed⟩ := h.added entry hentry
        exact ⟨.inl hdone, hunclaimed⟩
      · rw [List.mem_singleton.1 hentry]
        exact ⟨.inr (List.mem_singleton_self _), h.owners source.1 ▸ ho, he⟩

/-- **A run keeps the invariant.** -/
theorem run (h : Unclaimed s d done p) (sources : List (String × SourceKind)) :
    Unclaimed s d (done ++ sources) (sources.foldl (Progress.settle s) p) := by
  induction sources generalizing done p with
  | nil => simpa using h
  | cons source sources ih =>
    rw [List.append_cons]
    exact ih (h.step source)

/-- A rule after the run that lists a file is a rule of the BUILD file that lists it. -/
theorem getElem?_of_owns (h : Unclaimed s d done p) {i : Nat} {r : Build.Rule} {file : String}
    (hr : p.descriptor.rules[i]? = some r) (ho : r.owns file = true) : d.rules[i]? = some r := by
  obtain ⟨new, hrules, hnew⟩ := h.rules
  rw [hrules] at hr
  by_cases hi : i < d.rules.length
  · rwa [List.getElem?_append_left hi] at hr
  · rw [List.getElem?_append_right (Nat.le_of_not_lt hi)] at hr
    rw [hnew r (List.mem_of_getElem? hr) file] at ho
    cases ho

end Unclaimed

/-! ## The whole run -/

/-- An entry of the second of two lists side by side has its partner in the same place. -/
theorem getElem?_partner {α β : Type} {R : α → β → Prop} {xs : List α} {ys : List β}
    (h : List.Forall₂ R xs ys) {i : Nat} {y : β} (hy : ys[i]? = some y) :
    ∃ x, xs[i]? = some x ∧ R x y := by
  obtain ⟨hi, rfl⟩ := List.getElem?_eq_some_iff.1 hy
  have hlt : i < xs.length := h.length_eq ▸ hi
  exact ⟨xs[i], List.getElem?_eq_getElem hlt, h.get hlt hi⟩

/-- A rule of the BUILD file as it is left lists what a rule lists after the loop, or what is added
to that rule. -/
theorem exists_rule_of_assign {sources : List (String × SourceKind)} {i : Nat} {r' : Build.Rule}
    (hr' : (assign s d sources).1.rules[i]? = some r') {file : String} (ho : r'.owns file = true) :
    let p := sources.foldl (Progress.settle s) ⟨d, ⟨[]⟩, [], []⟩
    ∃ r, p.descriptor.rules[i]? = some r ∧ (r.owns file = true ∨ (r.name, file) ∈ p.added) := by
  unfold assign at hr'
  dsimp only at hr' ⊢
  split at hr'
  · obtain ⟨r, hr, hrelisted⟩ := getElem?_partner
      (relisted_relistAll (missingOf s d.rules) fun entry he => he) hr'
    exact ⟨r, hr, hrelisted.owns file ho⟩
  · exact ⟨r', hr', .inl ho⟩

/-- **What a rule lists afterwards** it listed before, or it is a source that no rule lists by its
name and no rule elsewhere lists. -/
theorem owns_assign {sources : List (String × SourceKind)} {i : Nat} {r' : Build.Rule}
    (hr' : (assign s d sources).1.rules[i]? = some r') {file : String} (ho : r'.owns file = true) :
    (∃ r, d.rules[i]? = some r ∧ r.owns file = true) ∨
      file ∈ sources.map (·.1) ∧ d.owners file = [] ∧ s.external file = [] := by
  have hrun := (Unclaimed.start s d).run sources
  obtain ⟨r, hr, howns | hadded⟩ := exists_rule_of_assign hr' ho
  · exact .inl ⟨r, hrun.getElem?_of_owns hr howns, howns⟩
  · exact .inr (hrun.added _ hadded)

/-- **A source that is listed by its name is not listed again**, nor is one that a rule elsewhere
lists, whatever the other sources are and whether or not all of them get owners. -/
theorem not_listsMore_assign {file : String} (h : d.owners file ≠ [] ∨ s.external file ≠ [])
    (sources : List (String × SourceKind)) : ¬d.ListsMore (assign s d sources).1 file := by
  rintro ⟨i, r', hr', ho, hbefore⟩
  rcases owns_assign hr' ho with ⟨r, hr, howns⟩ | ⟨-, hnobody, hnowhere⟩
  · rw [hbefore r hr] at howns
    cases howns
  · exact h.elim (· hnobody) (· hnowhere)

/-! ## A rule with one entry -/

def spelledRule (entry : String) : Build.Rule :=
  { Rule.ofName (.library false) "p" with srcs := .literal ⟨[.plain entry], []⟩ }

def spelledRules (entry : String) : Descriptor :=
  ⟨"p/BUILD", "p", "", [spelledRule entry], [], ["ts_library"], []⟩

/-- Every file is there, and only the BUILD file lists any. -/
def spelledAround : Surroundings :=
  ⟨fun _ => true, "p", "//:rules.bzl", fun _ => []⟩

/-- A source that is set beside an entry of another spelling. -/
theorem listsMore_spelled {entry file : String} {d : Descriptor} (hne : file ≠ entry)
    (hrules : d.rules = [(spelledRule entry).setSrcs [entry, file]]) :
    (spelledRules entry).ListsMore d file := by
  refine ⟨0, _, by rw [hrules]; rfl, ?_, fun r hr => ?_⟩
  · exact Rule.owns_iff.2 ⟨_, Rule.srcs_setSrcs [entry, file] rfl, by simp⟩
  · cases hr
    simpa [spelledRule, Rule.owns, ListValue.values, ListItem.plain] using hne

/-- The first source is listed by its name, and only the second one is added. -/
theorem not_listsMore_spelled :
    (spelledRules "a.ts").owners "a.ts" ≠ [] ∧
      ¬(spelledRules "a.ts").ListsMore (assign spelledAround (spelledRules "a.ts")
        [("a.ts", .library), ("b.ts", .library)]).1 "a.ts" ∧
      (spelledRules "a.ts").ListsMore (assign spelledAround (spelledRules "a.ts")
        [("a.ts", .library), ("b.ts", .library)]).1 "b.ts" := by
  have howned : (spelledRules "a.ts").owners "a.ts" ≠ [] := by decide
  exact ⟨howned, not_listsMore_assign (.inl howned) _, listsMore_spelled (by decide) rfl⟩

/-- **A source may be listed again**: an entry that spells its label with a colon is the same file,
but only names are compared. -/
theorem assign_listsMore :
    ¬∀ (s : Surroundings) (d : Descriptor) (sources : List (String × SourceKind)) (file : String),
      d.IsListed file → ¬d.ListsMore (assign s d sources).1 file := by
  intro h
  refine h spelledAround (spelledRules ":a.ts") [("a.ts", .library)] "a.ts" ?_
    (listsMore_spelled (by decide) rfl)
  exact ⟨_, List.mem_singleton_self _, rfl, [":a.ts"], rfl, ":a.ts", List.mem_singleton_self _,
    by decide⟩

end Ownership

end BuildSync
