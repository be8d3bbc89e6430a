import Mathlib.Data.List.Forall2
import BuildSync.Ownership
import BuildSync.Proofs.Build.Setters

/-!
# What settling the owners of sources leaves

`Ownership.assign` settles one source after the other (`Progress.settle`) and then brings the
lists of sources up to date (`relistAll`).

* `Progress.settle_cases`: a source is owned by the rule that lists it, by rules outside the BUILD
  file, or it is attached to a rule that was there or is made for it.
* `Progress.run_induction`: what each step keeps holds after the run.
* `Sound`: the invariant of the loop, kept by each step (`Sound.step`) and hence by the run
  (`Sound.run`).
* `Assigned`, `assign_ok`: what a successful run says of the rules and of the owners.
* `Settled`, `settled_of_assign`: what it leaves of other files and of dependencies.
-/

namespace BuildSync.Ownership

open Build

/-! ## The owner of a source -/

@[simp] theorem owner?_cons_self (file : String) (owner : Owner)
    (owners : List (String × Owner)) :
    owner? ⟨(file, owner) :: owners⟩ file = some owner := by
  simp [owner?]

theorem owner?_cons_of_ne {file other : String} (h : file ≠ other) (owner : Owner)
    (owners : List (String × Owner)) :
    owner? ⟨(other, owner) :: owners⟩ file = owner? ⟨owners⟩ file := by
  simp [owner?, List.lookup_cons, beq_eq_false_iff_ne.2 h]

/-! ## One source -/

namespace Progress

variable {s : Surroundings} {p : Progress} {source : String × SourceKind}

/-- The ways in which a source gets an owner. -/
inductive Step (s : Surroundings) (p : Progress) (source : String × SourceKind) : Progress → Prop
  | listed (rule : Build.Rule) : p.descriptor.owners source.1 = [rule] →
      Step s p source (p.own source.1 (.rule rule.name))
  | external : p.descriptor.owners source.1 = [] → s.external source.1 ≠ [] →
      Step s p source (p.own source.1 (.external (s.external source.1)))
  | attached (rule : Build.Rule) : p.descriptor.owners source.1 = [] →
      s.external source.1 = [] → rule ∈ p.descriptor.rules →
      rule.kind = ruleKind source.2 → Step s p source (p.attach source.1 rule.name)
  | made : p.descriptor.owners source.1 = [] → s.external source.1 = [] →
      p.descriptor.rule? (ruleName s.baseName source.2) = none →
      Step s p source ({ p with
        descriptor := p.descriptor.addRule
          (.ofName (ruleKind source.2) (ruleName s.baseName source.2)) s.rulesFile
        }.attach source.1 (ruleName s.baseName source.2))

/-- **A step** that reports nothing gives the source an owner; any other one reports a problem. -/
theorem settle_cases :
    Step s p source (settle s p source) ∨ (settle s p source).problems ≠ [] := by
  unfold settle
  split
  · rename_i rule ho
    exact .inl (.listed rule ho)
  · exact .inr (by simp [fail])
  · rename_i ho
    split
    · rename_i he
      unfold place
      dsimp only
      split
      · rename_i rule hr
        have hmem : rule ∈ p.descriptor.rules.filter (·.kind = ruleKind source.2) := by simp [hr]
        rw [List.mem_filter, decide_eq_true_eq] at hmem
        exact .inl (.attached rule ho he hmem.1 hmem.2)
      · split
        · exact .inr (by simp [fail])
        · rename_i hn
          exact .inl (.made ho he hn)
      · exact .inr (by simp [fail])
    · rename_i labels he
      exact .inl (.external ho he)

/-- A step at most makes a rule, whose name is free. -/
theorem descriptor_settle (s : Surroundings) (p : Progress) (source : String × SourceKind) :
    (settle s p source).descriptor = p.descriptor ∨
      p.descriptor.rule? (ruleName s.baseName source.2) = none ∧
        (settle s p source).descriptor = p.descriptor.addRule
          (.ofName (ruleKind source.2) (ruleName s.baseName source.2)) s.rulesFile := by
  unfold settle
  split
  · exact .inl rfl
  · exact .inl rfl
  · split
    · unfold place
      dsimp only
      split
      · exact .inl rfl
      · split
        · exact .inl rfl
        · rename_i hfree
          exact .inr ⟨hfree, rfl⟩
      · exact .inl rfl
    · exact .inl rfl

/-- The rule that is made lists nothing. -/
theorem owners_settle (s : Surroundings) (p : Progress) (source : String × SourceKind)
    (file : String) :
    (settle s p source).descriptor.owners file = p.descriptor.owners file := by
  rcases descriptor_settle s p source with heq | ⟨-, heq⟩
  · rw [heq]
  · rw [heq]
    simp [Descriptor.owners, List.filter_append, Rule.ofName, Rule.owns, ListValue.empty,
      ListValue.values]

/-- What is reported stays reported. -/
theorem mem_problems_settle {problem : Problem} (h : problem ∈ p.problems)
    (source : String × SourceKind) : problem ∈ (settle s p source).problems := by
  unfold settle place
  dsimp only
  repeat' split
  all_goals first
    | exact h
    | exact List.mem_append_left _ h

theorem mem_problems_foldl {problem : Problem} (h : problem ∈ p.problems)
    (sources : List (String × SourceKind)) :
    problem ∈ (sources.foldl (settle s) p).problems := by
  induction sources generalizing p with
  | nil => exact h
  | cons source sources ih => exact ih (mem_problems_settle h source)

/-- In a run that reports nothing the first source gets an owner. -/
theorem step_of_foldl {sources : List (String × SourceKind)}
    (h : ((source :: sources).foldl (settle s) p).problems = []) :
    Step s p source (settle s p source) := by
  refine settle_cases.resolve_right fun hne => ?_
  obtain ⟨problem, hproblem⟩ := List.exists_mem_of_ne_nil _ hne
  exact List.ne_nil_of_mem (mem_problems_foldl hproblem sources) h

/-- **What each step keeps holds after a run** that reports nothing, if no source comes back. -/
theorem run_induction {motive : List (String × SourceKind) → Progress → Prop}
    (step : ∀ done p source, source.1 ∉ done.map (·.1) → Step s p source (settle s p source) →
      motive done p → motive (done ++ [source]) (settle s p source))
    {done sources : List (String × SourceKind)} (h : motive done p)
    (hn : ((done ++ sources).map (·.1)).Nodup)
    (hp : (sources.foldl (settle s) p).problems = []) :
    motive (done ++ sources) (sources.foldl (settle s) p) := by
  induction sources generalizing done p with
  | nil => simpa using h
  | cons source sources ih =>
    have hfresh : source.1 ∉ done.map (·.1) := by
      rw [List.map_append, List.nodup_append'] at hn
      exact fun hm => hn.2.2 hm List.mem_cons_self
    rw [List.append_cons] at hn ⊢
    exact ih (step done p source hfresh (step_of_foldl hp) h) hn hp

end Progress

/-! ## All sources -/

/-- What holds after the sources `done`, if nothing was reported. -/
structure Sound (s : Surroundings) (d : Descriptor) (done : List (String × SourceKind))
    (p : Progress) : Prop where
  package : p.descriptor.package = d.package
  /-- Rules are only added, without sources. -/
  rules : ∃ new, p.descriptor.rules = d.rules ++ new ∧
    ∀ r ∈ new, ∃ kind, r = .ofName (ruleKind kind) (ruleName s.baseName kind)
  names : (d.rules.map (·.name)).Nodup → (p.descriptor.rules.map (·.name)).Nodup
  owned : ∀ file, (p.ownership.owner? file).isSome = true ↔ file ∈ done.map (·.1)
  listed : ∀ source ∈ done, ∀ rule ∈ d.owners source.1,
    p.ownership.owner? source.1 = some (.rule rule.name)
  external : ∀ source ∈ done, d.owners source.1 = [] → s.external source.1 ≠ [] →
    p.ownership.owner? source.1 = some (.external (s.external source.1))
  added : ∀ entry ∈ p.added, (∃ source ∈ done, source.1 = entry.2) ∧
    p.ownership.owner? entry.2 = some (.rule entry.1)
  /-- An owner within the BUILD file is one of its rules. -/
  inside : ∀ file name, p.ownership.owner? file = some (.rule name) →
    name ∈ p.descriptor.rules.map (·.name)
  outside : ∀ file labels, p.ownership.owner? file = some (.external labels) →
    labels = s.external file

namespace Sound

variable {s : Surroundings} {d : Descriptor} {done : List (String × SourceKind)} {p : Progress}
  {source : String × SourceKind}

/-- A new rule lists nothing, so the rules that list a source are those of the BUILD file. -/
theorem owners_eq (h : Sound s d done p) (file : String) :
    p.descriptor.owners file = d.owners file := by
  obtain ⟨new, hr, hnew⟩ := h.rules
  have hnil : new.filter (fun r => !r.kind.isAggregate && r.owns file) = [] := by
    refine List.filter_eq_nil_iff.2 fun r hm => ?_
    obtain ⟨kind, rfl⟩ := hnew r hm
    simp [Rule.ofName, Rule.owns, ListValue.empty, ListValue.values]
  simp only [Descriptor.owners, hr, List.filter_append, hnil, List.append_nil]

/-- An owner recorded for a new source leaves the records of the others. -/
theorem owner?_own_of_mem (hn : source.1 ∉ done.map (·.1)) (owner : Owner)
    {other : String × SourceKind} (ho : other ∈ done) :
    (p.own source.1 owner).ownership.owner? other.1 = p.ownership.owner? other.1 :=
  owner?_cons_of_ne (fun he => hn (List.mem_map.2 ⟨other, ho, he⟩)) owner _

theorem owner?_own (source file : String) (owner : Owner) :
    (p.own source owner).ownership.owner? file =
      if file = source then some owner else p.ownership.owner? file := by
  split
  · rename_i he
    rw [he]
    exact owner?_cons_self _ _ _
  · rename_i hne
    exact owner?_cons_of_ne hne owner _

/-- The invariant after one more owner is recorded. -/
theorem own (h : Sound s d done p) (hn : source.1 ∉ done.map (·.1)) {owner : Owner}
    (hl : ∀ rule ∈ d.owners source.1, owner = .rule rule.name)
    (he : d.owners source.1 = [] → s.external source.1 ≠ [] →
      owner = .external (s.external source.1))
    (hi : ∀ name, owner = .rule name → name ∈ p.descriptor.rules.map (·.name))
    (ho : ∀ labels, owner = .external labels → labels = s.external source.1) :
    Sound s d (done ++ [source]) (p.own source.1 owner) := by
  refine ⟨h.package, h.rules, h.names, fun file => ?_, fun other hmem rule hr => ?_,
    fun other hmem hnil hne => ?_, fun entry hm => ?_, fun file name hown => ?_,
    fun file labels hown => ?_⟩
  · rw [owner?_own]
    split
    · rename_i heq
      simp [heq]
    · rename_i hne
      rw [h.owned]
      simp [hne]
  · rcases List.mem_append.1 hmem with hmem | hmem
    · rw [owner?_own_of_mem hn owner hmem]
      exact h.listed other hmem rule hr
    · cases List.mem_singleton.1 hmem
      rw [← hl rule hr]
      exact owner?_cons_self _ _ _
  · rcases List.mem_append.1 hmem with hmem | hmem
    · rw [owner?_own_of_mem hn owner hmem]
      exact h.external other hmem hnil hne
    · cases List.mem_singleton.1 hmem
      rw [← he hnil hne]
      exact owner?_cons_self _ _ _
  · obtain ⟨⟨other, hmem, hname⟩, howner⟩ := h.added entry hm
    refine ⟨⟨other, List.mem_append_left _ hmem, hname⟩, ?_⟩
    rw [← hname, owner?_own_of_mem hn owner hmem, hname]
    exact howner
  · rw [owner?_own] at hown
    split at hown
    · exact hi name (Option.some.inj hown)
    · exact h.inside file name hown
  · rw [owner?_own] at hown
    split at hown
    · rename_i heq
      rw [heq]
      exact ho labels (Option.some.inj hown)
    · exact h.outside file labels hown

/-- The invariant after one more source is attached to a rule. -/
theorem attach (h : Sound s d done p) (hn : source.1 ∉ done.map (·.1))
    (ho : d.owners source.1 = []) (he : s.external source.1 = []) {rule : String}
    (hr : rule ∈ p.descriptor.rules.map (·.name)) :
    Sound s d (done ++ [source]) (p.attach source.1 rule) := by
  have hown : Sound s d (done ++ [source]) (p.own source.1 (.rule rule)) :=
    h.own hn (by simp [ho]) (fun _ hne => absurd he hne)
      (fun name hname => by cases hname; exact hr) fun labels hl => by cases hl
  refine ⟨hown.package, hown.rules, hown.names, hown.owned, hown.listed, hown.external,
    fun entry hm => ?_, hown.inside, hown.outside⟩
  rcases List.mem_append.1 hm with hm | hm
  · exact hown.added entry hm
  · cases List.mem_singleton.1 hm
    exact ⟨⟨source, by simp, rfl⟩, owner?_cons_self _ _ _⟩

/-- The invariant after a rule is made. -/
theorem addRule (h : Sound s d done p) {kind : SourceKind}
    (hnone : p.descriptor.rule? (ruleName s.baseName kind) = none) :
    Sound s d done { p with
      descriptor := p.descriptor.addRule (.ofName (ruleKind kind) (ruleName s.baseName kind))
        s.rulesFile } := by
  obtain ⟨new, hr, hnew⟩ := h.rules
  refine ⟨(Descriptor.package_addRule _ _ _).trans h.package,
    ⟨new ++ [.ofName (ruleKind kind) (ruleName s.baseName kind)], ?_, fun r hm => ?_⟩,
    fun hd => ?_, h.owned, h.listed, h.external, h.added, fun file name hown => ?_, h.outside⟩
  · rw [Descriptor.rules_addRule, hr, List.append_assoc]
  · rcases List.mem_append.1 hm with hm | hm
    · exact hnew r hm
    · exact ⟨kind, List.mem_singleton.1 hm⟩
  · dsimp only
    rw [Descriptor.rules_addRule, List.map_append, List.nodup_append']
    refine ⟨h.names hd, List.nodup_singleton _, fun other hm ho => ?_⟩
    obtain ⟨r, hr, rfl⟩ := List.mem_map.1 hm
    have hne := List.find?_eq_none.1 hnone r hr
    exact hne (by simpa [Rule.ofName] using List.mem_singleton.1 ho)
  · dsimp only
    rw [Descriptor.rules_addRule, List.map_append]
    exact List.mem_append_left _ (h.inside file name hown)

/-- **A step keeps the invariant.** -/
theorem step (h : Sound s d done p) (hn : source.1 ∉ done.map (·.1)) {q : Progress}
    (hq : Progress.Step s p source q) : Sound s d (done ++ [source]) q := by
  cases hq with
  | listed rule ho =>
    have hmem : rule ∈ p.descriptor.rules :=
      List.mem_of_mem_filter (ho ▸ List.mem_singleton_self rule : rule ∈ p.descriptor.owners _)
    rw [h.owners_eq] at ho
    refine h.own hn (by simp [ho]) (by simp [ho]) (fun name hname => ?_) fun _ hl => by cases hl
    cases hname
    exact List.mem_map_of_mem hmem
  | external ho he =>
    rw [h.owners_eq] at ho
    refine h.own hn (by simp [ho]) (fun _ _ => rfl) (fun _ hname => by cases hname) fun _ hl => ?_
    cases hl
    rfl
  | attached rule ho he hmem _ =>
    rw [h.owners_eq] at ho
    exact h.attach hn ho he (List.mem_map_of_mem hmem)
  | made ho he hnone =>
    rw [h.owners_eq] at ho
    refine (h.addRule hnone).attach hn ho he ?_
    dsimp only
    rw [Descriptor.rules_addRule, List.map_append]
    exact List.mem_append_right _ (List.mem_singleton_self _)

/-- **A run that reports nothing keeps the invariant.** -/
theorem run {sources : List (String × SourceKind)} (h : Sound s d done p)
    (hn : ((done ++ sources).map (·.1)).Nodup)
    (hp : (sources.foldl (Progress.settle s) p).problems = []) :
    Sound s d (done ++ sources) (sources.foldl (Progress.settle s) p) :=
  Progress.run_induction (fun _ _ _ hfresh hstep h => h.step hfresh hstep) h hn hp

end Sound

/-! ## The rules afterwards -/

/-- A relisted rule only has other sources: some of those it had, and those added to it. -/
structure Relisted (added : List (String × String)) (r r' : Build.Rule) : Prop where
  name : r'.name = r.name
  kind : r'.kind = r.kind
  deps : r'.deps = r.deps
  owns : ∀ file, r'.owns file = true → r.owns file = true ∨ (r.name, file) ∈ added

theorem relisted_relist {added : List (String × String)} {r : Build.Rule}
    {gone mine : List String} (hm : ∀ file ∈ mine, (r.name, file) ∈ added) :
    Relisted added r (relist r gone mine) := by
  unfold relist
  split
  · exact ⟨rfl, rfl, rfl, fun _ h => .inl h⟩
  · split
    · exact ⟨rfl, rfl, rfl, fun _ h => .inl h⟩
    · rename_i values hv
      refine ⟨by simp, by simp, by simp, fun file ho => ?_⟩
      obtain ⟨new, hnew, hmem⟩ := Rule.owns_iff.1 ho
      rw [Rule.srcs_setSrcs _ hv, Option.some.injEq] at hnew
      subst hnew
      rw [mem_sortedTexts, List.mem_append, List.mem_filter] at hmem
      exact hmem.imp (fun h => Rule.owns_iff.2 ⟨values, hv, h.1⟩) (hm file)

theorem relisted_relistAll (gone : String → List String) {rules : List Build.Rule}
    {rest added : List (String × String)} (hsub : ∀ entry ∈ rest, entry ∈ added) :
    List.Forall₂ (Relisted added) rules (relistAll gone rest rules) := by
  induction rules generalizing rest with
  | nil => exact .nil
  | cons r rules ih =>
    refine .cons (relisted_relist fun file hf => ?_) (ih fun entry he => ?_)
    · obtain ⟨entry, he, rfl⟩ := List.mem_map.1 hf
      rw [List.mem_filter, decide_eq_true_eq] at he
      rw [← he.2]
      exact hsub entry he.1
    · exact hsub entry (List.mem_of_mem_filter he)

/-- A relisted rule still lists a file that neither goes nor comes. -/
theorem owns_relist {r : Build.Rule} {gone mine : List String} {file : String} (hg : file ∉ gone)
    (hm : file ∉ mine) : (relist r gone mine).owns file = r.owns file := by
  unfold relist
  split
  · rfl
  · split
    · rfl
    · rename_i values hv
      rw [Bool.eq_iff_iff, Rule.owns_iff, Rule.owns_iff, Rule.srcs_setSrcs _ hv, hv]
      simp [mem_sortedTexts, hg, hm]

theorem owners_relistAll {gone : String → List String} {file : String}
    (hg : ∀ rule, file ∉ gone rule) {rules : List Build.Rule} {added : List (String × String)}
    (ha : ∀ entry ∈ added, entry.2 ≠ file) :
    ((relistAll gone added rules).filter fun r => !r.kind.isAggregate && r.owns file).map (·.name) =
      (rules.filter fun r => !r.kind.isAggregate && r.owns file).map (·.name) := by
  induction rules generalizing added with
  | nil => rfl
  | cons r rules ih =>
    have hmine : file ∉ (added.filter (·.1 = r.name)).map Prod.snd := by
      intro hm
      obtain ⟨entry, he, hfile⟩ := List.mem_map.1 hm
      exact ha entry (List.mem_of_mem_filter he) hfile
    have hrest := ih fun entry he => ha entry (List.mem_of_mem_filter (p := (·.1 ≠ r.name)) he)
    have hrel := @relisted_relist added r (gone r.name)
      ((added.filter (·.1 = r.name)).map Prod.snd) fun file hf => by
        obtain ⟨entry, he, rfl⟩ := List.mem_map.1 hf
        rw [List.mem_filter, decide_eq_true_eq] at he
        rw [← he.2]
        exact he.1
    rw [relistAll, List.filter_cons, List.filter_cons, hrel.kind, owns_relist (hg r.name) hmine]
    split
    · rw [List.map_cons, List.map_cons, hrest, hrel.name]
    · exact hrest

/-- The last list that has something in it is one of the lists. -/
theorem mem_foldl_last {file : String} {lists : List (List String)} {found : List String}
    (h : file ∈ lists.foldl (fun found sources => if sources = [] then found else sources) found) :
    file ∈ found ∨ ∃ sources ∈ lists, file ∈ sources := by
  induction lists generalizing found with
  | nil => exact .inl h
  | cons sources lists ih =>
    rcases ih h with hm | ⟨others, ho, hm⟩
    · dsimp only at hm
      split at hm
      · exact .inl hm
      · exact .inr ⟨sources, List.mem_cons_self, hm⟩
    · exact .inr ⟨others, List.mem_cons_of_mem _ ho, hm⟩

/-- Only what is not there is missing. -/
theorem not_isPresent_of_mem_missingOf {s : Surroundings} {rules : List Build.Rule}
    {name file : String} (h : file ∈ missingOf s rules name) : s.isPresent file = false := by
  rcases mem_foldl_last h with hm | ⟨sources, hs, hm⟩
  · cases hm
  · obtain ⟨r, -, rfl⟩ := List.mem_map.1 hs
    unfold missing at hm
    split at hm
    · cases hm
    · simp only [List.mem_filter, Bool.and_eq_true, Bool.not_eq_true'] at hm
      exact hm.2.2

theorem names_eq {added : List (String × String)} {rules rules' : List Build.Rule}
    (h : List.Forall₂ (Relisted added) rules rules') :
    rules'.map (·.name) = rules.map (·.name) := by
  induction h with
  | nil => rfl
  | cons hr _ ih => rw [List.map_cons, List.map_cons, hr.name, ih]

/-- An element of the second of two lists side by side has its partner in the first. -/
theorem exists_partner {α β : Type} {R : α → β → Prop} {xs : List α} {ys : List β}
    (h : List.Forall₂ R xs ys) {y : β} (hy : y ∈ ys) : ∃ x ∈ xs, R x y := by
  induction h with
  | nil => cases hy
  | cons hr _ ih =>
    rcases List.mem_cons.1 hy with rfl | hy
    · exact ⟨_, List.mem_cons_self, hr⟩
    · obtain ⟨x, hmem, hrel⟩ := ih hy
      exact ⟨x, List.mem_cons_of_mem _ hmem, hrel⟩

/-! ## The whole run -/

/-- What settling the sources of a BUILD file `d` leaves, when it reports nothing. -/
structure Assigned (s : Surroundings) (d : Descriptor) (sources : List (String × SourceKind))
    (d' : Descriptor) (o : Ownership) : Prop where
  package : d'.package = d.package
  names : (d'.rules.map (·.name)).Nodup
  /-- A rule keeps its dependencies; a new one has none. -/
  deps : ∀ r' ∈ d'.rules, (∃ r ∈ d.rules, r.name = r'.name ∧ r.deps = r'.deps) ∨
    (∀ r ∈ d.rules, r.name ≠ r'.name) ∧ r'.deps = .literal .empty
  /-- A source that a rule lists afterwards belongs to it. -/
  listed : ∀ source ∈ sources, ∀ r' ∈ d'.rules, r'.kind.isAggregate = false →
    r'.owns source.1 = true → o.owner? source.1 = some (.rule r'.name)
  /-- A source that only rules outside the BUILD file list belongs to none of its rules. -/
  external : ∀ source ∈ sources, d.owners source.1 = [] → s.external source.1 ≠ [] →
    o.owner? source.1 = some (.external (s.external source.1))

theorem mem_owners {d : Descriptor} {file : String} {r : Build.Rule} :
    r ∈ d.owners file ↔ r ∈ d.rules ∧ r.kind.isAggregate = false ∧ r.owns file = true := by
  simp [Descriptor.owners, List.mem_filter]

/-- Before the first source. -/
def Progress.start (d : Descriptor) : Progress :=
  ⟨d, ⟨[]⟩, [], []⟩

theorem Sound.start (s : Surroundings) (d : Descriptor) : Sound s d [] (Progress.start d) :=
  ⟨rfl, ⟨[], (List.append_nil _).symm, by simp⟩, fun hd => hd, by simp [owner?, Progress.start],
    by simp, by simp, by simp [Progress.start], by simp [owner?, Progress.start],
    by simp [owner?, Progress.start]⟩

/-- A run that reports nothing relists the rules it ends with. -/
theorem assign_eq_ok {s : Surroundings} {d d' : Descriptor} {o : Ownership}
    {sources : List (String × SourceKind)} (h : assign s d sources = (d', .ok o)) :
    ∃ p, p = sources.foldl (Progress.settle s) (Progress.start d) ∧ p.problems = [] ∧
      p.ownership = o ∧ d' = { p.descriptor with
        rules := relistAll (missingOf s d.rules) p.added p.descriptor.rules } := by
  unfold assign at h
  dsimp only at h
  split at h
  · rename_i hp
    obtain ⟨rfl, ho⟩ := Prod.mk.inj h
    cases ho
    exact ⟨_, rfl, hp, rfl, rfl⟩
  · cases (Prod.mk.inj h).2

/-- Another run leaves the rules it ends with. -/
theorem assign_eq_error {s : Surroundings} {d d' : Descriptor} {problems : List Problem}
    {sources : List (String × SourceKind)} (h : assign s d sources = (d', .error problems)) :
    d' = (sources.foldl (Progress.settle s) (Progress.start d)).descriptor ∧
      problems = (sources.foldl (Progress.settle s) (Progress.start d)).problems := by
  unfold assign at h
  dsimp only at h
  split at h
  · cases (Prod.mk.inj h).2
  · obtain ⟨rfl, hp⟩ := Prod.mk.inj h
    cases hp
    exact ⟨rfl, rfl⟩

/-- A run that reports nothing ends with the invariant, and relists the rules. -/
theorem exists_sound_of_assign {s : Surroundings} {d d' : Descriptor} {o : Ownership}
    {sources : List (String × SourceKind)} (hs : (sources.map (·.1)).Nodup)
    (h : assign s d sources = (d', .ok o)) :
    ∃ p, Sound s d sources p ∧ p.ownership = o ∧
      d' = { p.descriptor with
        rules := relistAll (missingOf s d.rules) p.added p.descriptor.rules } := by
  obtain ⟨p, rfl, hp, ho, hd'⟩ := assign_eq_ok h
  exact ⟨_, (Sound.start s d).run (by simpa using hs) hp, ho, hd'⟩

/-- **A run that reports nothing** settles every source. -/
theorem assign_ok {s : Surroundings} {d d' : Descriptor} {o : Ownership}
    {sources : List (String × SourceKind)} (hd : (d.rules.map (·.name)).Nodup)
    (hs : (sources.map (·.1)).Nodup) (h : assign s d sources = (d', .ok o)) :
    Assigned s d sources d' o := by
  obtain ⟨p, hp, rfl, rfl⟩ := exists_sound_of_assign hs h
  have hrel := @relisted_relistAll (missingOf s d.rules) p.descriptor.rules p.added p.added
    fun _ he => he
  refine ⟨hp.package, ?_, fun r' hr' => ?_, fun source hsource r' hr' hagg howns => ?_,
    hp.external⟩
  · exact names_eq hrel ▸ hp.names hd
  · obtain ⟨r, hr, hrr⟩ := exists_partner hrel hr'
    obtain ⟨new, hrules, hnew⟩ := hp.rules
    have hnames := hp.names hd
    rw [hrules, List.map_append, List.nodup_append'] at hnames
    rw [hrules] at hr
    rw [hrr.name, hrr.deps]
    rcases List.mem_append.1 hr with hr | hr
    · exact .inl ⟨r, hr, rfl, rfl⟩
    · refine .inr ⟨fun q hq he => hnames.2.2 ?_ (List.mem_map_of_mem hr), ?_⟩
      · exact List.mem_map.2 ⟨q, hq, he⟩
      · obtain ⟨kind, rfl⟩ := hnew r hr
        rfl
  · obtain ⟨r, hr, hrr⟩ := exists_partner hrel hr'
    rw [hrr.name]
    rcases hrr.owns source.1 howns with ho | ha
    · have hmem : r ∈ d.owners source.1 := by
        rw [← hp.owners_eq]
        exact mem_owners.2 ⟨hr, hrr.kind ▸ hagg, ho⟩
      exact hp.listed source hsource r hmem
    · exact (hp.added _ ha).2

/-- What settling leaves of the BUILD file `d`, whatever its rules are named. -/
structure Settled (s : Surroundings) (d : Descriptor) (sources : List (String × SourceKind))
    (d' : Descriptor) (o : Ownership) : Prop where
  package : d'.package = d.package
  /-- Exactly the sources have an owner. -/
  owned : ∀ file, (o.owner? file).isSome = true ↔ file ∈ sources.map (·.1)
  listed : ∀ source ∈ sources, ∀ rule ∈ d.owners source.1,
    o.owner? source.1 = some (.rule rule.name)
  /-- Other files that are there stay with the rules that list them. -/
  owners : ∀ file, s.isPresent file = true → file ∉ sources.map (·.1) →
    (d'.owners file).map (·.name) = (d.owners file).map (·.name)
  deps : ∀ r' ∈ d'.rules, r'.deps = .literal .empty ∨ ∃ r ∈ d.rules, r.deps = r'.deps
  /-- A rule that is made has a name of its own. -/
  names : ∀ name ∈ d'.rules.map (·.name), name ∈ d.rules.map (·.name) ∨
    ∃ kind, name = ruleName s.baseName kind
  inside : ∀ file name, o.owner? file = some (.rule name) → name ∈ d'.rules.map (·.name)
  outside : ∀ file labels, o.owner? file = some (.external labels) → labels = s.external file

/-- **Settling leaves what it is not about**: files that are no sources, and dependencies. -/
theorem settled_of_assign {s : Surroundings} {d d' : Descriptor} {o : Ownership}
    {sources : List (String × SourceKind)} (hs : (sources.map (·.1)).Nodup)
    (h : assign s d sources = (d', .ok o)) : Settled s d sources d' o := by
  obtain ⟨p, hp, rfl, rfl⟩ := exists_sound_of_assign hs h
  have hrel := @relisted_relistAll (missingOf s d.rules) p.descriptor.rules p.added p.added
    fun _ he => he
  have hnames := names_eq hrel
  obtain ⟨new, hrules, hnew⟩ := hp.rules
  refine ⟨hp.package, hp.owned, hp.listed, fun file hpresent hsource => ?_, fun r' hr' => ?_,
    fun name hname => ?_, fun file name hown => ?_, hp.outside⟩
  · rw [← hp.owners_eq]
    refine owners_relistAll (fun rule hm => ?_) fun entry he hfile => ?_
    · rw [not_isPresent_of_mem_missingOf hm] at hpresent
      cases hpresent
    · obtain ⟨⟨source, hmem, hname⟩, -⟩ := hp.added entry he
      exact hsource (List.mem_map.2 ⟨source, hmem, hname.trans hfile⟩)
  · obtain ⟨r, hr, hrr⟩ := exists_partner hrel hr'
    rw [hrules] at hr
    rcases List.mem_append.1 hr with hr | hr
    · exact .inr ⟨r, hr, hrr.deps.symm⟩
    · obtain ⟨kind, rfl⟩ := hnew r hr
      exact .inl hrr.deps
  · rw [hnames, hrules, List.map_append] at hname
    refine (List.mem_append.1 hname).imp_right fun hname => ?_
    obtain ⟨r, hr, rfl⟩ := List.mem_map.1 hname
    obtain ⟨kind, rfl⟩ := hnew r hr
    exact ⟨kind, rfl⟩
  · exact hnames ▸ hp.inside file name hown

end BuildSync.Ownership
