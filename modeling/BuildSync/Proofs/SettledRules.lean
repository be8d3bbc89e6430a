import BuildSync.Proofs.Build.Lists
import BuildSync.Proofs.SettledSources

/-!
# What settling the owners of sources does to each rule

In a BUILD file whose rules have distinct names, `Ownership.assign` decides for each source and for
each rule what becomes of it.

* `Placed`: what each step of the loop adds to the invariant `Sound`: a source that nobody lists is
  recorded for a rule of the kind its name asks for.
* `relistAll_of_nodup`, `missingOf_of_mem`: where names are distinct, each rule is relisted by its
  own lists.
* `Follows`: the rule that a rule becomes. `Arranged`, `arranged_of_assign`: the owners of the
  sources and the rules after a run that reports nothing.
* `assign_keeps_missing`: a rule that gathers files of the whole project keeps the names of files
  that are not there.
-/

namespace BuildSync.Ownership

open Build

/-! ## Sources that are attached -/

/-- A source that no rule listed belongs to a rule. -/
def IsAttached (d : Descriptor) (o : Ownership) (source rule : String) : Prop :=
  d.owners source = [] ∧ o.owner? source = some (.rule rule)

/-- What holds besides `Sound` after the sources `done`, if nothing was reported. -/
structure Placed (s : Surroundings) (d : Descriptor) (done : List (String × SourceKind))
    (p : Progress) : Prop where
  /-- Each source is recorded once, the last one first. -/
  order : p.ownership.owners.map Prod.fst = (done.map Prod.fst).reverse
  attached : ∀ source ∈ done, ∀ name, IsAttached d p.ownership source.1 name →
    (name, source.1) ∈ p.added ∧
      ∃ r ∈ p.descriptor.rules, r.name = name ∧ r.kind = ruleKind source.2
  added : ∀ entry ∈ p.added, d.owners entry.2 = []
  /-- A rule is only made for a source that is added to it. -/
  made : ∃ new, p.descriptor.rules = d.rules ++ new ∧ ∀ r ∈ new, ∃ source ∈ done,
    r = .ofName (ruleKind source.2) (ruleName s.baseName source.2) ∧ (r.name, source.1) ∈ p.added

namespace Placed

theorem start (s : Surroundings) (d : Descriptor) : Placed s d [] (Progress.start d) :=
  ⟨rfl, by simp, by simp [Progress.start], [], (List.append_nil _).symm, by simp⟩

variable {s : Surroundings} {d : Descriptor} {done : List (String × SourceKind)} {p : Progress}
  {source : String × SourceKind}

/-- The invariant after one more owner is recorded for a source that is not attached. -/
theorem own (h : Placed s d done p) (hn : source.1 ∉ done.map (·.1)) {owner : Owner}
    (ho : ∀ name, ¬(d.owners source.1 = [] ∧ owner = .rule name)) :
    Placed s d (done ++ [source]) (p.own source.1 owner) := by
  obtain ⟨new, hrules, hnew⟩ := h.made
  refine ⟨?_, fun other hmem name hother => ?_, h.added, new, hrules, fun r hr => ?_⟩
  · show source.1 :: p.ownership.owners.map Prod.fst = _
    rw [h.order, List.map_append, List.reverse_append]
    rfl
  · obtain ⟨hnil, hown⟩ := hother
    rcases List.mem_append.1 hmem with hmem | hmem
    · rw [Sound.owner?_own_of_mem hn owner hmem] at hown
      exact h.attached other hmem name ⟨hnil, hown⟩
    · cases List.mem_singleton.1 hmem
      rw [Sound.owner?_own, if_pos rfl] at hown
      exact absurd ⟨hnil, Option.some.inj hown⟩ (ho name)
  · obtain ⟨other, hmem, heq, hadd⟩ := hnew r hr
    exact ⟨other, List.mem_append_left _ hmem, heq, hadd⟩

/-- The invariant after one more source is attached to a rule of its kind, which `p` has or which
is made for the source. -/
theorem attach (h : Placed s d done p) (hn : source.1 ∉ done.map (·.1))
    (ho : d.owners source.1 = []) {q : Progress} (rule : Build.Rule) {new : List Build.Rule}
    (hq : q.ownership = p.ownership ∧ q.added = p.added)
    (hrules : q.descriptor.rules = p.descriptor.rules ++ new)
    (hnew : ∀ r ∈ new, r = rule ∧ r = .ofName (ruleKind source.2) (ruleName s.baseName source.2))
    (hr : rule ∈ q.descriptor.rules) (hk : rule.kind = ruleKind source.2) :
    Placed s d (done ++ [source]) (q.attach source.1 rule.name) := by
  obtain ⟨old, hold, hmade⟩ := h.made
  refine ⟨?_, fun other hmem name hother => ?_, fun entry hm => ?_, old ++ new, ?_,
    fun r hmem => ?_⟩
  · show source.1 :: q.ownership.owners.map Prod.fst = _
    rw [hq.1, h.order, List.map_append, List.reverse_append]
    rfl
  · obtain ⟨hnil, hown⟩ := hother
    change (q.own source.1 (.rule rule.name)).ownership.owner? other.1 = _ at hown
    show (name, other.1) ∈ q.added ++ [(rule.name, source.1)] ∧ ∃ r ∈ q.descriptor.rules, _
    rw [hq.2, hrules, List.mem_append]
    rcases List.mem_append.1 hmem with hmem | hmem
    · rw [Sound.owner?_own_of_mem hn _ hmem, hq.1] at hown
      obtain ⟨hadd, r, hr, hname⟩ := h.attached other hmem name ⟨hnil, hown⟩
      exact ⟨.inl hadd, r, List.mem_append_left _ hr, hname⟩
    · cases List.mem_singleton.1 hmem
      rw [Sound.owner?_own, if_pos rfl] at hown
      cases hown
      exact ⟨.inr (List.mem_singleton_self _), rule, hrules ▸ hr, rfl, hk⟩
  · rcases List.mem_append.1 hm with hm | hm
    · exact h.added entry (hq.2 ▸ hm)
    · cases List.mem_singleton.1 hm
      exact ho
  · show q.descriptor.rules = _
    rw [hrules, hold, List.append_assoc]
  · show ∃ other ∈ done ++ [source], _ ∧ (r.name, other.1) ∈ q.added ++ [(rule.name, source.1)]
    rcases List.mem_append.1 hmem with hmem | hmem
    · obtain ⟨other, hother, heq, hadd⟩ := hmade r hmem
      exact ⟨other, List.mem_append_left _ hother, heq, List.mem_append_left _ (hq.2 ▸ hadd)⟩
    · obtain ⟨rfl, heq⟩ := hnew r hmem
      exact ⟨source, by simp, heq, by simp⟩

/-- **A step keeps the invariant.** -/
theorem step (h : Placed s d done p) (hs : Sound s d done p) (hn : source.1 ∉ done.map (·.1))
    {q : Progress} (hq : Progress.Step s p source q) : Placed s d (done ++ [source]) q := by
  cases hq with
  | listed rule ho =>
    refine h.own hn fun _ hnil => ?_
    rw [← hs.owners_eq, ho] at hnil
    cases hnil.1
  | external _ _ => exact h.own hn fun _ hrule => by cases hrule.2
  | attached rule ho _ hmem hk =>
    rw [hs.owners_eq] at ho
    exact h.attach hn ho rule ⟨rfl, rfl⟩ (List.append_nil _).symm (by simp) hmem hk
  | made ho _ _ =>
    rw [hs.owners_eq] at ho
    exact h.attach hn ho (.ofName (ruleKind source.2) (ruleName s.baseName source.2)) ⟨rfl, rfl⟩
      (Descriptor.rules_addRule _ _ _) (by simp) (by simp [Descriptor.rules_addRule]) rfl

/-- **A run that reports nothing keeps the invariant.** -/
theorem run {sources : List (String × SourceKind)} (h : Placed s d done p) (hs : Sound s d done p)
    (hn : ((done ++ sources).map (·.1)).Nodup)
    (hp : (sources.foldl (Progress.settle s) p).problems = []) :
    Placed s d (done ++ sources) (sources.foldl (Progress.settle s) p) :=
  (@Progress.run_induction s p (fun done p => Placed s d done p ∧ Sound s d done p)
    (fun _ _ _ hfresh hstep h => ⟨h.1.step h.2 hfresh hstep, h.2.step hfresh hstep⟩)
    done sources ⟨h, hs⟩ hn hp).1

end Placed

/-- A run that reports nothing ends with both invariants, and relists the rules. -/
theorem exists_placed_of_assign {s : Surroundings} {d d' : Descriptor} {o : Ownership}
    {sources : List (String × SourceKind)} (hs : (sources.map (·.1)).Nodup)
    (h : assign s d sources = (d', .ok o)) :
    ∃ p, Sound s d sources p ∧ Placed s d sources p ∧ p.ownership = o ∧
      d'.rules = relistAll (missingOf s d.rules) p.added p.descriptor.rules := by
  obtain ⟨p, rfl, hp, rfl, rfl⟩ := assign_eq_ok h
  have hstart := Sound.start s d
  exact ⟨_, hstart.run (by simpa using hs) hp, (Placed.start s d).run hstart (by simpa using hs) hp,
    rfl, rfl⟩

/-! ## Rules of distinct names -/

/-- A listed file is gone, and its rule is one that drops such files. -/
def IsStale (s : Surroundings) (r : Build.Rule) (file : String) : Prop :=
  r.kind.isAggregate = false ∧ isFile file = true ∧ s.isPresent file = false

theorem mem_missing {s : Surroundings} {r : Build.Rule} {values : List String} {file : String}
    (hv : r.srcs.values? = some values) :
    file ∈ missing s r ↔ file ∈ values ∧ IsStale s r file := by
  unfold missing IsStale
  rw [hv]
  cases r.kind.isAggregate <;> simp

/-- The only rule of a name is the one whose missing sources count. -/
theorem missingOf_of_mem {s : Surroundings} {rules : List Build.Rule}
    (hn : (rules.map (·.name)).Nodup) {r : Build.Rule} (hr : r ∈ rules) :
    missingOf s rules r.name = missing s r := by
  have honly : rules.filter (·.name = r.name) = [r] := by
    induction rules with
    | nil => cases hr
    | cons q rules ih =>
      rw [List.map_cons, List.nodup_cons] at hn
      rcases List.mem_cons.1 hr with rfl | hr
      · have hrest : rules.filter (·.name = r.name) = [] :=
          List.filter_eq_nil_iff.2 fun q hq he =>
            hn.1 (List.mem_map.2 ⟨q, hq, of_decide_eq_true he⟩)
        simp [hrest]
      · have hne : q.name ≠ r.name := fun he => hn.1 (he ▸ List.mem_map_of_mem hr)
        rw [List.filter_cons_of_neg (by simpa using hne), ih hn.2 hr]
  unfold missingOf
  rw [honly]
  show (if missing s r = [] then [] else missing s r) = missing s r
  split
  · rename_i he
    exact he.symm
  · rfl

/-- A name that no rule has misses nothing. -/
theorem missingOf_of_not_mem {s : Surroundings} {rules : List Build.Rule} {name : String}
    (hn : name ∉ rules.map (·.name)) : missingOf s rules name = [] := by
  have hnone : rules.filter (·.name = name) = [] :=
    List.filter_eq_nil_iff.2 fun r hr he => hn (List.mem_map.2 ⟨r, hr, of_decide_eq_true he⟩)
  rw [missingOf, hnone]
  rfl

theorem not_mem_missingOf {s : Surroundings} {file : String} (h : s.isPresent file = true)
    (rules : List Build.Rule) (name : String) : file ∉ missingOf s rules name := fun hm =>
  Bool.false_ne_true ((not_isPresent_of_mem_missingOf hm).symm.trans h)

/-- The sources that are added to the rules of a name. -/
def addedTo (added : List (String × String)) (name : String) : List String :=
  (added.filter (·.1 = name)).map Prod.snd

theorem mem_addedTo {added : List (String × String)} {name file : String} :
    file ∈ addedTo added name ↔ (name, file) ∈ added := by
  simp [addedTo]

/-- **Rules of distinct names** are relisted one by one. -/
theorem relistAll_of_nodup {gone : String → List String} {added : List (String × String)}
    {rules : List Build.Rule} (hn : (rules.map (·.name)).Nodup) :
    relistAll gone added rules =
      rules.map fun r => relist r (gone r.name) (addedTo added r.name) := by
  induction rules generalizing added with
  | nil => rfl
  | cons r rules ih =>
    rw [List.map_cons, List.nodup_cons] at hn
    rw [relistAll, ih hn.2, List.map_cons]
    refine congrArg₂ List.cons rfl (List.map_congr_left fun q hq => ?_)
    have hne : q.name ≠ r.name := fun he => hn.1 (List.mem_map.2 ⟨q, hq, he⟩)
    have hsame : addedTo (added.filter (·.1 ≠ r.name)) q.name = addedTo added q.name := by
      unfold addedTo
      rw [List.filter_filter]
      refine congrArg _ (List.filter_congr fun entry _ => ?_)
      by_cases he : entry.1 = q.name <;> simp [he, hne]
    rw [hsame]

/-! ## One rule afterwards -/

theorem relist_nil (r : Build.Rule) : relist r [] [] = r := by
  simp [relist]

/-- Relisting touches the sources only. -/
theorem relist_eq (r : Build.Rule) (gone mine : List String) :
    relist r gone mine = { r with
      srcs := (relist r gone mine).srcs
      srcsChanged := (relist r gone mine).srcsChanged } := by
  unfold relist
  split
  · rfl
  · split
    · rfl
    · rw [Rule.setSrcs_eq]

theorem relist_of_computed {r : Build.Rule} (h : r.srcs.values? = none) (gone mine : List String) :
    relist r gone mine = r := by
  unfold relist
  rw [h]
  exact ite_self r

/-- **The sources of a relisted rule** are those that stay and those that come. -/
theorem mem_values_relist {r : Build.Rule} {values : List String}
    (h : r.srcs.values? = some values) (gone mine : List String) :
    ∃ values', (relist r gone mine).srcs.values? = some values' ∧
      ∀ file, file ∈ values' ↔ file ∈ values ∧ file ∉ gone ∨ file ∈ mine := by
  unfold relist
  split
  · rename_i hnil
    exact ⟨values, h, by simp [hnil.1, hnil.2]⟩
  · rw [h]
    exact ⟨_, Rule.srcs_setSrcs _ h, by simp [mem_sortedTexts]⟩

/-- A rule lists afterwards what it listed and what is added to it, if its sources are not
computed. -/
theorem exists_owns_relistAll {gone : String → List String} {added : List (String × String)}
    {rules : List Build.Rule} (hn : (rules.map (·.name)).Nodup) {r : Build.Rule} (hr : r ∈ rules)
    {file : String} (hg : file ∉ gone r.name)
    (h : r.owns file = true ∨ (r.name, file) ∈ added) :
    ∃ r' ∈ relistAll gone added rules, r'.name = r.name ∧ r'.kind = r.kind ∧
      (r'.owns file = true ∨ r' = r ∧ r.srcs.values? = none) := by
  rw [relistAll_of_nodup hn]
  refine ⟨_, List.mem_map_of_mem hr, ?_, ?_, ?_⟩
  · rw [relist_eq]
  · rw [relist_eq]
  · cases hv : r.srcs.values? with
    | none => exact .inr ⟨relist_of_computed hv _ _, rfl⟩
    | some values =>
      obtain ⟨values', hv', hmem⟩ := mem_values_relist hv (gone r.name) (addedTo added r.name)
      refine .inl (Rule.owns_iff.2 ⟨values', hv', (hmem file).2 ?_⟩)
      refine h.imp (fun ho => ⟨?_, hg⟩) mem_addedTo.2
      obtain ⟨listed, hl, hfile⟩ := Rule.owns_iff.1 ho
      rw [hv, Option.some.injEq] at hl
      exact hl ▸ hfile

/-- The rule that a rule of the BUILD file `d` becomes once its sources have the owners `o`. -/
structure Follows (s : Surroundings) (d : Descriptor) (o : Ownership) (r r' : Build.Rule) :
    Prop where
  /-- Nothing but the sources changes. -/
  frame : r' = { r with srcs := r'.srcs, srcsChanged := r'.srcsChanged }
  /-- A rule keeps what it lists but for files that are gone, and gets what is attached to it. -/
  values : ∀ values, r.srcs.values? = some values → ∃ values', r'.srcs.values? = some values' ∧
    ∀ file, file ∈ values' ↔ file ∈ values ∧ ¬IsStale s r file ∨ IsAttached d o file r.name
  /-- Sources that are computed stay. -/
  computed : r.srcs.values? = none → r' = r
  aggregate : r.kind.isAggregate = true → r' = r
  /-- A rule that loses and gets nothing stays. -/
  unaffected : (∀ file, r.owns file = true → ¬IsStale s r file) →
    (∀ file, ¬IsAttached d o file r.name) → r' = r

/-- A rule that is made for sources that are attached to it. -/
structure IsMade (s : Surroundings) (d : Descriptor) (o : Ownership) (r : Build.Rule) : Prop where
  named : ∃ kind, r.kind = ruleKind kind ∧ r.name = ruleName s.baseName kind
  deps : r.deps = .literal .empty
  values : ∃ values, r.srcs.values? = some values ∧ values ≠ [] ∧
    ∀ file, file ∈ values ↔ IsAttached d o file r.name

/-! ## The whole run -/

/-- What a run that reports nothing makes of the sources and the rules of a BUILD file `d`. -/
structure Arranged (s : Surroundings) (d : Descriptor) (sources : List (String × SourceKind))
    (d' : Descriptor) (o : Ownership) : Prop where
  /-- Each source has one owner, and nothing else has any. -/
  once : (o.owners.map Prod.fst).Perm (sources.map Prod.fst)
  /-- The rule that a source belongs to lists it, unless its sources are computed; no other does. -/
  inside : ∀ source ∈ sources, ∀ name, o.owner? source.1 = some (.rule name) →
    ∃ r' ∈ d'.rules, r'.name = name ∧ r'.kind.isAggregate = false ∧
      (r'.owns source.1 = true ∨ r'.srcs.values? = none) ∧ ∀ other ∈ d'.owners source.1, other = r'
  /-- A source that was listed stays where it was. -/
  listed : ∀ source ∈ sources, ∀ r ∈ d.owners source.1,
    o.owner? source.1 = some (.rule r.name) ∧ ∃ r' ∈ d'.owners source.1, r'.name = r.name
  /-- A source that only rules outside the BUILD file list is added to no rule. -/
  external : ∀ source ∈ sources, d.owners source.1 = [] → s.external source.1 ≠ [] →
    o.owner? source.1 = some (.external (s.external source.1)) ∧ d'.owners source.1 = []
  /-- A source is attached to a rule of the kind that its name asks for. -/
  attached : ∀ source ∈ sources, ∀ name, IsAttached d o source.1 name →
    ∃ r' ∈ d'.rules, r'.name = name ∧ r'.kind = ruleKind source.2
  names : (d'.rules.map (·.name)).Nodup
  rules : ∃ olds news, d'.rules = olds ++ news ∧ List.Forall₂ (Follows s d o) d.rules olds ∧
    ∀ r' ∈ news, IsMade s d o r'

namespace Arranged

variable {s : Surroundings} {d : Descriptor} {sources : List (String × SourceKind)} {p : Progress}

/-- What is added to a rule is what is attached to it. -/
theorem mem_addedTo_iff (hs : Sound s d sources p) (hp : Placed s d sources p)
    {file name : String} : file ∈ addedTo p.added name ↔ IsAttached d p.ownership file name := by
  rw [mem_addedTo]
  constructor
  · intro hadd
    exact ⟨hp.added _ hadd, (hs.added _ hadd).2⟩
  · intro hatt
    have howned : (p.ownership.owner? file).isSome = true := by rw [hatt.2]; rfl
    obtain ⟨source, hsource, rfl⟩ := List.mem_map.1 ((hs.owned file).1 howned)
    exact (hp.attached source hsource name hatt).1

/-- Nothing is attached to a rule that gathers files of the whole project. -/
theorem isAggregate_of_isAttached (hs : Sound s d sources p) (hp : Placed s d sources p)
    (hn : (p.descriptor.rules.map (·.name)).Nodup) {r : Build.Rule} (hr : r ∈ p.descriptor.rules)
    {file : String} (h : IsAttached d p.ownership file r.name) : r.kind.isAggregate = false := by
  have howned : (p.ownership.owner? file).isSome = true := by rw [h.2]; rfl
  obtain ⟨source, hsource, rfl⟩ := List.mem_map.1 ((hs.owned file).1 howned)
  obtain ⟨-, q, hq, hname, hkind⟩ := hp.attached source hsource r.name h
  obtain rfl : q = r := List.inj_on_of_nodup_map hn hq hr hname
  rw [hkind]
  cases source.2 <;> rfl

/-- **What a rule of the BUILD file becomes.** -/
theorem follows (hs : Sound s d sources p) (hp : Placed s d sources p)
    (hd : (d.rules.map (·.name)).Nodup) {r : Build.Rule} (hr : r ∈ d.rules) :
    Follows s d p.ownership r
      (relist r (missingOf s d.rules r.name) (addedTo p.added r.name)) := by
  have hmem : r ∈ p.descriptor.rules := by
    obtain ⟨new, hrules, -⟩ := hs.rules
    exact hrules ▸ List.mem_append_left _ hr
  have hnone (h : ∀ file, ¬IsAttached d p.ownership file r.name) : addedTo p.added r.name = [] :=
    List.eq_nil_iff_forall_not_mem.2 fun file hf => h file ((mem_addedTo_iff hs hp).1 hf)
  rw [missingOf_of_mem hd hr]
  refine ⟨relist_eq _ _ _, fun values hv => ?_, fun hv => relist_of_computed hv _ _,
    fun hagg => ?_, fun hstale hatt => ?_⟩
  · obtain ⟨values', hv', hmem'⟩ :=
      mem_values_relist hv (missing s r) (addedTo p.added r.name)
    refine ⟨values', hv', fun file => ?_⟩
    rw [hmem', mem_addedTo_iff hs hp, mem_missing hv]
    tauto
  · have hatt : ∀ file, ¬IsAttached d p.ownership file r.name := fun file h =>
      Bool.false_ne_true ((isAggregate_of_isAttached hs hp (hs.names hd) hmem h).symm.trans hagg)
    rw [hnone hatt, missing, if_pos hagg]
    exact relist_nil r
  · have hmiss : missing s r = [] := by
      refine List.eq_nil_iff_forall_not_mem.2 fun file hf => ?_
      cases hv : r.srcs.values? with
      | none => simp [missing, hv] at hf
      | some values =>
        obtain ⟨hm, hs⟩ := (mem_missing hv).1 hf
        exact hstale file (Rule.owns_iff.2 ⟨values, hv, hm⟩) hs
    rw [hnone hatt, hmiss]
    exact relist_nil r

/-- **What a rule that is made becomes.** -/
theorem isMade (hs : Sound s d sources p) (hp : Placed s d sources p) {r : Build.Rule}
    {source : String × SourceKind}
    (hr : r = .ofName (ruleKind source.2) (ruleName s.baseName source.2))
    (hadd : (r.name, source.1) ∈ p.added) (hnew : r.name ∉ d.rules.map (·.name)) :
    IsMade s d p.ownership
      (relist r (missingOf s d.rules r.name) (addedTo p.added r.name)) := by
  rw [missingOf_of_not_mem hnew]
  have hv : r.srcs.values? = some [] := by rw [hr]; rfl
  have hkind : r.kind = ruleKind source.2 := by rw [hr]; rfl
  have hname : r.name = ruleName s.baseName source.2 := by rw [hr]; rfl
  have hdeps : r.deps = .literal .empty := by rw [hr]; rfl
  obtain ⟨values, hv', hmem⟩ := mem_values_relist hv [] (addedTo p.added r.name)
  have hmem' : ∀ file, file ∈ values ↔ IsAttached d p.ownership file r.name := by
    intro file
    rw [hmem, ← mem_addedTo_iff hs hp]
    simp
  rw [relist_eq]
  refine ⟨⟨source.2, hkind, hname⟩, hdeps, values, hv', ?_, hmem'⟩
  exact List.ne_nil_of_mem ((hmem' source.1).2 ((mem_addedTo_iff hs hp).1 (mem_addedTo.2 hadd)))

/-- The rule that a source belongs to lists it, or the source is added to it. -/
theorem exists_rule (hs : Sound s d sources p) (hp : Placed s d sources p)
    {source : String × SourceKind} (hsource : source ∈ sources) {name : String}
    (hown : p.ownership.owner? source.1 = some (.rule name)) :
    ∃ r ∈ p.descriptor.rules, r.name = name ∧ r.kind.isAggregate = false ∧
      (r.owns source.1 = true ∨ (r.name, source.1) ∈ p.added) := by
  cases ho : d.owners source.1 with
  | nil =>
    obtain ⟨hadd, r, hr, rfl, hkind⟩ := hp.attached source hsource name ⟨ho, hown⟩
    refine ⟨r, hr, rfl, ?_, .inr hadd⟩
    rw [hkind]
    cases source.2 <;> rfl
  | cons r rest =>
    have hlisted : r ∈ d.owners source.1 := ho ▸ List.mem_cons_self
    have hname := hs.listed source hsource r hlisted
    rw [hown] at hname
    cases hname
    rw [← hs.owners_eq] at hlisted
    obtain ⟨hr, hagg, howns⟩ := mem_owners.1 hlisted
    exact ⟨r, hr, rfl, hagg, .inl howns⟩

/-- Afterwards the rule that a source belongs to lists it, unless its sources are computed. -/
theorem exists_rule_after (hs : Sound s d sources p) (hp : Placed s d sources p)
    (hd : (d.rules.map (·.name)).Nodup) {source : String × SourceKind} (hsource : source ∈ sources)
    (hpresent : s.isPresent source.1 = true) {name : String}
    (hown : p.ownership.owner? source.1 = some (.rule name)) :
    ∃ r' ∈ relistAll (missingOf s d.rules) p.added p.descriptor.rules,
      r'.name = name ∧ r'.kind.isAggregate = false ∧
        (r'.owns source.1 = true ∨ r'.srcs.values? = none ∧ d.owners source.1 = []) := by
  obtain ⟨r, hr, rfl, hagg, hlist⟩ := exists_rule hs hp hsource hown
  obtain ⟨r', hr', hname, hkind, howns⟩ := exists_owns_relistAll (hs.names hd) hr
    (not_mem_missingOf hpresent d.rules r.name) hlist
  refine ⟨r', hr', hname, hkind ▸ hagg, howns.imp_right fun hsame => ?_⟩
  obtain ⟨rfl, hv⟩ := hsame
  refine ⟨hv, hp.added _ (hlist.resolve_left fun ho => ?_)⟩
  obtain ⟨values, hv', -⟩ := Rule.owns_iff.1 ho
  rw [hv] at hv'
  cases hv'

/-- Afterwards a rule of the kind that the source's name asks for has its name. -/
theorem exists_kind_after (hs : Sound s d sources p) (hp : Placed s d sources p)
    (hd : (d.rules.map (·.name)).Nodup) {source : String × SourceKind} (hsource : source ∈ sources)
    (hpresent : s.isPresent source.1 = true) {name : String}
    (hatt : IsAttached d p.ownership source.1 name) :
    ∃ r' ∈ relistAll (missingOf s d.rules) p.added p.descriptor.rules,
      r'.name = name ∧ r'.kind = ruleKind source.2 := by
  obtain ⟨hadd, r, hr, rfl, hkind⟩ := hp.attached source hsource name hatt
  obtain ⟨r', hr', hname, hkind', -⟩ := exists_owns_relistAll (hs.names hd) hr
    (not_mem_missingOf hpresent d.rules r.name) (.inr hadd)
  exact ⟨r', hr', hname, hkind'.trans hkind⟩

/-- **The rules afterwards** are those that were there and those that are made. -/
theorem exists_rules_after (hs : Sound s d sources p) (hp : Placed s d sources p)
    (hd : (d.rules.map (·.name)).Nodup) :
    ∃ olds news, relistAll (missingOf s d.rules) p.added p.descriptor.rules = olds ++ news ∧
      List.Forall₂ (Follows s d p.ownership) d.rules olds ∧
        ∀ r' ∈ news, IsMade s d p.ownership r' := by
  obtain ⟨new, hall, hmade⟩ := hp.made
  have hn := hs.names hd
  rw [hall, List.map_append, List.nodup_append'] at hn
  refine ⟨_, _, by rw [relistAll_of_nodup (hs.names hd), hall, List.map_append], ?_,
    fun r' hr' => ?_⟩
  · rw [List.forall₂_map_right_iff]
    exact List.forall₂_same.2 fun r hr => follows hs hp hd hr
  · obtain ⟨r, hr, rfl⟩ := List.mem_map.1 hr'
    obtain ⟨source, -, heq, hadd⟩ := hmade r hr
    exact isMade hs hp heq hadd fun hm => hn.2.2 hm (List.mem_map_of_mem hr)

end Arranged

/-- Names are distinct, so the owner's name says which rule lists a source. -/
theorem Assigned.eq_of_mem_owners {s : Surroundings} {d d' : Descriptor} {o : Ownership}
    {sources : List (String × SourceKind)} (h : Assigned s d sources d' o)
    {source : String × SourceKind} (hsource : source ∈ sources) {r' other : Build.Rule}
    (hr' : r' ∈ d'.rules) (hown : o.owner? source.1 = some (.rule r'.name))
    (hother : other ∈ d'.owners source.1) : other = r' := by
  obtain ⟨hmem, hagg, howns⟩ := mem_owners.1 hother
  have hname := h.listed source hsource other hmem hagg howns
  rw [hown, Option.some.injEq, Owner.rule.injEq] at hname
  exact List.inj_on_of_nodup_map h.names hmem hr' hname.symm

/-- **A run that reports nothing** gives each source one owner, changes nothing of the rules but
their sources, and lists a source where it belongs. -/
theorem arranged_of_assign {s : Surroundings} {d d' : Descriptor} {o : Ownership}
    {sources : List (String × SourceKind)} (hd : (d.rules.map (·.name)).Nodup)
    (hsources : (sources.map (·.1)).Nodup)
    (hpresent : ∀ source ∈ sources, s.isPresent source.1 = true)
    (h : assign s d sources = (d', .ok o)) : Arranged s d sources d' o := by
  have hassigned := assign_ok hd hsources h
  obtain ⟨p, hs, hp, rfl, hrules⟩ := exists_placed_of_assign hsources h
  refine ⟨hp.order ▸ List.reverse_perm _, fun source hsource name hown => ?_,
    fun source hsource r hr => ?_, fun source hsource ho he => ?_,
    fun source hsource name hatt => ?_, hassigned.names, ?_⟩
  · obtain ⟨r', hr', rfl, hagg, howns⟩ :=
      Arranged.exists_rule_after hs hp hd hsource (hpresent source hsource) hown
    exact ⟨r', hrules ▸ hr', rfl, hagg, howns.imp_right And.left,
      fun other hother => hassigned.eq_of_mem_owners hsource (hrules ▸ hr') hown hother⟩
  · have hown := hs.listed source hsource r hr
    obtain ⟨r', hr', hname, hagg, howns⟩ :=
      Arranged.exists_rule_after hs hp hd hsource (hpresent source hsource) hown
    refine ⟨hown, r', mem_owners.2 ⟨hrules ▸ hr', hagg, howns.resolve_right fun hnone => ?_⟩,
      hname⟩
    rw [hnone.2] at hr
    cases hr
  · have hown := hs.external source hsource ho he
    refine ⟨hown, List.eq_nil_iff_forall_not_mem.2 fun r' hr' => ?_⟩
    obtain ⟨hmem, hagg, howns⟩ := mem_owners.1 hr'
    have hrule := hassigned.listed source hsource r' hmem hagg howns
    rw [hown] at hrule
    cases hrule
  · rw [hrules]
    exact Arranged.exists_kind_after hs hp hd hsource (hpresent source hsource) hatt
  · rw [hrules]
    exact Arranged.exists_rules_after hs hp hd

/-! ## A package with rules of every sort -/

def listing (kind : RuleKind) (name : String) (files : List String) : Build.Rule :=
  { Rule.ofName kind name with srcs := .literal (ListValue.empty.withValues files) }

/-- A library that lists a file that is gone, tests whose sources are computed, and a rule that
gathers a file that is gone. -/
def mixedRules : Descriptor :=
  ⟨"p/BUILD", "p", "", [listing (.library false) "p" [":gen", "a.ts", "gone.ts"],
    { Rule.ofName (.library true) "t" with srcs := .computed },
    listing .config "c" ["gone.json"]], [], ["ts_library", "ts_config"], []⟩

def mixedSources : List (String × SourceKind) :=
  [("a.ts", .library), ("b.ts", .library), ("b_test.ts", .test), ("d.d.ts", .declaration),
    ("e.ts", .library)]

/-- Only the sources are there, and a rule elsewhere lists one of them. -/
def mixedAround : Surroundings :=
  ⟨fun file => file ∈ mixedSources.map Prod.fst, "p", "//:rules.bzl",
    fun file => if file = "e.ts" then [.ofPackage "q" "q"] else []⟩

/-- The last source is left to the rule elsewhere, and a rule is made for the declaration. -/
def mixedOwners : Ownership :=
  ⟨[("e.ts", .external [.ofPackage "q" "q"]), ("d.d.ts", .rule "p_dts"), ("b_test.ts", .rule "t"),
    ("b.ts", .rule "p"), ("a.ts", .rule "p")]⟩

theorem owners_mixed :
    (assign mixedAround mixedRules mixedSources).2.toOption = some mixedOwners := by
  decide +kernel

theorem arranged_mixed :
    (mixedRules.rules.map (·.name)).Nodup ∧ (mixedSources.map (·.1)).Nodup ∧
      (∀ source ∈ mixedSources, mixedAround.isPresent source.1 = true) ∧
      ∃ d', assign mixedAround mixedRules mixedSources = (d', .ok mixedOwners) ∧
        Arranged mixedAround mixedRules mixedSources d' mixedOwners := by
  have hrules : (mixedRules.rules.map (·.name)).Nodup := by decide
  have hsources : (mixedSources.map (·.1)).Nodup := by decide
  have hpresent : ∀ source ∈ mixedSources, mixedAround.isPresent source.1 = true := by decide
  have hrun : assign mixedAround mixedRules mixedSources =
      ((assign mixedAround mixedRules mixedSources).1, .ok mixedOwners) :=
    Prod.ext rfl (toOption_eq_some.1 owners_mixed)
  exact ⟨hrules, hsources, hpresent, _, hrun, arranged_of_assign hrules hsources hpresent hrun⟩

/-- **A rule that gathers files keeps those that are not there**: the sources of a rule are not
always what it listed without the missing files and with what is attached to it. -/
theorem assign_keeps_missing :
    ¬∀ (s : Surroundings) (d d' : Descriptor) (o : Ownership)
        (sources : List (String × SourceKind)),
      (d.rules.map (·.name)).Nodup → (sources.map (·.1)).Nodup →
      (∀ source ∈ sources, s.isPresent source.1 = true) → assign s d sources = (d', .ok o) →
      ∀ r ∈ d.rules, ∀ r' ∈ d'.rules, r'.name = r.name →
      ∀ values, r.srcs.values? = some values → ∃ values', r'.srcs.values? = some values' ∧
        ∀ file, file ∈ values' ↔
          file ∈ values ∧ ¬(isFile file = true ∧ s.isPresent file = false) ∨
            IsAttached d o file r.name := by
  intro h
  let gathering : Build.Rule := listing .config "c" ["gone.json"]
  let d : Descriptor := ⟨"p/BUILD", "p", "", [gathering], [], ["ts_config"], []⟩
  obtain ⟨values, hv, hmem⟩ := h mixedAround d d ⟨[]⟩ [] (by decide) (by decide) (by decide) rfl
    gathering (by simp [d]) gathering (by simp [d]) rfl ["gone.json"] rfl
  cases hv
  have hgone := (hmem "gone.json").1 (by decide)
  exact hgone.elim (fun hstays => hstays.2 (by decide)) fun hatt => by cases hatt.2

end BuildSync.Ownership
