import BuildSync.Proofs.SettledRules

/-!
# Settling the owners of sources again

Once the sources of a package have owners and the lists of its rules are brought up to date, the
owners are settled in the same way again, and no rule changes.

* `Descriptor.outlines`: what settling the owners sees of the rules that own sources.
* `Only`: what each step of the loop adds to the invariants: a source that nobody lists is
  recorded for the only rule of its kind, and stays with it.
* `Stands`, `assign_of_stands`: owners and rules that settling leaves as they are.
* `assign_again`: a run that reports nothing leaves such owners and rules.
-/

namespace BuildSync

open Build

/-! ## What is seen of the rules -/

namespace Build

/-- A rule of a kind that owns sources, as far as other rules and its sources see it. -/
structure RuleOutline where
  kind : RuleKind
  name : String
  srcs : Option (List String)
  moduleName : Option String

/-- What is seen of a rule. -/
def Rule.outline (r : Rule) : RuleOutline :=
  ⟨r.kind, r.name, r.srcs.values?, r.moduleName⟩

/-- What is seen of the rules that own sources. -/
def Descriptor.outlines (d : Descriptor) : List RuleOutline :=
  (d.rules.filter fun r => !r.kind.isAggregate).map Rule.outline

/-- A rule with these sources lists a file. -/
def RuleOutline.lists (o : RuleOutline) (file : String) : Bool :=
  o.srcs.any (file ∈ ·)

theorem Rule.lists_outline (r : Rule) (file : String) : r.outline.lists file = r.owns file := by
  unfold outline RuleOutline.lists owns
  cases r.srcs <;> simp [ListAttr.values?]

namespace Descriptor

variable {d d' : Descriptor} (h : d'.outlines = d.outlines)

theorem mem_outlines {o : RuleOutline} :
    o ∈ d.outlines ↔ ∃ r ∈ d.rules, r.kind.isAggregate = false ∧ r.outline = o := by
  simp [outlines, and_assoc]

theorem outlines_filter (p : RuleOutline → Bool) :
    d.outlines.filter p =
      (d.rules.filter fun r => !r.kind.isAggregate && p r.outline).map Rule.outline := by
  rw [outlines, List.filter_map, List.filter_filter]
  congr 1
  exact List.filter_congr fun r _ => Bool.and_comm ..

theorem outlines_owners (file : String) :
    (d.owners file).map Rule.outline = d.outlines.filter (·.lists file) := by
  rw [outlines_filter, owners]
  simp only [Rule.lists_outline]

theorem outlines_kind {kind : RuleKind} (hk : kind.isAggregate = false) :
    (d.rules.filter (·.kind = kind)).map Rule.outline = d.outlines.filter (·.kind = kind) := by
  rw [outlines_filter]
  congr 1
  refine List.filter_congr fun r _ => ?_
  by_cases hr : r.kind = kind
  · simp [Rule.outline, hr, hk]
  · simp [Rule.outline, hr]

include h

/-- A rule that owns sources is seen in both files. -/
theorem exists_of_outlines {r : Rule} (hr : r ∈ d.rules) (ha : r.kind.isAggregate = false) :
    ∃ r' ∈ d'.rules, r'.outline = r.outline := by
  obtain ⟨r', hr', -, heq⟩ := mem_outlines.1 (h ▸ mem_outlines.2 ⟨r, hr, ha, rfl⟩)
  exact ⟨r', hr', heq⟩

theorem outlines_owners_eq (file : String) :
    (d'.owners file).map Rule.outline = (d.owners file).map Rule.outline := by
  rw [outlines_owners, outlines_owners, h]

theorem outlines_kind_eq {kind : RuleKind} (hk : kind.isAggregate = false) :
    (d'.rules.filter (·.kind = kind)).map Rule.outline =
      (d.rules.filter (·.kind = kind)).map Rule.outline := by
  rw [outlines_kind hk, outlines_kind hk, h]

theorem owners_names_eq (file : String) :
    (d'.owners file).map (·.name) = (d.owners file).map (·.name) := by
  simpa [Rule.outline, Function.comp_def] using
    congrArg (List.map RuleOutline.name) (outlines_owners_eq h file)

theorem owners_eq_nil {file : String} (ho : d.owners file = []) : d'.owners file = [] := by
  simpa [ho] using outlines_owners_eq h file

end Descriptor

end Build

namespace Ownership

/-! ## The only rule of a kind -/

theorem isAggregate_ruleKind (kind : SourceKind) : (ruleKind kind).isAggregate = false := by
  cases kind <;> rfl

namespace Progress

variable {s : Surroundings} {p q : Progress} {source : String × SourceKind}

/-- A step that gives a source an owner reports nothing. -/
theorem Step.problems (h : Step s p source q) : q.problems = p.problems := by
  cases h <;> rfl

/-- **A source that nobody claims** is added to the only rule of its kind, which may be made for
it. -/
theorem exists_only_of_step (h : Step s p source (settle s p source))
    (ho : p.descriptor.owners source.1 = []) (he : s.external source.1 = []) :
    ∃ rule, (settle s p source).descriptor.rules.filter (·.kind = ruleKind source.2) = [rule] ∧
      (settle s p source).ownership.owner? source.1 = some (.rule rule.name) := by
  have hproblems := h.problems
  unfold settle place at hproblems ⊢
  rw [ho] at hproblems ⊢
  simp only [he] at hproblems ⊢
  split at hproblems
  · rename_i rule hrule
    exact ⟨rule, hrule, by simp [attach, own]⟩
  · rename_i hnone
    split at hproblems
    · simp [fail] at hproblems
    · refine ⟨.ofName (ruleKind source.2) (ruleName s.baseName source.2), ?_, ?_⟩
      · simp [attach, own, List.filter_append, hnone, Rule.ofName]
      · simp [attach, own, Rule.ofName]
  · simp [fail] at hproblems

/-- A rule is only made where there is none of its kind. -/
theorem filter_settle (h : Step s p source (settle s p source)) {kind : RuleKind}
    {rule : Build.Rule} (hrule : p.descriptor.rules.filter (·.kind = kind) = [rule]) :
    (settle s p source).descriptor.rules.filter (·.kind = kind) = [rule] := by
  have hproblems := h.problems
  unfold settle place at hproblems ⊢
  split
  · exact hrule
  · exact hrule
  · split
    · dsimp only
      split
      · exact hrule
      · rename_i hnone
        split
        · exact hrule
        · have hne : ruleKind source.2 ≠ kind := by
            rintro rfl
            rw [hnone] at hrule
            cases hrule
          simpa [attach, own, List.filter_append, Rule.ofName, hne] using hrule
      · exact hrule
    · exact hrule

end Progress

/-- What holds besides `Sound` and `Placed` after the sources `done`, if nothing was reported. -/
structure Only (d : Descriptor) (done : List (String × SourceKind)) (p : Progress) : Prop where
  /-- A source that no rule listed belongs to the only rule of the kind its name asks for. -/
  attached : ∀ source ∈ done, ∀ name, IsAttached d p.ownership source.1 name →
    ∃ rule, p.descriptor.rules.filter (·.kind = ruleKind source.2) = [rule] ∧ rule.name = name
  /-- The rules outside the BUILD file that a source is left to are some. -/
  external : ∀ source ∈ done, ∀ labels,
    p.ownership.owner? source.1 = some (.external labels) → labels ≠ []

namespace Only

variable {s : Surroundings} {d : Descriptor} {done : List (String × SourceKind)} {p : Progress}
  {source : String × SourceKind}

/-- **A step keeps the invariant.** -/
theorem step (h : Only d done p) (hs : Sound s d done p) (hn : source.1 ∉ done.map (·.1))
    (hstep : Progress.Step s p source (Progress.settle s p source)) :
    Only d (done ++ [source]) (Progress.settle s p source) := by
  have hkeeps := fun kind rule => @Progress.filter_settle s p source hstep kind rule
  have honly := Progress.exists_only_of_step hstep
  have hsound := hs.step hn hstep
  generalize Progress.settle s p source = q at *
  have hkept : ∀ other ∈ done,
      q.ownership.owner? other.1 = p.ownership.owner? other.1 := fun other hother => by
    cases hstep <;> exact Sound.owner?_own_of_mem hn _ hother
  have hlast : source ∈ done ++ [source] := List.mem_append_right _ List.mem_cons_self
  refine ⟨fun other hother name hatt => ?_, fun other hother labels hlabels hnil => ?_⟩
  · obtain ⟨ho, hown⟩ := hatt
    rcases List.mem_append.1 hother with hother | hother
    · obtain ⟨rule, hrule, hname⟩ := h.attached other hother name ⟨ho, hkept other hother ▸ hown⟩
      exact ⟨rule, hkeeps _ _ hrule, hname⟩
    · cases List.mem_singleton.1 hother
      have he : s.external source.1 = [] := by
        by_contra hne
        have hext := hsound.external source hlast ho hne
        rw [hown] at hext
        cases hext
      obtain ⟨rule, hrule, hname⟩ := honly ((hs.owners_eq _).trans ho) he
      rw [hown] at hname
      cases hname
      exact ⟨rule, hrule, rfl⟩
  · rcases List.mem_append.1 hother with hother | hother
    · exact h.external other hother labels (hkept other hother ▸ hlabels) hnil
    · cases List.mem_singleton.1 hother
      have ho : d.owners source.1 = [] := List.eq_nil_iff_forall_not_mem.2 fun rule hrule => by
        have hlisted := hsound.listed source hlast rule hrule
        rw [hlabels] at hlisted
        cases hlisted
      have he := hsound.outside source.1 labels hlabels
      obtain ⟨rule, -, hname⟩ := honly ((hs.owners_eq _).trans ho) (he ▸ hnil)
      rw [hlabels] at hname
      cases hname

/-- **A run that reports nothing keeps the invariant.** -/
theorem run {sources : List (String × SourceKind)} (h : Only d done p) (hs : Sound s d done p)
    (hn : ((done ++ sources).map (·.1)).Nodup)
    (hp : (sources.foldl (Progress.settle s) p).problems = []) :
    Only d (done ++ sources) (sources.foldl (Progress.settle s) p) :=
  (@Progress.run_induction s p (fun done p => Only d done p ∧ Sound s d done p)
    (fun _ _ _ hfresh hstep h => ⟨h.1.step h.2 hfresh hstep, h.2.step hfresh hstep⟩)
    done sources ⟨h, hs⟩ hn hp).1

end Only

/-- A run that reports nothing ends with all invariants, and relists the rules. -/
theorem exists_only_of_assign {s : Surroundings} {d d' : Descriptor} {o : Ownership}
    {sources : List (String × SourceKind)} (hs : (sources.map (·.1)).Nodup)
    (h : assign s d sources = (d', .ok o)) :
    ∃ p, Sound s d sources p ∧ Placed s d sources p ∧ Only d sources p ∧ p.ownership = o ∧
      d'.rules = relistAll (missingOf s d.rules) p.added p.descriptor.rules := by
  obtain ⟨p, rfl, hp, rfl, rfl⟩ := assign_eq_ok h
  have hstart := Sound.start s d
  have hn : (([] ++ sources : List (String × SourceKind)).map (·.1)).Nodup := by simpa using hs
  exact ⟨_, hstart.run hn hp, (Placed.start s d).run hstart hn hp,
    (Only.mk (p := Progress.start d) (by simp) (by simp)).run hstart hn hp, rfl, rfl⟩

/-! ## Owners that stand -/

/-- The owner that settling finds for a source, without a change of the rules. -/
inductive Finds (s : Surroundings) (d : Descriptor) (source : String × SourceKind) : Owner → Prop
  | listed (rule : Build.Rule) : d.owners source.1 = [rule] → Finds s d source (.rule rule.name)
  | external : d.owners source.1 = [] → s.external source.1 ≠ [] →
      Finds s d source (.external (s.external source.1))
  | computed (rule : Build.Rule) : d.owners source.1 = [] → s.external source.1 = [] →
      d.rules.filter (·.kind = ruleKind source.2) = [rule] → rule.srcs.values? = none →
      Finds s d source (.rule rule.name)

/-- Owners and rules that settling leaves as they are. -/
structure Stands (s : Surroundings) (d : Descriptor) (sources : List (String × SourceKind))
    (o : Ownership) : Prop where
  order : o.owners.map Prod.fst = (sources.map Prod.fst).reverse
  finds : ∀ source ∈ sources, ∃ owner, o.owner? source.1 = some owner ∧ Finds s d source owner
  present : ∀ r ∈ d.rules, ∀ values, r.srcs.values? = some values →
    ∀ file ∈ values, ¬IsStale s r file

/-- What holds after the sources `done` when owners and rules stand. -/
structure Kept (d : Descriptor) (o : Ownership) (done : List (String × SourceKind))
    (p : Progress) : Prop where
  descriptor : p.descriptor = d
  problems : p.problems = []
  /-- Sources are only added to rules that compute theirs. -/
  added : ∀ entry ∈ p.added, ∃ r ∈ d.rules, r.name = entry.1 ∧ r.srcs.values? = none
  order : p.ownership.owners.map Prod.fst = (done.map Prod.fst).reverse
  owners : ∀ entry ∈ p.ownership.owners, o.owner? entry.1 = some entry.2

namespace Kept

variable {s : Surroundings} {d : Descriptor} {o : Ownership}
  {done sources : List (String × SourceKind)} {p : Progress} {source : String × SourceKind}

/-- The owner of one more source is recorded. -/
theorem own (h : Kept d o done p) {owner : Owner} (ho : o.owner? source.1 = some owner) :
    Kept d o (done ++ [source]) (p.own source.1 owner) := by
  refine ⟨h.descriptor, h.problems, h.added, ?_, fun entry hentry => ?_⟩
  · simp [Progress.own, h.order]
  · rcases List.mem_cons.1 hentry with rfl | hentry
    · exact ho
    · exact h.owners entry hentry

/-- **A step** records the owner that stands. -/
theorem step (h : Kept d o done p) {owner : Owner} (ho : o.owner? source.1 = some owner)
    (hfinds : Finds s d source owner) :
    Kept d o (done ++ [source]) (Progress.settle s p source) := by
  obtain rfl := h.descriptor
  unfold Progress.settle
  cases hfinds with
  | listed rule hrule =>
    rw [hrule]
    exact h.own ho
  | external hnil he =>
    rw [hnil]
    dsimp only
    split
    · rename_i hnone
      exact absurd hnone he
    · exact h.own ho
  | computed rule hnil he hrule hvalues =>
    rw [hnil, he]
    simp only [Progress.place, hrule]
    have howned := h.own ho
    refine ⟨rfl, howned.problems, fun entry hentry => ?_, howned.order, howned.owners⟩
    rcases List.mem_append.1 hentry with hentry | hentry
    · exact h.added entry hentry
    · obtain rfl := List.mem_singleton.1 hentry
      have hmem : rule ∈ p.descriptor.rules.filter (·.kind = ruleKind source.2) := by simp [hrule]
      exact ⟨rule, (List.mem_filter.1 hmem).1, rfl, hvalues⟩

/-- **A run** records the owners that stand. -/
theorem run (h : Kept d o done p) (hfinds : ∀ source ∈ sources, ∃ owner,
      o.owner? source.1 = some owner ∧ Finds s d source owner) :
    Kept d o (done ++ sources) (sources.foldl (Progress.settle s) p) := by
  induction sources generalizing done p with
  | nil => simpa using h
  | cons source sources ih =>
    obtain ⟨⟨owner, ho, hfind⟩, hrest⟩ := List.forall_mem_cons.1 hfinds
    rw [List.append_cons]
    exact ih (h.step ho hfind) hrest

end Kept

/-- Owners are known by their order and by what is looked up. -/
theorem eq_of_lookup {α β : Type} [BEq α] [LawfulBEq α] {xs ys : List (α × β)}
    (hkeys : xs.map Prod.fst = ys.map Prod.fst) (hn : (ys.map Prod.fst).Nodup)
    (h : ∀ x ∈ xs, ys.lookup x.1 = some x.2) : xs = ys := by
  induction ys generalizing xs with
  | nil => simpa using hkeys
  | cons y ys ih =>
    obtain ⟨x, xs, rfl, hkey, hkeys⟩ := List.map_eq_cons_iff.1 hkeys
    obtain ⟨hnew, hn⟩ := List.nodup_cons.1 hn
    obtain ⟨hx, hxs⟩ := List.forall_mem_cons.1 h
    have heq : x = y := by
      rw [hkey, List.lookup_cons_self, Option.some.injEq] at hx
      exact Prod.ext hkey hx.symm
    refine congrArg₂ _ heq (ih hkeys hn fun x' hx' => ?_)
    have hne : (x'.1 == y.1) = false := by
      refine beq_eq_false_iff_ne.2 fun heq => hnew ?_
      rw [← heq, ← hkeys]
      exact List.mem_map_of_mem hx'
    have hlookup := hxs x' hx'
    rwa [List.lookup_cons, hne] at hlookup

/-- A run that reports nothing is followed by relisting. -/
theorem assign_of_problems {s : Surroundings} {d : Descriptor} {p : Progress}
    {sources : List (String × SourceKind)}
    (hp : sources.foldl (Progress.settle s) (Progress.start d) = p) (hnone : p.problems = []) :
    assign s d sources = ({ p.descriptor with
      rules := relistAll (missingOf s d.rules) p.added p.descriptor.rules }, .ok p.ownership) := by
  subst hp
  exact if_pos hnone

/-- **Owners and rules that stand** are settled again as they are. -/
theorem assign_of_stands {s : Surroundings} {d : Descriptor} {o : Ownership}
    {sources : List (String × SourceKind)} (hd : (d.rules.map (·.name)).Nodup)
    (hsources : (sources.map (·.1)).Nodup) (h : Stands s d sources o) :
    assign s d sources = (d, .ok o) := by
  have hstart : Kept d o [] (Progress.start d) :=
    ⟨rfl, rfl, by simp [Progress.start], rfl, by simp [Progress.start]⟩
  have hkept := hstart.run h.finds
  rw [assign_of_problems rfl hkept.problems]
  generalize sources.foldl (Progress.settle s) (Progress.start d) = p at hkept ⊢
  have hownership : p.ownership.owners = o.owners := by
    refine eq_of_lookup (hkept.order.trans h.order.symm) ?_ hkept.owners
    rw [h.order]
    exact List.nodup_reverse.2 hsources
  have hrules : relistAll (missingOf s d.rules) p.added d.rules = d.rules := by
    rw [relistAll_of_nodup hd]
    refine (List.map_congr_left fun r hr => ?_).trans (List.map_id _)
    cases hvalues : r.srcs.values? with
    | none => exact relist_of_computed hvalues _ _
    | some values =>
      have hgone : missingOf s d.rules r.name = [] := by
        rw [missingOf_of_mem hd hr]
        refine List.eq_nil_iff_forall_not_mem.2 fun file hfile => ?_
        obtain ⟨hmem, hstale⟩ := (mem_missing hvalues).1 hfile
        exact h.present r hr values hvalues file hmem hstale
      have hmine : addedTo p.added r.name = [] := by
        refine List.eq_nil_iff_forall_not_mem.2 fun file hfile => ?_
        obtain ⟨r', hr', hname, hnone⟩ := hkept.added _ (mem_addedTo.1 hfile)
        rw [List.inj_on_of_nodup_map hd hr' hr hname, hvalues] at hnone
        cases hnone
      rw [hgone, hmine, relist_nil]
      rfl
  rw [hkept.descriptor, hrules]
  exact congrArg (d, Except.ok ·) (congrArg Ownership.mk hownership)

/-! ## What a run leaves stands -/

section
variable {s : Surroundings} {d d₁ : Descriptor} {o : Ownership}
  {sources : List (String × SourceKind)} (hd : (d.rules.map (·.name)).Nodup)
  (hsources : (sources.map (·.1)).Nodup)
  (hpresent : ∀ source ∈ sources, s.isPresent source.1 = true)
  (h : assign s d sources = (d₁, .ok o))
include hd hsources h

/-- A source that is left to rules outside the BUILD file is listed by none of its rules. -/
theorem of_owner?_external {source : String × SourceKind} (hsource : source ∈ sources)
    {labels : List Label} (hown : o.owner? source.1 = some (.external labels)) :
    d.owners source.1 = [] ∧ d₁.owners source.1 = [] ∧ labels = s.external source.1 ∧
      labels ≠ [] := by
  have hassigned := assign_ok hd hsources h
  obtain ⟨p, hs, -, ho, rfl, -⟩ := exists_only_of_assign hsources h
  refine ⟨List.eq_nil_iff_forall_not_mem.2 fun r hr => ?_,
    List.eq_nil_iff_forall_not_mem.2 fun r hr => ?_, hs.outside _ _ hown,
    ho.external source hsource labels hown⟩
  · have hlisted := hs.listed source hsource r hr
    rw [hown] at hlisted
    cases hlisted
  · obtain ⟨hmem, hagg, howns⟩ := mem_owners.1 hr
    have hlisted := hassigned.listed source hsource r hmem hagg howns
    rw [hown] at hlisted
    cases hlisted

include hpresent

/-- A source that belongs to a rule is listed by that rule alone, or it belongs to the only rule of
its kind, which computes its sources. -/
theorem of_owner?_rule {source : String × SourceKind} (hsource : source ∈ sources) {name : String}
    (hown : o.owner? source.1 = some (.rule name)) :
    (∃ r, d₁.owners source.1 = [r] ∧ r.name = name) ∨
      d.owners source.1 = [] ∧ d₁.owners source.1 = [] ∧ s.external source.1 = [] ∧
        ∃ r, d₁.rules.filter (·.kind = ruleKind source.2) = [r] ∧ r.name = name ∧
          r.srcs.values? = none := by
  have hassigned := assign_ok hd hsources h
  obtain ⟨p, hs, hp, ho, rfl, hrules⟩ := exists_only_of_assign hsources h
  obtain ⟨r', hr', rfl, hagg, hlist⟩ :=
    Arranged.exists_rule_after hs hp hd hsource (hpresent source hsource) hown
  rw [← hrules] at hr'
  have honly : ∀ other ∈ d₁.owners source.1, other = r' := fun other hother =>
    hassigned.eq_of_mem_owners hsource hr' hown hother
  rcases hlist with howns | ⟨hvalues, hnil⟩
  · refine .inl ⟨r', ?_, rfl⟩
    have hn : (d₁.owners source.1).Nodup := (List.Nodup.of_map _ hassigned.names).filter _
    exact List.perm_singleton.1 ((List.perm_ext_iff_of_nodup hn (List.nodup_singleton r')).2
      fun other => ⟨fun hother => List.mem_singleton.2 (honly other hother), fun hother =>
        List.mem_singleton.1 hother ▸ mem_owners.2 ⟨hr', hagg, howns⟩⟩)
  · refine .inr ⟨hnil, List.eq_nil_iff_forall_not_mem.2 fun other hother => ?_, ?_, ?_⟩
    · obtain ⟨-, -, howns⟩ := mem_owners.1 hother
      rw [honly other hother] at howns
      obtain ⟨values, hsome, -⟩ := Rule.owns_iff.1 howns
      rw [hvalues] at hsome
      cases hsome
    · by_contra hne
      have hext := hs.external source hsource hnil hne
      rw [hown] at hext
      cases hext
    · obtain ⟨r, hr, hname⟩ := ho.attached source hsource r'.name ⟨hnil, hown⟩
      have hfilter : d₁.rules.filter (·.kind = ruleKind source.2) =
          [relist r (missingOf s d.rules r.name) (addedTo p.added r.name)] := by
        rw [hrules, relistAll_of_nodup (hs.names hd), List.filter_map]
        have hkinds : ((fun r => decide (r.kind = ruleKind source.2)) ∘ fun r =>
            relist r (missingOf s d.rules r.name) (addedTo p.added r.name)) =
            fun r : Build.Rule => decide (r.kind = ruleKind source.2) := by
          funext r
          rw [Function.comp_apply, relist_eq]
        rw [hkinds, hr]
        rfl
      have hmem : relist r (missingOf s d.rules r.name) (addedTo p.added r.name) ∈
          d₁.rules.filter (·.kind = ruleKind source.2) := by simp [hfilter]
      have hname' : (relist r (missingOf s d.rules r.name) (addedTo p.added r.name)).name =
          r'.name := by rw [relist_eq, hname]
      exact ⟨_, hfilter, hname', List.inj_on_of_nodup_map hassigned.names
        (List.mem_filter.1 hmem).1 hr' hname' ▸ hvalues⟩

/-- No rule lists a file afterwards that is gone. -/
theorem not_isStale_of_assign {r : Build.Rule} (hr : r ∈ d₁.rules) {values : List String}
    (hvalues : r.srcs.values? = some values) {file : String} (hfile : file ∈ values) :
    ¬IsStale s r file := by
  obtain ⟨p, hs, hp, rfl, hrules⟩ := exists_placed_of_assign hsources h
  obtain ⟨olds, news, hall, holds, hnews⟩ := Arranged.exists_rules_after hs hp hd
  have hattached : ∀ name, IsAttached d p.ownership file name → ¬IsStale s r file := by
    rintro name ⟨-, hown⟩ ⟨-, -, hgone⟩
    obtain ⟨source, hsource, rfl⟩ := List.mem_map.1 ((hs.owned file).1 (by rw [hown]; rfl))
    rw [hpresent source hsource] at hgone
    cases hgone
  rw [hrules, hall] at hr
  rcases List.mem_append.1 hr with hr | hr
  · obtain ⟨old, -, hfollows⟩ := exists_partner holds hr
    cases hold : old.srcs.values? with
    | none =>
      rw [hfollows.computed hold, hold] at hvalues
      cases hvalues
    | some before =>
      obtain ⟨after, hafter, hmem⟩ := hfollows.values before hold
      rw [hvalues] at hafter
      cases hafter
      rcases (hmem file).1 hfile with ⟨-, hstays⟩ | hatt
      · have hkind : r.kind = old.kind := by rw [hfollows.frame]
        simpa only [IsStale, hkind] using hstays
      · exact hattached _ hatt
  · obtain ⟨after, hafter, -, hmem⟩ := (hnews r hr).values
    rw [hvalues] at hafter
    cases hafter
    exact hattached _ ((hmem file).1 hfile)

/-- **Settling the sources again** leaves the rules and gives the same owners. The rules may have
been written and read in between, and rules that own no sources may have changed. The answers about
the sources that no rule listed are the same. -/
theorem assign_again {s' : Surroundings} {d' : Descriptor}
    (hd' : (d'.rules.map (·.name)).Nodup) (houtlines : d'.outlines = d₁.outlines)
    (hsame : s'.isPresent = s.isPresent)
    (hexternal : ∀ source ∈ sources, d.owners source.1 = [] →
      s'.external source.1 = s.external source.1) :
    assign s' d' sources = (d', .ok o) := by
  obtain ⟨p, hs, hp, rfl, -⟩ := exists_placed_of_assign hsources h
  refine assign_of_stands hd' hsources ⟨hp.order, fun source hsource => ?_,
    fun r hr values hvalues file hfile hstale => ?_⟩
  · obtain ⟨owner, hown⟩ := Option.isSome_iff_exists.1
      ((hs.owned source.1).2 (List.mem_map_of_mem hsource))
    refine ⟨owner, hown, ?_⟩
    have howners := Descriptor.outlines_owners_eq houtlines source.1
    cases owner with
    | external labels =>
      obtain ⟨hnil, hnil', rfl, hne⟩ := of_owner?_external hd hsources h hsource hown
      rw [← hexternal source hsource hnil] at hne ⊢
      exact .external (Descriptor.owners_eq_nil houtlines hnil') hne
    | rule name =>
      rcases of_owner?_rule hd hsources hpresent h hsource hown with
        ⟨r, hr, rfl⟩ | ⟨hnil, hnil', he, r, hr, rfl, hvalues⟩
      · rw [hr, List.map_singleton, List.map_eq_singleton_iff] at howners
        obtain ⟨r', hr', heq⟩ := howners
        have hname : r'.name = r.name := congrArg RuleOutline.name heq
        exact hname ▸ .listed r' hr'
      · have hkinds := Descriptor.outlines_kind_eq houtlines (isAggregate_ruleKind source.2)
        rw [hr, List.map_singleton, List.map_eq_singleton_iff] at hkinds
        obtain ⟨r', hr', heq⟩ := hkinds
        have hname : r'.name = r.name := congrArg RuleOutline.name heq
        have hvalues' : r'.srcs.values? = none := (congrArg RuleOutline.srcs heq).trans hvalues
        exact hname ▸ .computed r' (Descriptor.owners_eq_nil houtlines hnil')
          ((hexternal source hsource hnil).trans he) hr' hvalues'
  · obtain ⟨r₁, hr₁, heq⟩ := Descriptor.exists_of_outlines houtlines.symm hr hstale.1
    refine not_isStale_of_assign hd hsources hpresent h hr₁
      ((congrArg RuleOutline.srcs heq).trans hvalues) hfile ⟨?_, hstale.2.1, hsame ▸ hstale.2.2⟩
    exact (congrArg (·.kind.isAggregate) heq).trans hstale.1

end

/-! ## What a run leaves to others -/

/-- A file that is listed under one name is listed by one rule. -/
theorem names_owners_eq_singleton {d : Descriptor} (hd : (d.rules.map (·.name)).Nodup)
    {file : String} {r : Build.Rule} (hr : r ∈ d.owners file)
    (hall : ∀ other ∈ d.owners file, other.name = r.name) :
    (d.owners file).map (·.name) = [r.name] := by
  have hn : ((d.owners file).map (·.name)).Nodup := (List.filter_sublist.map _).nodup hd
  refine List.perm_singleton.1 ((List.perm_ext_iff_of_nodup hn (List.nodup_singleton _)).2
    fun name => ?_)
  rw [List.mem_singleton, List.mem_map]
  constructor
  · rintro ⟨other, hother, rfl⟩
    exact hall other hother
  · rintro rfl
    exact ⟨r, hr, rfl⟩

variable {s : Surroundings} {d d' : Descriptor} {o : Ownership}
  {sources : List (String × SourceKind)} (hd : (d.rules.map (·.name)).Nodup)
  (hsources : (sources.map (·.1)).Nodup)
  (hpresent : ∀ source ∈ sources, s.isPresent source.1 = true)
  (h : assign s d sources = (d', .ok o))
include hd hsources h

/-- A rule that was there keeps its name, its kind and the name of its module. -/
theorem exists_follower_of_assign {r : Build.Rule} (hr : r ∈ d.rules) :
    ∃ r' ∈ d'.rules, r'.name = r.name ∧ r'.kind = r.kind ∧ r'.moduleName = r.moduleName := by
  obtain ⟨p, hsound, hplaced, -, hp⟩ := exists_placed_of_assign hsources h
  obtain ⟨olds, news, hrules, hfollows, -⟩ := Arranged.exists_rules_after hsound hplaced hd
  rw [← hp] at hrules
  obtain ⟨r', hr', hfollow⟩ := exists_partner hfollows.flip hr
  refine ⟨r', hrules ▸ List.mem_append_left _ hr', ?_⟩
  rw [hfollow.frame]
  exact ⟨rfl, rfl, rfl⟩

theorem mem_names_of_assign {name : String} (hname : name ∈ d.rules.map (·.name)) :
    name ∈ d'.rules.map (·.name) := by
  obtain ⟨r, hr, rfl⟩ := List.mem_map.1 hname
  obtain ⟨r', hr', hsame, -⟩ := exists_follower_of_assign hd hsources h hr
  exact hsame ▸ List.mem_map_of_mem hr'

omit hd hsources h in
/-- The dependencies of a rule were listed before, or there are none. -/
theorem Settled.eq_nil_or_exists_deps (hsettled : Settled s d sources d' o) {r' : Build.Rule}
    (hr' : r' ∈ d'.rules) {deps : List Label} (hdeps : r'.deps.values? = some deps) :
    deps = [] ∨ ∃ r ∈ d.rules, r.deps.values? = some deps := by
  rcases hsettled.deps r' hr' with hempty | ⟨r, hr, heq⟩
  · rw [hempty] at hdeps
    exact .inl (Option.some.inj hdeps).symm
  · exact .inr ⟨r, hr, heq ▸ hdeps⟩

include hpresent in
/-- **A file that is there** stays with the rules that list it, unless it is a source that nobody
listed. -/
theorem names_owners_of_assign {file : String} (hfile : s.isPresent file = true) :
    (d'.owners file).map (·.name) = (d.owners file).map (·.name) ∨
      file ∈ sources.map (·.1) ∧ d.owners file = [] ∧ s.external file = [] := by
  have hsettled := settled_of_assign hsources h
  by_cases hmem : file ∈ sources.map (·.1)
  · obtain ⟨source, hsource, rfl⟩ := List.mem_map.1 hmem
    cases howners : d.owners source.1 with
    | nil =>
      by_cases hexternal : s.external source.1 = []
      · exact .inr ⟨hmem, rfl, hexternal⟩
      · have hown := (assign_ok hd hsources h).external source hsource howners hexternal
        rw [(of_owner?_external hd hsources h hsource hown).2.1]
        exact .inl rfl
    | cons r rest =>
      -- The owner of the source has the name of each rule that lists it, before and after.
      have hr : r ∈ d.owners source.1 := by simp [howners]
      have hown := hsettled.listed source hsource r hr
      rw [← howners, names_owners_eq_singleton hd hr fun other hother => ?_]
      · obtain ⟨r', howner, hname⟩ | ⟨hnone, -⟩ :=
          of_owner?_rule hd hsources hpresent h hsource hown
        · rw [howner, List.map_singleton, hname]
          exact .inl rfl
        · exact absurd (howners.symm.trans hnone) (List.cons_ne_nil _ _)
      · have := (hsettled.listed source hsource other hother).symm.trans hown
        injection this with this
        injection this
  · exact .inl (hsettled.owners file hfile hmem)

end Ownership

end BuildSync
