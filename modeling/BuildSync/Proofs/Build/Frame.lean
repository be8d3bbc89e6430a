import BuildSync.Proofs.Build.Places

/-!
# What an edited file keeps

* `Descriptor.EditsAt`: the places at which a file is edited.
* `Descriptor.IsFramed`: what is written is the text with its edits made at these places, and the
  new rules behind it.
* `Descriptor.isFramed_changeAll`: this holds of every file that was read, after any changes.
-/

namespace BuildSync.Build

open Text

theorem exists_slice {cs : List Char} {m n : Nat} (hm : IsBoundary 0 cs m) (hn : IsBoundary 0 cs n)
    (hle : m ≤ n) : ∃ front body back, cs = front ++ (body ++ back) ∧ width front = m ∧
      width (front ++ body) = n := by
  obtain ⟨front, rest, rfl, hfront⟩ := hm
  obtain ⟨body, back, rfl, hbody⟩ := hn.of_le (by omega)
  exact ⟨front, body, back, rfl, by omega, by rw [width_append]; omega⟩

theorem isBoundary_start {pos : Nat} {cs : List Char} {ts : List Token}
    (h : tokens pos cs = .ok ts) {t : Token} (ht : t ∈ ts) : IsBoundary pos cs t.start := by
  obtain ⟨xs, ys, rfl, hstart, -⟩ := exists_append_of_mem_tokens h ht
  exact ⟨xs, t.text ++ ys, rfl, hstart⟩

namespace Descriptor

/-- **The places at which a file is edited**: from which byte up to which. -/
inductive EditsAt (d : Descriptor) (ts : List Token) : Nat → Nat → Prop
  /-- In the call that a rule was read from. -/
  | rule {rule old : Rule} {s : Site} {start stop : Nat} : rule ∈ d.rules →
      s.IsIn d.text.toList d.package ts → old ∈ s.made.rules → old.IsEdit rule →
      rule.EditedAt s.inside start stop → EditsAt d ts start stop
  /-- A load that gained a symbol. -/
  | load {load old : Load} {s : Site} : load ∈ d.loads → load.added ≠ [] →
      s.IsIn d.text.toList d.package ts → old ∈ s.made.loads →
      load = { old with added := load.added } → EditsAt d ts s.span.start s.span.stop
  /-- Where new loads go. -/
  | loads : d.pendingLoads ≠ [] →
      EditsAt d ts (loadPoint d.text.toList d.loads) (loadPoint d.text.toList d.loads)

/-- **What is written of a file**, whose text is edited to `edited`. -/
structure IsFramed (d : Descriptor) (ts : List Token) (edited : List Char) : Prop where
  /-- The edits ascend, are disjoint and lie between characters, so that they can be made. -/
  fits : Fits 0 d.text.toList d.edits
  result : splice? 0 d.text.toList d.edits = some edited
  places : ∀ e ∈ d.edits, d.EditsAt ts e.start e.stop
  /-- What no edit touches is carried over. -/
  bytes : ∀ front body back, d.text.toList = front ++ (body ++ back) →
    (∀ e ∈ d.edits, e.stop ≤ width front ∨ width (front ++ body) ≤ e.start) →
    ∃ front' back', edited = front' ++ (body ++ back')
  /-- The line behind each load can be looked at. -/
  ends : ∀ load ∈ d.loads, IsBoundary 0 d.text.toList load.span.stop
  /-- A rule none of whose lists was set is carried over. -/
  kept : ∀ rule ∈ d.rules, rule.isNew = false → rule.srcsChanged = false →
    rule.depsChanged = false → ∃ s : Site, s.IsIn d.text.toList d.package ts ∧
      rule ∈ s.made.rules ∧ ∃ front body back front' back',
        d.text.toList = front ++ (body ++ back) ∧ width front = s.span.start ∧
        width (front ++ body) = s.span.stop ∧ edited = front' ++ (body ++ back')
  /-- The new rules follow, with newlines before each. -/
  render : ∃ gaps : List (List Char), gaps.length = (d.rules.filter Rule.isNew).length ∧
    (∀ gap ∈ gaps, ∀ c ∈ gap, c = '\n') ∧ d.render = String.ofList (edited ++
      (List.zipWith (fun gap rule => gap ++ rule.layout d.package) gaps
        (d.rules.filter Rule.isNew)).flatten)

/-! ## New rules -/

theorem exists_foldl_appendRule (package : String) (news : List Rule) (text : List Char) :
    ∃ gaps : List (List Char), gaps.length = news.length ∧ (∀ gap ∈ gaps, ∀ c ∈ gap, c = '\n') ∧
      news.foldl (appendRule package) text = text ++
        (List.zipWith (fun gap rule => gap ++ rule.layout package) gaps news).flatten := by
  induction news generalizing text with
  | nil => exact ⟨[], rfl, by simp, by simp⟩
  | cons rule news ih =>
    obtain ⟨gap, hgap, heq⟩ : ∃ gap : List Char, (∀ c ∈ gap, c = '\n') ∧
        appendRule package text rule = text ++ (gap ++ rule.layout package) := by
      refine ⟨if text = [] then [] else if text.getLast? = some '\n' then ['\n'] else ['\n', '\n'],
        ?_, by simp only [appendRule, List.append_assoc]⟩
      split
      · simp
      · split <;> simp
    obtain ⟨gaps, hlen, hgaps, hfold⟩ := ih (appendRule package text rule)
    refine ⟨gap :: gaps, by simp [hlen], ?_, ?_⟩
    · rw [List.forall_mem_cons]
      exact ⟨hgap, hgaps⟩
    · rw [List.foldl_cons, hfold, heq]
      simp

/-! ## Edits of rules and loads -/

theorem exists_of_forall₂ {α β : Type} {R : α → β → Prop} {xs : List α} {ys : List β}
    (h : List.Forall₂ R xs ys) {y : β} (hy : y ∈ ys) : ∃ x ∈ xs, R x y := by
  induction h with
  | nil => cases hy
  | cons hxy h ih =>
    rcases List.mem_cons.1 hy with rfl | hy
    · exact ⟨_, List.mem_cons_self, hxy⟩
    · obtain ⟨x, hx, hxy⟩ := ih hy
      exact ⟨x, List.mem_cons_of_mem _ hx, hxy⟩

theorem map_eq_of_forall₂ {α β γ : Type} {f : α → γ} {g : β → γ} {R : α → β → Prop} {xs : List α}
    {ys : List β} (h : List.Forall₂ R xs ys) (hR : ∀ x y, R x y → g y = f x) :
    ys.map g = xs.map f := by
  induction h with
  | nil => rfl
  | cons hxy _ ih => rw [List.map_cons, List.map_cons, hR _ _ hxy, ih]

theorem loadPoint_congr {text : List Char} {loads loads' : List Load}
    (h : loads'.map Load.span = loads.map Load.span) :
    loadPoint text loads' = loadPoint text loads := by
  have hstops : ∀ ls : List Load, ls.map (·.span.stop) = (ls.map Load.span).map Span.stop := by
    simp
  unfold loadPoint
  rw [hstops, hstops, h]

theorem pendingEdits_eq (d : Descriptor) : d.pendingEdits = [] ∨ d.pendingLoads ≠ [] ∧
    ∃ text, d.pendingEdits =
      [⟨loadPoint d.text.toList d.loads, loadPoint d.text.toList d.loads, text⟩] := by
  unfold pendingEdits
  split
  · exact .inl rfl
  · rename_i hne
    exact .inr ⟨hne, _, rfl⟩

/-! ## A file by its calls -/

/-- A file that was read from its calls, and changed: `read` are the rules that it had, with their
lists set, and `news` those that were added. -/
structure IsEditOf (text package : String) (ts : List Token) (sites : List Site)
    (read news : List Rule) (e : Descriptor) : Prop where
  tokens : tokens 0 text.toList = .ok ts
  contents : ∃ called, Contents.ofTokens text.toList package ts =
    .ok ⟨sites.flatMap (·.made.rules), sites.flatMap (·.made.loads), called⟩
  isIn : ∀ s ∈ sites, s.IsIn text.toList package ts
  before : sites.Pairwise (Site.Before ts)
  text : e.text = text
  package : e.package = package
  rules : e.rules = read ++ news
  edited : List.Forall₂ Rule.IsEdit (sites.flatMap (·.made.rules)) read
  fresh : ∀ rule ∈ news, rule.IsFresh
  loads : List.Forall₂ (fun old new => new = { old with added := new.added })
    (sites.flatMap (·.made.loads)) e.loads

theorem exists_isEditOf {path package text : String} {d e : Descriptor}
    (h : parse path package text = .ok d) (hchange : d.IsChange e) :
    ∃ ts sites read news, IsEditOf text package ts sites read news e := by
  obtain ⟨ts, hts, hc, hd⟩ := parse_eq_ok h
  obtain ⟨sites, hin, hbefore, hrules, hloads⟩ :=
    Contents.exists_sites hc (areTokens_of_tokens hts).1
  dsimp only at hrules hloads
  obtain ⟨read, news, hsplit, hedited, hfresh⟩ := hchange.rules
  have hchanged := hchange.loads
  rw [hrules] at hc hedited
  rw [hloads] at hc hchanged
  exact ⟨ts, sites, read, news, hts, ⟨_, hc⟩, hin, hbefore,
    hchange.text.trans (congrArg Descriptor.text hd),
    hchange.package.trans (congrArg Descriptor.package hd), hsplit, hedited, hfresh, hchanged⟩

/-- An edit stands in a call, behind its first byte, or takes the whole call of a load. -/
def InSite (s : Site) (x : Edit) : Prop :=
  s.made.loads ≠ [] ∧ x.start = s.span.start ∧ x.stop = s.span.stop ∨
    s.span.start < x.start ∧ x.stop < s.span.stop

namespace IsEditOf

variable {text package : String} {ts : List Token} {sites : List Site} {read news : List Rule}
  {e : Descriptor}

theorem areTokens (h : IsEditOf text package ts sites read news e) {s : Site} (hs : s ∈ sites) :
    AreTokens s.tokens :=
  (h.isIn s hs).areTokens (areTokens_of_tokens h.tokens).1

theorem isRead (h : IsEditOf text package ts sites read news e) :
    ∀ rule ∈ sites.flatMap (·.made.rules), rule.IsRead := by
  obtain ⟨called, hc⟩ := h.contents
  exact (Contents.isRead_of_ofTokens hc (areTokens_of_tokens h.tokens).1.proper).1

/-- Two calls do not overlap. -/
theorem apart (h : IsEditOf text package ts sites read news e) {a b : Site} (ha : a ∈ sites)
    (hb : b ∈ sites) (hne : a ≠ b) :
    a.span.stop ≤ b.span.start ∨ b.span.stop ≤ a.span.start :=
  (or_of_pairwise h.before ha hb hne).imp Site.Before.le Site.Before.le

/-- The call that a rule was read from. -/
theorem exists_site (h : IsEditOf text package ts sites read news e) {rule : Rule}
    (hr : rule ∈ read) : ∃ s ∈ sites, s.made.loads = [] ∧ attributes s.inside ≠ [] ∧
      ∃ old ∈ s.made.rules, old.IsEdit rule ∧
        ∃ o, rule.origin = some o ∧ o.IsOf s.callee s.inside s.close := by
  obtain ⟨old, hold, hedit⟩ := exists_of_forall₂ h.edited hr
  obtain ⟨s, hs, hold⟩ := List.mem_flatMap.1 hold
  obtain ⟨hloads, hattr, o, ho, hof⟩ := (h.isIn s hs).spans.2 old hold
  exact ⟨s, hs, hloads, hattr, old, hold, hedit, o, hedit.origin.trans ho, hof⟩

/-- The rules that were read stand one behind the other. -/
theorem pairwise_read (h : IsEditOf text package ts sites read news e) :
    read.Pairwise fun a b => ∀ o o', a.origin = some o → b.origin = some o' →
      o.span.stop ≤ o'.span.start := by
  have hmap : ∀ rules : List Rule, (rules.Pairwise fun a b => ∀ o o', a.origin = some o →
      b.origin = some o' → o.span.stop ≤ o'.span.start) ↔
        (rules.map Rule.origin).Pairwise fun a b => ∀ o o', a = some o → b = some o' →
          o.span.stop ≤ o'.span.start := by
    intro rules
    rw [List.pairwise_map]
  have horigins : read.map Rule.origin = (sites.flatMap (·.made.rules)).map Rule.origin :=
    map_eq_of_forall₂ h.edited fun _ _ he => he.origin
  rw [hmap, horigins, ← hmap, List.pairwise_flatMap]
  refine ⟨fun s hs => ?_, h.before.imp_of_mem fun ha hb hab x hx y hy o o' ho ho' => ?_⟩
  · rcases Contents.ofCall_eq_ok (h.isIn s hs).made with ⟨-, -, -, hr, -⟩ | ⟨-, rule, -, -, hr, -⟩ |
      ⟨-, -, hr, -⟩ <;> simp [hr]
  · obtain ⟨-, -, origin, horigin, hof⟩ := (h.isIn _ ha).spans.2 x hx
    obtain ⟨-, -, origin', horigin', hof'⟩ := (h.isIn _ hb).spans.2 y hy
    cases horigin.symm.trans ho
    cases horigin'.symm.trans ho'
    rw [hof.span, hof'.span]
    exact hab.le

/-- **Each edit of a rule or a load** stands in one of the calls, at one of the places. -/
theorem exists_site_of_mem (h : IsEditOf text package ts sites read news e) {x : Edit}
    (hx : x ∈ allEditsOf text.toList package read e.loads) :
    e.EditsAt ts x.start x.stop ∧ ∃ s ∈ sites, InSite s x ∧
      (s.made.loads = [] → ∃ rule ∈ read, x ∈ ruleEdits text.toList package rule ∧
        ∃ o, rule.origin = some o ∧ o.span = s.span) := by
  have hisIn : ∀ s ∈ sites, s.IsIn e.text.toList e.package ts := by
    rw [h.text, h.package]
    exact h.isIn
  rcases List.mem_append.1 hx with hx | hx
  · obtain ⟨load, hload, rfl⟩ := List.mem_map.1 hx
    obtain ⟨hload, hadded⟩ := List.mem_filter.1 hload
    obtain ⟨old, hold, heq⟩ := exists_of_forall₂ h.loads hload
    obtain ⟨s, hs, hold⟩ := List.mem_flatMap.1 hold
    have hspan : load.span = s.span := by
      rw [heq]
      exact (h.isIn s hs).spans.1 old hold
    have hne : s.made.loads ≠ [] := List.ne_nil_of_mem hold
    dsimp only
    rw [hspan]
    exact ⟨.load hload (by simpa using hadded) (hisIn s hs) hold heq, s, hs,
      .inl ⟨hne, rfl, rfl⟩, fun hnil => absurd hnil hne⟩
  · obtain ⟨rule, hrule, hx⟩ := List.mem_flatMap.1 hx
    obtain ⟨s, hs, -, hattr, old, hold, hedit, o, ho, hof⟩ := h.exists_site hrule
    have hat := editedAt_of_mem_ruleEdits ho hof hattr hx
    have hmem : rule ∈ e.rules := h.rules ▸ List.mem_append_left news hrule
    exact ⟨.rule hmem (hisIn s hs) hold hedit hat, s, hs, .inr (hat.bounds (h.areTokens hs)),
      fun _ => ⟨rule, hrule, hx, o, ho, hof.span⟩⟩

/-- Symbols that are added to loads do not move the place for new ones. -/
theorem loadPoint_eq (h : IsEditOf text package ts sites read news e) :
    loadPoint e.text.toList e.loads =
      loadPoint text.toList (sites.flatMap (·.made.loads)) := by
  rw [h.text]
  refine loadPoint_congr (map_eq_of_forall₂ h.loads fun old new hl => ?_)
  rw [hl]

/-- The rules and loads after the edits. -/
theorem isEdit (h : IsEditOf text package ts sites read news e) (called : List String) :
    Contents.IsEdit ⟨sites.flatMap (·.made.rules), sites.flatMap (·.made.loads), called⟩ read
      e.loads :=
  ⟨h.edited, h.loads⟩

/-- **The edits of a file** are those of the rules that it had and of its loads, and the one that
adds new loads. -/
theorem edits_eq (h : IsEditOf text package ts sites read news e) {es : List Edit}
    (hs : es.Pairwise fun a b => a.start < b.start)
    (hp : es.Perm (e.pendingEdits ++ allEditsOf text.toList package read e.loads)) :
    e.edits = es := by
  have hflat : e.rules.flatMap (ruleEdits text.toList package) =
      read.flatMap (ruleEdits text.toList package) := by
    rw [h.rules, List.flatMap_append, flatMap_ruleEdits_new h.fresh, List.append_nil]
  have hedits : e.edits = (e.pendingEdits ++
      allEditsOf text.toList package read e.loads).mergeSort Edit.le := by
    unfold edits
    rw [h.text, h.package, hflat, List.append_assoc]
    rfl
  exact hedits.trans (mergeSort_eq_of_starts hs hp.symm)

/-- **New loads are put apart from the other edits.** -/
theorem apart_loadPoint (h : IsEditOf text package ts sites read news e) {x : Edit}
    (hx : x ∈ allEditsOf text.toList package read e.loads) (hordered : x.start ≤ x.stop) :
    x.start < loadPoint text.toList e.loads ∧ x.stop ≤ loadPoint text.toList e.loads ∨
      loadPoint text.toList e.loads < x.start := by
  obtain ⟨-, s, hs, hsite, -⟩ := h.exists_site_of_mem hx
  have hpoint := h.loadPoint_eq
  rw [h.text] at hpoint
  rw [hpoint]
  obtain ⟨hside, hload⟩ := (loadPoint_spec h.tokens h.isIn h.before rfl).2 s hs
  have hspan := Site.span_lt (h.areTokens hs)
  rcases hsite with ⟨hne, hstart, hstop⟩ | ⟨hstart, hstop⟩
  · have := hload hne
    omega
  · omega

/-- **The edits can be made**: those of rules and loads, and the one that adds new loads. -/
theorem exists_splice? (h : IsEditOf text package ts sites read news e) :
    ∃ edited, splice? 0 text.toList e.edits = some edited ∧
      e.edits.Perm (e.pendingEdits ++ allEditsOf text.toList package read e.loads) := by
  obtain ⟨called, hc⟩ := h.contents
  obtain ⟨es, out, hsplices, hperm, -⟩ :=
    Contents.exists_splices False h.tokens hc (h.isEdit called) fun hfalse => hfalse.elim
  have hsorted : ∀ {fs : List Edit} {out : List Char}, fs.Pairwise (fun a b => a.start < b.start) →
      fs.Perm (e.pendingEdits ++ es) → splice? 0 text.toList fs = some out →
      splice? 0 text.toList e.edits = some out ∧
        e.edits.Perm (e.pendingEdits ++ allEditsOf text.toList package read e.loads) := by
    intro fs out hs hp hout
    have hp' := hp.trans (List.Perm.append_left _ hperm)
    rw [h.edits_eq hs hp']
    exact ⟨hout, hp'⟩
  rcases e.pendingEdits_eq with hnone | ⟨-, new, hnew⟩
  · exact ⟨out, hsorted hsplices.sorted (by rw [hnone, List.nil_append]) hsplices.result⟩
  · have hboundary := (loadPoint_spec h.tokens h.isIn h.before rfl).1
    rw [← h.loadPoint_eq] at hboundary
    obtain ⟨fs, out', hfs, hs, hout⟩ := exists_splice?_insert new hsplices.result hboundary
      hsplices.sorted fun x hx => by
        have hordered := (Fits.of_splice? hsplices.result).1.ordered x hx
        have hapart := h.apart_loadPoint (hperm.mem_iff.1 hx) hordered
        rwa [h.text]
    exact ⟨out', hsorted hs (by rw [hnew]; exact hfs) hout⟩

theorem places (h : IsEditOf text package ts sites read news e) :
    ∀ x ∈ e.edits, e.EditsAt ts x.start x.stop := by
  obtain ⟨-, -, hperm⟩ := h.exists_splice?
  intro x hx
  rcases List.mem_append.1 (hperm.mem_iff.1 hx) with hx | hx
  · rcases e.pendingEdits_eq with hnone | ⟨hne, new, hnew⟩
    · rw [hnone] at hx
      cases hx
    · rw [hnew, List.mem_singleton] at hx
      rw [hx]
      exact .loads hne
  · exact (h.exists_site_of_mem hx).1

theorem ruleEdits_of_unset {text : List Char} {package : String} {rule : Rule}
    (hsrcs : rule.srcsChanged = false) (hdeps : rule.depsChanged = false) :
    ruleEdits text package rule = [] := by
  unfold ruleEdits
  rw [hsrcs, hdeps]
  split
  · rfl
  · simp [listEdit, insertions]

/-- **No edit touches a rule** none of whose lists was set. -/
theorem untouched (h : IsEditOf text package ts sites read news e) {rule : Rule} (hr : rule ∈ read)
    (hsrcs : rule.srcsChanged = false) (hdeps : rule.depsChanged = false) {s : Site}
    (hs : s ∈ sites) (hloads : s.made.loads = []) {o : Origin} (ho : rule.origin = some o)
    (hspan : o.span = s.span) :
    ∀ x ∈ e.edits, x.stop ≤ s.span.start ∨ s.span.stop ≤ x.start := by
  obtain ⟨-, -, hperm⟩ := h.exists_splice?
  intro x hx
  rcases List.mem_append.1 (hperm.mem_iff.1 hx) with hx | hx
  · rcases e.pendingEdits_eq with hnone | ⟨-, new, hnew⟩
    · rw [hnone] at hx
      cases hx
    · rw [hnew, List.mem_singleton] at hx
      have hside := ((loadPoint_spec h.tokens h.isIn h.before rfl).2 s hs).1
      rw [hx, h.loadPoint_eq]
      exact hside.symm
  · obtain ⟨-, s', hs', hsite, hrule⟩ := h.exists_site_of_mem hx
    by_cases heq : s' = s
    · -- The edit would be one of this rule, since the call makes no other.
      subst heq
      obtain ⟨rule', hr', hx', o', ho', hspan'⟩ := hrule hloads
      have hlt := Site.span_lt (h.areTokens hs)
      have hsame : rule' = rule := by
        refine Classical.byContradiction fun hne => ?_
        have hapart : o'.span.stop ≤ o.span.start ∨ o.span.stop ≤ o'.span.start :=
          (or_of_pairwise h.pairwise_read hr' hr hne).imp (fun hab => hab o' o ho' ho)
            fun hab => hab o o' ho ho'
        rw [hspan, hspan'] at hapart
        omega
      rw [hsame, ruleEdits_of_unset hsrcs hdeps] at hx'
      cases hx'
    · have hapart := h.apart hs' hs heq
      rcases hsite with ⟨-, hstart, hstop⟩ | ⟨hstart, hstop⟩
      · omega
      · omega

/-- **A rule none of whose lists was set** is carried over. -/
theorem kept (h : IsEditOf text package ts sites read news e) {edited : List Char}
    (hresult : splice? 0 text.toList e.edits = some edited) {rule : Rule} (hr : rule ∈ read)
    (hsrcs : rule.srcsChanged = false) (hdeps : rule.depsChanged = false) :
    ∃ s : Site, s.IsIn text.toList package ts ∧ rule ∈ s.made.rules ∧
      ∃ front body back front' back', text.toList = front ++ (body ++ back) ∧
        width front = s.span.start ∧ width (front ++ body) = s.span.stop ∧
        edited = front' ++ (body ++ back') := by
  obtain ⟨s, hs, hloads, -, old, hold, hedit, o, ho, hof⟩ := h.exists_site hr
  have heq : rule = old :=
    hedit.eq_of_unset (h.isRead old (List.mem_flatMap.2 ⟨s, hs, hold⟩)) hsrcs hdeps
  have hstart := isBoundary_start h.tokens
    ((h.isIn s hs).mem (t := s.callee) (by simp [Site.tokens]))
  have hstop := isBoundary_stop h.tokens
    ((h.isIn s hs).mem (t := s.close) (by simp [Site.tokens]))
  have hlt := Site.span_lt (h.areTokens hs)
  obtain ⟨front, body, back, hcs, hfront, hbody⟩ := exists_slice hstart hstop (Nat.le_of_lt hlt)
  rw [hcs] at hresult
  obtain ⟨front', back', hkept⟩ := splice?_kept hresult fun x hx => by
    have := h.untouched hr hsrcs hdeps hs hloads ho hof.span x hx
    rw [hfront, hbody, Nat.zero_add, Nat.zero_add]
    exact this
  exact ⟨s, h.isIn s hs, heq ▸ hold, front, body, back, front', back', hcs, hfront, hbody, hkept⟩

end IsEditOf

variable {path package text : String} {d : Descriptor}

/-- Nothing is edited in a file that was only read. -/
theorem edits_of_parse (h : parse path package text = .ok d) : d.edits = [] := by
  obtain ⟨hread, hadded⟩ := isRead_of_parse h
  obtain ⟨contents, -, hd⟩ := map_eq_ok h
  have hpending : d.pendingLoads = [] := by rw [← hd]
  have hrules : d.rules.flatMap (ruleEdits d.text.toList d.package) = [] :=
    List.flatMap_eq_nil_iff.2 fun rule hrule =>
      IsEditOf.ruleEdits_of_unset (hread rule hrule).srcsChanged (hread rule hrule).depsChanged
  unfold edits pendingEdits loadEdits
  rw [if_pos hpending, hrules, List.filter_eq_nil_iff.2 (by simpa using hadded)]
  simp

/-- **A file that was only read** is written as it was. -/
theorem render_of_parse (h : parse path package text = .ok d) : d.render = d.text := by
  have hnews : d.rules.filter Rule.isNew = [] :=
    List.filter_eq_nil_iff.2 fun rule hrule => by simp [((isRead_of_parse h).1 rule hrule).isNew]
  unfold render
  dsimp only
  rw [edits_of_parse h, hnews]
  simp [splice?]

/-- **A file that was read is framed after any changes**, if only new rules are added. -/
theorem isFramed_changeAll (h : parse path package text = .ok d) {changes : List Change}
    (hf : ∀ c ∈ changes, c.IsFresh) :
    ∃ ts edited, tokens 0 text.toList = .ok ts ∧ (d.changeAll changes).text = text ∧
      (d.changeAll changes).IsFramed ts edited := by
  obtain ⟨ts, sites, read, news, hedit⟩ :=
    exists_isEditOf h (isChange_changeAll (isRead_of_parse h).1 hf)
  generalize d.changeAll changes = e at *
  obtain ⟨edited, hresult, -⟩ := hedit.exists_splice?
  have hnew : e.rules.filter Rule.isNew = news := by
    rw [hedit.rules]
    exact filter_isNew hedit.isRead hedit.edited hedit.fresh
  refine ⟨ts, edited, hedit.tokens, hedit.text, ?_, ?_, hedit.places, ?_, ?_, ?_, ?_⟩
  · rw [hedit.text]
    exact (Fits.of_splice? hresult).1
  · rw [hedit.text]
    exact hresult
  · intro front body back hcs hapart
    rw [hedit.text] at hcs
    rw [hcs] at hresult
    exact splice?_kept hresult (by simpa using hapart)
  · intro load hload
    obtain ⟨old, hold, heq⟩ := exists_of_forall₂ hedit.loads hload
    obtain ⟨s, hs, hold⟩ := List.mem_flatMap.1 hold
    have hspan : load.span = s.span := by
      rw [heq]
      exact (hedit.isIn s hs).spans.1 old hold
    rw [hedit.text, hspan]
    exact isBoundary_stop hedit.tokens ((hedit.isIn s hs).mem (by simp [Site.tokens]))
  · intro rule hr hold hsrcs hdeps
    rw [hedit.text, hedit.package]
    rw [hedit.rules, List.mem_append] at hr
    rcases hr with hr | hr
    · exact hedit.kept hresult hr hsrcs hdeps
    · rw [Rule.isNew, (hedit.fresh rule hr).origin] at hold
      cases hold
  · obtain ⟨gaps, hlen, hgaps, hfold⟩ := exists_foldl_appendRule e.package news edited
    rw [hnew]
    refine ⟨gaps, hlen, hgaps, ?_⟩
    unfold render
    dsimp only
    rw [hedit.text, hresult, hnew, Option.getD_some, hfold]

/-! ## A file with a load -/

def loadText : String :=
  "load(\"l\", \"x\")\nts_library(name = \"a\")\nts_config(name = \"c\")"

def loadFile : Descriptor :=
  ⟨"p/BUILD", "p", loadText,
    [⟨.library false, "a", .absent, .absent, none,
        some ⟨⟨15, 37⟩, 36, 36, false, false, "    ", none, none⟩, false, false⟩,
      ⟨.config, "c", .absent, .absent, none,
        some ⟨⟨38, 59⟩, 58, 58, false, false, "    ", none, none⟩, false, false⟩],
    [⟨⟨0, 14⟩, "l", [("x", "\"x\"")], [], []⟩], ["load", "ts_library", "ts_config"], []⟩

/-- A rule gets a list, the load another symbol, and another file is loaded. -/
def loadChanges : List Change :=
  [.setDeps 0 "p" [⟨none, "q", "q"⟩], .add (.ofName .declaration "d") "l",
    .add (.ofName .devSources "s") "m"]

theorem parse_loadText : parse "p/BUILD" "p" loadText = .ok loadFile :=
  toOption_eq_some.1 (by decide +kernel)

theorem isFramed_loadChanges :
    parse "p/BUILD" "p" loadText = .ok loadFile ∧ (∀ c ∈ loadChanges, c.IsFresh) ∧
      ∃ ts edited, tokens 0 loadText.toList = .ok ts ∧
        (loadFile.changeAll loadChanges).text = loadText ∧
        (loadFile.changeAll loadChanges).IsFramed ts edited := by
  have hfresh : ∀ c ∈ loadChanges, c.IsFresh := by
    simp [loadChanges, Change.IsFresh, Rule.isFresh_ofName]
  exact ⟨parse_loadText, hfresh, isFramed_changeAll parse_loadText hfresh⟩

end Descriptor

end BuildSync.Build
