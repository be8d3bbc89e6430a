import BuildSync.Proofs.Build.LoadStatements

/-!
# Editing a file in its text

* `Contents.rewrites`: the edits of the rules and loads of a file turn its tokens into tokens that
  are read as the edited rules and loads.
* `Contents.exists_splices`: they can be made in the text of the file, and give a text that is
  read so.
-/

namespace BuildSync.Build

open Text

/-- The edits that write the loads with added symbols. -/
def loadEditsOf (loads : List Load) : List Edit :=
  (loads.filter (·.added ≠ [])).map fun load => ⟨load.span.start, load.span.stop, load.layout⟩

/-- The contents of a file, and its rules and loads after some edits. -/
structure Contents.IsEdit (c : Contents) (rules : List Rule) (loads : List Load) : Prop where
  rules : List.Forall₂ Rule.IsEdit c.rules rules
  loads : List.Forall₂ (fun old new => new = { old with added := new.added }) c.loads loads

/-- The edits of some rules and loads. -/
def allEditsOf (text : List Char) (package : String) (rules : List Rule) (loads : List Load) :
    List Edit :=
  loadEditsOf loads ++ rules.flatMap (Descriptor.ruleEdits text package)

section Edits

variable {w : Prop} {text : List Char} {package : String}

/-- **Tokens are a call**, which is read as some rules and loads. -/
def ReadsCall (package : String) (us : List Token) (made : Outline) : Prop :=
  ∃ t opening inside close, us = t :: opening :: (inside ++ [close]) ∧ t.kind = .word ∧
    opening.kind = .opening .round ∧ nest [] inside = some [] ∧ close.kind = .closing .round ∧
    CallReads package t inside made

/-- **A call is edited.** What it becomes is read as the edited rules and loads, if loads that get
symbols can be written again. -/
theorem rewrites_ofCall {t opening close : Token} {inside : List Token} {first : Contents}
    {rules : List Rule} {loads : List Load}
    (h : Contents.ofCall text package t opening inside close = .ok first)
    (ht : AreTokens (inside ++ [close])) (hk : t.kind = .word)
    (ho : opening.kind = .opening .round) (hnest : nest [] inside = some [])
    (hclose : close.kind = .closing .round) (he : first.IsEdit rules loads)
    (hw : w → ∀ load ∈ loads, load.IsWritable) :
    ∃ es us, Rewrites w (t :: opening :: (inside ++ [close])) es us ∧
      es.Perm (allEditsOf text package rules loads) ∧
      (w → (∀ rule ∈ rules, rule.HasLabels package) →
        ReadsCall package us (.of rules loads)) := by
  obtain ⟨hrules, hloads⟩ := he
  have hkeep : ∀ made, CallReads package t (inside.map Token.bare) made →
      ReadsCall package ((t :: opening :: (inside ++ [close])).map Token.bare) made :=
    fun made hc => ⟨t.bare, opening.bare, inside.map Token.bare, close.bare, by simp, hk, ho,
      by rw [nest_bare, hnest], hclose, hc⟩
  rcases Contents.ofCall_eq_ok h with ⟨hname, load, hload, hr, hl⟩ |
    ⟨kind, rule, hkind, hrule, hr, hl⟩ | ⟨hname, hkind, hr, hl⟩
  · rw [hr] at hrules
    rw [hl] at hloads
    cases hrules
    cases hloads with
    | cons hedit hloads =>
      rename_i load' loads
      cases hloads
      obtain ⟨hsymbols, hplace, hnone, hbinds⟩ := Load.parse_eq_ok hload
      have hspan : load'.span = ⟨t.start, close.stop⟩ := by
        rw [hedit]
        exact hplace
      by_cases hadded : load'.added = []
      · have hsame : load' = load := by
          rw [hedit, hadded, ← hnone]
        refine ⟨[], _, .keep w _, ?_, fun _ _ => hkeep _ ?_⟩
        · simp [allEditsOf, loadEditsOf, hadded]
        · have hread := @callReads_load package t (inside.map Token.bare) hname
            ((attributes_bare inside).symm ▸ hsymbols)
          rw [attributes_bare, ← hbinds, ← hsame] at hread
          exact hread
      · -- The whole call is written again.
        have htext : t.text = "load".toList := by
          rw [← hname, String.toList_ofList]
        by_cases hp : w
        · obtain ⟨call, hcall, houtline⟩ := (hw hp load' List.mem_cons_self).exists_call
          refine ⟨[⟨t.start, close.stop, load'.layout⟩], call.tokens, ?_, ?_, fun _ _ => ?_⟩
          · rw [← List.cons_append]
            refine .swap fun _ => ⟨hcall ▸ call.isWritten, ?_, ?_⟩
            · rw [hcall, LoadCall.text, loadCall_eq]
              simp
            · rw [hcall, LoadCall.text, loadCall_eq, htext]
              rfl
          · simp [allEditsOf, loadEditsOf, hadded, hspan]
          · exact ⟨_, _, call.inside, _, rfl, rfl, rfl, call.nest_inside, rfl,
              houtline ▸ call.callReads package⟩
        · refine ⟨[⟨t.start, close.stop, load'.layout⟩], [], ?_, ?_, fun h => absurd h hp⟩
          · rw [← List.cons_append]
            exact .swap fun h => absurd h hp
          · simp [allEditsOf, loadEditsOf, hadded, hspan]
  · rw [hr] at hrules
    rw [hl] at hloads
    cases hloads
    cases hrules with
    | cons hrule' hrules =>
      rename_i rule' rules
      cases hrules
      obtain ⟨es, inside', hrewrites, hperm, hnest', hread⟩ :=
        Rule.rewrites w hrule hrule' ht hnest (by simp [hclose])
      refine ⟨es, _, (Rewrites.keep w [t, opening]).append hrewrites, ?_, fun _ hlabels => ?_⟩
      · simpa [allEditsOf, loadEditsOf] using hperm
      · refine ⟨t.bare, opening.bare, inside', close.bare, rfl, hk, ho, hnest', hclose,
          callReads_rule hkind (hread ?_)⟩
        exact hlabels rule' List.mem_cons_self
  · rw [hr] at hrules
    rw [hl] at hloads
    cases hrules
    cases hloads
    refine ⟨[], _, .keep w _, ?_, fun _ _ => hkeep _ (callReads_other hname hkind)⟩
    simp [allEditsOf, loadEditsOf]

theorem exists_of_forall₂_append {α β : Type} {R : α → β → Prop} {xs ys : List α} {zs : List β}
    (h : List.Forall₂ R (xs ++ ys) zs) :
    ∃ xs' ys', zs = xs' ++ ys' ∧ List.Forall₂ R xs xs' ∧ List.Forall₂ R ys ys' := by
  induction xs generalizing zs with
  | nil => exact ⟨[], zs, rfl, .nil, h⟩
  | cons x xs ih =>
    rw [List.cons_append] at h
    cases h with
    | cons hx h =>
      obtain ⟨xs', ys', rfl, hxs, hys⟩ := ih h
      exact ⟨_ :: xs', ys', rfl, .cons hx hxs, hys⟩

theorem Contents.IsEdit.split {c c' : Contents} {rules : List Rule} {loads : List Load}
    (h : (c ++ c').IsEdit rules loads) :
    ∃ rules₁ rules₂ loads₁ loads₂, rules = rules₁ ++ rules₂ ∧ loads = loads₁ ++ loads₂ ∧
      c.IsEdit rules₁ loads₁ ∧ c'.IsEdit rules₂ loads₂ := by
  obtain ⟨rules₁, rules₂, hr, hr₁, hr₂⟩ := exists_of_forall₂_append h.rules
  obtain ⟨loads₁, loads₂, hl, hl₁, hl₂⟩ := exists_of_forall₂_append h.loads
  exact ⟨rules₁, rules₂, loads₁, loads₂, hr, hl, ⟨hr₁, hl₁⟩, ⟨hr₂, hl₂⟩⟩

theorem allEditsOf_append (rules₁ rules₂ : List Rule) (loads₁ loads₂ : List Load) :
    (allEditsOf text package rules₁ loads₁ ++ allEditsOf text package rules₂ loads₂).Perm
      (allEditsOf text package (rules₁ ++ rules₂) (loads₁ ++ loads₂)) := by
  unfold allEditsOf loadEditsOf
  rw [List.filter_append, List.map_append, List.flatMap_append, List.append_assoc,
    List.append_assoc]
  exact List.Perm.append_left _ (List.perm_append_comm_assoc _ _ _)

/-- **A file is edited.** What it becomes is read as the edited rules and loads, if the loads can be
written again. -/
theorem Contents.rewrites (w : Prop) {ts : List Token} {c : Contents}
    (h : Contents.ofTokens text package ts = .ok c) (ht : AreTokens ts) {rules : List Rule}
    {loads : List Load} (he : c.IsEdit rules loads) (hw : w → ∀ load ∈ loads, load.IsWritable) :
    ∃ es us, Rewrites w ts es us ∧ es.Perm (allEditsOf text package rules loads) ∧
      (w → (∀ rule ∈ rules, rule.HasLabels package) →
        Reads package (us.map Token.bare) (.of rules loads)) := by
  revert ht rules loads
  refine Contents.ofTokens_induction ?nil ?trivia ?plain ?call h
  case nil =>
    intro _ rules loads he _
    obtain ⟨hrules, hloads⟩ := he
    cases hrules
    cases hloads
    exact ⟨[], [], .nil w, .refl _, fun _ _ => .nil package⟩
  case trivia =>
    intro t ts c ht _ ih hts rules loads he hw
    obtain ⟨es, us, hrewrites, hperm, hreads⟩ :=
      ih (@AreTokens.of_append [t] ts [] (by simpa using hts)) he hw
    refine ⟨_, _, (Rewrites.keep w [t]).append hrewrites, hperm, fun hp hlabels => ?_⟩
    exact (hreads hp hlabels).trivia ht
  case plain =>
    intro t tail rest c ht hopening hs _ ih hts rules loads he hw
    obtain ⟨es, us, hrewrites, hperm, hreads⟩ :=
      ih (@AreTokens.of_append (t :: tail) rest [] (by simpa using hts)) he hw
    refine ⟨_, _, (Rewrites.keep w (t :: tail)).append hrewrites, hperm, fun hp hlabels => ?_⟩
    have h := (hreads hp hlabels).plain ht hopening hs fun hrest => by
      rw [hrest] at hrewrites
      rw [hrewrites.eq_nil.2, List.map_nil]
    simpa using h
  case call =>
    intro t opening inside close tail rest first c ht ho hnest hclose hfirst hs _ ih hts rules loads
      he hw
    obtain ⟨rules₁, rules₂, loads₁, loads₂, rfl, rfl, he₁, he₂⟩ := he.split
    obtain ⟨es₁, us₁, hrewrites₁, hperm₁, hcall⟩ := rewrites_ofCall hfirst
      (@AreTokens.of_append [t, opening] (inside ++ [close]) (tail ++ rest) (by simpa using hts))
      ht ho hnest hclose he₁ fun hp load hl => hw hp load (List.mem_append_left _ hl)
    obtain ⟨es₂, us₂, hrewrites₂, hperm₂, hreads⟩ := ih
      (@AreTokens.of_append (t :: opening :: (inside ++ close :: tail)) rest []
        (by simpa using hts))
      he₂ fun hp load hl => hw hp load (List.mem_append_right _ hl)
    have hrewrites := hrewrites₁.append ((Rewrites.keep w tail).append hrewrites₂)
    refine ⟨_, _, by simpa using hrewrites,
      (hperm₁.append hperm₂).trans (allEditsOf_append _ _ _ _), fun hp hlabels => ?_⟩
    obtain ⟨t', opening', inside', close', rfl, hk', ho', hnest', hclose', hread⟩ :=
      hcall hp fun rule hr => hlabels rule (List.mem_append_left _ hr)
    have h := (hreads hp fun rule hr => hlabels rule (List.mem_append_right _ hr)).call hk' ho'
      hnest' hclose' hread hs fun hrest => by
        rw [hrest] at hrewrites₂
        rw [hrewrites₂.eq_nil.2, List.map_nil]
    simpa [Outline.of_append] using h

/-- **The edits of a file can be made in its text**, or a part of it, in order and apart from each
other. The edited text is read as the edited rules and loads, if the loads can be written again. -/
theorem Contents.exists_splices (w : Prop) {pos : Nat} {cs : List Char} {ts : List Token}
    {c : Contents} (hts : tokens pos cs = .ok ts) (h : Contents.ofTokens text package ts = .ok c)
    {rules : List Rule} {loads : List Load} (he : c.IsEdit rules loads)
    (hw : w → ∀ load ∈ loads, load.IsWritable) :
    ∃ es edited, Splices pos cs es edited ∧ es.Perm (allEditsOf text package rules loads) ∧
      (w → (∀ rule ∈ rules, rule.HasLabels package) →
        TextReads package edited (.of rules loads)) := by
  obtain ⟨es, us, hrewrites, hperm, hreads⟩ :=
    Contents.rewrites w h (areTokens_of_tokens hts).1 he hw
  obtain ⟨edited, hsplices, hlex⟩ := hrewrites.exists_splices hts
  refine ⟨es, edited, hsplices, hperm, fun hp hlabels => ⟨us, hlex hp, ?_⟩⟩
  exact lexemes_bare (hlex hp) ▸ hreads hp hlabels

end Edits

end BuildSync.Build
