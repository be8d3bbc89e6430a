import Mathlib.Data.List.Nodup
import Mathlib.Data.List.Pairwise
import Mathlib.Data.List.Perm.Basic
import BuildSync.Label

/-!
# Sorted sets and the orders of labels

* `or_of_pairwise`: what holds along a list holds of two of its elements, one way or the other.
* Elements that tie keep their order when they are sorted (`filter_mergeSort`), so none comes back
  that did not before (`returns_of_mergeSort`). Where the order tells the elements apart, a sorted
  set has each of them once (`nodup_sortedSet`) and depends on nothing else (`sortedSet_congr`).
* `textsLe` is a total order (`textsLe_total`, …).
* `Label.le` and `Label.writtenLe` are total preorders (`Label.le_total`, `Label.writtenLe_total`,
  …); the first tells labels apart (`Label.le_antisymm`), the second sorts a dependency list
  (`Label.pairwise_sortFor`).
-/

namespace BuildSync

/-- Of two elements of a list one stands in front of the other. -/
theorem or_of_pairwise {R : α → α → Prop} {xs : List α} (h : xs.Pairwise R) {a b : α}
    (ha : a ∈ xs) (hb : b ∈ xs) (hne : a ≠ b) : R a b ∨ R b a := by
  have : Std.Symm fun a b => R a b ∨ R b a := ⟨fun _ _ hab => hab.symm⟩
  exact (h.imp (S := fun a b => R a b ∨ R b a) Or.inl).forall ha hb hne

/-! ## Equal neighbours -/

theorem dropRepeats_sublist [DecidableEq α] (xs : List α) : (dropRepeats xs).Sublist xs := by
  fun_induction dropRepeats xs with
  | case1 => exact .slnil
  | case2 => exact List.Sublist.refl _
  | case3 b rest ih => exact ih.trans (List.sublist_cons_self _ _)
  | case4 a b rest _ ih => exact ih.cons_cons a

theorem dropRepeats_of_nodup [DecidableEq α] {xs : List α} (h : xs.Nodup) :
    dropRepeats xs = xs := by
  fun_induction dropRepeats xs with
  | case1 => rfl
  | case2 => rfl
  | case3 b rest _ => exact absurd List.mem_cons_self (List.nodup_cons.1 h).1
  | case4 a b rest _ ih => rw [ih (List.nodup_cons.1 h).2]

theorem dropRepeatsOf_of_pairwise [DecidableEq β] {key : α → β} {xs : List α}
    (h : xs.Pairwise fun a b => key a ≠ key b) : dropRepeatsOf key xs = xs := by
  cases xs with
  | nil => rfl
  | cons a rest =>
    rw [dropRepeatsOf]
    congr 1
    induction rest generalizing a with
    | nil => rfl
    | cons b rest ih =>
      obtain ⟨ha, hrest⟩ := List.pairwise_cons.1 h
      rw [dropRepeatsAfter, if_neg (ha b List.mem_cons_self), ih b hrest]

/-- Where no element comes back behind another one, dropping equal neighbours leaves each once. -/
theorem nodup_dropRepeats [DecidableEq α] {xs : List α}
    (h : ∀ a b, [a, b, a].Sublist xs → a = b) : (dropRepeats xs).Nodup := by
  fun_induction dropRepeats xs with
  | case1 => exact List.nodup_nil
  | case2 a => exact List.nodup_singleton a
  | case3 b rest ih => exact ih fun a c hsub => h a c (hsub.cons b)
  | case4 a b rest hab ih =>
    refine List.nodup_cons.2 ⟨fun hmem => hab ?_, ih fun c d hsub => h c d (hsub.cons a)⟩
    rcases List.mem_cons.1 (mem_dropRepeats.1 hmem) with rfl | hin
    · rfl
    · exact h a b (.cons_cons a (.cons_cons b (List.singleton_sublist.2 hin)))

section
variable {le : α → α → Bool}
  (trans : ∀ a b c, le a b = true → le b c = true → le a c = true)
  (total : ∀ a b, (le a b || le b a) = true)
include trans total

/-- **A sorted list is what sorting makes of its elements**, however they are listed, if the order
tells them apart. -/
theorem mergeSort_eq_of_perm {xs ys : List α} (hys : ys.Pairwise fun a b => le a b = true)
    (anti : ∀ a ∈ ys, ∀ b ∈ ys, le a b = true → le b a = true → a = b) (hp : xs.Perm ys) :
    xs.mergeSort le = ys := by
  have hperm : (xs.mergeSort le).Perm ys := (List.mergeSort_perm xs le).trans hp
  exact List.Perm.eq_of_pairwise (fun a b ha hb => anti a (hperm.mem_iff.1 ha) b hb)
    (List.pairwise_mergeSort trans total xs) hys hperm

/-- **Sorting keeps elements that tie in their order.** -/
theorem filter_mergeSort {p : α → Bool} {xs : List α}
    (hp : (xs.filter p).Pairwise fun a b => le a b = true) :
    (xs.mergeSort le).filter p = xs.filter p := by
  have hsub := (List.sublist_mergeSort trans total hp List.filter_sublist).filter p
  simp only [List.filter_filter, Bool.and_self] at hsub
  exact (hsub.eq_of_length ((List.mergeSort_perm xs le).filter p).length_eq.symm).symm

/-- An element that comes back behind another one of a sorted list ties with it, and came back
before. -/
theorem returns_of_mergeSort {a b : α} {xs : List α} (h : [a, b, a].Sublist (xs.mergeSort le)) :
    le a b = true ∧ le b a = true ∧ [a, b, a].Sublist xs := by
  have hpairs := (List.pairwise_mergeSort trans total xs).sublist h
  simp only [List.pairwise_cons, List.mem_cons, List.not_mem_nil, or_false] at hpairs
  have hab := hpairs.1 b (.inl rfl)
  have hba := hpairs.2.1 a rfl
  refine ⟨hab, hba, ?_⟩
  have hties : (xs.filter fun x => le a x && le x a).Pairwise fun x y => le x y = true := by
    refine List.pairwise_of_forall_mem_list fun x hx y hy => ?_
    rw [List.mem_filter, Bool.and_eq_true] at hx hy
    exact trans x a y hx.2.2 hy.2.1
  have haa : le a a = true := by simpa using total a a
  have hsub := h.filter fun x => le a x && le x a
  rw [filter_mergeSort trans total hties] at hsub
  simp only [List.filter_cons, haa, hab, hba, Bool.and_self, if_true, List.filter_nil] at hsub
  exact hsub.trans List.filter_sublist

theorem pairwise_sortedSet [DecidableEq α] (xs : List α) :
    (sortedSet le xs).Pairwise fun a b => le a b = true :=
  (List.pairwise_mergeSort trans total xs).sublist (dropRepeats_sublist _)

/-- A sorted set has each element once, if the order tells the elements of the list apart. -/
theorem nodup_sortedSet [DecidableEq α] {xs : List α}
    (anti : ∀ a ∈ xs, ∀ b ∈ xs, le a b = true → le b a = true → a = b) :
    (sortedSet le xs).Nodup := by
  refine nodup_dropRepeats fun a b hsub => ?_
  obtain ⟨hab, hba, hxs⟩ := returns_of_mergeSort trans total hsub
  exact anti a (hxs.subset List.mem_cons_self) b
    (hxs.subset (List.mem_cons_of_mem a List.mem_cons_self)) hab hba

/-- **A sorted set depends on the elements only**, if the order tells them apart. -/
theorem sortedSet_congr [DecidableEq α] {xs ys : List α}
    (anti : ∀ a ∈ xs, ∀ b ∈ xs, le a b = true → le b a = true → a = b)
    (h : ∀ a, a ∈ xs ↔ a ∈ ys) : sortedSet le xs = sortedSet le ys := by
  have hxs := nodup_sortedSet trans total anti
  have hys : (sortedSet le ys).Nodup :=
    nodup_sortedSet trans total fun a ha b hb => anti a ((h a).2 ha) b ((h b).2 hb)
  refine List.Perm.eq_of_pairwise (fun a b ha hb => ?_)
    (pairwise_sortedSet trans total xs) (pairwise_sortedSet trans total ys)
    ((List.perm_ext_iff_of_nodup hxs hys).2 fun a => by simp [h])
  exact anti a (mem_sortedSet.1 ha) b ((h b).2 (mem_sortedSet.1 hb))

end

theorem nodup_sortedTexts (xs : List String) : (sortedTexts xs).Nodup :=
  nodup_sortedSet textLe_trans textLe_total fun _ _ _ _ => textLe_antisymm

@[simp] theorem mem_sortedTexts {a : String} {xs : List String} :
    a ∈ sortedTexts xs ↔ a ∈ xs :=
  mem_sortedSet

/-! ## Lists of texts -/

theorem textsLe_cons_cons {a b : String} {as bs : List String} :
    textsLe (a :: as) (b :: bs) = true ↔ textLe a b = true ∧ (a = b → textsLe as bs = true) := by
  unfold textsLe
  rw [List.lex]
  by_cases hab : a = b
  · have hle : textLe b b = true := by simpa using textLe_total b b
    simp [hab, hle]
  · simp [hab, Ne.symm hab]

theorem textsLe_total (a b : List String) : (textsLe a b || textsLe b a) = true := by
  induction a generalizing b with
  | nil => cases b <;> simp [textsLe]
  | cons x xs ih =>
    cases b with
    | nil => simp [textsLe]
    | cons y ys =>
      have hrest := ih ys
      have htexts := textLe_total x y
      rw [Bool.or_eq_true] at *
      rw [textsLe_cons_cons, textsLe_cons_cons]
      grind [textLe_antisymm]

theorem textsLe_trans (a b c : List String) (hab : textsLe a b = true) (hbc : textsLe b c = true) :
    textsLe a c = true := by
  induction a generalizing b c with
  | nil => cases c <;> simp [textsLe]
  | cons x xs ih =>
    cases b with
    | nil => simp [textsLe] at hab
    | cons y ys =>
      cases c with
      | nil => simp [textsLe] at hbc
      | cons z zs =>
        rw [textsLe_cons_cons] at hab hbc ⊢
        have htexts := textLe_trans x y z hab.1 hbc.1
        refine ⟨htexts, fun hxz => ?_⟩
        have hxy : x = y := textLe_antisymm hab.1 (hxz ▸ hbc.1)
        exact ih ys zs (hab.2 hxy) (hbc.2 (hxy.symm.trans hxz))

theorem textsLe_antisymm (a b : List String) (hab : textsLe a b = true)
    (hba : textsLe b a = true) : a = b := by
  induction a generalizing b with
  | nil =>
    cases b with
    | nil => rfl
    | cons y ys => simp [textsLe] at hba
  | cons x xs ih =>
    cases b with
    | nil => simp [textsLe] at hab
    | cons y ys =>
      rw [textsLe_cons_cons] at hab hba
      obtain rfl := textLe_antisymm hab.1 hba.1
      rw [ih ys (hab.2 rfl) (hba.2 rfl)]

/-! ## The total order of labels -/

namespace Label

theorem repoLe_total (a b : Option String) : (repoLe a b || repoLe b a) = true := by
  cases a <;> cases b <;> simp [repoLe]
  simpa using textLe_total _ _

theorem repoLe_trans {a b c : Option String} (hab : repoLe a b = true)
    (hbc : repoLe b c = true) : repoLe a c = true := by
  cases a <;> cases b <;> cases c <;> simp_all [repoLe]
  exact textLe_trans _ _ _ hab hbc

theorem repoLe_antisymm {a b : Option String} (hab : repoLe a b = true)
    (hba : repoLe b a = true) : a = b := by
  cases a <;> cases b <;> simp_all [repoLe]
  exact textLe_antisymm hab hba

/-- The order compares repositories, then packages, then names. -/
theorem le_iff {a b : Label} : a.le b = true ↔
    (a.repo ≠ b.repo ∧ repoLe a.repo b.repo = true) ∨
    (a.repo = b.repo ∧ a.package ≠ b.package ∧ textLe a.package b.package = true) ∨
    (a.repo = b.repo ∧ a.package = b.package ∧ textLe a.name b.name = true) := by
  unfold le
  by_cases hr : a.repo = b.repo <;> by_cases hp : a.package = b.package <;> simp [hr, hp]

theorem le_total (a b : Label) : (a.le b || b.le a) = true := by
  rw [Bool.or_eq_true, le_iff, le_iff]
  have hr := repoLe_total a.repo b.repo
  have hp := textLe_total a.package b.package
  have hn := textLe_total a.name b.name
  rw [Bool.or_eq_true] at hr hp hn
  grind

theorem le_trans (a b c : Label) (hab : a.le b = true) (hbc : b.le c = true) :
    a.le c = true := by
  rw [le_iff] at hab hbc ⊢
  have hr := @repoLe_trans a.repo b.repo c.repo
  have hra := @repoLe_antisymm a.repo b.repo
  have hp := textLe_trans a.package b.package c.package
  have hpa := @textLe_antisymm a.package b.package
  have hn := textLe_trans a.name b.name c.name
  grind

theorem le_antisymm (a b : Label) (hab : a.le b = true) (hba : b.le a = true) : a = b := by
  rw [le_iff] at hab hba
  have hr := @repoLe_antisymm a.repo b.repo
  have hp := @textLe_antisymm a.package b.package
  have hn := @textLe_antisymm a.name b.name
  cases a
  cases b
  grind

theorem sortedSet_singleton (label : Label) : sortedSet [label] = [label] := by
  simp [sortedSet, BuildSync.sortedSet, dropRepeats]

theorem nodup_sortedSet (labels : List Label) : (sortedSet labels).Nodup :=
  BuildSync.nodup_sortedSet le_trans le_total fun a _ b _ => le_antisymm a b

theorem sortedSet_congr {labels others : List Label} (h : ∀ l, l ∈ labels ↔ l ∈ others) :
    sortedSet labels = sortedSet others :=
  BuildSync.sortedSet_congr le_trans le_total (fun a _ b _ => le_antisymm a b) h

@[simp] theorem mem_sortedSet {l : Label} {labels : List Label} :
    l ∈ sortedSet labels ↔ l ∈ labels :=
  BuildSync.mem_sortedSet

/-! ## The order of a dependency list -/

theorem writtenLe_iff {package : String} {a b : Label} : writtenLe package a b = true ↔
    a.group package < b.group package ∨
    (a.group package = b.group package ∧
      textLe (a.renderIn package) (b.renderIn package) = true) := by
  simp [writtenLe]

theorem writtenLe_total (package : String) (a b : Label) :
    (writtenLe package a b || writtenLe package b a) = true := by
  rw [Bool.or_eq_true, writtenLe_iff, writtenLe_iff]
  have ht := textLe_total (a.renderIn package) (b.renderIn package)
  rw [Bool.or_eq_true] at ht
  rcases Nat.lt_trichotomy (a.group package) (b.group package) with h | h | h
  · exact .inl (.inl h)
  · exact ht.imp (fun ht => .inr ⟨h, ht⟩) fun ht => .inr ⟨h.symm, ht⟩
  · exact .inr (.inl h)

theorem writtenLe_trans (package : String) (a b c : Label) (hab : writtenLe package a b = true)
    (hbc : writtenLe package b c = true) : writtenLe package a c = true := by
  rw [writtenLe_iff] at hab hbc ⊢
  rcases hab with hab | ⟨hab, tab⟩ <;> rcases hbc with hbc | ⟨hbc, tbc⟩
  · exact .inl (by omega)
  · exact .inl (by omega)
  · exact .inl (by omega)
  · exact .inr ⟨hab.trans hbc, textLe_trans _ _ _ tab tbc⟩

/-- The written forms tell the labels of one package apart. -/
theorem renderIn_inj {package : String} {a b : Label} (hrepo : a.repo = b.repo)
    (hpackage : a.package = b.package) (h : a.renderIn package = b.renderIn package) : a = b := by
  have hin : a.isIn package = b.isIn package := by simp [isIn, hrepo, hpackage]
  have hroot : a.root = b.root := by simp [root, hrepo]
  suffices hname : a.name = b.name by
    cases a
    cases b
    simp_all
  have hlast (label : Label) (hl : label.isShort = true) :
      Text.lastSegment label.package.toList = label.name.toList :=
    eq_of_beq (Bool.and_eq_true_iff.1 hl).2
  unfold renderIn at h
  rw [hin] at h
  split at h
  · simpa using h
  · split at h <;> split at h
    · rename_i ha hb
      rw [← String.toList_inj, ← hlast a ha, ← hlast b hb, hpackage]
    · have hlength := congrArg String.length h
      simp only [canonical, hroot, hpackage, String.length_append] at hlength
      have hcolon : ":".length = 1 := rfl
      omega
    · have hlength := congrArg String.length h
      simp only [canonical, hroot, hpackage, String.length_append] at hlength
      have hcolon : ":".length = 1 := rfl
      omega
    · simpa [canonical, hroot, hpackage] using h

/-- Labels that stand side by side in the order of a list are written alike. -/
theorem renderIn_eq_of_writtenLe {package : String} {a b : Label}
    (hab : writtenLe package a b = true) (hba : writtenLe package b a = true) :
    a.renderIn package = b.renderIn package := by
  rw [writtenLe_iff] at hab hba
  have hgroup : a.group package = b.group package := by omega
  have hle := hab.resolve_left (by omega)
  have hge := hba.resolve_left (by omega)
  exact textLe_antisymm hle.2 hge.2

/-- Labels of one package that stand side by side in the order of a list are one label. -/
theorem writtenLe_antisymm {package : String} {a b : Label} (hrepo : a.repo = b.repo)
    (hpackage : a.package = b.package) (hab : writtenLe package a b = true)
    (hba : writtenLe package b a = true) : a = b :=
  renderIn_inj hrepo hpackage (renderIn_eq_of_writtenLe hab hba)

theorem sortFor_perm (package : String) (labels : List Label) :
    (sortFor package labels).Perm labels :=
  List.mergeSort_perm _ _

theorem pairwise_sortFor (package : String) (labels : List Label) :
    (sortFor package labels).Pairwise fun a b => writtenLe package a b = true :=
  List.pairwise_mergeSort (writtenLe_trans package) (writtenLe_total package) labels

end Label

end BuildSync
