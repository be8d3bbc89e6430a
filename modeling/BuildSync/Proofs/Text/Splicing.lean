import Mathlib.Algebra.GroupWithZero.Nat
import Mathlib.Data.List.Pairwise
import BuildSync.Proofs.Order
import BuildSync.Text.Edit

/-!
# Splicing

* `splice?_cons_eq_some`: the first edit of a text. `splice?_append`, `splice?_cut`: a text is
  spliced part by part.
* `Fits`: the edits that can be made in one pass are those that ascend, are disjoint and lie between
  characters (`Fits.of_splice?`, `Fits.exists_splice?`).
* `splice?_kept`: what no edit touches is carried over.
* `mergeSort_eq_of_starts`: edits with distinct starts are put in order, however they are listed.
* `Splices`: a part of a text, its edits in order, and what it becomes; parts add up
  (`Splices.append`), and a text is put between two of them (`Splices.put`).
-/

namespace BuildSync.Text

/-! ## Parts -/

/-- Two cuts of a text: the wider front goes on with what is between them. -/
theorem exists_between {xs ys us vs : List Char} (h : xs ++ ys = us ++ vs)
    (hw : width xs ≤ width us) : ∃ zs, us = xs ++ zs ∧ ys = zs ++ vs := by
  rcases List.append_eq_append_iff.1 h with ⟨zs, hus, hys⟩ | ⟨zs, rfl, hvs⟩
  · exact ⟨zs, hus, hys⟩
  · have hz : zs = [] := by
      refine Classical.byContradiction fun hz => ?_
      have hpos := width_pos hz
      rw [width_append] at hw
      omega
    subst hz
    exact ⟨[], by simp, by simpa using hvs.symm⟩

/-- **The first edit** of a text: what stands before it, what it replaces and what follows. -/
theorem splice?_cons_eq_some {pos : Nat} {cs out : List Char} {e : Edit} {es : List Edit} :
    splice? pos cs (e :: es) = some out ↔
      ∃ front old back back', cs = front ++ (old ++ back) ∧ e.start = pos + width front ∧
        e.stop = e.start + width old ∧ splice? e.stop back es = some back' ∧
        out = front ++ (e.text ++ back') := by
  rw [splice?]
  constructor
  · intro h
    split at h
    · cases h
    · rename_i hpos
      simp only [Bool.or_eq_true, decide_eq_true_eq, not_or, Nat.not_lt] at hpos
      split at h
      · cases h
      · rename_i front rest hfront
        obtain ⟨rfl, hw⟩ := splitAt?_eq_some hfront
        split at h
        · cases h
        · rename_i old back hold
          obtain ⟨rfl, hwold⟩ := splitAt?_eq_some hold
          obtain ⟨back', hback, rfl⟩ := Option.map_eq_some_iff.1 h
          exact ⟨front, old, back, back', rfl, by omega, by omega, hback, by simp⟩
  · rintro ⟨front, old, back, back', rfl, hstart, hstop, hback, rfl⟩
    have hfront : splitAt? (e.start - pos) (front ++ (old ++ back)) = some (front, old ++ back) :=
      splitAt?_eq_some_iff.2 ⟨rfl, by omega⟩
    have hold : splitAt? (e.stop - e.start) (old ++ back) = some (old, back) :=
      splitAt?_eq_some_iff.2 ⟨rfl, by omega⟩
    rw [if_neg (by simp; omega), hfront]
    dsimp only
    rw [hold]
    dsimp only
    rw [hback]
    simp

theorem splice?_front {pos : Nat} {xs ys ys' : List Char} {es : List Edit}
    (h : splice? (pos + width xs) ys es = some ys') :
    splice? pos (xs ++ ys) es = some (xs ++ ys') := by
  cases es with
  | nil =>
    cases h
    rfl
  | cons e es =>
    obtain ⟨front, old, back, back', rfl, hstart, hstop, hback, rfl⟩ := splice?_cons_eq_some.1 h
    refine splice?_cons_eq_some.2
      ⟨xs ++ front, old, back, back', by simp, ?_, hstop, hback, by simp⟩
    rw [width_append]
    omega

/-- **A text is spliced part by part.** -/
theorem splice?_append {pos : Nat} {xs ys xs' ys' : List Char} {es fs : List Edit}
    (hx : splice? pos xs es = some xs') (hy : splice? (pos + width xs) ys fs = some ys') :
    splice? pos (xs ++ ys) (es ++ fs) = some (xs' ++ ys') := by
  induction es generalizing pos xs xs' with
  | nil =>
    cases hx
    exact splice?_front hy
  | cons e es ih =>
    obtain ⟨front, old, back, back', rfl, hstart, hstop, hback, rfl⟩ := splice?_cons_eq_some.1 hx
    have hend : pos + width (front ++ (old ++ back)) = e.stop + width back := by
      simp only [width_append]
      omega
    rw [hend] at hy
    exact splice?_cons_eq_some.2
      ⟨front, old, back ++ ys, back' ++ ys', by simp, hstart, hstop, ih hback hy, by simp⟩

/-- **A spliced text is cut** where no edit goes across. -/
theorem splice?_cut {pos : Nat} {xs ys out : List Char} {es fs : List Edit}
    (h : splice? pos (xs ++ ys) (es ++ fs) = some out)
    (he : ∀ e ∈ es, e.stop ≤ pos + width xs) (hf : ∀ f ∈ fs, pos + width xs ≤ f.start) :
    ∃ xs' ys', splice? pos xs es = some xs' ∧ splice? (pos + width xs) ys fs = some ys' ∧
      out = xs' ++ ys' := by
  induction es generalizing pos xs out with
  | nil =>
    cases fs with
    | nil =>
      cases h
      exact ⟨xs, ys, rfl, rfl, rfl⟩
    | cons f fs =>
      obtain ⟨front, old, back, back', hcs, hstart, hstop, hback, rfl⟩ := splice?_cons_eq_some.1 h
      have hle := hf f List.mem_cons_self
      obtain ⟨zs, rfl, rfl⟩ := exists_between hcs (by omega)
      rw [width_append] at hstart
      refine ⟨xs, zs ++ (f.text ++ back'), rfl, ?_, by simp⟩
      exact splice?_cons_eq_some.2 ⟨zs, old, back, back', rfl, by omega, hstop, hback, rfl⟩
  | cons e es ih =>
    obtain ⟨front, old, back, back', hcs, hstart, hstop, hback, rfl⟩ := splice?_cons_eq_some.1 h
    rw [List.forall_mem_cons] at he
    rw [← List.append_assoc] at hcs
    obtain ⟨zs, rfl, rfl⟩ := exists_between hcs.symm (by rw [width_append]; omega)
    have hend : e.stop + width zs = pos + width (front ++ old ++ zs) := by
      simp only [width_append]
      omega
    obtain ⟨zs', ys', hzs, hys, rfl⟩ :=
      ih hback (fun e' h' => hend ▸ he.2 e' h') (fun f h' => hend ▸ hf f h')
    refine ⟨front ++ (e.text ++ zs'), ys', ?_, hend ▸ hys, by simp⟩
    exact splice?_cons_eq_some.2 ⟨front, old, zs, zs', by simp, hstart, hstop, hzs, rfl⟩

/-- **The width of a spliced text**: edits put in and take away bytes. -/
theorem width_of_splice? {pos : Nat} {cs out : List Char} {es : List Edit}
    (h : splice? pos cs es = some out) :
    width out + (es.map fun e => e.stop - e.start).sum =
      width cs + (es.map fun e => width e.text).sum := by
  induction es generalizing pos cs out with
  | nil =>
    cases h
    rfl
  | cons e es ih =>
    obtain ⟨front, old, back, back', rfl, hstart, hstop, hback, rfl⟩ := splice?_cons_eq_some.1 h
    have := ih hback
    simp only [List.map_cons, List.sum_cons, width_append]
    omega

/-! ## Edits that can be made -/

/-- The byte `n` is where a character ends, in a text that starts at the byte `pos`. -/
def IsBoundary (pos : Nat) (cs : List Char) (n : Nat) : Prop :=
  ∃ xs ys, cs = xs ++ ys ∧ n = pos + width xs

/-- Edits that ascend, are disjoint and lie between the characters of a text. -/
structure Fits (pos : Nat) (cs : List Char) (es : List Edit) : Prop where
  ascend : es.Pairwise fun a b => a.stop ≤ b.start
  ordered : ∀ e ∈ es, e.start ≤ e.stop
  boundaries : ∀ e ∈ es, IsBoundary pos cs e.start ∧ IsBoundary pos cs e.stop

theorem IsBoundary.behind {pos n : Nat} {xs ys : List Char}
    (h : IsBoundary (pos + width xs) ys n) : IsBoundary pos (xs ++ ys) n := by
  obtain ⟨us, vs, rfl, hn⟩ := h
  refine ⟨xs ++ us, vs, by simp, ?_⟩
  rw [width_append]
  omega

theorem IsBoundary.of_le {pos n : Nat} {xs ys : List Char} (h : IsBoundary pos (xs ++ ys) n)
    (hle : pos + width xs ≤ n) : IsBoundary (pos + width xs) ys n := by
  obtain ⟨us, vs, hcs, hn⟩ := h
  obtain ⟨zs, rfl, rfl⟩ := exists_between hcs (by omega)
  refine ⟨zs, vs, rfl, ?_⟩
  rw [width_append] at hn
  omega

theorem Fits.of_splice? {pos : Nat} {cs out : List Char} {es : List Edit}
    (h : splice? pos cs es = some out) : Fits pos cs es ∧ ∀ e ∈ es, pos ≤ e.start := by
  induction es generalizing pos cs out with
  | nil => exact ⟨⟨.nil, by simp, by simp⟩, by simp⟩
  | cons e es ih =>
    obtain ⟨front, old, back, back', rfl, hstart, hstop, hback, -⟩ := splice?_cons_eq_some.1 h
    obtain ⟨hfits, hpos⟩ := ih hback
    have hend : e.stop = pos + width (front ++ old) := by
      rw [width_append]
      omega
    refine ⟨⟨.cons hpos hfits.ascend, ?_, ?_⟩, ?_⟩
    · rw [List.forall_mem_cons]
      exact ⟨by omega, hfits.ordered⟩
    · rw [List.forall_mem_cons, ← List.append_assoc]
      refine ⟨⟨⟨front, old ++ back, by simp, hstart⟩, ⟨front ++ old, back, rfl, hend⟩⟩,
        fun f hf => ?_⟩
      have hbehind := hfits.boundaries f hf
      rw [hend] at hbehind
      exact ⟨hbehind.1.behind, hbehind.2.behind⟩
    · rw [List.forall_mem_cons]
      refine ⟨by omega, fun f hf => ?_⟩
      have := hpos f hf
      omega

theorem Fits.exists_splice? {pos : Nat} {cs : List Char} {es : List Edit} (h : Fits pos cs es) :
    ∃ out, splice? pos cs es = some out := by
  induction es generalizing pos cs with
  | nil => exact ⟨cs, rfl⟩
  | cons e es ih =>
    obtain ⟨hascend, hordered, hboundaries⟩ := h
    rw [List.pairwise_cons] at hascend
    rw [List.forall_mem_cons] at hordered hboundaries
    obtain ⟨⟨front, rest, rfl, hstart⟩, hstop⟩ := hboundaries.1
    obtain ⟨old, back, rfl, hwidth⟩ := hstop.of_le (by omega)
    have hend : e.stop = pos + width (front ++ old) := by
      rw [width_append]
      omega
    have hback : Fits e.stop back es := by
      refine ⟨hascend.2, hordered.2, fun f hf => ?_⟩
      have hf' := hboundaries.2 f hf
      have hle := hascend.1 f hf
      have hle' := hordered.2 f hf
      rw [← List.append_assoc] at hf'
      rw [hend] at hle ⊢
      exact ⟨hf'.1.of_le hle, hf'.2.of_le (by omega)⟩
    obtain ⟨back', hback'⟩ := ih hback
    exact ⟨_, splice?_cons_eq_some.2 ⟨front, old, back, back', rfl, hstart, by omega, hback', rfl⟩⟩

/-- Edits on two sides of a part of a text: those before it, and those behind it. -/
theorem Fits.exists_sides {pos m n : Nat} {cs : List Char} {es : List Edit} (h : Fits pos cs es)
    (ha : ∀ e ∈ es, e.stop ≤ m ∨ n ≤ e.start) :
    ∃ es₁ es₂, es = es₁ ++ es₂ ∧ (∀ e ∈ es₁, e.stop ≤ m) ∧ ∀ e ∈ es₂, n ≤ e.start := by
  induction es with
  | nil => exact ⟨[], [], rfl, by simp, by simp⟩
  | cons e es ih =>
    obtain ⟨hascend, hordered, hboundaries⟩ := h
    rw [List.pairwise_cons] at hascend
    rw [List.forall_mem_cons] at hordered hboundaries ha
    obtain ⟨es₁, es₂, rfl, h₁, h₂⟩ := ih ⟨hascend.2, hordered.2, hboundaries.2⟩ ha.2
    rcases ha.1 with hstop | hstart
    · refine ⟨e :: es₁, es₂, rfl, ?_, h₂⟩
      rw [List.forall_mem_cons]
      exact ⟨hstop, h₁⟩
    · refine ⟨[], e :: (es₁ ++ es₂), rfl, by simp, ?_⟩
      rw [List.forall_mem_cons]
      refine ⟨hstart, fun f hf => ?_⟩
      have := hascend.1 f hf
      omega

/-- **What no edit touches is carried over.** -/
theorem splice?_kept {pos : Nat} {xs ys zs out : List Char} {es : List Edit}
    (h : splice? pos (xs ++ (ys ++ zs)) es = some out)
    (ha : ∀ e ∈ es, e.stop ≤ pos + width xs ∨ pos + width (xs ++ ys) ≤ e.start) :
    ∃ xs' zs', out = xs' ++ (ys ++ zs') := by
  obtain ⟨es₁, es₂, rfl, h₁, h₂⟩ := (Fits.of_splice? h).1.exists_sides ha
  rw [width_append] at h₂
  obtain ⟨xs', rest, -, hrest, rfl⟩ := splice?_cut h h₁ fun f hf => by
    have := h₂ f hf
    omega
  obtain ⟨ys', zs', hys, -, rfl⟩ := @splice?_cut _ ys zs _ [] es₂ hrest (by simp) fun f hf => by
    have := h₂ f hf
    omega
  cases hys
  exact ⟨xs', zs', rfl⟩

/-! ## The order of edits -/

/-- Edits with distinct starts are told apart by them. -/
theorem eq_of_start_eq {es : List Edit} (h : es.Pairwise fun a b => a.start < b.start)
    {a b : Edit} (ha : a ∈ es) (hb : b ∈ es) (hab : a.start = b.start) : a = b := by
  refine Classical.byContradiction fun hne => ?_
  have hlt := or_of_pairwise h ha hb hne
  omega

/-- **Edits are put in order**, however they are listed. -/
theorem mergeSort_eq_of_starts {es fs : List Edit} (h : es.Pairwise fun a b => a.start < b.start)
    (hp : fs.Perm es) : fs.mergeSort Edit.le = es := by
  refine mergeSort_eq_of_perm (fun a b c hab hbc => ?_) (fun a b => ?_)
    (h.imp fun hab => decide_eq_true (Nat.le_of_lt hab))
    (fun a ha b hb hab hba => eq_of_start_eq h ha hb ?_) hp
  all_goals
    simp only [Edit.le, Bool.or_eq_true, decide_eq_true_eq] at *
    omega

/-- **One more text is put** into an edited one, at a byte that lies in no edit. -/
theorem exists_splice?_insert {cs out : List Char} {es : List Edit} {n : Nat} (text : List Char)
    (h : splice? 0 cs es = some out) (hn : IsBoundary 0 cs n)
    (hs : es.Pairwise fun a b => a.start < b.start)
    (ha : ∀ e ∈ es, e.start < n ∧ e.stop ≤ n ∨ n < e.start) :
    ∃ fs out', fs.Perm (⟨n, n, text⟩ :: es) ∧ fs.Pairwise (fun a b => a.start < b.start) ∧
      splice? 0 cs fs = some out' := by
  obtain ⟨es₁, es₂, rfl, h₁, h₂⟩ := (Fits.of_splice? h).1.exists_sides
    (m := n) (n := n) fun e he => (ha e he).imp And.right Nat.le_of_lt
  obtain ⟨xs, ys, rfl, hwidth⟩ := hn
  obtain ⟨xs', ys', hxs, hys, -⟩ :=
    splice?_cut h (fun e he => hwidth ▸ h₁ e he) (fun e he => hwidth ▸ h₂ e he)
  have hput : splice? (0 + width xs) ys (⟨n, n, text⟩ :: es₂) = some (text ++ ys') := by
    refine splice?_cons_eq_some.2 ⟨[], [], ys, ys', rfl, by simp [hwidth], by simp, ?_, rfl⟩
    rw [hwidth]
    exact hys
  refine ⟨es₁ ++ ⟨n, n, text⟩ :: es₂, _, List.perm_middle, ?_, splice?_append hxs hput⟩
  rw [List.pairwise_append] at hs ⊢
  refine ⟨hs.1, ?_, fun a ha' b hb => ?_⟩
  · refine List.pairwise_cons.2 ⟨fun b hb => ?_, hs.2.1⟩
    have hb₂ := h₂ b hb
    have hb₃ := ha b (by simp [hb])
    dsimp only
    omega
  · rcases List.mem_cons.1 hb with rfl | hb
    · have ha₁ := h₁ a ha'
      have ha₂ := ha a (by simp [ha'])
      have ha₃ := (Fits.of_splice? h).1.ordered a (by simp [ha'])
      dsimp only
      omega
    · exact hs.2.2 a ha' b hb

/-! ## Parts with their edits -/

/-- The part `old` of a text, which starts at the byte `pos`, becomes `new` by the edits `es`. -/
structure Splices (pos : Nat) (old : List Char) (es : List Edit) (new : List Char) : Prop where
  result : splice? pos old es = some new
  starts : ∀ e ∈ es, pos ≤ e.start ∧ e.start < pos + width old
  sorted : es.Pairwise fun a b => a.start < b.start

namespace Splices

/-- A part that stays. -/
theorem keep (pos : Nat) (old : List Char) : Splices pos old [] old :=
  ⟨rfl, by simp, .nil⟩

/-- A part that is replaced. -/
theorem swap (pos : Nat) {old : List Char} (h : old ≠ []) (new : List Char) :
    Splices pos old [⟨pos, pos + width old, new⟩] new := by
  refine ⟨?_, ?_, List.pairwise_singleton _ _⟩
  · have hold : splitAt? (width old) old = some (old, []) := by
      simpa using splitAt?_width old []
    simp [splice?, splitAt?, hold]
  · have := width_pos h
    simp
    omega

/-- A part with something in front of it. -/
theorem insert (pos : Nat) {old : List Char} (h : old ≠ []) (new : List Char) :
    Splices pos old [⟨pos, pos, new⟩] (new ++ old) := by
  refine ⟨by simp [splice?, splitAt?], ?_, List.pairwise_singleton _ _⟩
  have := width_pos h
  simp
  omega

/-- **Parts add up.** -/
theorem append {pos : Nat} {xs ys xs' ys' : List Char} {es fs : List Edit}
    (hx : Splices pos xs es xs') (hy : Splices (pos + width xs) ys fs ys') :
    Splices pos (xs ++ ys) (es ++ fs) (xs' ++ ys') := by
  refine ⟨splice?_append hx.result hy.result, fun e he => ?_, ?_⟩
  · rw [width_append]
    rcases List.mem_append.1 he with he | he
    · have := hx.starts e he
      omega
    · have := hy.starts e he
      omega
  · refine List.pairwise_append.2 ⟨hx.sorted, hy.sorted, fun a ha b hb => ?_⟩
    have := (hx.starts a ha).2
    have := (hy.starts b hb).1
    omega

/-- **A text is put between two parts**, before all edits of the second one. -/
theorem put {pos n : Nat} {xs ys xs' ys' : List Char} {es fs : List Edit}
    (hx : Splices pos xs es xs') (hn : n = pos + width xs) (hy : Splices n ys fs ys')
    (hf : ∀ f ∈ fs, n < f.start) (text : List Char) :
    (es ++ ⟨n, n, text⟩ :: fs).Pairwise (fun a b => a.start < b.start) ∧
      splice? pos (xs ++ ys) (es ++ ⟨n, n, text⟩ :: fs) = some (xs' ++ (text ++ ys')) := by
  constructor
  · refine List.pairwise_append.2 ⟨hx.sorted, List.pairwise_cons.2 ⟨hf, hy.sorted⟩, ?_⟩
    intro a ha b hb
    have hstart := (hx.starts a ha).2
    rcases List.mem_cons.1 hb with rfl | hb
    · dsimp only
      omega
    · have hstart' := (hy.starts b hb).1
      omega
  · refine splice?_append hx.result (splice?_cons_eq_some.2
      ⟨[], [], ys, ys', rfl, by simpa using hn, by simp, hy.result, rfl⟩)

end Splices

end BuildSync.Text
