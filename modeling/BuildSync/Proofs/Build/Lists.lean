import BuildSync.Build.Layout
import BuildSync.Proofs.Build.Nesting

/-!
# Lists in a BUILD file

What the tokens of a value say as a list of strings, and what is read of a list that was written.

* `Argument.list?`: the list of strings that a value is. `bracketed?_eq_some`: it stands in
  brackets.
* `labels?`: the labels that a list of strings stands for.
-/

namespace BuildSync.Build

/-! ## Lists of strings -/

/-- A list with its values changed. -/
def ListValue.mapValues {α β : Type} (f : α → β) (list : ListValue α) : ListValue β :=
  ⟨list.items.map fun item => RuleReader.withValue item (f item.value), list.footer⟩

theorem mapValues_id {list : ListValue String} : list.mapValues id = list := by
  obtain ⟨items, footer⟩ := list
  simp [ListValue.mapValues, RuleReader.withValue]

/-- The list of strings that a value is, without positions. -/
def Argument.list? (arg : Argument) : Option (ListValue String) :=
  arg.strings?.map (ListValue.mapValues Prod.fst)

/-- The labels that a list of strings stands for. -/
def labels? (package : String) (list : ListValue String) : Option (ListValue Label) :=
  (list.items.mapM fun item =>
    (Label.parse? item.value package).map (RuleReader.withValue item)).map fun items =>
      ⟨items, list.footer⟩

theorem sources_eq (arg : Argument) :
    RuleReader.sources arg = (arg.list?.map ListAttr.literal).getD .computed := by
  unfold RuleReader.sources Argument.list?
  cases arg.strings? <;> rfl

theorem toOption_eq_some {ε α : Type} {x : Except ε α} {a : α} :
    x.toOption = some a ↔ x = .ok a := by
  cases x <;> simp [Except.toOption]

theorem toOption_mapM {ε α β : Type} (f : α → Except ε β) (xs : List α) :
    (xs.mapM f).toOption = xs.mapM fun x => (f x).toOption := by
  induction xs with
  | nil => rfl
  | cons x xs ih =>
    rw [List.mapM_cons, List.mapM_cons, ← ih]
    cases f x with
    | error e => rfl
    | ok y => cases xs.mapM f <;> rfl

/-- A list that is read item by item has the labels that its strings stand for. -/
theorem literal_eq_ok {package : String} {list : ListValue (String × Nat)} {deps : ListAttr Label}
    {read : ListItem (String × Nat) → Except Fault (ListItem Label)}
    (h : ∀ item, (read item).toOption =
      (Label.parse? item.value.1 package).map (RuleReader.withValue item)) :
    (list.items.mapM read >>= fun items => pure (.literal ⟨items, list.footer⟩)) = .ok deps ↔
      ∃ labels, labels? package (list.mapValues Prod.fst) = some labels ∧
        deps = .literal labels := by
  have hlabels : labels? package (list.mapValues Prod.fst) =
      (list.items.mapM read).toOption.map fun items => ⟨items, list.footer⟩ := by
    unfold labels? ListValue.mapValues
    rw [List.mapM_map, toOption_mapM]
    congr 2
    funext item
    exact (h item).symm
  rw [hlabels, bind_eq_ok]
  constructor
  · rintro ⟨items, hitems, hdeps⟩
    cases hdeps
    exact ⟨_, by rw [hitems]; rfl, rfl⟩
  · rintro ⟨labels, hfound, rfl⟩
    obtain ⟨items, hitems, rfl⟩ := Option.map_eq_some_iff.1 hfound
    exact ⟨items, toOption_eq_some.1 hitems, rfl⟩

/-- The dependencies of a value that is no list are computed; those of a list are its labels. -/
theorem dependencies_eq_ok {package : String} {arg : Argument} {deps : ListAttr Label} :
    RuleReader.dependencies package arg = .ok deps ↔
      arg.list? = none ∧ deps = .computed ∨
        ∃ list labels, arg.list? = some list ∧ labels? package list = some labels ∧
          deps = .literal labels := by
  unfold RuleReader.dependencies Argument.list?
  cases arg.strings? with
  | none => simp [eq_comm]
  | some list =>
    refine (@literal_eq_ok package list deps _ fun item => ?_).trans ?_
    · cases Label.parse? item.value.1 package <;> rfl
    · simp

/-- The reader of a list, without positions. -/
def ListReader.bare (r : ListReader) : ListReader :=
  { r with items := r.items.map fun item => RuleReader.withValue item (item.value.1, 0) }

theorem token?_bare (r : ListReader) (t : Token) :
    r.bare.token? t.bare = (r.token? t).map ListReader.bare := by
  unfold ListReader.token?
  rw [kind_bare]
  split
  · rfl
  · rfl
  · rfl
  · simp only [Option.map_some, Option.some.injEq, text_bare]
    unfold ListReader.comment
    cases hr : r.items with
    | nil => simp [ListReader.bare, hr]
    | cons item items =>
      simp only [ListReader.bare, hr, List.map_cons]
      split
      · rename_i h
        simp [RuleReader.withValue] at h
        simp [h]
      · rename_i h
        simp [RuleReader.withValue] at h
        simp [h, RuleReader.withValue]
  · rfl

theorem foldlM_token?_bare (r : ListReader) (ts : List Token) :
    (ts.map Token.bare).foldlM ListReader.token? r.bare =
      (ts.foldlM ListReader.token? r).map ListReader.bare := by
  induction ts generalizing r with
  | nil => rfl
  | cons t ts ih =>
    rw [List.map_cons, List.foldlM_cons, List.foldlM_cons, token?_bare]
    cases r.token? t with
    | none => rfl
    | some r' => exact ih r'

/-- The list that tokens make, without positions. -/
def listOf? (ts : List Token) : Option (ListValue String) :=
  (ListReader.ofTokens? ts).map (ListValue.mapValues Prod.fst)

theorem listOf?_bare (ts : List Token) : listOf? (ts.map Token.bare) = listOf? ts := by
  have hstart : (⟨[], [], true⟩ : ListReader) = (⟨[], [], true⟩ : ListReader).bare := rfl
  unfold listOf? ListReader.ofTokens?
  rw [hstart, foldlM_token?_bare, ← hstart]
  cases ts.foldlM ListReader.token? ⟨[], [], true⟩ with
  | none => rfl
  | some r =>
    simp [ListReader.bare, ListValue.mapValues, RuleReader.withValue, Function.comp_def]

theorem bracketed?_bare (arg : Argument) :
    arg.bare.bracketed? = arg.bracketed?.map (List.map Token.bare) := by
  unfold Argument.bracketed? Argument.bare
  dsimp only
  rw [dropWhile_bare]
  cases arg.value.dropWhile Token.isTrivia with
  | nil => rfl
  | cons first rest =>
    simp only [List.map_cons]
    rw [← List.map_reverse, dropWhile_bare]
    cases rest.reverse.dropWhile Token.isTrivia with
    | nil => rfl
    | cons last inside =>
      by_cases h : first.kind = .opening .square ∧ last.kind = .closing .square <;> simp [h]

theorem list?_eq (arg : Argument) : arg.list? = arg.bracketed?.bind listOf? := by
  unfold Argument.list? Argument.strings? listOf?
  cases arg.bracketed? <;> rfl

theorem list?_bare (arg : Argument) : arg.bare.list? = arg.list? := by
  rw [list?_eq, list?_eq, bracketed?_bare]
  cases arg.bracketed? with
  | none => rfl
  | some inside => exact listOf?_bare inside

/-- **A value in brackets**: newlines and comments may stand around them. -/
theorem bracketed?_eq_some {arg : Argument} {body : List Token} :
    arg.bracketed? = some body ↔ ∃ lead first last trail,
      arg.value = lead ++ first :: (body ++ last :: trail) ∧
      (∀ t ∈ lead, t.isTrivia = true) ∧ (∀ t ∈ trail, t.isTrivia = true) ∧
      first.kind = .opening .square ∧ last.kind = .closing .square := by
  have hopening : ∀ {t : Token}, t.kind = .opening .square → t.isTrivia = false := by
    intro t ht
    simp [Token.isTrivia, ht]
  have hclosing : ∀ {t : Token}, t.kind = .closing .square → t.isTrivia = false := by
    intro t ht
    simp [Token.isTrivia, ht]
  constructor
  · intro h
    unfold Argument.bracketed? at h
    split at h
    · cases h
    · rename_i first rest hfirst
      split at h
      · cases h
      · rename_i last inside hlast
        split at h
        · rename_i hk
          cases h
          have hvalue := List.takeWhile_append_dropWhile (p := Token.isTrivia) (l := arg.value)
          have hrest := List.takeWhile_append_dropWhile (p := Token.isTrivia) (l := rest.reverse)
          rw [hfirst] at hvalue
          rw [hlast] at hrest
          have hrest' := congrArg List.reverse hrest
          rw [List.reverse_reverse, List.reverse_append, List.reverse_cons,
            List.append_assoc] at hrest'
          refine ⟨arg.value.takeWhile Token.isTrivia, first, last,
            (rest.reverse.takeWhile Token.isTrivia).reverse, ?_, fun t ht => ?_, fun t ht => ?_,
            hk⟩
          · exact hvalue.symm.trans
              (congrArg (arg.value.takeWhile Token.isTrivia ++ first :: ·) hrest'.symm)
          · exact List.mem_takeWhile_imp ht
          · exact List.mem_takeWhile_imp (List.mem_reverse.1 ht)
        · cases h
  · rintro ⟨lead, first, last, trail, hvalue, hlead, htrail, hfirst, hlast⟩
    have hdrop : arg.value.dropWhile Token.isTrivia = first :: (body ++ last :: trail) := by
      rw [hvalue, List.dropWhile_append_of_pos hlead,
        List.dropWhile_cons_of_neg (by simp [hopening hfirst])]
    have hback : (body ++ last :: trail).reverse.dropWhile Token.isTrivia =
        last :: body.reverse := by
      rw [List.reverse_append, List.reverse_cons, List.append_assoc, List.dropWhile_append_of_pos
        fun t ht => htrail t (List.mem_reverse.1 ht), List.singleton_append,
        List.dropWhile_cons_of_neg (by simp [hclosing hlast])]
    unfold Argument.bracketed?
    rw [hdrop]
    dsimp only
    rw [hback]
    simp [hfirst, hlast]

theorem span?_of_value {arg : Argument} {lead body trail : List Token} {first last : Token}
    (h : arg.value = lead ++ first :: (body ++ last :: trail))
    (hlead : ∀ t ∈ lead, t.isTrivia = true) (htrail : ∀ t ∈ trail, t.isTrivia = true)
    (hfirst : first.kind = .opening .square) (hlast : last.kind = .closing .square) :
    arg.span? = some ⟨first.start, last.stop⟩ := by
  have hf : first.isTrivia = false := by simp [Token.isTrivia, hfirst]
  have hl : last.isTrivia = false := by simp [Token.isTrivia, hlast]
  have hlead' : lead.filter (fun t => !t.isTrivia) = [] :=
    List.filter_eq_nil_iff.2 fun t ht => by simp [hlead t ht]
  have htrail' : trail.filter (fun t => !t.isTrivia) = [] :=
    List.filter_eq_nil_iff.2 fun t ht => by simp [htrail t ht]
  have hs : arg.significant = first :: (body.filter (fun t => !t.isTrivia) ++ [last]) := by
    unfold Argument.significant
    rw [h]
    simp [List.filter_append, hlead', htrail', hf, hl]
  unfold Argument.span?
  rw [hs, ← List.cons_append, List.getLast?_append]
  rfl

/-- What a list holds between its brackets. -/
theorem kinds_of_listOf? {ts : List Token} {list : ListValue String}
    (h : listOf? ts = some list) : ∀ t ∈ ts, t.isFlat = true := by
  have hfold : ∀ {r r' : ListReader}, ts.foldlM ListReader.token? r = some r' →
      ∀ t ∈ ts, t.isFlat = true := by
    clear h
    induction ts with
    | nil => simp
    | cons t ts ih =>
      intro r r' h u hu
      rw [List.foldlM_cons] at h
      obtain ⟨r₁, hr, h⟩ := Option.bind_eq_some_iff.1 h
      rcases List.mem_cons.1 hu with rfl | hu
      · unfold ListReader.token? at hr
        unfold Token.isFlat
        split at hr <;> simp_all
      · exact ih h u hu
  unfold listOf? ListReader.ofTokens? at h
  obtain ⟨list', hlist, -⟩ := Option.map_eq_some_iff.1 h
  obtain ⟨r, hr, -⟩ := Option.map_eq_some_iff.1 hlist
  exact hfold hr

end BuildSync.Build
