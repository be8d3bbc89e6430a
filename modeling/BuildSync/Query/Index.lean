import BuildSync.Query.Key

/-! # The answers of a run

* `Index.build`: asks every question of a run in one go.
* `Index.labels`, `Index.kindOf?`: what the answers say of a question, and of a rule.
-/

namespace BuildSync.Query

/-- The questions of a run with their answers. -/
structure Index where
  answers : List (Key × List KnownRule)
deriving DecidableEq, Repr

namespace Index

/-- No question was asked. -/
def empty : Index :=
  ⟨[]⟩

/-- The answers to questions, each asked once, as many as there are questions; a service that has
nothing to answer is not asked. -/
def build (service : Service) (keys : List Key) : Except Problem Index :=
  match Key.sortedSet keys with
  | [] => .ok empty
  | keys => do
    let rules ← service keys
    if rules.length ≠ keys.length then throw (.query (.miscounted keys.length rules.length))
    pure ⟨keys.zip rules⟩

/-- The labels that answer a question, in order; none for a question that was not asked. -/
def labels (index : Index) (key : Key) : List Label :=
  Label.sortedSet (((index.answers.lookup key).getD []).map KnownRule.label)

/-- The kind of a rule that some answer holds, as the last answer tells it. -/
def kindOf? (index : Index) (label : Label) : Option Build.RuleKind :=
  (index.answers.flatMap Prod.snd).reverse.findSome? fun rule =>
    if rule.label = label then rule.kind else none

end Index

end BuildSync.Query
