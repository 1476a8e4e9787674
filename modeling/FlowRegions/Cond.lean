/-!
Contract: boolean conditions over the branches of blocks.

Owns:
- `Cond`, the conditions that control nodes test;
- `Cond.Draft`, conditions as a caller may write them down field by field,
  with operands missing and operators that have no meaning.

`Cond.draft` reads every condition as a draft, and the text and the tested
vertices are those of the draft.
-/

namespace FlowRegions

/-- A condition over branch decisions.  `test v` holds when the branch that
ends vertex `v` takes its first target. -/
inductive Cond where
  | test (vertex : Nat)
  | not (operand : Cond)
  | and (left right : Cond)
  | or (left right : Cond)
deriving DecidableEq, Repr, Inhabited

namespace Cond

/-- The opposite condition, without stacking a negation on another. -/
def negate : Cond → Cond
  | not operand => operand
  | condition => not condition

def vertices : Cond → List Nat
  | test vertex => [vertex]
  | not operand => operand.vertices
  | and left right => left.vertices ++ right.vertices
  | or left right => left.vertices ++ right.vertices

def render : Cond → String
  | test vertex => s!"c{vertex}"
  | not operand => "!" ++ operand.render
  | and left right => "(" ++ left.render ++ " && " ++ right.render ++ ")"
  | or left right => "(" ++ left.render ++ " || " ++ right.render ++ ")"

/-- The text where a condition is optional: an absent one always holds. -/
def renderOptional : Option Cond → String
  | some condition => condition.render
  | none => "true"

/-- The value of a condition when `decision v` tells whether the branch of `v`
takes its first target. -/
def eval (decision : Nat → Bool) : Cond → Bool
  | test vertex => decision vertex
  | not operand => !operand.eval decision
  | and left right => left.eval decision && right.eval decision
  | or left right => left.eval decision || right.eval decision

theorem eval_negate (decision : Nat → Bool) (condition : Cond) :
    condition.negate.eval decision = !condition.eval decision := by
  cases condition <;> simp [negate, eval]

theorem vertices_negate (condition : Cond) :
    condition.negate.vertices = condition.vertices := by
  cases condition <;> rfl

/-! ## Drafts -/

inductive Operator where
  | not
  | and
  | or
  | unnamed
deriving DecidableEq, Repr

/-- A condition written down field by field.  An operand may be missing, and a
negation may come with a second one. -/
inductive Draft where
  | missing
  | test (vertex : Int)
  | combine (operator : Operator) (left right : Draft)
deriving DecidableEq, Repr, Inhabited

namespace Draft

/-- The draft with a numbered operator: 0 tests the vertex and has no use for
operands, 1 to 3 are negation, conjunction and disjunction. -/
def ofCode (code : Nat) (vertex : Int) (left right : Draft) : Draft :=
  match code with
  | 0 => test vertex
  | 1 => combine .not left right
  | 2 => combine .and left right
  | 3 => combine .or left right
  | _ => combine .unnamed left right

/-- The vertices a draft mentions, left to right, used by its operator or
not. -/
def vertices : Draft → List Int
  | missing => []
  | test vertex => [vertex]
  | combine _ left right => left.vertices ++ right.vertices

/-- The text of a draft: a missing operand always holds, an operator without
meaning hides its operands. -/
def render : Draft → String
  | missing => "true"
  | test vertex => s!"c{vertex}"
  | combine .not left _ => "!" ++ left.render
  | combine .and left right => "(" ++ left.render ++ " && " ++ right.render ++ ")"
  | combine .or left right => "(" ++ left.render ++ " || " ++ right.render ++ ")"
  | combine .unnamed _ _ => "?"

end Draft

def draft : Cond → Draft
  | test vertex => .test vertex
  | not operand => .combine .not operand.draft .missing
  | and left right => .combine .and left.draft right.draft
  | or left right => .combine .or left.draft right.draft

theorem vertices_draft (condition : Cond) :
    condition.draft.vertices = condition.vertices.map Int.ofNat := by
  induction condition with
  | test vertex => rfl
  | not operand inductionHypothesis =>
      simp [draft, Draft.vertices, vertices, inductionHypothesis]
  | and left right leftHypothesis rightHypothesis =>
      simp [draft, Draft.vertices, vertices, leftHypothesis, rightHypothesis]
  | or left right leftHypothesis rightHypothesis =>
      simp [draft, Draft.vertices, vertices, leftHypothesis, rightHypothesis]

theorem render_draft (condition : Cond) : condition.draft.render = condition.render := by
  induction condition with
  | test vertex => rfl
  | not operand inductionHypothesis =>
      simp [draft, Draft.render, render, inductionHypothesis]
  | and left right leftHypothesis rightHypothesis =>
      simp [draft, Draft.render, render, leftHypothesis, rightHypothesis]
  | or left right leftHypothesis rightHypothesis =>
      simp [draft, Draft.render, render, leftHypothesis, rightHypothesis]

end Cond

end FlowRegions
