import FlowRegions.Proofs.Execution.Machine
import FlowRegions.Proofs.Structuring.Fidelity

/-!
Contract: where the edges of a flow lead, visit by visit.

Owns:
- `Behaviour.Follows`, what has been visited and which vertex is next when the
  edges are followed, and how it determines `Behaviour.visits`;
- that visits, decisions and tests move along the edges; in particular a
  condition that leads to two places in the flow leads there when it is tested.
-/

namespace FlowRegions.Behaviour

variable {behaviour : Behaviour} {entry v : Nat} {trace : List Nat} {next : Option Nat}
  {journey : Journey}

/-- Every decision of a vertex that has targets is the position of one. -/
def Decides (behaviour : Behaviour) : Prop :=
  ∀ v k, behaviour.targets v ≠ [] → behaviour.decide v k < (behaviour.targets v).length

/-- Following the edges from `entry` visits a trace and goes on at a vertex, if
it goes on. -/
inductive Follows (behaviour : Behaviour) (entry : Nat) : List Nat → Option Nat → Prop where
  | start : Follows behaviour entry [] (some entry)
  | visit {trace : List Nat} {v : Nat} (before : Follows behaviour entry trace (some v)) :
      Follows behaviour entry (trace ++ [v]) (behaviour.next? trace v)

/-! ## Traces -/

/-- Fewer visits are the first ones of more visits. -/
theorem take_visits (behaviour : Behaviour) {fewer more : Nat} (le : fewer ≤ more)
    (trace : List Nat) (next : Option Nat) :
    (behaviour.visits more trace next).take (trace.length + fewer) =
      behaviour.visits fewer trace next := by
  induction fewer generalizing more trace next with
  | zero =>
      induction more generalizing trace next with
      | zero => simp [visits]
      | succ more inductionHypothesis =>
          cases next with
          | none => simp [visits]
          | some v =>
              have longer := inductionHypothesis (Nat.zero_le _) (trace ++ [v])
                (behaviour.next? trace v)
              have shorter := congrArg (List.take trace.length) longer
              rw [List.take_take, List.length_append, Nat.min_eq_left (by omega)] at shorter
              simpa [visits] using shorter
  | succ fewer inductionHypothesis =>
      obtain ⟨more, rfl⟩ : ∃ less, more = less + 1 := ⟨more - 1, by omega⟩
      cases next with
      | none => simp [visits]
      | some v =>
          have rest := inductionHypothesis (Nat.le_of_succ_le_succ le) (trace ++ [v])
            (behaviour.next? trace v)
          rw [List.length_append, List.length_singleton] at rest
          rw [visits, visits, ← rest, Nat.add_assoc, Nat.add_comm 1]

namespace Follows

variable (follows : behaviour.Follows entry trace next)
include follows

theorem visits_add (n : Nat) :
    behaviour.visits (trace.length + n) [] (some entry) = behaviour.visits n trace next := by
  induction follows generalizing n with
  | start => rw [List.length_nil, Nat.zero_add]
  | @visit trace v before inductionHypothesis =>
      rw [List.length_append, List.length_singleton, Nat.add_assoc, Nat.add_comm 1,
        inductionHypothesis]
      rfl

/-- What has been visited are the first visits, and all of them when nothing is
next. -/
theorem take_eq_visits {n : Nat} (enough : n ≤ trace.length ∨ next = none) :
    trace.take n = behaviour.visits n [] (some entry) := by
  by_cases short : n ≤ trace.length
  · have all := follows.visits_add 0
    have first := take_visits behaviour short [] (some entry)
    rw [← first, List.length_nil, Nat.zero_add]
    rw [Nat.add_zero] at all
    rw [all, visits]
  · have isEnd := enough.resolve_left short
    obtain ⟨rest, rfl⟩ : ∃ rest, n = trace.length + (rest + 1) := ⟨n - trace.length - 1, by omega⟩
    rw [follows.visits_add, isEnd, visits, List.take_of_length_le (by omega)]

end Follows

/-! ## Visits -/

/-- A visit of the next vertex moves along an edge, or ends the trace. -/
theorem Follows.visit_cases (decides : behaviour.Decides)
    (follows : behaviour.Follows entry journey.trace (some v)) :
    (behaviour.Follows entry (behaviour.visit journey v).trace none ∧
        (behaviour.visit journey v).pending = none) ∨
      ∃ position w, (behaviour.visit journey v).pending = some (v, position) ∧
        (behaviour.targets v)[position]? = some w ∧
        behaviour.Follows entry (behaviour.visit journey v).trace (some w) := by
  have moved := follows.visit
  by_cases noTargets : behaviour.targets v = []
  · rw [next?, noTargets] at moved
    exact .inl ⟨moved, if_pos noTargets⟩
  · have isTarget := List.getElem?_eq_getElem (decides v (journey.trace.count v) noTargets)
    rw [next?, isTarget] at moved
    exact .inr ⟨_, _, if_neg noTargets, isTarget, moved⟩

/-- The decision of a vertex is at hand: it was visited last, or is next. -/
def Ready (behaviour : Behaviour) (entry : Nat) (journey : Journey) (v : Nat) : Prop :=
  (∃ position w, journey.pending = some (v, position) ∧
      (behaviour.targets v)[position]? = some w ∧
      behaviour.Follows entry journey.trace (some w)) ∨
    journey.pending = none ∧ behaviour.Follows entry journey.trace (some v)

theorem Ready.decision_eq (decides : behaviour.Decides) (someTarget : behaviour.targets v ≠ [])
    (ready : behaviour.Ready entry journey v) :
    ∃ position w decided, behaviour.decision journey v = (some position, decided) ∧
      decided.pending = none ∧ (behaviour.targets v)[position]? = some w ∧
      behaviour.Follows entry decided.trace (some w) := by
  rcases ready with ⟨position, w, isPending, isTarget, follows⟩ | ⟨noPending, follows⟩
  · refine ⟨position, w, { journey with pending := none }, ?_, rfl, isTarget, follows⟩
    simp [decision, isPending]
  · have visited : behaviour.decision journey v =
        ((behaviour.visit journey v).pending.map Prod.snd,
          { behaviour.visit journey v with pending := none }) := by
      simp [decision, noPending]
    rcases follows.visit_cases decides with ⟨_, none⟩ | ⟨position, w, isPending, isTarget, moved⟩
    · simp [visit, someTarget] at none
    · exact ⟨position, w, { behaviour.visit journey v with pending := none },
        by rw [visited, isPending]; rfl, rfl, isTarget, moved⟩

/-! ## Tests -/

/-- A condition leads where it leads in the flow. -/
theorem Ready.evaluate_eq {condition : Cond} {whenTrue whenFalse : Nat}
    (decides : behaviour.Decides)
    (leads : condition.Leads behaviour.targets whenTrue whenFalse) :
    ∀ {journey : Journey}, behaviour.Ready entry journey condition.first →
      ∃ holds tested, behaviour.evaluate condition journey = (some holds, tested) ∧
        tested.pending = none ∧
        behaviour.Follows entry tested.trace (some (if holds then whenTrue else whenFalse)) := by
  induction leads with
  | @test vertex whenTrue whenFalse branch =>
      intro journey ready
      obtain ⟨position, w, decided, isDecision, noPending, isTarget, follows⟩ :=
        ready.decision_eq decides (by rw [Cond.first, branch]; simp)
      rw [Cond.first] at isDecision isTarget
      rw [branch] at isTarget
      refine ⟨position == 0, decided, by rw [evaluate, isDecision]; rfl, noPending, ?_⟩
      match position with
      | 0 | 1 =>
          cases isTarget
          exact follows
      | _ + 2 => simp at isTarget
  | not inner inductionHypothesis =>
      intro journey ready
      obtain ⟨holds, tested, result, noPending, follows⟩ := inductionHypothesis ready
      refine ⟨!holds, tested, by rw [evaluate, result]; rfl, noPending, ?_⟩
      cases holds <;> exact follows
  | and before behind beforeHypothesis behindHypothesis =>
      intro journey ready
      obtain ⟨holds, tested, result, noPending, follows⟩ := beforeHypothesis ready
      cases holds with
      | true =>
          obtain ⟨holds, all, rest, facts⟩ := behindHypothesis (.inr ⟨noPending, follows⟩)
          exact ⟨holds, all, by rw [evaluate, result]; exact rest, facts⟩
      | false => exact ⟨false, tested, by rw [evaluate, result], noPending, follows⟩
  | or before behind beforeHypothesis behindHypothesis =>
      intro journey ready
      obtain ⟨holds, tested, result, noPending, follows⟩ := beforeHypothesis ready
      cases holds with
      | true => exact ⟨true, tested, by rw [evaluate, result], noPending, follows⟩
      | false =>
          obtain ⟨holds, all, rest, facts⟩ := behindHypothesis (.inr ⟨noPending, follows⟩)
          exact ⟨holds, all, by rw [evaluate, result]; exact rest, facts⟩

/-! ## Traces never shrink -/

theorem decision_extends (behaviour : Behaviour) (journey : Journey) (v : Nat) :
    journey.trace.length ≤ (behaviour.decision journey v).2.trace.length := by
  unfold decision
  dsimp only
  split
  · exact Nat.le_refl _
  · simp [visit]

theorem evaluate_extends (behaviour : Behaviour) (condition : Cond) (journey : Journey) :
    journey.trace.length ≤ (behaviour.evaluate condition journey).2.trace.length := by
  induction condition generalizing journey with
  | test vertex => exact behaviour.decision_extends journey vertex
  | not operand inductionHypothesis => exact inductionHypothesis journey
  | and left right leftHypothesis rightHypothesis | or left right leftHypothesis rightHypothesis =>
      have before := leftHypothesis journey
      rw [evaluate]
      split
      · rename_i result
        rw [result] at before
        exact Nat.le_trans before (rightHypothesis _)
      · rename_i result
        rw [result] at before
        exact before

theorem test_extends (behaviour : Behaviour) (condition : Option Cond) (journey : Journey) :
    journey.trace.length ≤ (behaviour.test condition journey).2.trace.length := by
  cases condition with
  | none => exact Nat.le_refl _
  | some condition => exact behaviour.evaluate_extends condition journey

end FlowRegions.Behaviour
