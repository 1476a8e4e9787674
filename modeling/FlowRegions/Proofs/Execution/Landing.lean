import FlowRegions.Proofs.Execution.Wiring
import FlowRegions.Proofs.Structuring.Labels

/-!
Contract: jumps land where the flow goes on.

Owns:
- that a landing is found for the vertex of every leaf below a region;
- that what is left to do at a landing passes on from there, however deep in
  nested regions the leaf is.
-/

namespace FlowRegions

namespace Task

theorem mem_places_map_run {nodes : List Nat} {c : Nat} (member : c ∈ nodes) :
    ∃ behind, (c, behind) ∈ places (nodes.map run) := by
  induction nodes with
  | nil => cases member
  | cons first rest inductionHypothesis =>
      rcases List.mem_cons.mp member with rfl | later
      · exact ⟨_, List.mem_cons_self⟩
      · obtain ⟨behind, isPlace⟩ := inductionHypothesis later
        exact ⟨behind, List.mem_cons_of_mem _ isPlace⟩

/-- Every part of a region is run by something the region puts on the stack. -/
theorem exists_place {i c : Nat} {shape : Shape Nat} (isChild : c ∈ shape.children) :
    ∃ strand ∈ strands i shape, ∃ behind, (c, behind) ∈ places strand := by
  cases shape with
  | leaf | jump => cases isChild
  | seq nodes => exact ⟨_, List.mem_cons_self, mem_places_map_run isChild⟩
  | switch head arms =>
      rcases List.mem_cons.mp isChild with rfl | isArm
      · exact ⟨_, List.mem_cons_self, _, List.mem_cons_self⟩
      · obtain ⟨arm, member, isBody⟩ := List.mem_filterMap.mp isArm
        refine ⟨ofArm arm, ?_, [], ?_⟩
        · simp only [strands, List.mem_cons, List.mem_map]
          exact .inr (.inr (.inr ⟨arm, member, rfl⟩))
        · simp [ofArm, isBody, places]
  | ifElse head thenArm elseArm =>
      simp only [Shape.children, List.mem_cons, List.not_mem_nil, or_false] at isChild
      rcases isChild with rfl | rfl | rfl
      · exact ⟨_, List.mem_cons_self, _, List.mem_cons_self⟩
      · exact ⟨onward i (.ifElse head c elseArm) true, by simp [strands], _, List.mem_cons_self⟩
      · exact ⟨onward i (.ifElse head thenArm c) false, by simp [strands], _, List.mem_cons_self⟩
  | forLoop init head body step =>
      simp only [Shape.children, List.mem_cons, List.not_mem_nil, or_false] at isChild
      rcases isChild with rfl | rfl | rfl | rfl
      · exact ⟨_, List.mem_cons_self, _, List.mem_cons_self⟩
      · exact ⟨_, List.mem_cons_self, _, List.mem_cons_of_mem _ List.mem_cons_self⟩
      · exact ⟨onward i (.forLoop init head c step) true, by simp [strands], _, List.mem_cons_self⟩
      · exact ⟨onward i (.forLoop init head body c) true, by simp [strands], _,
          List.mem_cons_of_mem _ List.mem_cons_self⟩
  | doWhile body latch =>
      simp only [Shape.children, List.mem_cons, List.not_mem_nil, or_false] at isChild
      rcases isChild with rfl | rfl
      · exact ⟨_, List.mem_cons_self, _, List.mem_cons_self⟩
      · exact ⟨_, List.mem_cons_self, _, List.mem_cons_of_mem _ List.mem_cons_self⟩
  | ifThen head part | whileLoop head part =>
      simp only [Shape.children, List.mem_cons, List.not_mem_nil, or_false] at isChild
      rcases isChild with rfl | rfl
      · exact ⟨_, List.mem_cons_self, _, List.mem_cons_self⟩
      · exact ⟨_, List.mem_cons_of_mem _ List.mem_cons_self, _, List.mem_cons_self⟩
  | selfLoop body | tail body =>
      obtain rfl := List.mem_singleton.mp isChild
      exact ⟨_, List.mem_cons_self, _, List.mem_cons_self⟩

end Task

namespace NodeTable

variable {table : NodeTable} {enter : Node → Bool} {vertex : Nat}

/-- A leaf below a region is found when every node is entered. -/
theorem exists_landing? {fuel i : Nat} (isLeaf : vertex ∈ table.leaves fuel i)
    (rest : List Task) :
    ∃ tasks, table.landing? (fun _ => true) vertex fuel i rest = some tasks := by
  induction fuel generalizing i rest with
  | zero => cases isLeaf
  | succ fuel inductionHypothesis =>
      rw [leaves_eq_gather, gather_succ] at isLeaf
      rw [landing?]
      cases found : table i with
      | none =>
          rw [found] at isLeaf
          cases isLeaf
      | some node =>
          rw [found] at isLeaf
          change vertex ∈ node.leafVertex?.toList ++ node.children.flatMap _ at isLeaf
          rw [List.mem_append, Option.mem_toList, List.mem_flatMap] at isLeaf
          dsimp only
          split
          · exact ⟨_, rfl⟩
          · rename_i notThis
            obtain ⟨c, isChild, below⟩ := isLeaf.resolve_left notThis
            rw [← leaves_eq_gather] at below
            obtain ⟨strand, isStrand, behind, isPlace⟩ := Task.exists_place (i := i) isChild
            obtain ⟨tasks, lands⟩ := inductionHypothesis below (behind ++ rest)
            rw [if_pos rfl, ← Option.isSome_iff_exists, List.findSome?_isSome_iff]
            exact ⟨(c, behind), List.mem_flatMap.mpr ⟨strand, isStrand, isPlace⟩,
              by rw [lands]; rfl⟩

/-- What is left to do at a landing passes on from the leaf. -/
theorem landing?_linked {layout : Layout} {Q : Point} {fuel i : Nat} {rest tasks : List Task}
    (wired : ∀ {i node}, layout.table i = some node → layout.Wired i node)
    (lands : layout.table.landing? enter vertex fuel i rest = some tasks)
    (linked : layout.Linked (layout.leaving i) rest Q) :
    ∃ leaf node behind, tasks = .run leaf :: behind ∧ layout.table leaf = some node ∧
      node.leafVertex? = some vertex ∧ layout.Linked (layout.leaving leaf) behind Q := by
  induction fuel generalizing i rest with
  | zero => cases lands
  | succ fuel inductionHypothesis =>
      rw [landing?] at lands
      cases found : layout.table i with
      | none =>
          rw [found] at lands
          cases lands
      | some node =>
          rw [found] at lands
          dsimp only at lands
          split at lands
          · rename_i isLeaf
            cases lands
            exact ⟨i, node, rest, rfl, found, isLeaf, linked⟩
          split at lands
          · obtain ⟨⟨part, behind⟩, isPlace, below⟩ := List.exists_of_findSome?_eq_some lands
            obtain ⟨strand, isStrand, inStrand⟩ := List.mem_flatMap.mp isPlace
            obtain ⟨P, strandLinked⟩ := (wired found).strand_linked isStrand
            exact inductionHypothesis below ((strandLinked.place inStrand).append linked)
          · cases lands

end NodeTable

end FlowRegions
