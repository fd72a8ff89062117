import TemplateProjection.Code.Projection
import TemplateProjection.Proofs.Assembly
import TemplateProjection.Proofs.Parts

/-!
Nothing that a template computes is left unmapped: the code repeats every interpolation, condition
and loop clause, and links it to where it is written.
-/
namespace TemplateProjection

namespace Template

/-- The node is one of `nodes` or stands below them, but not in the body of a loop that binds no
value. -/
inductive Node.Reached (node : Node) : List Node → Prop
  | here {nodes : List Node} (hnode : node ∈ nodes) : Reached node nodes
  | element {nodes children : List Node} {head : ElementHead}
      (helement : .element head children ∈ nodes) (hin : Reached node children) :
      Reached node nodes
  | branch {nodes children : List Node} {branches : List Branch} {loc branchLoc : Excerpt}
      {condition : Option Expression} (hconditional : .conditional branches loc ∈ nodes)
      (hbranch : .mk condition children branchLoc ∈ branches) (hin : Reached node children) :
      Reached node nodes
  | loop {nodes children : List Node} {clause : LoopClause} {loc : Excerpt}
      (hloop : .loop clause children loc ∈ nodes) (hvalue : clause.value.isSome)
      (hin : Reached node children) : Reached node nodes

/-- The expressions of a node itself that the code computes, with the features that may use them. -/
def Node.checks : Node → List (Expression × Capabilities)
  | .interpolation value _ => [(value, .all)]
  | .conditional branches _ => (branches.filterMap Branch.condition?).map (·, .all)
  | .loop clause _ _ =>
    if clause.value.isSome then clause.expressions.map (·, .noFormatting) else []
  | .element _ _ => []
  | .text _ _ => []
  | .comment _ _ => []
  | .other _ _ => []

end Template

namespace Code

open Template

variable {es fs : List Emission} {node : Node} {nodes children : List Node}
  {branches : List Branch} {head : ElementHead} {clause : LoopClause} {loc : Excerpt}
  {x : Expression} {capabilities : Capabilities}

/-- The emissions contain the code of the node. -/
def Covers (es : List Emission) (node : Node) : Prop :=
  ∃ ancestors shared next, (lowerNode ancestors shared next node).emissions ⊆ es

theorem Covers.mono (h : Covers es node) (hsub : es ⊆ fs) : Covers fs node := by
  obtain ⟨ancestors, shared, next, hin⟩ := h
  exact ⟨ancestors, shared, next, List.Subset.trans hin hsub⟩

theorem lowerAll_covers (ancestors : List Text) (shared : Bool) (next : Nat) (nodes : List Node) :
    ∀ node ∈ nodes, Covers (lowerAll ancestors shared next nodes).emissions node := by
  induction nodes generalizing next with
  | nil => simp
  | cons first nodes ih =>
    intro node hnode
    rcases List.mem_cons.1 hnode with rfl | hnode
    · exact ⟨ancestors, shared, next, List.subset_append_left _ _⟩
    · exact (ih _ node hnode).mono (List.subset_append_right _ _)

theorem lowerRoot_covers (next : Nat) (nodes : List Node) :
    ∀ node ∈ nodes, Covers (lowerRoot next nodes).emissions node := by
  induction nodes generalizing next with
  | nil => simp
  | cons first nodes ih =>
    intro node hnode
    rcases List.mem_cons.1 hnode with rfl | hnode
    · refine ⟨[], false, next, fun e he => ?_⟩
      simp [lowerRoot, he]
    · exact (ih _ node hnode).mono (List.subset_append_right _ _)

theorem lowerBranches_covers (ancestors : List Text) (first : Bool) (next : Nat)
    {branch : Branch} (hbranch : branch ∈ branches) :
    ∃ first' next', (lowerBranch ancestors first' next' branch).emissions ⊆
      (lowerBranches ancestors first next branches).emissions := by
  induction branches generalizing first next with
  | nil => cases hbranch
  | cons start branches ih =>
    rcases List.mem_cons.1 hbranch with rfl | hbranch
    · exact ⟨first, next, List.subset_append_left _ _⟩
    · obtain ⟨first', next', hin⟩ := ih (first && start.condition?.isNone)
        (lowerBranch ancestors first next start).next hbranch
      exact ⟨first', next', List.Subset.trans hin (List.subset_append_right _ _)⟩

theorem Covers.element (h : Covers es (.element head children)) :
    ∀ node ∈ children, Covers es node := by
  obtain ⟨ancestors, shared, next, hin⟩ := h
  have hinner : (lowerAll (head.tag :: ancestors) false (elementStart head ancestors next).next
      children).emissions ⊆ es := by
    intro e he
    apply hin
    simp only [lowerNode, List.mem_append]
    exact Or.inl (Or.inl (Or.inr he))
  intro node hnode
  exact (lowerAll_covers _ _ _ children node hnode).mono hinner

theorem Covers.branch {condition : Option Expression} {branchLoc : Excerpt}
    (h : Covers es (.conditional branches loc))
    (hbranch : .mk condition children branchLoc ∈ branches) :
    (∀ x ∈ condition, .expression x .all ∈ es) ∧ ∀ node ∈ children, Covers es node := by
  obtain ⟨ancestors, shared, next, hin⟩ := h
  obtain ⟨first', next', hbranch⟩ := lowerBranches_covers ancestors true next hbranch
  have hsub := List.Subset.trans hbranch hin
  rw [lowerBranch] at hsub
  constructor
  · rintro x rfl
    apply hsub
    simp [branchStart]
  · intro node hnode
    exact (lowerAll_covers _ _ _ children node hnode).mono fun e he =>
      hsub (List.mem_append_left _ (List.mem_append_right _ he))

theorem Covers.loop (h : Covers es (.loop clause children loc)) (hvalue : clause.value.isSome) :
    (∀ x ∈ clause.expressions, .expression x .noFormatting ∈ es) ∧
      ∀ node ∈ children, Covers es node := by
  obtain ⟨ancestors, shared, next, hin⟩ := h
  obtain ⟨value, hvalue⟩ := Option.isSome_iff_exists.1 hvalue
  simp only [lowerNode, hvalue] at hin
  constructor
  · intro x hx
    refine hin (List.mem_append_left _ (List.mem_append_left _ ?_))
    simp only [LoopClause.expressions, hvalue, List.mem_cons, List.mem_append, Option.mem_toList,
      Option.toList_some, List.not_mem_nil, or_false] at hx
    rcases hx with rfl | (rfl | hkey) | hindex
    · simp [loopStart]
    · simp [loopStart]
    · simp [loopStart, loopBinding, Option.mem_def.1 hkey]
    · simp [loopStart, loopBinding, Option.mem_def.1 hindex]
  · intro node hnode
    exact (lowerAll_covers _ _ _ children node hnode).mono fun e he =>
      hin (List.mem_append_left _ (List.mem_append_right _ he))

/-- What is reached is covered. By induction on the way to the node. -/
theorem covers_of_reached (h : node.Reached nodes) (hnodes : ∀ node ∈ nodes, Covers es node) :
    Covers es node := by
  induction h with
  | here hnode => exact hnodes _ hnode
  | element helement _ ih => exact ih (hnodes _ helement).element
  | branch hconditional hbranch _ ih => exact ih ((hnodes _ hconditional).branch hbranch).2
  | loop hloop hvalue _ ih => exact ih ((hnodes _ hloop).loop hvalue).2

/-- The code of a node repeats the expressions of the node. -/
theorem Covers.checks (h : Covers es node) (hx : (x, capabilities) ∈ node.checks) :
    .expression x capabilities ∈ es := by
  cases node with
  | interpolation value loc =>
    obtain ⟨ancestors, shared, next, hin⟩ := h
    cases List.mem_singleton.1 hx
    exact hin (by simp [lowerNode])
  | conditional branches loc =>
    obtain ⟨y, hy, hpair⟩ := List.mem_map.1 hx
    cases hpair
    obtain ⟨⟨condition, children, branchLoc⟩, hbranch, hcondition⟩ := List.mem_filterMap.1 hy
    exact (h.branch hbranch).1 x hcondition
  | loop clause children loc =>
    rw [Node.checks] at hx
    split at hx
    · next hvalue =>
      obtain ⟨y, hy, hpair⟩ := List.mem_map.1 hx
      cases hpair
      exact (h.loop hvalue).1 x hy
    · cases hx
  | element head children => cases hx
  | text content span => cases hx
  | comment content span => cases hx
  | other kind loc => cases hx

/-- An expression among the emissions is linked to its span, with its content in place. -/
theorem exists_mapping_of_expression (h : .expression x capabilities ∈ es) :
    ∃ m ∈ (assemble none es).mappings, m.original = x.span ∧ m.capabilities = capabilities ∧
      m.mode = (if x.span.length = x.content.byteLength then .offset else .gate) ∧
      (assemble none es).text.slice? m.synthetic = some x.content := by
  obtain ⟨before, after, rfl⟩ := List.append_of_mem h
  have hown : Fragment.mappingTo x.content.byteLength .offset capabilities none x.span ∈
      ((Emission.expression x capabilities).fragment none).mappings := by
    simp [Emission.expression, Emission.fragment, Origin.resolve]
  refine ⟨_, mem_assemble hown, rfl, rfl, rfl, ?_⟩
  rw [assemble_text, Text.slice?_eq_some_iff]
  refine ⟨before.flatMap Emission.text, after.flatMap Emission.text, ?_, ?_, rfl⟩
  · simp [Emission.expression, Emission.text]
  · simp [Mapping.shift, Span.shift, Fragment.mappingTo]

/-- In the code of any template, every interpolation, every condition, and the source and the
bindings of every loop that binds a value are linked to where they are written, unless they stand in
a loop that binds no value. The link leads from exactly the text of the expression, and offsets
carry over if it has the length of its source. -/
theorem expressions_mapped {root : List Node} (h : node.Reached root)
    (hx : (x, capabilities) ∈ node.checks) :
    ∃ m ∈ (project none root).mappings, m.original = x.span ∧ m.capabilities = capabilities ∧
      m.mode = (if x.span.length = x.content.byteLength then .offset else .gate) ∧
      (project none root).text.slice? m.synthetic = some x.content := by
  have hcovers := covers_of_reached h (lowerRoot_covers 0 root)
  exact exists_mapping_of_expression (List.mem_append_left _ (hcovers.checks hx))

/-- An interpolation in a branch in a loop. -/
theorem expressions_mapped_nested :
    let value : Expression := ⟨"item".toList, ⟨12, 4⟩, false, false⟩
    let source : Expression := ⟨"list".toList, ⟨20, 4⟩, false, false⟩
    let condition : Expression := ⟨"ok".toList, ⟨32, 2⟩, false, false⟩
    let inner : Expression := ⟨"item".toList, ⟨39, 4⟩, false, false⟩
    let node : Node := .interpolation inner ⟨36, "\x7b\x7b item \x7d\x7d".toList⟩
    let branch : Branch := .mk (some condition) [node] ⟨26, "<template".toList⟩
    let root : List Node := [.loop ⟨source, some value, none, none⟩
      [.conditional [branch] ⟨26, "<template".toList⟩] ⟨0, "<template".toList⟩]
    node.Reached root ∧ ∃ m ∈ (project none root).mappings, m.original = ⟨39, 4⟩ ∧
      m.capabilities = .all ∧ m.mode = .offset ∧
      (project none root).text.slice? m.synthetic = some "item".toList := by
  intro value source condition inner node branch root
  have hreached : node.Reached root :=
    .loop (List.mem_singleton_self _) rfl
      (.branch (List.mem_singleton_self _) (List.mem_singleton_self _)
        (.here (List.mem_singleton_self _)))
  have hchecks : (inner, Capabilities.all) ∈ node.checks := List.mem_singleton_self _
  exact ⟨hreached, expressions_mapped hreached hchecks⟩

end Code

end TemplateProjection
