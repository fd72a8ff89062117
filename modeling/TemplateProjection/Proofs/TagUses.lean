import TemplateProjection.Proofs.Announcements
import TemplateProjection.Proofs.Coverage
import TemplateProjection.Proofs.Lists

/-! The tags that a projection lists: those of the elements it reaches, in the order of their first
use. -/
namespace TemplateProjection

namespace Template

mutual

/-- The node and all below it in document order, without the bodies of loops that bind no value. -/
def Node.inOrder : Node → List Node
  | .element head children => .element head children :: inOrderAll children
  | .text content span => [.text content span]
  | .comment content span => [.comment content span]
  | .interpolation value loc => [.interpolation value loc]
  | .conditional branches loc => .conditional branches loc :: inOrderBranches branches
  | .loop clause children loc =>
    .loop clause children loc :: if clause.value.isSome then inOrderAll children else []
  | .other kind loc => [.other kind loc]

def inOrderAll : List Node → List Node
  | [] => []
  | node :: nodes => node.inOrder ++ inOrderAll nodes

def Branch.inOrder : Branch → List Node
  | .mk _ children _ => inOrderAll children

def inOrderBranches : List Branch → List Node
  | [] => []
  | branch :: branches => branch.inOrder ++ inOrderBranches branches

end

variable {node : Node} {nodes nodes' : List Node}

theorem inOrderAll_eq (nodes : List Node) : inOrderAll nodes = nodes.flatMap Node.inOrder := by
  induction nodes with
  | nil => rfl
  | cons node nodes ih => simp [inOrderAll, ih]

theorem inOrderBranches_eq (branches : List Branch) :
    inOrderBranches branches = branches.flatMap Branch.inOrder := by
  induction branches with
  | nil => rfl
  | cons branch branches ih => simp [inOrderBranches, ih]

theorem Node.mem_inOrder (node : Node) : node ∈ node.inOrder := by
  cases node <;> simp [inOrder]

theorem Node.Reached.mono (h : node.Reached nodes) (hsub : nodes ⊆ nodes') :
    node.Reached nodes' := by
  cases h with
  | here hnode => exact .here (hsub hnode)
  | element helement hin => exact .element (hsub helement) hin
  | branch hconditional hbranch hin => exact .branch (hsub hconditional) hbranch hin
  | loop hloop hvalue hin => exact .loop (hsub hloop) hvalue hin

mutual

theorem Node.reached_of_mem_inOrder (below : Node) :
    ∀ node : Node, below ∈ node.inOrder → below.Reached [node]
  | .element head children, h => by
    rcases List.mem_cons.1 h with rfl | h
    · exact .here (List.mem_singleton_self _)
    · exact .element (List.mem_singleton_self _) (reached_of_mem_inOrderAll below children h)
  | .conditional branches loc, h => by
    rcases List.mem_cons.1 h with rfl | h
    · exact .here (List.mem_singleton_self _)
    · obtain ⟨condition, children, branchLoc, hbranch, hin⟩ :=
        reached_of_mem_inOrderBranches below branches h
      exact .branch (List.mem_singleton_self _) hbranch hin
  | .loop clause children loc, h => by
    rcases List.mem_cons.1 h with rfl | h
    · exact .here (List.mem_singleton_self _)
    · split at h
      · next hvalue =>
        exact .loop (List.mem_singleton_self _) hvalue (reached_of_mem_inOrderAll below children h)
      · cases h
  | .text content span, h => .here h
  | .comment content span, h => .here h
  | .interpolation value loc, h => .here h
  | .other kind loc, h => .here h

theorem reached_of_mem_inOrderAll (below : Node) :
    ∀ nodes : List Node, below ∈ inOrderAll nodes → below.Reached nodes
  | [], h => by cases h
  | node :: nodes, h => by
    rcases List.mem_append.1 h with h | h
    · exact (Node.reached_of_mem_inOrder below node h).mono (by simp)
    · exact (reached_of_mem_inOrderAll below nodes h).mono (List.subset_cons_self _ _)

theorem reached_of_mem_inOrderBranches (below : Node) :
    ∀ branches : List Branch, below ∈ inOrderBranches branches →
      ∃ condition children loc, .mk condition children loc ∈ branches ∧ below.Reached children
  | [], h => by cases h
  | .mk condition children loc :: branches, h => by
    rcases List.mem_append.1 h with h | h
    · exact ⟨condition, children, loc, List.mem_cons_self,
        reached_of_mem_inOrderAll below children h⟩
    · obtain ⟨condition', children', loc', hbranch, hin⟩ :=
        reached_of_mem_inOrderBranches below branches h
      exact ⟨condition', children', loc', List.mem_cons_of_mem _ hbranch, hin⟩

end

/-- Document order lists exactly the nodes that are reached. -/
theorem mem_inOrderAll_iff : node ∈ inOrderAll nodes ↔ node.Reached nodes := by
  refine ⟨reached_of_mem_inOrderAll node nodes, fun h => ?_⟩
  have hbelow : ∀ {above : Node} {nodes : List Node}, above ∈ nodes →
      node ∈ above.inOrder → node ∈ inOrderAll nodes := by
    intro above nodes habove hin
    rw [inOrderAll_eq]
    exact List.mem_flatMap.2 ⟨above, habove, hin⟩
  induction h with
  | here hnode => exact hbelow hnode node.mem_inOrder
  | element helement _ ih => exact hbelow helement (List.mem_cons_of_mem _ ih)
  | branch hconditional hbranch _ ih =>
    refine hbelow hconditional (List.mem_cons_of_mem _ ?_)
    rw [inOrderBranches_eq]
    exact List.mem_flatMap.2 ⟨_, hbranch, ih⟩
  | loop hloop hvalue _ ih =>
    refine hbelow hloop (List.mem_cons_of_mem _ ?_)
    rwa [if_pos hvalue]

/-- The tag of an element. -/
def Node.tag? : Node → Option Text
  | .element head _ => some head.tag
  | _ => none

end Template

namespace Code

open Template

/-- The tags among emissions, once for each use. -/
def tagsOf (es : List Emission) : List Text := es.filterMap Emission.tag?

variable {es : List Emission} {code : Text} {origin : Origin} {next : Nat}

theorem tagsOf_append (es fs : List Emission) : tagsOf (es ++ fs) = tagsOf es ++ tagsOf fs :=
  List.filterMap_append

theorem tagsOf_flatMap {α : Type} (xs : List α) {emit : α → List Emission}
    (h : ∀ x, tagsOf (emit x) = []) : tagsOf (xs.flatMap emit) = [] := by
  induction xs with
  | nil => rfl
  | cons x xs ih => rw [List.flatMap_cons, tagsOf_append, h, ih, List.append_nil]

theorem Bare.tagsOf_eq (h : Bare es) : tagsOf es = [] := by
  refine List.filterMap_eq_nil_iff.2 fun e he => ?_
  have hbare := List.all_eq_true.1 h e he
  cases e with
  | tag name => cases hbare
  | _ => rfl

theorem Announces.tagsOf_eq (h : Announces code origin es) : tagsOf es = [] := by
  obtain ⟨rest, rfl, hrest, -⟩ := h
  exact hrest.tagsOf_eq

theorem tagsOf_propertyEntry (p : Property) : tagsOf (propertyEntry p) = [] := by
  rcases p with a | d
  · exact (attributeProperty_announces a).tagsOf_eq
  · simp only [propertyEntry]
    split
    · split
      · exact (boundProperty_announces d _).tagsOf_eq
      · rfl
    · rfl

theorem tagsOf_propertyBag (head : ElementHead) : tagsOf (propertyBag head) = [] := by
  obtain ⟨start, hbag, hstart⟩ := propertyBag_announces head
  rw [hbag, tagsOf_append, tagsOf_append, hstart.tagsOf_eq, tagsOf_flatMap _ tagsOf_propertyEntry]
  rfl

/-- An element uses its tag once, before all that its properties and children use. -/
theorem tagsOf_elementStart (head : ElementHead) (ancestors : List Text) (next : Nat) :
    tagsOf (elementStart head ancestors next).emissions = [head.tag] := by
  obtain ⟨before, after, heq, hbefore, hafter⟩ := elementStart_eq head ancestors next
  rw [heq, tagsOf_append, tagsOf_append, tagsOf_append, hbefore.tagsOf_eq, tagsOf_propertyBag,
    hafter.tagsOf_eq]
  rfl

theorem tagsOf_loopStart (clause : LoopClause) (value : Expression) :
    tagsOf (loopStart clause value next) = [] := by
  rw [loopStart, tagsOf_append, tagsOf_append, (loopBinding_bare _ _).tagsOf_eq,
    (loopBinding_bare _ _).tagsOf_eq]
  rfl

mutual

/-- The code of a node uses the tags of the elements in it in document order. -/
theorem tagsOf_lowerNode (ancestors : List Text) (shared : Bool) (next : Nat) :
    ∀ node : Node, tagsOf (lowerNode ancestors shared next node).emissions =
      node.inOrder.filterMap Node.tag?
  | .element head children => by
    have hopen := (openBlock_bare shared).tagsOf_eq
    have hclose := (closeBlock_bare shared).tagsOf_eq
    have hinner := tagsOf_lowerAll (head.tag :: ancestors) false
      (elementStart head ancestors next).next children
    have hreference := (componentReference_bare head).tagsOf_eq
    simp only [lowerNode, tagsOf_append, hopen, hclose, hreference, tagsOf_elementStart, hinner,
      Node.inOrder, Node.tag?, List.filterMap_cons, List.append_nil, List.nil_append,
      List.cons_append]
  | .interpolation value loc => rfl
  | .conditional branches loc => by
    simpa only [lowerNode, Node.inOrder, Node.tag?, List.filterMap_cons] using
      tagsOf_lowerBranches ancestors true next branches
  | .loop clause children loc => by
    simp only [lowerNode, Node.inOrder, Node.tag?, List.filterMap_cons]
    cases clause.value with
    | none => rfl
    | some value =>
      have hclose : tagsOf [closeBlock] = [] := rfl
      simp only [tagsOf_append, tagsOf_loopStart, hclose, List.nil_append, List.append_nil,
        Option.isSome_some, if_true]
      exact tagsOf_lowerAll ancestors (!onTemplate loc) (next + 1) children
  | .text content span => rfl
  | .comment content span => rfl
  | .other kind loc => rfl

theorem tagsOf_lowerAll (ancestors : List Text) (shared : Bool) (next : Nat) :
    ∀ nodes : List Node, tagsOf (lowerAll ancestors shared next nodes).emissions =
      (inOrderAll nodes).filterMap Node.tag?
  | [] => rfl
  | node :: nodes => by
    rw [lowerAll, tagsOf_append, tagsOf_lowerNode ancestors shared next node,
      tagsOf_lowerAll ancestors shared _ nodes, inOrderAll, List.filterMap_append]

theorem tagsOf_lowerBranch (ancestors : List Text) (first : Bool) (next : Nat) :
    ∀ branch : Branch, tagsOf (lowerBranch ancestors first next branch).emissions =
      branch.inOrder.filterMap Node.tag?
  | .mk condition children loc => by
    have hclose : tagsOf [closeBlock] = [] := rfl
    rw [lowerBranch, tagsOf_append, tagsOf_append, (branchStart_bare first condition).tagsOf_eq,
      hclose, List.nil_append, List.append_nil]
    exact tagsOf_lowerAll ancestors (!onTemplate loc) next children

theorem tagsOf_lowerBranches (ancestors : List Text) (first : Bool) (next : Nat) :
    ∀ branches : List Branch, tagsOf (lowerBranches ancestors first next branches).emissions =
      (inOrderBranches branches).filterMap Node.tag?
  | [] => rfl
  | branch :: branches => by
    rw [lowerBranches, tagsOf_append, tagsOf_lowerBranch ancestors first next branch,
      tagsOf_lowerBranches ancestors _ _ branches, inOrderBranches, List.filterMap_append]

end

theorem tagsOf_lowerRoot (next : Nat) (nodes : List Node) :
    tagsOf (lowerRoot next nodes).emissions = (inOrderAll nodes).filterMap Node.tag? := by
  induction nodes generalizing next with
  | nil => rfl
  | cons node nodes ih =>
    have hopen : tagsOf [openBlock] = [] := rfl
    have hclose : tagsOf [closeBlock] = [] := rfl
    simp only [lowerRoot, tagsOf_append, hopen, hclose, List.nil_append, List.append_nil, ih,
      tagsOf_lowerNode, inOrderAll, List.filterMap_append]

/-- A projection lists every tag once, in the order in which the elements with these tags come up
first in document order, with or without an outline. It lists the tags of exactly those elements
that do not stand in a loop which binds no value. -/
theorem tags_in_order_of_first_use (alignment : Option Outline.Alignment) (root : List Node) :
    (project alignment root).tags.Nodup ∧
      FirstUses ((inOrderAll root).filterMap Node.tag?) (project alignment root).tags ∧
      ∀ tag, tag ∈ (project alignment root).tags ↔
        ∃ head children, Node.Reached (.element head children) root ∧ head.tag = tag := by
  have hfirst :
      FirstUses ((inOrderAll root).filterMap Node.tag?) (project alignment root).tags := by
    rw [← tagsOf_lowerRoot 0 root]
    exact firstUses_eraseDups _
  refine ⟨hfirst.nodup, hfirst, fun tag => ?_⟩
  rw [hfirst.mem_iff, List.mem_filterMap]
  constructor
  · rintro ⟨node, hnode, htag⟩
    cases node with
    | element head children =>
      exact ⟨head, children, mem_inOrderAll_iff.1 hnode, Option.some.inj htag⟩
    | text content span => cases htag
    | comment content span => cases htag
    | interpolation value loc => cases htag
    | conditional branches loc => cases htag
    | loop clause children loc => cases htag
    | other kind loc => cases htag
  · rintro ⟨head, children, hreached, htag⟩
    exact ⟨.element head children, mem_inOrderAll_iff.2 hreached, congrArg some htag⟩

end Code

end TemplateProjection
