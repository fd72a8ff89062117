import Mathlib.Data.List.TakeWhile
import TemplateProjection.Proofs.Faithfulness
import TemplateProjection.Proofs.Landmarks

/-!
Structural directives regroup the nodes of markup and lose none: a template has the landmarks of its
markup, except for the comments between two branches of a conditional.
-/
namespace TemplateProjection

open Landmark

namespace Template

variable {source : Text} {full full' : List Landmark} {start mid stop : Nat} {node : Node}
  {nodes nodes' : List Node}

/-- Landmarks and gaps lie inside the node, and a conditional ends with its last branch. -/
structure Node.Bounded (source : Text) (node : Node) : Prop where
  landmarks : ∀ x ∈ landmarksOf [node], x.Within node.span.start node.span.stop
  gaps : ∀ gap ∈ gapsOf [node], node.span.start ≤ gap.start ∧ gap.stop ≤ node.span.stop
  lastBranch : ∀ branches loc, node = .conditional branches loc →
    loc.In source ∧ ∃ init branch, branches = init ++ [branch] ∧ branch.loc.stop = loc.stop

/-- The nodes lie between two offsets and have all given landmarks that lie there, except for the
comments in their gaps. -/
structure Regroups (source : Text) (full : List Landmark) (start stop : Nat) (nodes : List Node) :
    Prop where
  inOrder : Span.InOrder start (nodes.map Node.span) stop
  bounded : ∀ node ∈ nodes, node.Bounded source
  within : ∀ x ∈ full, x.Within start stop
  landmarks : landmarksOf nodes = full.filter (!·.lostIn (gapsOf nodes))

theorem mem_landmarksOf {x : Landmark} :
    x ∈ landmarksOf nodes ↔ ∃ node ∈ nodes, x ∈ landmarksOf [node] := by
  induction nodes with
  | nil => simp [landmarksOf, preorderOf]
  | cons node nodes ih =>
    rw [landmarksOf_cons, List.mem_append, ih]
    simp

theorem mem_gapsOf {gap : Span} : gap ∈ gapsOf nodes ↔ ∃ node ∈ nodes, gap ∈ gapsOf [node] := by
  induction nodes with
  | nil => simp [gapsOf, preorderOf]
  | cons node nodes ih =>
    rw [gapsOf_cons, List.mem_append, ih]
    simp

/-- Landmarks of nodes in order lie between the same offsets. -/
theorem landmarks_within (hinOrder : Span.InOrder start (nodes.map Node.span) stop)
    (hbounded : ∀ node ∈ nodes, node.Bounded source) :
    ∀ x ∈ landmarksOf nodes, x.Within start stop := by
  intro x hx
  obtain ⟨node, hnode, hx⟩ := mem_landmarksOf.1 hx
  obtain ⟨hstart, hstop⟩ := hinOrder.inside _ (List.mem_map_of_mem hnode)
  exact ((hbounded node hnode).landmarks x hx).mono hstart hstop

theorem gaps_inside (hinOrder : Span.InOrder start (nodes.map Node.span) stop)
    (hbounded : ∀ node ∈ nodes, node.Bounded source) :
    ∀ gap ∈ gapsOf nodes, start ≤ gap.start ∧ gap.stop ≤ stop := by
  intro gap hgap
  obtain ⟨node, hnode, hgap⟩ := mem_gapsOf.1 hgap
  obtain ⟨hstart, hstop⟩ := hinOrder.inside _ (List.mem_map_of_mem hnode)
  obtain ⟨hafter, hbefore⟩ := (hbounded node hnode).gaps gap hgap
  exact ⟨Nat.le_trans hstart hafter, Nat.le_trans hbefore hstop⟩

namespace Regroups

theorem nil (h : start ≤ stop) : Regroups source [] start stop [] where
  inOrder := h
  bounded := by simp
  within := by simp
  landmarks := rfl

theorem widen {start' stop' : Nat} (h : Regroups source full start stop nodes)
    (hstart : start' ≤ start) (hstop : stop ≤ stop') : Regroups source full start' stop' nodes where
  inOrder := (h.inOrder.mono hstop).widen hstart
  bounded := h.bounded
  within x hx := (h.within x hx).mono hstart hstop
  landmarks := h.landmarks

theorem le (h : Regroups source full start stop nodes) : start ≤ stop := h.inOrder.le

/-- The gaps of nodes that lie apart lose nothing of each other. -/
theorem append (h : Regroups source full start mid nodes)
    (h' : Regroups source full' mid stop nodes') :
    Regroups source (full ++ full') start stop (nodes ++ nodes') where
  inOrder := by
    rw [List.map_append, Span.inOrder_append]
    exact ⟨mid, h.inOrder, h'.inOrder⟩
  bounded := List.forall_mem_append.2 ⟨h.bounded, h'.bounded⟩
  within := List.forall_mem_append.2
    ⟨fun x hx => (h.within x hx).mono (Nat.le_refl _) h'.le,
      fun x hx => (h'.within x hx).mono h.le (Nat.le_refl _)⟩
  landmarks := by
    have hfull : ∀ x ∈ full, x.lostIn (gapsOf nodes') = false := fun x hx =>
      (h.within x hx).not_lostIn fun gap hgap =>
        .inl (gaps_inside h'.inOrder h'.bounded gap hgap).1
    have hfull' : ∀ x ∈ full', x.lostIn (gapsOf nodes) = false := fun x hx =>
      (h'.within x hx).not_lostIn fun gap hgap =>
        .inr (gaps_inside h.inOrder h.bounded gap hgap).2
    rw [landmarksOf_append, gapsOf_append, List.filter_append, h.landmarks, h'.landmarks,
      filter_lostIn_append, filter_lostIn_append, filter_lostIn_of_apart hfull',
      filter_lostIn_of_apart fun x hx => hfull x (List.mem_filter.1 hx).1]

/-- A node around others. -/
theorem wrap (h : Regroups source full start stop nodes)
    (hstart : node.span.start = start) (hstop : node.span.stop = stop)
    (hlandmarks : landmarksOf [node] = landmarksOf nodes) (hgaps : gapsOf [node] = gapsOf nodes)
    (hbranch : ∀ branches loc, node = .conditional branches loc →
      loc.In source ∧ ∃ init branch, branches = init ++ [branch] ∧ branch.loc.stop = loc.stop) :
    Regroups source full start stop [node] where
  inOrder := ⟨Nat.le_of_eq hstart.symm, Nat.le_of_eq hstop⟩
  bounded := by
    rw [List.forall_mem_singleton]
    refine ⟨?_, ?_, hbranch⟩
    · rw [hlandmarks, hstart, hstop]
      exact landmarks_within h.inOrder h.bounded
    · rw [hgaps, hstart, hstop]
      exact gaps_inside h.inOrder h.bounded
  within := h.within
  landmarks := by rw [hlandmarks, hgaps, h.landmarks]

/-- An element around its children. -/
theorem element {head : ElementHead} {inner : Nat} (h : Regroups source full inner stop nodes)
    (hinner : start ≤ inner) (hstart : head.loc.span.start = start)
    (hstop : head.loc.span.stop = stop) :
    Regroups source (.element head.loc.span (head.properties.map (·.loc.span)) :: full) start stop
      [.element head nodes] := by
  have hhead : (Landmark.element head.loc.span (head.properties.map (·.loc.span))).Within
      start stop := ⟨Nat.le_of_eq hstart.symm, Nat.le_of_eq hstop, by simp⟩
  have hwide := h.widen hinner (Nat.le_refl stop)
  refine ⟨⟨Nat.le_of_eq hstart.symm, Nat.le_of_eq hstop⟩, ?_,
    List.forall_mem_cons.2 ⟨hhead, hwide.within⟩, ?_⟩
  · rw [List.forall_mem_singleton]
    refine ⟨?_, ?_, by simp⟩
    · rw [landmarksOf_element, Node.span, hstart, hstop]
      exact List.forall_mem_cons.2 ⟨hhead, landmarks_within hwide.inOrder hwide.bounded⟩
    · rw [gapsOf_element, Node.span, hstart, hstop]
      exact gaps_inside hwide.inOrder hwide.bounded
  · rw [landmarksOf_element, gapsOf_element, h.landmarks]
    rfl

theorem loop {loc : Excerpt} (h : Regroups source full start stop nodes)
    (hstart : loc.start = start) (hstop : loc.stop = stop) (clause : LoopClause) :
    Regroups source full start stop [.loop clause nodes loc] :=
  h.wrap hstart hstop (landmarksOf_loop ..) (gapsOf_loop ..) (by simp)

/-- A conditional with one branch. -/
theorem branch {loc : Excerpt} (h : Regroups source full start stop nodes) (hloc : loc.In source)
    (hstart : loc.start = start) (hstop : loc.stop = stop) (condition : Option Expression) :
    Regroups source full start stop [.conditional [.mk condition nodes loc] loc] := by
  refine h.wrap hstart hstop ?_ ?_ ?_
  · rw [landmarksOf_conditional, List.flatMap_singleton]
    rfl
  · rw [gapsOf_conditional, List.flatMap_singleton]
    rfl
  · rintro _ _ ⟨⟩
    exact ⟨hloc, [], _, rfl, rfl⟩

end Regroups

/-! ### A branch that joins a conditional -/

theorem span_locate_cover {e f : Excerpt} (he : e.In source) (hf : f.In source)
    (hle : e.stop ≤ f.start) :
    (locate source (e.span.cover f.span)).span = .between e.start f.stop := by
  have hcover : e.span.cover f.span = .between e.start f.stop := by
    simp only [Span.cover, Span.between, Span.stop, Excerpt.span, Excerpt.stop, Span.mk.injEq] at *
    omega
  rw [hcover]
  refine (locate_in he.atStart ?_).2
  rw [Span.stop_between (by simp only [Excerpt.stop] at *; omega)]
  exact hf.atStop

section Joining

variable {branches : List Branch} {last branch : Branch} {loc loc' : Excerpt}

theorem landmarksOf_joined (branches : List Branch) (branch : Branch) (loc loc' : Excerpt) :
    landmarksOf [.conditional (branches ++ [branch]) loc'] =
      landmarksOf [.conditional branches loc] ++
        landmarksOf [.conditional [branch] branch.loc] := by
  simp only [landmarksOf_conditional, List.flatMap_append, landmarksOf_append]

theorem mem_gapsOf_joined {gap : Span} :
    gap ∈ gapsOf [.conditional (branches ++ [last] ++ [branch]) loc'] ↔
      gap ∈ gapsOf [.conditional (branches ++ [last]) loc] ∨
        gap = .between last.loc.stop branch.loc.start ∨
        gap ∈ gapsOf [.conditional [branch] branch.loc] := by
  simp only [gapsOf_conditional, gapsBetween_concat, List.flatMap_append, gapsOf_append,
    List.mem_append, List.mem_singleton, gapsBetween, List.nil_append]
  grind

theorem landmarksOf_comments (h : ∀ node ∈ nodes, node.isComment) :
    ∀ x ∈ landmarksOf nodes, ∃ content span, x = .comment content span ∧
      .comment content span ∈ nodes := by
  intro x hx
  obtain ⟨node, hnode, hx⟩ := mem_landmarksOf.1 hx
  cases node with
  | comment content span => exact ⟨content, span, List.mem_singleton.1 hx, hnode⟩
  | _ => cases h _ hnode

theorem gapsOf_comments (h : ∀ node ∈ nodes, node.isComment) : gapsOf nodes = [] := by
  rw [List.eq_nil_iff_forall_not_mem]
  intro gap hgap
  obtain ⟨node, hnode, hgap⟩ := mem_gapsOf.1 hgap
  cases node with
  | comment content span => cases hgap
  | _ => cases h _ hnode

/-- The conditional that a branch has joined reaches to the end of the branch. -/
theorem bounded_joined (h : (Node.conditional (branches ++ [last]) loc).Bounded source)
    (hbranch : (Node.conditional [branch] branch.loc).Bounded source)
    (hle : loc.stop ≤ branch.loc.start) :
    (Node.conditional (branches ++ [last] ++ [branch])
      (locate source (loc.span.cover branch.loc.span))).Bounded source := by
  obtain ⟨hloc, init, last', heq, hlast⟩ := h.lastBranch _ _ rfl
  obtain ⟨rfl, rfl⟩ := List.append_singleton_inj.1 heq
  obtain ⟨hbranchLoc, -⟩ := hbranch.lastBranch _ _ rfl
  have hspan := span_locate_cover hloc hbranchLoc hle
  have hstart : loc.start ≤ branch.loc.start := Nat.le_trans (Nat.le_add_right _ _) hle
  have hstop : branch.loc.start ≤ branch.loc.stop := Nat.le_add_right _ _
  have hend : (Span.between loc.start branch.loc.stop).stop = branch.loc.stop :=
    Span.stop_between (Nat.le_trans hstart hstop)
  have hle' : loc.stop ≤ branch.loc.stop := Nat.le_trans hle hstop
  refine ⟨?_, ?_, ?_⟩
  · rw [landmarksOf_joined _ _ loc, Node.span, hspan, hend]
    refine List.forall_mem_append.2 ⟨fun x hx => ?_, fun x hx => ?_⟩
    · exact (h.landmarks x hx).mono (Nat.le_refl _) hle'
    · exact (hbranch.landmarks x hx).mono hstart (Nat.le_refl _)
  · intro gap hgap
    rw [Node.span, hspan, hend]
    rcases mem_gapsOf_joined.1 hgap with hgap | rfl | hgap
    · obtain ⟨hafter, hbefore⟩ := h.gaps gap hgap
      exact ⟨hafter, Nat.le_trans hbefore hle'⟩
    · rw [hlast, Span.stop_between hle]
      exact ⟨Nat.le_add_right loc.start _, hstop⟩
    · obtain ⟨hafter, hbefore⟩ := hbranch.gaps gap hgap
      exact ⟨Nat.le_trans hstart hafter, hbefore⟩
  · rintro _ _ ⟨⟩
    refine ⟨locate_cover_in hloc hbranchLoc, _, branch, rfl, ?_⟩
    have := congrArg Span.stop hspan
    rw [hend] at this
    exact this.symm

/-- Of nodes in order, only comments that stand in a gap are lost in it. -/
theorem filter_landmarksOf_gap {before comments after : List Node} {low high : Nat}
    (hcomments : ∀ node ∈ comments, node.isComment)
    (hbefore : Span.InOrder start (before.map Node.span) low)
    (hbetween : Span.InOrder low (comments.map Node.span) high)
    (hafter : Span.InOrder high (after.map Node.span) stop)
    (hbounded : ∀ node ∈ before ++ (comments ++ after), node.Bounded source) :
    (landmarksOf (before ++ (comments ++ after))).filter (!·.lostIn [.between low high]) =
      landmarksOf (before ++ after) := by
  obtain ⟨hboundedBefore, hbounded⟩ := List.forall_mem_append.1 hbounded
  have hboundedAfter := (List.forall_mem_append.1 hbounded).2
  have hstop := Span.stop_between hbetween.le
  have hkeptBefore : ∀ x ∈ landmarksOf before, x.lostIn [.between low high] = false := fun x hx =>
    (landmarks_within hbefore hboundedBefore x hx).not_lostIn
      (List.forall_mem_singleton.2 (.inl (Nat.le_refl low)))
  have hkeptAfter : ∀ x ∈ landmarksOf after, x.lostIn [.between low high] = false := fun x hx =>
    (landmarks_within hafter hboundedAfter x hx).not_lostIn
      (List.forall_mem_singleton.2 (.inr (Nat.le_of_eq hstop)))
  have hlost : (landmarksOf comments).filter (!·.lostIn [.between low high]) = [] := by
    rw [List.filter_eq_nil_iff]
    intro x hx
    obtain ⟨content, span, rfl, hmem⟩ := landmarksOf_comments hcomments x hx
    obtain ⟨hlow, hhigh⟩ := hbetween.inside span (List.mem_map_of_mem hmem)
    have hcontains : (Span.between low high).contains span := by
      rw [Span.contains_iff, hstop]
      exact ⟨hlow, hhigh⟩
    simp [lostIn, hcontains]
  rw [landmarksOf_append, landmarksOf_append, List.filter_append, List.filter_append, hlost,
    filter_lostIn_of_apart hkeptBefore, filter_lostIn_of_apart hkeptAfter, landmarksOf_append,
    List.nil_append]

/-- Where nodes in order stand around two of them. -/
theorem inOrder_around {init comments rest : List Node} {left right : Node}
    (h : Span.InOrder start ((init ++ [left] ++ (comments ++ right :: rest)).map Node.span) stop) :
    ∃ mid, Span.InOrder start (init.map Node.span) mid ∧ mid ≤ left.span.start ∧
      Span.InOrder left.span.stop (comments.map Node.span) right.span.start ∧
      Span.InOrder right.span.stop (rest.map Node.span) stop := by
  rw [List.map_append, List.map_append, List.map_append, Span.inOrder_append] at h
  obtain ⟨_, hbefore, hafter⟩ := h
  obtain ⟨mid, hinit, hleft, hstop⟩ := Span.inOrder_append.1 hbefore
  obtain ⟨_, hcomments, hright, hrest⟩ := Span.inOrder_append.1 hafter
  exact ⟨mid, hinit, hleft, (hcomments.mono hright).widen hstop, hrest⟩

/-- The conditional has the gaps that were there, and the one before the branch. -/
theorem lostIn_gapsOf_joined {init comments rest : List Node} (x : Landmark)
    (hcomments : ∀ node ∈ comments, node.isComment) :
    x.lostIn (gapsOf (init ++ .conditional (branches ++ [last] ++ [branch]) loc' :: rest)) =
      x.lostIn (gapsOf (init ++ [.conditional (branches ++ [last]) loc] ++
        (comments ++ .conditional [branch] branch.loc :: rest)) ++
          [.between last.loc.stop branch.loc.start]) := by
  refine lostIn_congr fun gap => ?_
  have hjoined := @mem_gapsOf_joined branches last branch loc loc' gap
  simp only [gapsOf_append, gapsOf_cons _ rest, gapsOf_comments hcomments, List.mem_append,
    List.mem_singleton, List.not_mem_nil, false_or]
  grind

/-- A branch joins a conditional over the comments between them. -/
theorem Regroups.join {init comments rest : List Node}
    (hcomments : ∀ node ∈ comments, node.isComment)
    (h : Regroups source full start stop (init ++ [.conditional branches loc] ++
      (comments ++ .conditional [branch] branch.loc :: rest))) :
    Regroups source full start stop (init ++ .conditional (branches ++ [branch])
      (locate source (loc.span.cover branch.loc.span)) :: rest) := by
  have hconditional := h.bounded (.conditional branches loc) (by simp)
  have hsingle := h.bounded (.conditional [branch] branch.loc) (by simp)
  obtain ⟨hin, branches, last, rfl, hlast⟩ := hconditional.lastBranch _ _ rfl
  obtain ⟨mid, hinit, hmid, hgap, hrest⟩ := inOrder_around h.inOrder
  have hspan := span_locate_cover hin (hsingle.lastBranch _ _ rfl).1 hgap.le
  refine ⟨?_, ?_, h.within, ?_⟩
  · have hend : (Span.between loc.start branch.loc.stop).stop = branch.loc.stop := by
      have hle : loc.start + loc.text.byteLength ≤ branch.loc.start := hgap.le
      refine Span.stop_between (Nat.le_trans ?_ (Nat.le_add_right branch.loc.start _))
      omega
    rw [List.map_append, List.map_cons, Span.inOrder_append, Node.span, hspan]
    exact ⟨mid, hinit, hmid, hend.symm ▸ hrest⟩
  · have hbounded := h.bounded
    simp only [List.forall_mem_append, List.forall_mem_cons] at hbounded ⊢
    exact ⟨hbounded.1.1, bounded_joined hconditional hsingle hgap.le, hbounded.2.2.2⟩
  · have hbefore : Span.InOrder start
        ((init ++ [Node.conditional (branches ++ [last]) loc]).map Node.span) loc.stop := by
      rw [List.map_append, Span.inOrder_append]
      exact ⟨mid, hinit, hmid, Nat.le_refl _⟩
    have hafter : Span.InOrder branch.loc.start
        ((Node.conditional [branch] branch.loc :: rest).map Node.span) stop :=
      ⟨Nat.le_refl _, hrest⟩
    have hlost := filter_landmarksOf_gap hcomments hbefore hgap hafter h.bounded
    have hgaps := fun x => @lostIn_gapsOf_joined branches last branch loc
      (locate source (loc.span.cover branch.loc.span)) init comments rest x hcomments
    simp only [hgaps, hlast]
    rw [filter_lostIn_append, ← h.landmarks]
    refine Eq.trans ?_ hlost.symm
    rw [landmarksOf_append, landmarksOf_cons, landmarksOf_joined _ _ loc, landmarksOf_append,
      landmarksOf_append, landmarksOf_cons _ rest, List.append_assoc, List.append_assoc]

end Joining

/-! ### Gathering -/

/-- The node that a piece becomes when it joins no other. -/
def Piece.alone : Piece → Node
  | .node n => n
  | .branch _ b => .conditional [b] b.loc

theorem map_alone_node (nodes : List Node) : (nodes.map Piece.node).map Piece.alone = nodes := by
  rw [List.map_map]
  exact List.map_id nodes

/-- Before the trailing comments, the last sibling. -/
theorem eq_append_comments {siblings : List Node}
    (hlast : (siblings.reverse.dropWhile Node.isComment).reverse.getLast? = some node) :
    ∃ comments, siblings =
      (siblings.reverse.dropWhile Node.isComment).reverse.dropLast ++ [node] ++ comments ∧
      ∀ comment ∈ comments, comment.isComment := by
  refine ⟨(siblings.reverse.takeWhile Node.isComment).reverse, ?_, fun comment hmem => ?_⟩
  · obtain ⟨init, hinit⟩ := List.getLast?_eq_some_iff.1 hlast
    rw [hinit, List.dropLast_concat, ← hinit, ← List.reverse_append,
      List.takeWhile_append_dropWhile, List.reverse_reverse]
  · exact List.mem_takeWhile_imp (List.mem_reverse.1 hmem)

theorem Regroups.addPiece {siblings rest : List Node} {piece : Piece}
    (h : Regroups source full start stop (siblings ++ piece.alone :: rest)) :
    Regroups source full start stop (Template.addPiece source siblings piece ++ rest) := by
  cases piece with
  | node n => simpa [Template.addPiece, Piece.alone] using h
  | branch continues b =>
    cases continues with
    | false => simpa [Template.addPiece, Piece.alone] using h
    | true =>
      simp only [Template.addPiece, joinBranch]
      split
      · next branches loc hlast =>
        obtain ⟨comments, heq, hcomments⟩ := eq_append_comments hlast
        rw [heq, List.append_assoc] at h
        rw [List.append_assoc]
        exact h.join hcomments
      · simpa [Piece.alone] using h

/-- Gathering branches into conditionals loses only the comments between them. -/
theorem Regroups.gather {pieces : List Piece}
    (h : Regroups source full start stop (pieces.map Piece.alone)) :
    Regroups source full start stop (Template.gather source pieces) := by
  have hfold : ∀ siblings : List Node,
      Regroups source full start stop (siblings ++ pieces.map Piece.alone) →
      Regroups source full start stop (pieces.foldl (Template.addPiece source) siblings) := by
    clear h
    induction pieces with
    | nil => simp
    | cons piece pieces ih => exact fun siblings h => ih _ h.addPiece
  exact hfold [] h

section Collecting

variable {α : Type} {f : Node → Option α}

/-- What is collected from the nodes of a tree in order. -/
def collect (f : Node → Option α) (nodes : List Node) : List α := (preorderOf nodes).filterMap f

theorem collect_append (f : Node → Option α) (nodes nodes' : List Node) :
    collect f (nodes ++ nodes') = collect f nodes ++ collect f nodes' := by
  rw [collect, preorderOf_append, List.filterMap_append]
  rfl

theorem collect_conditional (h : ∀ branches loc, f (.conditional branches loc) = none)
    (branches : List Branch) (loc : Excerpt) :
    collect f [.conditional branches loc] = collect f (branches.flatMap Branch.children) := by
  simp only [collect, preorderOf, Node.preorder, List.append_nil, preorderOfBranches_eq]
  exact List.filterMap_cons_none (h branches loc)

theorem collect_comments {comments : List Node}
    (h : ∀ content span, f (.comment content span) = none)
    (hcomments : ∀ comment ∈ comments, comment.isComment) : collect f comments = [] := by
  induction comments with
  | nil => rfl
  | cons comment comments ih =>
    obtain ⟨hcomment, hrest⟩ := List.forall_mem_cons.1 hcomments
    cases comment with
    | comment content span => exact (List.filterMap_cons_none (h content span)).trans (ih hrest)
    | _ => cases hcomment

theorem collect_addPiece (hcomment : ∀ content span, f (.comment content span) = none)
    (hconditional : ∀ branches loc, f (.conditional branches loc) = none) (source : Text)
    (siblings : List Node) (piece : Piece) :
    collect f (addPiece source siblings piece) = collect f (siblings ++ [piece.alone]) := by
  cases piece with
  | node n => rfl
  | branch continues b =>
    cases continues with
    | false => rfl
    | true =>
      simp only [addPiece, joinBranch]
      split
      · next branches loc hlast =>
        obtain ⟨comments, heq, hcomments⟩ := eq_append_comments hlast
        -- nothing is collected from the comments that are dropped
        have hsiblings := congrArg (collect f) heq
        rw [collect_append, collect_append, collect_comments hcomment hcomments, List.append_nil,
          collect_conditional hconditional] at hsiblings
        rw [collect_append, collect_append, hsiblings, Piece.alone,
          collect_conditional hconditional, collect_conditional hconditional, List.flatMap_append,
          collect_append, List.append_assoc]
      · rfl

/-- Gathering branches into conditionals keeps what is collected from other nodes. -/
theorem collect_gather (hcomment : ∀ content span, f (.comment content span) = none)
    (hconditional : ∀ branches loc, f (.conditional branches loc) = none) (source : Text)
    (pieces : List Piece) :
    collect f (gather source pieces) = collect f (pieces.map Piece.alone) := by
  have hfold : ∀ siblings : List Node, collect f (pieces.foldl (addPiece source) siblings) =
      collect f (siblings ++ pieces.map Piece.alone) := by
    induction pieces with
    | nil => simp
    | cons piece pieces ih =>
      intro siblings
      rw [List.foldl_cons, ih, collect_append, collect_addPiece hcomment hconditional,
        ← collect_append, List.append_assoc]
      rfl
  exact hfold []

theorem collect_element (h : ∀ head children, f (.element head children) = none)
    (head : ElementHead) (children : List Node) :
    collect f [.element head children] = collect f children := by
  simp only [collect, preorderOf, Node.preorder, List.append_nil]
  exact List.filterMap_cons_none (h head children)

theorem collect_loop (f : Node → Option α) (clause : LoopClause) (children : List Node)
    (loc : Excerpt) :
    collect f [.loop clause children loc] =
      (f (.loop clause children loc)).toList ++ collect f children := by
  simp only [collect, preorderOf, Node.preorder, List.append_nil, List.filterMap_cons]
  cases f (.loop clause children loc) <;> rfl

/-- From an element its loop is collected, if it has one, and then its children. -/
theorem collect_elementPiece {g : LoopClause → Excerpt → Option α}
    (helement : ∀ head children, f (.element head children) = none)
    (hconditional : ∀ branches loc, f (.conditional branches loc) = none)
    (hloop : ∀ clause children loc, f (.loop clause children loc) = g clause loc) (source : Text)
    (tag : Markup.OpenTag) (span : Span) (endName : Option Span) (children : List Node) :
    collect f ((elementPiece source tag span endName children).map Piece.alone) =
      ((loopClause? tag.attributes).bind (g · (locate source span))).toList ++
        collect f children := by
  have hbody : ∀ (head : ElementHead) (unwraps : Bool),
      collect f (if unwraps then children else [.element head children]) = collect f children := by
    intro head unwraps
    cases unwraps with
    | true => rfl
    | false => exact collect_element helement head children
  simp only [elementPiece]
  split
  · rw [List.map_singleton, Piece.alone, collect_conditional hconditional, List.flatMap_singleton,
      Branch.children]
    split
    · next hclause => rw [collect_loop, hloop, hbody, hclause, Option.bind_some]
    · next hclause => rw [hbody, hclause, Option.bind_none, Option.toList_none, List.nil_append]
  · rw [map_alone_node]
    split
    · next hclause => rw [collect_loop, hloop, hbody, hclause, Option.bind_some]
    · next hclause => rw [hbody, hclause, Option.bind_none, Option.toList_none, List.nil_append]

end Collecting

/-! ### The pieces of a markup node -/

theorem Segment.node?_inOrder (s : Segment) :
    Span.InOrder s.excerpt.start (s.node?.toList.map Node.span) s.excerpt.stop := by
  have hle : s.excerpt.start ≤ s.excerpt.stop := Nat.le_add_right _ _
  cases s with
  | plain text =>
    simp only [Segment.node?]
    split
    · exact hle
    · exact ⟨Nat.le_refl _, Nat.le_refl _⟩
  | interpolation inner => exact ⟨Nat.le_refl _, Nat.le_refl _⟩

theorem filterMap_node?_cons (s : Segment) (rest : List Segment) :
    (s :: rest).filterMap Segment.node? = s.node?.toList ++ rest.filterMap Segment.node? := by
  cases h : s.node? <;> simp [h]

/-- An interpolation ends behind the two bytes of its closing braces. -/
theorem Segment.stop_interpolation (n : Nat) (inner : Text) :
    (Segment.interpolation ⟨n + 2, inner⟩).excerpt.stop = n + 2 + inner.byteLength + 2 := by
  have hbraces : openBraces.byteLength = 2 ∧ closeBraces.byteLength = 2 := by decide
  simp only [Segment.excerpt, Excerpt.stop, Text.byteLength_append, hbraces.1, hbraces.2]
  omega

/-- What follows the first interpolation ends where the text ends. -/
theorem firstInterpolation?_stop {e : Excerpt} {before inner after : Text}
    (h : firstInterpolation? e.text = some (before, inner, after)) :
    (Excerpt.mk (e.start + before.byteLength + 2 + inner.byteLength + 2) after).stop = e.stop := by
  have hbraces : openBraces.byteLength = 2 ∧ closeBraces.byteLength = 2 := by decide
  have hlength := congrArg Text.byteLength (firstInterpolation?_append h)
  simp only [Text.byteLength_append, hbraces.1, hbraces.2] at hlength
  simp only [Excerpt.stop]
  omega

/-- The nodes of a text follow one another in it. -/
theorem textNodes_inOrder (e : Excerpt) :
    Span.InOrder e.start ((textNodes e).map Node.span) e.stop := by
  simp only [textNodes]
  fun_induction segments e with
  | case1 e hnone =>
    rw [filterMap_node?_cons, List.filterMap_nil, List.append_nil]
    exact Segment.node?_inOrder (.plain e)
  | case2 e before inner after hfirst _ innerStart ih =>
    have hinner : (Segment.interpolation ⟨innerStart, inner⟩).excerpt.stop =
        innerStart + inner.byteLength + 2 := Segment.stop_interpolation _ inner
    have hinterpolation := Segment.node?_inOrder (.interpolation ⟨innerStart, inner⟩)
    rw [hinner] at hinterpolation
    rw [filterMap_node?_cons, filterMap_node?_cons, List.map_append, List.map_append,
      Span.inOrder_append]
    refine ⟨e.start + before.byteLength, Segment.node?_inOrder (.plain ⟨e.start, before⟩), ?_⟩
    rw [Span.inOrder_append]
    exact ⟨_, hinterpolation, firstInterpolation?_stop hfirst ▸ ih⟩

theorem textNodes_cases {e : Excerpt} (h : node ∈ textNodes e) :
    landmarksOf [node] = [] ∧ gapsOf [node] = [] ∧
      ∀ branches loc, node ≠ .conditional branches loc := by
  rcases mem_textNodes h with ⟨text, -, rfl⟩ | ⟨inner, -, rfl⟩ <;> exact ⟨rfl, rfl, by simp⟩

theorem textNodes_regroups (source : Text) (e : Excerpt) :
    Regroups source [] e.start e.stop (textNodes e) where
  inOrder := textNodes_inOrder e
  bounded node hnode := by
    obtain ⟨hlandmarks, hgaps, hbranch⟩ := textNodes_cases hnode
    refine ⟨?_, ?_, fun branches loc heq => absurd heq (hbranch branches loc)⟩
    · simp [hlandmarks]
    · simp [hgaps]
  within := by simp
  landmarks := by
    rw [List.filter_nil, List.eq_nil_iff_forall_not_mem]
    intro x hx
    obtain ⟨node, hnode, hx⟩ := mem_landmarksOf.1 hx
    rw [(textNodes_cases hnode).1] at hx
    cases hx

/-- A node that is a landmark and has no parts. -/
theorem leaf_regroups {x : Landmark} (hlandmarks : landmarksOf [node] = [x])
    (hgaps : gapsOf [node] = []) (hbranch : ∀ branches loc, node ≠ .conditional branches loc)
    (hwithin : x.Within node.span.start node.span.stop) :
    Regroups source [x] node.span.start node.span.stop [node] where
  inOrder := ⟨Nat.le_refl _, Nat.le_refl _⟩
  bounded := by
    rw [List.forall_mem_singleton]
    refine ⟨?_, ?_, fun branches loc heq => absurd heq (hbranch branches loc)⟩
    · rw [hlandmarks]
      exact List.forall_mem_singleton.2 hwithin
    · simp [hgaps]
  within := List.forall_mem_singleton.2 hwithin
  landmarks := by simp [hlandmarks, hgaps]

section Pieces

variable {tag : Markup.OpenTag} {endName : Option Span} {children : List Node}

/-- An element, unless its tag only stands for the children. -/
theorem elementBody_regroups {head : ElementHead} (htag : tag.span.start ≤ tag.span.stop)
    (hloc : head.loc.span = .between tag.span.start stop)
    (hproperties : head.properties.map (·.loc.span) =
      (tag.attributes.filter (!isStructural ·)).map (·.span))
    (h : Regroups source full tag.span.stop stop children) :
    Regroups source
      ((Markup.Node.element tag [] (.between tag.span.start stop) endName).landmark?.toList ++ full)
      tag.span.start stop
      (if dissolves tag then children else [.element head children]) := by
  have hstop : (Span.between tag.span.start stop).stop = stop :=
    Span.stop_between (Nat.le_trans htag h.le)
  simp only [Markup.Node.landmark?]
  split
  · exact h.widen htag (Nat.le_refl _)
  · rw [← hloc, ← hproperties]
    exact h.element htag (by rw [hloc]; rfl) (by rw [hloc, hstop])

theorem elementPiece_regroups (htag : tag.StandsIn source)
    (hstop : (Excerpt.mk stop []).In source)
    (h : Regroups source full tag.span.stop stop children) :
    Regroups source
      ((Markup.Node.element tag [] (.between tag.span.start stop) endName).landmark?.toList ++ full)
      tag.span.start stop
      ((elementPiece source tag (.between tag.span.start stop) endName children).map
        Piece.alone) := by
  have hstart : tag.span.start ≤ tag.span.stop := tag.span.start_le_stop
  have hend : (Span.between tag.span.start stop).stop = stop :=
    Span.stop_between (Nat.le_trans hstart h.le)
  obtain ⟨hloc, hspan⟩ : (locate source (.between tag.span.start stop)).In source ∧
      (locate source (.between tag.span.start stop)).span = .between tag.span.start stop :=
    locate_in htag.start_in (hend.symm ▸ hstop)
  have hlocStop : (locate source (.between tag.span.start stop)).stop = stop :=
    (congrArg Span.stop hspan).trans hend
  have hbody := @elementBody_regroups source full stop tag endName children
    ⟨tag.name, (tag.attributes.filter (!isStructural ·)).map (propertyOf source),
      locate source (.between tag.span.start stop), endName, tag.selfClosing⟩
    hstart hspan (map_span_propertyOf htag) h
  simp only [elementPiece]
  split
  · refine Regroups.branch ?_ hloc rfl hlocStop _
    split
    · exact hbody.loop rfl hlocStop _
    · exact hbody
  · rw [map_alone_node]
    split
    · exact hbody.loop rfl hlocStop _
    · exact hbody

end Pieces

theorem piecesOfAll_regroups {siblings : List Markup.Node}
    (h : ∀ node ∈ siblings, Regroups source (Markup.landmarksOf [node]) node.span.start
      node.span.stop ((piecesOf source node).map Piece.alone))
    (hinOrder : Span.InOrder start (siblings.map Markup.Node.span) stop) :
    Regroups source (Markup.landmarksOf siblings) start stop
      ((piecesOfAll source siblings).map Piece.alone) := by
  induction siblings generalizing start with
  | nil => exact .nil hinOrder
  | cons node siblings ih =>
    obtain ⟨hnode, hsiblings⟩ := List.forall_mem_cons.1 h
    rw [Markup.landmarksOf_cons, piecesOfAll, List.map_append]
    exact (hnode.widen hinOrder.1 (Nat.le_refl _)).append (ih hsiblings hinOrder.2)

/-- What a markup node adds to its siblings has all landmarks of the node. -/
theorem piecesOf_regroups {node : Markup.Node} (h : node.ReadIn source) (hnested : node.Nested)
    (htags : node.TagsStandIn source) :
    Regroups source (Markup.landmarksOf [node]) node.span.start node.span.stop
      ((piecesOf source node).map Piece.alone) := by
  induction h with
  | @element tag children stop endName _ _ hstop _ ih =>
    cases hnested with
    | element hspans hnested =>
      cases htags with
      | element htag htags =>
        have hchildren := (piecesOfAll_regroups (fun child hchild =>
          ih child hchild (hnested child hchild) (htags child hchild)) hspans.inOrder).gather
        have hstart : tag.span.start ≤ stop := by
          have hfilled := htag.filled
          have hle := hspans.openTag.2
          simp only [Span.between, Span.stop] at hfilled hle
          omega
        rw [Span.stop_between hstart] at hchildren
        rw [Markup.landmarksOf_element, Markup.Node.span, Span.stop_between hstart]
        exact elementPiece_regroups htag hstop hchildren
  | @text e he =>
    rw [piecesOf, map_alone_node]
    exact textNodes_regroups source e
  | @comment e he =>
    have hwithin : (Landmark.comment (Markup.commentData e.text) e.span).Within e.span.start
        e.span.stop := by
      refine ⟨Nat.le_refl _, Nat.le_refl _, ?_⟩
      rintro _ _ ⟨⟩
      exact htags.comment_filled
    exact @leaf_regroups source (.comment _ e.span) _ rfl rfl (by simp) hwithin
  | @declaration e he =>
    have hloc : locate source e.span = e := locate_of_slice? (Excerpt.in_iff_slice?.1 he)
    simp only [piecesOf, hloc]
    exact @leaf_regroups source (.other _ e) _ rfl rfl (by simp)
      ⟨Nat.le_refl _, Nat.le_refl _, by simp⟩

/-- A template has the landmarks of its markup, except for comments in its gaps. -/
theorem landmarksOf_parse (source : Text) :
    landmarksOf (parse source) =
      (Markup.landmarksOf (Markup.parse source)).filter (!·.lostIn (gapsOf (parse source))) := by
  have hlaid := Markup.parse_laid source
  have hpieces := piecesOfAll_regroups (fun node hnode => piecesOf_regroups
    (Markup.parse_readIn source node hnode) (hlaid.nested node hnode)
    (Markup.tagsStandIn_parse source node hnode)) hlaid.inOrder
  exact hpieces.gather.landmarks

/-- Structural directives regroup without loss. In document order, the elements of a template are
those of its markup, except for each `template` with a structural directive; the declarations are
kept as other constructs; and the comments are kept, except for those between two branches that
follow one another in a conditional. -/
theorem parse_regroups_without_loss (source : Text) :
    (landmarksOf (parse source)).filterMap elementSpan? =
        ((Markup.elementsOf (Markup.parse source)).filter (!dissolves ·.1)).map (·.2) ∧
      (landmarksOf (parse source)).filterMap other? =
        (Markup.declarationsOf (Markup.parse source)).map
          (fun (t, span) => ("declaration".toList, ⟨span.start, t⟩)) ∧
      (landmarksOf (parse source)).filterMap comment? =
        (Markup.commentsOf (Markup.parse source)).filter
          fun comment => !(gapsOf (parse source)).any (·.contains comment.2) := by
  rw [landmarksOf_parse]
  refine ⟨?_, ?_, ?_⟩
  · rw [filterMap_lostIn _ fun _ _ => rfl, Markup.filterMap_elementSpan?]
  · rw [filterMap_lostIn _ fun _ _ => rfl, Markup.filterMap_other?]
  · rw [filterMap_comment?_lostIn, Markup.filterMap_comment?]

end Template

end TemplateProjection
