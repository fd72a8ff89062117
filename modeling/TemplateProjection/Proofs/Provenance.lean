import TemplateProjection.Code.Projection
import TemplateProjection.Proofs.Assembly
import TemplateProjection.Proofs.Parts

/-! Which part of a template each emission comes from. -/
namespace TemplateProjection.Code

open Template

/-- All that the code for a part consists of besides plain text. -/
inductive Emits : Part → Emission → Prop
  | tag (h : ElementHead) : Emits (.head h) (.tag h.tag)
  | slot (h : ElementHead) (var : Text) : Emits (.head h) (.slot (slotName h.properties) var)
  | bag (h : ElementHead) :
      Emits (.head h) (.announced ("__VDS_componentProps['".toList ++ h.tag ++ "']".toList)
        ⟨h.tag, [h.tagSpan]⟩)
  | tagName (h : ElementHead) :
      Emits (.head h) (.quoted h.tag
        ⟨h.tag, h.tagSpan :: if h.selfClosing then [] else h.endName.toList⟩ .tagOrAttribute
        (some .elementTag))
  | options (h : ElementHead) :
      Emits (.head h) (.quoted "__VDS_options".toList ⟨h.tag, [h.tagSpan]⟩ .referencesOnly none)
  | value {h : ElementHead} {p : Property} {x : Expression} (hp : p ∈ h.properties)
      (hx : x ∈ p.values) : Emits (.head h) (.expression x .all)
  | attributeEntry {h : ElementHead} {a : Attribute} (ha : .attribute a ∈ h.properties) :
      Emits (.head h) (.announced (['\''] ++ propertyKey a.name ++ "': ".toList ++
        (['\x60'] ++ escapeBackticks (a.value.getD []) ++ ['\x60'])) ⟨a.loc.text, [a.loc.span]⟩)
  | attributeName {h : ElementHead} {a : Attribute} (spelling : Text)
      (ha : .attribute a ∈ h.properties)
      (hspelling : spelling = a.name ∨ spelling = propertyKey a.name) :
      Emits (.head h) (.quoted spelling ⟨a.name, [attributeNameSpan a]⟩ .tagOrAttribute
        (some .property))
  | bindingEntry {h : ElementHead} {d : Directive} {x : Expression}
      (hd : .directive d ∈ h.properties) (hx : d.argument = some x) :
      Emits (.head h) (.announced (['\''] ++ propertyKey x.content ++ "': (".toList ++
        (d.value.map (·.content)).getD "undefined".toList ++ [')']) ⟨d.loc.text, [d.loc.span]⟩)
  | argumentName {h : ElementHead} {d : Directive} {x : Expression} (spelling : Text)
      (mark : Option MappingTag) (hd : .directive d ∈ h.properties) (hx : d.argument = some x)
      (hspelling : spelling = x.content ∨ spelling = propertyKey x.content) :
      Emits (.head h) (.quoted spelling ⟨x.content, [x.span]⟩ .tagOrAttribute mark)
  | listener {h : ElementHead} {d : Directive} {x : Expression}
      (hd : .directive d ∈ h.properties) (hx : d.argument = some x) :
      Emits (.head h) (.quoted (camelize ("on-".toList ++ x.content)) ⟨x.content, [x.span]⟩
        .tagOrAttribute none)
  | expression (x : Expression) : Emits (.expression x) (.expression x .all)
  | clause {c : LoopClause} {x : Expression} (hx : x ∈ c.expressions) :
      Emits (.clause c) (.expression x .noFormatting)
  | source (c : LoopClause) (var : Text) :
      Emits (.clause c) (.mapped var ⟨c.source.content, [c.source.span]⟩ .gate .diagnosticOnly)

variable {parts parts' : List Part} {es fs : List Emission} {head : ElementHead} {p : Property}
  {tag : Text} {next : Nat}

/-- The emission is plain text or belongs to one of the parts. -/
inductive Emission.ComesFrom (parts : List Part) : Emission → Prop
  | code (t : Text) : ComesFrom parts (.code t)
  | part {part : Part} {e : Emission} (hpart : part ∈ parts) (he : Emits part e) :
      ComesFrom parts e

def ComeFrom (parts : List Part) (es : List Emission) : Prop := ∀ e ∈ es, e.ComesFrom parts

namespace Emission

@[simp]
theorem comesFrom_code (t : Text) : (Emission.code t).ComesFrom parts := .code t

@[simp]
theorem comesFrom_literal (s : String) : (literal s).ComesFrom parts := .code _

@[simp]
theorem comesFrom_parts (texts : List Text) : (Emission.parts texts).ComesFrom parts := .code _

theorem ComesFrom.mono {e : Emission} (h : e.ComesFrom parts) (hsub : parts ⊆ parts') :
    e.ComesFrom parts' := by
  cases h with
  | code t => exact .code t
  | part hpart he => exact .part (hsub hpart) he

end Emission

theorem Emits.comesFrom {part : Part} {e : Emission} (h : Emits part e) :
    e.ComesFrom [part] :=
  .part (List.mem_singleton_self part) h

@[simp]
theorem comeFrom_nil : ComeFrom parts [] := by simp [ComeFrom]

@[simp]
theorem comeFrom_cons {e : Emission} :
    ComeFrom parts (e :: es) ↔ e.ComesFrom parts ∧ ComeFrom parts es :=
  List.forall_mem_cons

@[simp]
theorem comeFrom_append : ComeFrom parts (es ++ fs) ↔ ComeFrom parts es ∧ ComeFrom parts fs :=
  List.forall_mem_append

theorem comeFrom_flatMap {α : Type} {xs : List α} {emit : α → List Emission}
    (h : ∀ x ∈ xs, ComeFrom parts (emit x)) : ComeFrom parts (xs.flatMap emit) := by
  intro e he
  obtain ⟨x, hx, he⟩ := List.mem_flatMap.1 he
  exact h x hx e he

theorem ComeFrom.append (he : ComeFrom parts es) (hf : ComeFrom parts' fs) :
    ComeFrom (parts ++ parts') (es ++ fs) := by
  rw [comeFrom_append]
  constructor
  · exact fun e hmem => (he e hmem).mono (List.subset_append_left _ _)
  · exact fun e hmem => (hf e hmem).mono (List.subset_append_right _ _)

section Properties

variable (hp : p ∈ head.properties)

include hp

theorem slotScope_comeFrom (owner : Option Text) : ComeFrom [.head head] (slotScope owner p) := by
  simp only [slotScope]
  split
  · split
    · simp [(Emits.value hp (List.mem_singleton_self _)).comesFrom]
    · simp
  · simp

theorem soleValue?_emits {value : Expression} (h : soleValue? p = some value) :
    Emits (.head head) (.expression value .all) := by
  refine .value hp ?_
  rcases p with a | d
  · simp [soleValue?] at h
  · simp only [soleValue?] at h
    split at h
    · simpa [Property.values] using h
    · simp at h

theorem soleValueCheck_comeFrom : ComeFrom [.head head] (soleValueCheck p) := by
  simp only [soleValueCheck]
  split
  · next value hvalue => simp [(soleValue?_emits hp hvalue).comesFrom]
  · simp

theorem slotEntry_comeFrom : ComeFrom [.head head] (slotEntry p) := by
  simp only [slotEntry]
  split
  · next argument value h =>
    simp only [argumentAndValue?] at h
    split at h
    · cases h
      have hname := Emits.argumentName _ (some .property) hp rfl (.inl rfl)
      have hvalue := Emits.value hp (x := value) (by simp [Property.values])
      simp [hname.comesFrom, hvalue.comesFrom]
    · simp at h
  · simp

end Properties

theorem argument_of_boundArgument? {d : Directive} {x : Expression}
    (h : boundArgument? d = some x) : d.argument = some x := by
  simp only [boundArgument?] at h
  split at h
  · simp at h
  · exact h

section Directives

variable {a : Attribute} {d : Directive} {x : Expression}

theorem attributeProperty_comeFrom (ha : .attribute a ∈ head.properties) :
    ComeFrom [.head head] (attributeProperty a) := by
  have hname := fun spelling => Emits.attributeName spelling ha
  simp only [attributeProperty, comeFrom_append, comeFrom_cons, comeFrom_nil,
    Emission.comesFrom_parts, and_true]
  refine ⟨⟨(Emits.attributeEntry ha).comesFrom, (hname _ (.inr rfl)).comesFrom⟩, ?_⟩
  split
  · simp
  · simp [(hname _ (.inl rfl)).comesFrom]

variable (hd : .directive d ∈ head.properties) (hx : d.argument = some x)

include hd hx

theorem boundProperty_comeFrom : ComeFrom [.head head] (boundProperty d x) := by
  have hname := fun spelling =>
    Emits.argumentName spelling (some .property) hd hx
  have hvalue : ∀ value, d.value = some value → Emits (.head head) (.expression value .all) :=
    fun value h => .value hd (by simp [Property.values, h])
  simp only [boundProperty, comeFrom_append, comeFrom_cons, comeFrom_nil,
    Emission.comesFrom_literal, and_true, true_and]
  refine ⟨⟨(Emits.bindingEntry hd hx).comesFrom, (hname _ (.inr rfl)).comesFrom, ?_⟩, ?_⟩
  · split
    · next value h => exact (hvalue value h).comesFrom
    · exact .code _
  · split
    · simp
    · simp [(hname _ (.inl rfl)).comesFrom]

theorem listenerCode_comeFrom (var : Text) :
    ComeFrom [.head head] (listenerCode tag var d x next).emissions := by
  have hname := Emits.argumentName _ none hd hx (.inl rfl)
  have hlistener := Emits.listener hd hx
  simp only [listenerCode]
  split
  · next value h =>
    have hvalue := Emits.value hd (x := value) (by simp [Property.values, h])
    simp only [handlerCode, comeFrom_append, comeFrom_cons, comeFrom_nil, Emission.comesFrom_parts,
      Emission.comesFrom_literal, hname.comesFrom, hlistener.comesFrom, hvalue.comesFrom, and_self]
  · simp only [comeFrom_append, comeFrom_cons, comeFrom_nil, Emission.comesFrom_parts,
      Emission.comesFrom_literal, hname.comesFrom, hlistener.comesFrom, and_self]

end Directives

section Properties

variable (hp : p ∈ head.properties)

include hp

theorem propertyEntry_comeFrom : ComeFrom [.head head] (propertyEntry p) := by
  rcases p with a | d
  · exact attributeProperty_comeFrom hp
  · simp only [propertyEntry]
    split
    · next x hx =>
      split
      · exact boundProperty_comeFrom hp (argument_of_boundArgument? hx)
      · simp
    · simp [directiveComment]

theorem propertyListener_comeFrom :
    ComeFrom [.head head] (propertyListener tag next p).emissions := by
  rcases p with a | d
  · simp [propertyListener]
  · simp only [propertyListener]
    split
    · next x hx =>
      split
      · exact listenerCode_comeFrom hp (argument_of_boundArgument? hx) _
      · simp
    · simp

theorem declarationReference_comeFrom : ComeFrom [.head head] (declarationReference tag p) := by
  rcases p with a | d
  · have hname := Emits.attributeName _ hp (.inr rfl)
    simp [declarationReference, optionReference, hname.comesFrom]
  · simp only [declarationReference, optionReference]
    split
    · next x hx =>
      have hname := fun mark =>
        Emits.argumentName _ mark hp (argument_of_boundArgument? hx) (.inr rfl)
      split
      · simp [(hname (some .property)).comesFrom]
      · split
        · simp [(hname none).comesFrom]
        · simp
    · simp

end Properties

theorem propertyBag_comeFrom (head : ElementHead) :
    ComeFrom [.head head] (propertyBag head) := by
  have hentries : ComeFrom [.head head] (head.properties.flatMap propertyEntry) :=
    comeFrom_flatMap fun p hp => propertyEntry_comeFrom hp
  simp only [propertyBag, comeFrom_append, comeFrom_cons, comeFrom_nil,
    Emission.comesFrom_literal, hentries, (Emits.bag head).comesFrom,
    (Emits.tagName head).comesFrom, and_self]

theorem listeners_comeFrom {ps : List Property} (hps : ps ⊆ head.properties) :
    ComeFrom [.head head] (listeners tag next ps).emissions := by
  induction ps generalizing next with
  | nil => simp [listeners]
  | cons p ps ih =>
    obtain ⟨hp, hps⟩ := List.cons_subset.1 hps
    simp only [listeners, comeFrom_append]
    exact ⟨propertyListener_comeFrom hp, ih hps⟩

theorem slotBinding_comeFrom (head : ElementHead) :
    ComeFrom [.head head] (slotBinding head next).emissions := by
  have hentries : ComeFrom [.head head] (head.properties.flatMap slotEntry) :=
    comeFrom_flatMap fun p hp => slotEntry_comeFrom hp
  have hwhole : ∀ value, head.properties.findSome? soleValue? = some value →
      Emits (.head head) (.expression value .all) := by
    intro value h
    obtain ⟨p, hp, hvalue⟩ := List.exists_of_findSome?_eq_some h
    exact soleValue?_emits hp hvalue
  simp only [slotBinding]
  split
  · simp only [comeFrom_append, comeFrom_cons, Emission.comesFrom_parts,
      Emission.comesFrom_literal, comeFrom_nil, and_true]
    refine ⟨⟨?_, hentries⟩, ?_⟩
    · split
      · next value hvalue => simp [(hwhole value hvalue).comesFrom]
      · simp
    · split
      · simp [(Emits.slot head _).comesFrom]
      · simp
  · simp

theorem elementStart_comeFrom (head : ElementHead) (ancestors : List Text) (next : Nat) :
    ComeFrom [.head head] (elementStart head ancestors next).emissions := by
  have heach : ∀ emit : Property → List Emission,
      (∀ p ∈ head.properties, ComeFrom [.head head] (emit p)) →
      ComeFrom [.head head] (head.properties.flatMap emit) := fun _ => comeFrom_flatMap
  simp [elementStart, (Emits.tag head).comesFrom, propertyBag_comeFrom, slotBinding_comeFrom,
    listeners_comeFrom (List.Subset.refl _), heach _ fun p hp => slotScope_comeFrom hp _,
    heach _ fun p hp => soleValueCheck_comeFrom hp,
    heach _ fun p hp => declarationReference_comeFrom hp]

theorem componentReference_comeFrom (head : ElementHead) :
    ComeFrom [.head head] (componentReference head) := by
  simp only [componentReference, comeFrom_cons, comeFrom_nil, Emission.comesFrom_parts,
    Emission.comesFrom_literal, (Emits.options head).comesFrom, and_self]

theorem loopStart_comeFrom {clause : LoopClause} {value : Expression}
    (h : clause.value = some value) :
    ComeFrom [.clause clause] (loopStart clause value next) := by
  have hbinding : ∀ (binding : Option Expression) (initial : String),
      binding.toList ⊆ clause.expressions →
      ComeFrom [.clause clause] (loopBinding binding initial) := by
    intro binding initial hsub
    cases binding with
    | none => simp [loopBinding]
    | some x =>
      have hx := Emits.clause (c := clause) (x := x) (hsub (by simp))
      simp [loopBinding, hx.comesFrom]
  have hsource := Emits.clause (c := clause) (x := clause.source)
    (by simp [LoopClause.expressions])
  have hvalue := Emits.clause (c := clause) (x := value) (by simp [LoopClause.expressions, h])
  have hkey : clause.key.toList ⊆ clause.expressions := by
    intro x hx
    simp [LoopClause.expressions, Option.mem_toList.1 hx]
  have hindex : clause.index.toList ⊆ clause.expressions := by
    intro x hx
    simp [LoopClause.expressions, Option.mem_toList.1 hx]
  simp [loopStart, hsource.comesFrom, hvalue.comesFrom, (Emits.source clause _).comesFrom,
    hbinding _ _ hkey, hbinding _ _ hindex]

theorem branchStart_comeFrom (first : Bool) (condition : Option Expression) :
    ComeFrom (condition.toList.map .expression) (branchStart first condition) := by
  cases condition with
  | none => simp [branchStart]
  | some x => simp [branchStart, (Emits.expression x).comesFrom]

mutual

/-- The code of a node comes from the parts of the node. -/
theorem lowerNode_comeFrom (ancestors : List Text) (shared : Bool) (next : Nat) :
    ∀ node : Node, ComeFrom node.parts (lowerNode ancestors shared next node).emissions
  | .element head children => by
    have hstart := elementStart_comeFrom head ancestors next
    have hinner := lowerAll_comeFrom (head.tag :: ancestors) false
      (elementStart head ancestors next).next children
    have hboth := comeFrom_append.1 (hstart.append hinner)
    have hreference : ComeFrom (.head head :: partsOfAll children) (componentReference head) :=
      fun e he => (componentReference_comeFrom head e he).mono (by simp)
    simp only [lowerNode, Node.parts, comeFrom_append]
    refine ⟨⟨⟨⟨?_, hboth.1⟩, hboth.2⟩, hreference⟩, ?_⟩
    · split <;> simp [openBlock]
    · split <;> simp [closeBlock]
  | .interpolation value loc => by
    simp [lowerNode, Node.parts, (Emits.expression value).comesFrom]
  | .conditional branches loc => lowerBranches_comeFrom ancestors true next branches
  | .loop clause children loc => by
    have hbody := lowerAll_comeFrom ancestors (!onTemplate loc) (next + 1) children
    simp only [lowerNode, Node.parts]
    split
    · next value hvalue =>
      rw [comeFrom_append]
      exact ⟨(loopStart_comeFrom hvalue).append hbody, by simp [closeBlock]⟩
    · simp
  | .text content span => by simp [lowerNode]
  | .comment content span => by simp [lowerNode]
  | .other kind loc => by simp [lowerNode]

theorem lowerAll_comeFrom (ancestors : List Text) (shared : Bool) (next : Nat) :
    ∀ nodes : List Node,
      ComeFrom (partsOfAll nodes) (lowerAll ancestors shared next nodes).emissions
  | [] => by simp [lowerAll]
  | node :: nodes => by
    have hfirst := lowerNode_comeFrom ancestors shared next node
    have hrest := lowerAll_comeFrom ancestors shared
      (lowerNode ancestors shared next node).next nodes
    exact hfirst.append hrest

theorem lowerBranch_comeFrom (ancestors : List Text) (first : Bool) (next : Nat) :
    ∀ branch : Branch, ComeFrom branch.parts (lowerBranch ancestors first next branch).emissions
  | .mk condition children loc => by
    have hbody := lowerAll_comeFrom ancestors (!onTemplate loc) next children
    simp only [lowerBranch, Branch.parts]
    rw [comeFrom_append]
    exact ⟨(branchStart_comeFrom first condition).append hbody, by simp [closeBlock]⟩

theorem lowerBranches_comeFrom (ancestors : List Text) (first : Bool) (next : Nat) :
    ∀ branches : List Branch,
      ComeFrom (partsOfBranches branches) (lowerBranches ancestors first next branches).emissions
  | [] => by simp [lowerBranches]
  | branch :: branches => by
    have hfirst := lowerBranch_comeFrom ancestors first next branch
    have hrest := lowerBranches_comeFrom ancestors (first && branch.condition?.isNone)
      (lowerBranch ancestors first next branch).next branches
    exact hfirst.append hrest

end

theorem lowerRoot_comeFrom (nodes : List Node) :
    ComeFrom (partsOfAll nodes) (lowerRoot next nodes).emissions := by
  induction nodes generalizing next with
  | nil => simp [lowerRoot]
  | cons node nodes ih =>
    have hblock : ComeFrom node.parts
        ([openBlock] ++ (lowerNode [] false next node).emissions ++ [closeBlock]) := by
      simp [lowerNode_comeFrom, openBlock, closeBlock]
    exact hblock.append ih

theorem exportCode_comeFrom (slots : List (Text × Text)) : ComeFrom parts (exportCode slots) := by
  simp only [exportCode, comeFrom_append]
  refine ⟨⟨by simp, ?_⟩, by simp⟩
  intro e he
  obtain ⟨s, -, rfl⟩ := List.mem_map.1 he
  exact .code _

/-- All emissions of a projection come from the parts of the template. -/
theorem project_comeFrom (root : List Node) :
    ComeFrom (partsOfAll root)
      ((lowerRoot 0 root).emissions ++ exportCode (slotsOf (lowerRoot 0 root).emissions)) :=
  comeFrom_append.2 ⟨lowerRoot_comeFrom root, exportCode_comeFrom _⟩

end TemplateProjection.Code
