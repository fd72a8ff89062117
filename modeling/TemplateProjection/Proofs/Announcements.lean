import TemplateProjection.Code.Projection
import TemplateProjection.Proofs.Assembly

/-! What is announced is written: the text of every announcement follows it in the code. -/
namespace TemplateProjection.Code

open Template

variable {es fs : List Emission} {code tag : Text} {origin : Origin} {next : Nat}

/-- The emission names no tag, announces nothing and is not linked for error checking alone. -/
def Emission.isBare : Emission → Bool
  | .mapped _ _ _ capabilities => capabilities ≠ .diagnosticOnly
  | .quoted _ _ capabilities _ => capabilities ≠ .diagnosticOnly
  | .announced _ _ => false
  | .tag _ => false
  | _ => true

def Bare (es : List Emission) : Prop := es.all Emission.isBare

theorem Bare.append (he : Bare es) (hf : Bare fs) : Bare (es ++ fs) := by
  rw [Bare, List.all_append, he, hf]
  rfl

theorem bare_flatMap {α : Type} (xs : List α) {emit : α → List Emission}
    (h : ∀ x, Bare (emit x)) : Bare (xs.flatMap emit) := by
  induction xs with
  | nil => rfl
  | cons x xs ih => exact (h x).append ih

/-- Emissions without announcements promise nothing. -/
theorem kept_of_promise_eq_nil (h : ∀ e ∈ es, e.promise = []) : Kept es := by
  induction es with
  | nil => trivial
  | cons e es ih =>
    refine ⟨?_, ih fun e' he' => h e' (List.mem_cons_of_mem _ he')⟩
    rw [h e List.mem_cons_self]
    exact List.nil_prefix

theorem Bare.kept (h : Bare es) : Kept es := by
  refine kept_of_promise_eq_nil fun e he => ?_
  have hbare := List.all_eq_true.1 h e he
  cases e with
  | announced text origin => cases hbare
  | _ => rfl

/-- The emissions announce one text, and write it next. -/
def Announces (code : Text) (origin : Origin) (es : List Emission) : Prop :=
  ∃ rest, es = .announced code origin :: rest ∧ Bare rest ∧
    code <+: rest.flatMap Emission.text

theorem Announces.kept (h : Announces code origin es) : Kept es := by
  obtain ⟨rest, rfl, hrest, hcode⟩ := h
  exact ⟨hcode, hrest.kept⟩

theorem Announces.append (h : Announces code origin es) (hf : Bare fs) :
    Announces code origin (es ++ fs) := by
  obtain ⟨rest, rfl, hrest, hcode⟩ := h
  refine ⟨rest ++ fs, rfl, hrest.append hf, hcode.trans ?_⟩
  exact ⟨fs.flatMap Emission.text, (List.flatMap_append).symm⟩

theorem boundProperty_announces (d : Directive) (argument : Expression) :
    Announces (['\''] ++ propertyKey argument.content ++ "': (".toList ++
        (d.value.map (·.content)).getD "undefined".toList ++ [')'])
      ⟨d.loc.text, [d.loc.span]⟩ (boundProperty d argument) := by
  refine Announces.append ?_ (by split <;> rfl)
  cases d.value with
  | none => exact ⟨_, rfl, rfl, ",\n".toList, by simp [Emission.text, literal]⟩
  | some value =>
    exact ⟨_, rfl, rfl, ",\n".toList, by simp [Emission.text, literal, Emission.expression]⟩

theorem attributeProperty_announces (a : Attribute) :
    Announces (['\''] ++ propertyKey a.name ++ "': ".toList ++
        (['\x60'] ++ escapeBackticks (a.value.getD []) ++ ['\x60']))
      ⟨a.loc.text, [a.loc.span]⟩ (attributeProperty a) := by
  refine Announces.append ?_ (by split <;> rfl)
  exact ⟨_, rfl, rfl, ",\n".toList, by simp [Emission.text, Emission.parts]⟩

theorem propertyEntry_kept (p : Property) : Kept (propertyEntry p) := by
  rcases p with a | d
  · exact (attributeProperty_announces a).kept
  · simp only [propertyEntry]
    split
    · split
      · exact (boundProperty_announces d _).kept
      · trivial
    · exact Bare.kept rfl

/-- The properties are announced under the tag, before they are listed. -/
theorem propertyBag_announces (head : ElementHead) :
    ∃ start,
      propertyBag head = start ++ head.properties.flatMap propertyEntry ++ [literal "\x7d;\n"] ∧
      Announces ("__VDS_componentProps['".toList ++ head.tag ++ "']".toList)
        ⟨head.tag, [head.tagSpan]⟩ start :=
  ⟨_, rfl, _, rfl, rfl, " = \x7b\n".toList, by simp [Emission.text, literal]⟩

theorem propertyBag_kept (head : ElementHead) : Kept (propertyBag head) := by
  obtain ⟨start, hbag, hstart⟩ := propertyBag_announces head
  rw [hbag]
  exact (hstart.kept.append (kept_flatMap _ propertyEntry_kept)).append (Bare.kept rfl)

theorem slotScope_bare (owner : Option Text) (p : Property) :
    Bare (slotScope owner p) := by
  simp only [slotScope]
  repeat' split
  all_goals rfl

theorem soleValueCheck_bare (p : Property) : Bare (soleValueCheck p) := by
  simp only [soleValueCheck]
  split <;> rfl

theorem propertyListener_bare (p : Property) :
    Bare (propertyListener tag next p).emissions := by
  rcases p with a | d
  · rfl
  · simp only [propertyListener, listenerCode, handlerCode]
    repeat' split
    all_goals rfl

theorem listeners_bare (tag : Text) (next : Nat) (ps : List Property) :
    Bare (listeners tag next ps).emissions := by
  induction ps generalizing next with
  | nil => rfl
  | cons p ps ih => exact (propertyListener_bare p).append (ih _)

theorem declarationReference_bare (tag : Text) (p : Property) :
    Bare (declarationReference tag p) := by
  rcases p with a | d
  · rfl
  · simp only [declarationReference, optionReference]
    repeat' split
    all_goals rfl

theorem slotEntry_bare (p : Property) : Bare (slotEntry p) := by
  simp only [slotEntry]
  split <;> rfl

theorem slotBinding_bare (head : ElementHead) (next : Nat) :
    Bare (slotBinding head next).emissions := by
  simp only [slotBinding]
  split
  · refine Bare.append (Bare.append (Bare.append (Bare.append ?_ rfl)
      (bare_flatMap _ slotEntry_bare)) rfl) ?_
    · split <;> rfl
    · split <;> rfl
  · rfl

/-- Around its properties, an element names its tag and announces nothing. -/
theorem elementStart_eq (head : ElementHead) (ancestors : List Text) (next : Nat) :
    ∃ before after, (elementStart head ancestors next).emissions =
        [.tag head.tag] ++ before ++ propertyBag head ++ after ∧ Bare before ∧ Bare after := by
  have hbefore := (bare_flatMap head.properties
    (slotScope_bare (slotOwner? head.tag ancestors))).append
      (bare_flatMap head.properties soleValueCheck_bare)
  have hreferences := (listeners_bare head.tag next head.properties).append
    (bare_flatMap head.properties (declarationReference_bare head.tag))
  have hafter := hreferences.append
    (slotBinding_bare head (listeners head.tag next head.properties).next)
  refine ⟨_, _, ?_, hbefore, hafter⟩
  simp only [elementStart, List.append_assoc]

theorem elementStart_kept (head : ElementHead) (ancestors : List Text) :
    Kept (elementStart head ancestors next).emissions := by
  obtain ⟨before, after, heq, hbefore, hafter⟩ := elementStart_eq head ancestors next
  have htag : Kept [.tag head.tag] := ⟨List.nil_prefix, trivial⟩
  rw [heq]
  exact ((htag.append hbefore.kept).append (propertyBag_kept head)).append hafter.kept

theorem componentReference_bare (head : ElementHead) : Bare (componentReference head) := rfl

theorem loopBinding_bare (binding : Option Expression) (initial : String) :
    Bare (loopBinding binding initial) := by
  cases binding <;> rfl

theorem loopStart_kept (clause : LoopClause) (value : Expression) :
    Kept (loopStart clause value next) := by
  refine Kept.append (Kept.append (kept_of_promise_eq_nil ?_) (loopBinding_bare _ _).kept)
    (loopBinding_bare _ _).kept
  simp [Emission.promise, Emission.parts, Emission.expression, literal]

theorem openBlock_bare (shared : Bool) : Bare (if shared then [] else [openBlock]) := by
  cases shared <;> rfl

theorem closeBlock_bare (shared : Bool) : Bare (if shared then [] else [closeBlock]) := by
  cases shared <;> rfl

theorem branchStart_bare (first : Bool) (condition : Option Expression) :
    Bare (branchStart first condition) := by
  cases condition <;> rfl

mutual

theorem lowerNode_kept (ancestors : List Text) (shared : Bool) (next : Nat) :
    ∀ node : Node, Kept (lowerNode ancestors shared next node).emissions
  | .element head children => by
    have hinner := lowerAll_kept (head.tag :: ancestors) false
      (elementStart head ancestors next).next children
    exact ((((openBlock_bare shared).kept.append (elementStart_kept head ancestors)).append
      hinner).append (componentReference_bare head).kept).append (closeBlock_bare shared).kept
  | .interpolation value loc => Bare.kept rfl
  | .conditional branches loc => lowerBranches_kept ancestors true next branches
  | .loop clause children loc => by
    simp only [lowerNode]
    split
    · next value hvalue =>
      exact ((loopStart_kept clause value).append (lowerAll_kept ancestors _ _ children)).append
        (closeBlock_bare false).kept
    · trivial
  | .text content span => trivial
  | .comment content span => trivial
  | .other kind loc => Bare.kept rfl

theorem lowerAll_kept (ancestors : List Text) (shared : Bool) (next : Nat) :
    ∀ nodes : List Node, Kept (lowerAll ancestors shared next nodes).emissions
  | [] => trivial
  | node :: nodes =>
    (lowerNode_kept ancestors shared next node).append (lowerAll_kept ancestors shared _ nodes)

theorem lowerBranch_kept (ancestors : List Text) (first : Bool) (next : Nat) :
    ∀ branch : Branch, Kept (lowerBranch ancestors first next branch).emissions
  | .mk condition children _ =>
    ((branchStart_bare first condition).kept.append (lowerAll_kept ancestors _ _ children)).append
      (closeBlock_bare false).kept

theorem lowerBranches_kept (ancestors : List Text) (first : Bool) (next : Nat) :
    ∀ branches : List Branch, Kept (lowerBranches ancestors first next branches).emissions
  | [] => trivial
  | branch :: branches =>
    (lowerBranch_kept ancestors first next branch).append
      (lowerBranches_kept ancestors _ _ branches)

end

theorem lowerRoot_kept (nodes : List Node) : Kept (lowerRoot next nodes).emissions := by
  induction nodes generalizing next with
  | nil => trivial
  | cons node nodes ih =>
    exact (((openBlock_bare false).kept.append (lowerNode_kept [] false next node)).append
      (closeBlock_bare false).kept).append ih

theorem exportCode_bare (slots : List (Text × Text)) : Bare (exportCode slots) := by
  have hslots : Bare (slots.map fun s =>
      .parts ["'".toList, s.1, "': ".toList, s.2, ",\n".toList]) := by
    simp [Bare, Emission.isBare, Emission.parts]
  refine Bare.append (Bare.append ?_ hslots) ?_
  · rfl
  · rfl

/-- Every mapping of a projection is a link of what its template emits. -/
theorem exists_link_of_mem_project {alignment : Option Outline.Alignment} {root : List Node}
    {m : Mapping} (h : m ∈ (project alignment root).mappings) :
    ∃ e ∈ (lowerRoot 0 root).emissions ++ exportCode (slotsOf (lowerRoot 0 root).emissions),
      ∃ link ∈ e.links, link.RealizedBy alignment (project alignment root).text m :=
  exists_link_of_mem_assemble ((lowerRoot_kept root).append (exportCode_bare _).kept) h

end TemplateProjection.Code
