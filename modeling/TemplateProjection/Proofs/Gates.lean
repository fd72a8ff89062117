import TemplateProjection.Proofs.Announcements
import TemplateProjection.Proofs.Lists
import TemplateProjection.Proofs.Relocation
import TemplateProjection.Proofs.TagUses

/-!
Gates: the pieces of code that are linked as a whole, for error checking alone. Most of them are
announced before they are written. Each covers all that is written for one construct of the template
and nothing else, and leads back to that construct.
-/
namespace TemplateProjection.Code

open Template

/-- A construct of the template whose code is linked as a whole. -/
inductive Gate where
  /-- The properties of an element, under the name by which they are checked. -/
  | bag (head : ElementHead)
  | binding (d : Directive) (argument : Expression)
  | plain (a : Attribute)
  /-- The source of a loop, under the variable that holds it. -/
  | source (clause : LoopClause)

inductive GateKind where
  | bag
  | binding
  | plain
  | source
deriving DecidableEq, Repr

namespace Gate

def kind : Gate → GateKind
  | .bag _ => .bag
  | .binding _ _ => .binding
  | .plain _ => .plain
  | .source _ => .source

/-- Where the construct stands in the markup. -/
def span : Gate → Span
  | .bag head => head.tagSpan
  | .binding d _ => d.loc.span
  | .plain a => a.loc.span
  | .source clause => clause.source.span

/-- `code` is what is written for the construct behind `lead`. The variable of a loop is the one
that has just been declared to hold its source. -/
def Written (lead code : Text) : Gate → Prop
  | .bag head => code = "__VDS_componentProps['".toList ++ head.tag ++ "']".toList
  | .binding d argument =>
    code = ['\''] ++ propertyKey argument.content ++ "': (".toList ++
      (d.value.map (·.content)).getD "undefined".toList ++ [')']
  | .plain a =>
    code = ['\''] ++ propertyKey a.name ++ "': ".toList ++
      (['\x60'] ++ escapeBackticks (a.value.getD []) ++ ['\x60'])
  | .source clause =>
    ∃ n, code = variableName n ∧
      "const ".toList ++ variableName n ++ " = __VDS_getVforSourceType(".toList ++
        clause.source.content ++ ");\nfor (__VDS_for_key in ".toList <:+ lead

/-- The mapping leads from the code of the construct. -/
structure CoveredBy (text : Text) (gate : Gate) (m : Mapping) : Prop where
  mode : m.mode = .gate
  written : ∃ lead code, text.upTo? m.synthetic.start = some lead ∧
    text.slice? m.synthetic = some code ∧ gate.Written lead code

/-- The mapping leads from the code of the construct to the construct. -/
def LinkedBy (text : Text) (gate : Gate) (m : Mapping) : Prop :=
  gate.CoveredBy text m ∧ m.original = gate.span

end Gate

/-- A plain attribute is a gate, and so is a property that is bound to a value. -/
def propertyGates : Property → List Gate
  | .attribute a => [.plain a]
  | .directive d => if isBinding d then (boundArgument? d).toList.map (.binding d) else []

/-- The gates of a node itself, without those of its children. -/
def gatesOf : Node → List Gate
  | .element head _ => .bag head :: head.properties.flatMap propertyGates
  | .loop clause _ _ => if clause.value.isSome then [.source clause] else []
  | _ => []

variable {alignment : Option Outline.Alignment} {gate : Gate} {gates gates' : List Gate}
  {es fs before after : List Emission} {e : Emission} {m m' : Mapping} {root : List Node}
  {text lead code needle : Text}

/-- Tell the kind of a gate from its code. -/
def GateKind.ofCode (code : Text) : GateKind :=
  if code.head? = some '\'' then if code.getLast? = some ')' then .binding else .plain
  else if code[6]? = some 'c' then .bag else .source

theorem Gate.Written.ofCode (h : gate.Written lead code) : GateKind.ofCode code = gate.kind := by
  cases gate with
  | bag head =>
    obtain rfl : code = _ := h
    rfl
  | binding d argument =>
    have hhead : code.head? = some '\'' := by
      rw [show code = _ from h]
      rfl
    have hlast : code.getLast? = some ')' := by
      rw [show code = _ from h]
      exact List.getLast?_concat
    rw [GateKind.ofCode, if_pos hhead, if_pos hlast, Gate.kind]
  | plain a =>
    have hhead : code.head? = some '\'' := by
      rw [show code = _ from h]
      rfl
    have hlast : code.getLast? = some '\x60' := by
      rw [show code = _ from h, ← List.append_assoc]
      exact List.getLast?_concat
    rw [GateKind.ofCode, if_pos hhead, hlast, Gate.kind]
    rfl
  | source clause =>
    obtain ⟨n, rfl, -⟩ := h
    -- the variable goes on with a digit where the name of a bag has a letter
    have hdigit : (variableName n)[6]? ≠ some 'c' := by
      intro hc
      have hmem : 'c' ∈ Nat.toDigits 10 n := List.mem_of_getElem? (i := 0) hc
      have hc := Nat.isDigit_of_mem_toDigits (by decide) (by decide) hmem
      exact absurd hc (by decide)
    rw [GateKind.ofCode, if_neg hdigit]
    rfl

theorem Gate.coveredBy_of_append (rest : Text) (happ : text = lead ++ code ++ rest)
    (hmode : m.mode = .gate) (hsynthetic : m.synthetic = ⟨lead.byteLength, code.byteLength⟩)
    (hwritten : gate.Written lead code) : gate.CoveredBy text m := by
  refine ⟨hmode, lead, code, ?_, ?_, hwritten⟩
  · rw [hsynthetic, Text.upTo?, happ, List.append_assoc, Text.cut?_byteLength]
    rfl
  · rw [hsynthetic]
    exact Text.slice?_eq_some_iff.2 ⟨lead, rest, happ, rfl, rfl⟩

/-- The mappings that serve error checking alone. -/
def gateMappings (ms : List Mapping) : List Mapping :=
  ms.filter (·.capabilities = .diagnosticOnly)

theorem gateMappings_append (ms ns : List Mapping) :
    gateMappings (ms ++ ns) = gateMappings ms ++ gateMappings ns := List.filter_append ..

theorem gateMappings_shift (ms : List Mapping) (offset : Nat) :
    gateMappings (ms.map (·.shift offset)) = (gateMappings ms).map (·.shift offset) := by
  rw [gateMappings, List.filter_map]
  rfl

theorem Emission.capabilities_ne (h : e.isBare)
    (hm : m ∈ (e.fragment alignment).mappings) : m.capabilities ≠ .diagnosticOnly := by
  cases e with
  | mapped text origin mode capabilities =>
    simp only [Emission.fragment, Fragment.mapped_mappings] at hm
    obtain ⟨o, -, rfl⟩ := List.mem_map.1 hm
    exact of_decide_eq_true h
  | quoted text origin capabilities mark =>
    simp only [Emission.fragment, Fragment.quoted_mappings, List.mem_append] at hm
    rcases hm with hm | hm
    all_goals
      obtain ⟨o, -, rfl⟩ := List.mem_map.1 hm
      exact of_decide_eq_true h
  | announced text origin => cases h
  | code text => cases hm
  | tag name => cases hm
  | slot name var => cases hm

theorem Bare.gateMappings (h : Bare es) :
    gateMappings (assemble alignment es).mappings = [] := by
  rw [Code.gateMappings, List.filter_eq_nil_iff]
  intro m hm
  obtain ⟨before, e, after, rfl, m', hm', rfl⟩ := exists_of_mem_assemble hm
  have hne := Emission.capabilities_ne (List.all_eq_true.1 h e (by simp)) hm'
  exact fun hcap => hne (of_decide_eq_true hcap)

/-- Wherever the emissions stand, the gates among them are `gates`, in this order. -/
def Gated (gates : List Gate) (es : List Emission) : Prop :=
  ∀ lead rest : Text,
    List.Forall₂ (Gate.LinkedBy (lead ++ es.flatMap Emission.text ++ rest)) gates
      ((gateMappings (assemble none es).mappings).map (·.shift lead.byteLength))

theorem gated_nil : Gated [] [] := fun _ _ => .nil

theorem Bare.gated (h : Bare es) : Gated [] es := by
  intro lead rest
  rw [h.gateMappings]
  exact .nil

theorem Gated.append (he : Gated gates es) (hf : Gated gates' fs) :
    Gated (gates ++ gates') (es ++ fs) := by
  intro lead rest
  have hfirst := he lead (fs.flatMap Emission.text ++ rest)
  have hsecond := hf (lead ++ es.flatMap Emission.text) rest
  have htext : lead ++ (es ++ fs).flatMap Emission.text ++ rest =
      lead ++ es.flatMap Emission.text ++ fs.flatMap Emission.text ++ rest := by simp
  rw [assemble_append_mappings, gateMappings_append, gateMappings_shift, List.map_append,
    List.map_map, htext]
  refine List.rel_append ?_ ?_
  · rwa [← List.append_assoc] at hfirst
  · simpa [Function.comp_def, Mapping.shift_shift, Nat.add_comm] using hsecond

theorem Bare.append_gated (he : Bare es) (hf : Gated gates fs) : Gated gates (es ++ fs) :=
  he.gated.append hf

theorem Gated.append_bare (he : Gated gates es) (hf : Bare fs) : Gated gates (es ++ fs) := by
  have h := he.append hf.gated
  rwa [List.append_nil] at h

theorem gated_flatMap {α : Type} (xs : List α) {own : α → List Gate} {emit : α → List Emission}
    (h : ∀ x, Gated (own x) (emit x)) : Gated (xs.flatMap own) (xs.flatMap emit) := by
  induction xs with
  | nil => exact gated_nil
  | cons x xs ih => exact (h x).append ih

/-- A gate among emissions without one. Its code is written by its own emission or behind it. -/
theorem gated_gate (code : Text) (hbefore : Bare before) (hafter : Bare after)
    (hown : (e.fragment none).mappings =
      [Fragment.mappingTo code.byteLength .gate .diagnosticOnly none gate.span])
    (hcode : code <+: (e :: after).flatMap Emission.text)
    (hwritten : ∀ lead, gate.Written (lead ++ before.flatMap Emission.text) code) :
    Gated [gate] (before ++ e :: after) := by
  intro lead rest
  have hmappings : gateMappings (assemble none (before ++ e :: after)).mappings =
      [(Fragment.mappingTo code.byteLength .gate .diagnosticOnly none gate.span).shift
        (Text.byteLength (before.flatMap Emission.text))] := by
    rw [assemble_append_mappings, gateMappings_append, hbefore.gateMappings, gateMappings_shift,
      assemble, Fragment.append_mappings, gateMappings_append, hown, gateMappings_shift,
      hafter.gateMappings]
    rfl
  obtain ⟨tail, htail⟩ := hcode
  rw [hmappings]
  refine .cons ⟨Gate.coveredBy_of_append (tail ++ rest) ?_ ?_ ?_ (hwritten lead), rfl⟩ .nil
  · simp [← htail]
  · simp [Mapping.shift, Fragment.mappingTo]
  · simp [Mapping.shift, Fragment.mappingTo, Span.shift, Nat.add_comm]

theorem Announces.gated (h : Announces code ⟨needle, [gate.span]⟩ es)
    (hwritten : ∀ lead, gate.Written lead code) : Gated [gate] es := by
  obtain ⟨rest, rfl, hrest, hcode⟩ := h
  have hnone : Bare [] := rfl
  exact gated_gate code hnone hrest rfl hcode fun lead => hwritten _

theorem propertyEntry_gated (p : Property) : Gated (propertyGates p) (propertyEntry p) := by
  rcases p with a | d
  · exact (attributeProperty_announces a).gated fun _ => rfl
  · simp only [propertyGates, propertyEntry]
    cases boundArgument? d with
    | none =>
      have hcomment : Bare [directiveComment d] := rfl
      simpa using hcomment.gated
    | some argument =>
      cases isBinding d with
      | true => exact (boundProperty_announces d argument).gated fun _ => rfl
      | false => exact gated_nil

theorem propertyBag_gated (head : ElementHead) :
    Gated (.bag head :: head.properties.flatMap propertyGates) (propertyBag head) := by
  obtain ⟨start, hbag, hstart⟩ := propertyBag_announces head
  have hname : Gated [.bag head] start := hstart.gated fun _ => rfl
  have hentries := gated_flatMap head.properties propertyEntry_gated
  rw [hbag]
  exact (hname.append hentries).append_bare rfl

theorem elementStart_gated (head : ElementHead) (ancestors : List Text) (next : Nat) :
    Gated (.bag head :: head.properties.flatMap propertyGates)
      (elementStart head ancestors next).emissions := by
  obtain ⟨before, after, heq, hbefore, hafter⟩ := elementStart_eq head ancestors next
  have htag : Gated [] [.tag head.tag] := fun _ _ => .nil
  rw [heq]
  exact ((htag.append_bare hbefore).append (propertyBag_gated head)).append_bare hafter

/-- The variable of a loop is linked where it is used first, just behind its declaration. -/
theorem loopStart_gated (clause : LoopClause) (value : Expression) (next : Nat) :
    Gated [.source clause] (loopStart clause value next) := by
  have hstart : Gated [.source clause]
      ([.parts ["const ".toList, variableName next, " = __VDS_getVforSourceType(".toList],
          .expression clause.source .noFormatting, literal ");\nfor (__VDS_for_key in "] ++
        .mapped (variableName next) ⟨clause.source.content, [clause.source.span]⟩ .gate
          .diagnosticOnly ::
        [literal ") \x7b\nconst ", .expression value .noFormatting,
          .parts [" = ".toList, variableName next, "[__VDS_for_key];\n".toList]]) := by
    refine gated_gate (variableName next) rfl rfl ?_ ?_ ?_
    · simp [Emission.fragment, Origin.resolve, Gate.span]
    · exact ⟨_, rfl⟩
    · intro lead
      refine ⟨next, rfl, lead, ?_⟩
      simp [Emission.text, Emission.parts, Emission.expression, literal]
  exact (hstart.append_bare (loopBinding_bare _ _)).append_bare (loopBinding_bare _ _)

mutual

/-- The gates of a node's code are those of the nodes in it, in document order. -/
theorem lowerNode_gated (ancestors : List Text) (shared : Bool) (next : Nat) :
    ∀ node : Node, Gated (node.inOrder.flatMap gatesOf)
      (lowerNode ancestors shared next node).emissions
  | .element head children => by
    have hstart := (openBlock_bare shared).append_gated (elementStart_gated head ancestors next)
    have hinner := lowerAll_gated (head.tag :: ancestors) false
      (elementStart head ancestors next).next children
    exact ((hstart.append hinner).append_bare (componentReference_bare head)).append_bare
      (closeBlock_bare shared)
  | .interpolation value loc => Bare.gated rfl
  | .conditional branches loc => lowerBranches_gated ancestors true next branches
  | .loop clause children loc => by
    have hbody := lowerAll_gated ancestors (!onTemplate loc) (next + 1) children
    simp only [lowerNode, Node.inOrder, List.flatMap_cons, gatesOf]
    cases clause.value with
    | none => exact gated_nil
    | some value =>
      exact ((loopStart_gated clause value next).append hbody).append_bare
        (closeBlock_bare false)
  | .text content span => gated_nil
  | .comment content span => gated_nil
  | .other kind loc => Bare.gated rfl

theorem lowerAll_gated (ancestors : List Text) (shared : Bool) (next : Nat) :
    ∀ nodes : List Node, Gated ((inOrderAll nodes).flatMap gatesOf)
      (lowerAll ancestors shared next nodes).emissions
  | [] => gated_nil
  | node :: nodes => by
    rw [inOrderAll, List.flatMap_append]
    exact (lowerNode_gated ancestors shared next node).append
      (lowerAll_gated ancestors shared _ nodes)

theorem lowerBranch_gated (ancestors : List Text) (first : Bool) (next : Nat) :
    ∀ branch : Branch, Gated (branch.inOrder.flatMap gatesOf)
      (lowerBranch ancestors first next branch).emissions
  | .mk condition children loc =>
    ((branchStart_bare first condition).append_gated
      (lowerAll_gated ancestors (!onTemplate loc) next children)).append_bare
      (closeBlock_bare false)

theorem lowerBranches_gated (ancestors : List Text) (first : Bool) (next : Nat) :
    ∀ branches : List Branch, Gated ((inOrderBranches branches).flatMap gatesOf)
      (lowerBranches ancestors first next branches).emissions
  | [] => gated_nil
  | branch :: branches => by
    rw [inOrderBranches, List.flatMap_append]
    exact (lowerBranch_gated ancestors first next branch).append
      (lowerBranches_gated ancestors _ _ branches)

end

theorem lowerRoot_gated (next : Nat) (nodes : List Node) :
    Gated ((inOrderAll nodes).flatMap gatesOf) (lowerRoot next nodes).emissions := by
  induction nodes generalizing next with
  | nil => exact gated_nil
  | cons node nodes ih =>
    have hblock := ((openBlock_bare false).append_gated
      (lowerNode_gated [] false next node)).append_bare (closeBlock_bare false)
    rw [inOrderAll, List.flatMap_append]
    exact hblock.append (ih _)

/-- Without an outline, each gate is linked to its construct. -/
theorem project_linked (root : List Node) :
    List.Forall₂ (Gate.LinkedBy (project none root).text) ((inOrderAll root).flatMap gatesOf)
      (gateMappings (project none root).mappings) := by
  have hgated := (lowerRoot_gated 0 root).append_bare
    (exportCode_bare (slotsOf (lowerRoot 0 root).emissions))
  have hwhole := hgated [] []
  rw [List.nil_append, List.append_nil, ← assemble_text, Text.byteLength_nil,
    Mapping.map_shift_zero] at hwhole
  exact hwhole

theorem Gate.CoveredBy.relocated (h : gate.CoveredBy text m) (hm : Relocated m' m) :
    gate.CoveredBy text m' := by
  obtain ⟨start, rfl⟩ := hm
  exact ⟨h.mode, h.written⟩

/-- With an outline, a mapping is one without it that may lead elsewhere. -/
theorem exists_relocated (hm : m ∈ (project alignment root).mappings) :
    ∃ m₀ ∈ (project none root).mappings, Relocated m m₀ ∧ (alignment = none → m = m₀) := by
  cases alignment with
  | none => exact ⟨m, hm, ⟨m.original.start, rfl⟩, fun _ => rfl⟩
  | some a =>
    obtain ⟨kept, hkept, hsub⟩ := List.sublistForall₂_iff.1 (assemble_relocated (a := a) _)
    obtain ⟨m₀, hm₀, hrelocated⟩ := exists_of_mem_forall₂ (.flip hkept) hm
    exact ⟨m₀, hsub.subset hm₀, hrelocated, by simp⟩

/-- What is linked for error checking alone is exactly what is written for a construct of the
template. With or without an outline, the code of such a mapping is the name under which the
properties of an element are checked, the entry of a bound property or of a plain attribute, or the
variable just declared for the source of a loop. Which of the four it is can be told from the code.
Without an outline the mapping leads to the construct, and the constructs that are reached have one
such mapping each, in document order. -/
theorem gates_cover_what_is_written (alignment : Option Outline.Alignment) (root : List Node) :
    (∀ m ∈ (project alignment root).mappings, m.capabilities = .diagnosticOnly →
      ∃ gate ∈ (inOrderAll root).flatMap gatesOf,
        gate.CoveredBy (project alignment root).text m ∧
          (alignment = none → m.original = gate.span)) ∧
    (∀ (gate gate' : Gate) (lead lead' code : Text),
      gate.Written lead code → gate'.Written lead' code → gate.kind = gate'.kind) ∧
    List.Forall₂ (Gate.LinkedBy (project none root).text) ((inOrderAll root).flatMap gatesOf)
      (gateMappings (project none root).mappings) := by
  have hlinked := project_linked root
  refine ⟨?_, fun _ _ _ _ _ h h' => h.ofCode.symm.trans h'.ofCode, hlinked⟩
  intro m hm hcap
  obtain ⟨m₀, hm₀, hrelocated, hsame⟩ := exists_relocated hm
  have hcap₀ : m₀.capabilities = .diagnosticOnly := by
    obtain ⟨start, rfl⟩ := hrelocated
    exact hcap
  have hgate : m₀ ∈ gateMappings (project none root).mappings :=
    List.mem_filter.2 ⟨hm₀, decide_eq_true hcap₀⟩
  have htext : (project alignment root).text = (project none root).text := by
    simp only [project, assemble_text]
  obtain ⟨gate, hreached, hcovered, hspan⟩ := exists_of_mem_forall₂ hlinked hgate
  refine ⟨gate, hreached, ?_, fun hnone => ?_⟩
  · rw [htext]
    exact hcovered.relocated hrelocated
  · rw [hsame hnone]
    exact hspan

/-- A loop around an element with a bound property: the mapping of the loop's variable. -/
theorem gates_cover_what_is_written_loop :
    let markup := "<li v-for=\"é in list\" :a-b=\"é\"/>".toList
    let m : Mapping := ⟨⟨17, 4⟩, ⟨71, 7⟩, .gate, .diagnosticOnly, none⟩
    m ∈ (projectMarkup markup).mappings ∧
      (projectMarkup markup).text.slice? m.synthetic = some "__VDS_0".toList ∧
      ∃ gate ∈ (inOrderAll (parse markup)).flatMap gatesOf,
        gate.CoveredBy (projectMarkup markup).text m ∧ gate.span = ⟨17, 4⟩ := by
  intro markup m
  have hm : m ∈ (projectMarkup markup).mappings := by decide +kernel
  have hcode : (projectMarkup markup).text.slice? m.synthetic = some "__VDS_0".toList := by
    decide +kernel
  obtain ⟨gate, hgate, hcovered, hspan⟩ :=
    (gates_cover_what_is_written none (parse markup)).1 m hm rfl
  exact ⟨hm, hcode, gate, hgate, hcovered, (hspan rfl).symm⟩

end TemplateProjection.Code
