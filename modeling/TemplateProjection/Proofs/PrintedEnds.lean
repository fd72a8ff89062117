import TemplateProjection.Proofs.Tidy
import TemplateProjection.Proofs.Writing

/-! Printed markup does not end in a blank, since none of its lines does. -/
namespace TemplateProjection

namespace Text

variable {s t sep : Text} {ls : List Text}

/-- There is a last character, and it is no blank. -/
def EndsSolid (t : Text) : Prop := ∃ c, t.getLast? = some c ∧ ¬ isBlank c

theorem EndsSolid.append (h : EndsSolid t) (s : Text) : EndsSolid (s ++ t) := by
  obtain ⟨c, hc, hsolid⟩ := h
  exact ⟨c, by rw [List.getLast?_append, hc]; rfl, hsolid⟩

theorem EndsSolid.last (h : EndsSolid t) : ∀ c ∈ t.getLast?, ¬ isBlank c := by
  obtain ⟨d, hd, hsolid⟩ := h
  intro c hc
  rw [hd] at hc
  exact Option.some.inj hc ▸ hsolid

theorem endsSolid_gt (s : Text) : EndsSolid (s ++ ['>']) :=
  ⟨'>', List.getLast?_concat, by decide⟩

theorem endsSolid_trim (h : t.trim ≠ []) : EndsSolid t.trim :=
  ⟨t.trim.getLast h, List.getLast?_eq_some_getLast h,
    not_isBlank_last_trimEnd _ _ (List.getLast?_eq_some_getLast h)⟩

theorem endsSolid_join (sep : Text) (h : ∀ l ∈ ls, EndsSolid l) (hne : ls ≠ []) :
    EndsSolid (join sep ls) := by
  induction ls with
  | nil => exact absurd rfl hne
  | cons l ls ih =>
    obtain ⟨hl, hls⟩ := List.forall_mem_cons.1 h
    cases ls with
    | nil => simpa using hl
    | cons l' ls =>
      rw [join_cons sep (by simp)]
      exact (ih hls (by simp)).append _

end Text

namespace Markup

open Text

variable {nodes : List Node} {t : Text}

/-- The declarations in a node end with their mark. -/
inductive Node.Closed : Node → Prop
  | element {tag : OpenTag} {children : List Node} {span : Span} {endName : Option Span}
      (h : ∀ node ∈ children, node.Closed) : Closed (.element tag children span endName)
  | text {t : Text} {span : Span} : Closed (.text t span)
  | comment {data : Text} {span : Span} : Closed (.comment data span)
  | declaration {t : Text} {span : Span} (h : t.getLast? = some '>') :
      Closed (.declaration t span)

theorem Lexeme.getLast?_of_declaration {c : Char} (h : (first c t).kind = .declaration) :
    (first c t).text.getLast? = some '>' := by
  simp only [first] at h ⊢
  split at h
  · next hc =>
    have hclosed := ofMarkup_declaration (opensDeclaration_of_kind h)
    rw [if_pos hc]
    simp only [hclosed, closedByGt] at h ⊢
    split at h
    · next head rest hthrough =>
      simp only
      rw [List.getLast?_cons, getLast?_of_throughGt? hthrough]
      rfl
    · cases h
  · cases h

theorem Token.getLast?_of_declaration {offset : Nat} :
    ∀ token ∈ lexFrom offset t, token.kind = .declaration → token.text.getLast? = some '>' := by
  fun_induction lexFrom offset t with
  | case1 => simp
  | case2 offset c t lexeme ih =>
    intro token hmem
    rcases List.mem_cons.1 hmem with rfl | hmem
    · exact Lexeme.getLast?_of_declaration
    · exact ih token hmem

theorem closed_parse (t : Text) : ∀ node ∈ parse t, node.Closed :=
  parse_forall (fun _ _ => .text) (fun _ _ _ => .comment)
    (fun token htoken hkind => .declaration (Token.getLast?_of_declaration token htoken hkind))
    fun _ _ _ _ _ h => .element h

mutual

theorem Node.Closed.endsSolid (depth : Nat) :
    ∀ {node : Node}, node.Closed → ∀ line ∈ node.printLines depth, EndsSolid line
  | .element tag children _ _, .element h, line, hline => by
    simp only [Node.printLines] at hline
    split at hline
    · rw [List.mem_singleton.1 hline]
      exact (endsSolid_gt ['/']).append _
    · split at hline
      · rw [List.mem_singleton.1 hline]
        exact endsSolid_gt _
      · split at hline
        · rcases List.mem_append.1 hline with hline | hline
          · rcases List.mem_append.1 hline with hline | hline
            · rw [List.mem_singleton.1 hline]
              exact endsSolid_gt _
            · exact endsSolid_printAllLines (depth + 1) h line hline
          · rw [List.mem_singleton.1 hline]
            exact (endsSolid_gt _).append _
        · rw [List.mem_singleton.1 hline]
          exact (endsSolid_gt _).append _
  | .text t _, _, line, hline => by
    obtain ⟨content, hcontent, rfl⟩ := List.mem_map.1 hline
    obtain ⟨hmem, hne⟩ := List.mem_filter.1 hcontent
    obtain ⟨l, -, rfl⟩ := List.mem_map.1 hmem
    exact (endsSolid_trim (by simpa using hne)).append _
  | .comment data _, _, line, hline => by
    rw [List.mem_singleton.1 hline]
    exact (endsSolid_gt ['-', '-']).append _
  | .declaration t _, .declaration h, line, hline => by
    rw [List.mem_singleton.1 hline]
    exact EndsSolid.append ⟨'>', h, by decide⟩ _

theorem endsSolid_printAllLines (depth : Nat) :
    ∀ {nodes : List Node}, (∀ node ∈ nodes, node.Closed) →
      ∀ line ∈ printAllLines depth nodes, EndsSolid line
  | [], _, line, hline => by cases hline
  | node :: nodes, h, line, hline => by
    obtain ⟨hnode, hnodes⟩ := List.forall_mem_cons.1 h
    rcases List.mem_append.1 hline with hline | hline
    · exact hnode.endsSolid depth line hline
    · exact endsSolid_printAllLines depth hnodes line hline

end

mutual

theorem Node.Closed.normalize : ∀ {node : Node}, node.Closed → node.normalize.Closed
  | .element _ _ _ _, .element h => .element (closed_normalizeAll h)
  | .text _ _, _ => .text
  | .comment _ _, _ => .comment
  | .declaration _ _, .declaration h => .declaration h

theorem closed_normalizeAll :
    ∀ {nodes : List Node}, (∀ node ∈ nodes, node.Closed) → ∀ node ∈ normalizeAll nodes, node.Closed
  | [], _ => by simp [normalizeAll]
  | _ :: _, h => by
    obtain ⟨hnode, hnodes⟩ := List.forall_mem_cons.1 h
    exact List.forall_mem_cons.2 ⟨hnode.normalize, closed_normalizeAll hnodes⟩

end

/-- The markup printed from a tree with closed declarations does not end in a blank. -/
theorem prettyPrint_last (h : ∀ node ∈ nodes, node.Closed) :
    ∀ c ∈ (prettyPrint nodes).getLast?, ¬ isBlank c := by
  by_cases hne : printAllLines 0 nodes = []
  · simp [prettyPrint, hne, join]
  · exact (endsSolid_join _ (endsSolid_printAllLines 0 h) hne).last

end Markup

end TemplateProjection
