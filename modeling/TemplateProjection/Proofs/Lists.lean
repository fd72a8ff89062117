import Mathlib.Data.List.Basic
import Mathlib.Data.List.Forall2
import Mathlib.Data.List.Induction
import Mathlib.Data.List.Nodup

/-! Lists: their first parts, lists related entry by entry, and the first uses of their entries. -/
namespace TemplateProjection

variable {α β γ : Type}

section While

variable {p q : α → Bool} {s t xs : List α}

theorem takeWhile_congr (h : ∀ x ∈ xs, p x = q x) : xs.takeWhile p = xs.takeWhile q := by
  induction xs with
  | nil => rfl
  | cons x xs ih =>
    obtain ⟨hx, hxs⟩ := List.forall_mem_cons.1 h
    rw [List.takeWhile_cons, List.takeWhile_cons, hx, ih hxs]

theorem dropWhile_congr (h : ∀ x ∈ xs, p x = q x) : xs.dropWhile p = xs.dropWhile q := by
  induction xs with
  | nil => rfl
  | cons x xs ih =>
    obtain ⟨hx, hxs⟩ := List.forall_mem_cons.1 h
    rw [List.dropWhile_cons, List.dropWhile_cons, hx, ih hxs]

theorem takeWhile_append_of_head (hs : ∀ x ∈ s, p x) (ht : ∀ x ∈ t.head?, ¬ p x) :
    (s ++ t).takeWhile p = s := by
  rw [List.takeWhile_append_of_pos hs]
  cases t with
  | nil => simp
  | cons x t => rw [List.takeWhile_cons_of_neg (ht x rfl), List.append_nil]

theorem dropWhile_append_of_head (hs : ∀ x ∈ s, p x) (ht : ∀ x ∈ t.head?, ¬ p x) :
    (s ++ t).dropWhile p = t := by
  rw [List.dropWhile_append_of_pos hs]
  cases t with
  | nil => rfl
  | cons x t => exact List.dropWhile_cons_of_neg (ht x rfl)

end While

section Forall₂

variable {R : α → β → Prop} {as as' : List α} {bs : List β}

theorem flatMap_eq_of_forall₂ {f : α → List γ} {g : β → List γ} (h : List.Forall₂ R as bs)
    (hfg : ∀ a ∈ as, ∀ b, R a b → g b = f a) : bs.flatMap g = as.flatMap f := by
  induction h with
  | nil => rfl
  | cons hab _ ih =>
    obtain ⟨hhead, htail⟩ := List.forall_mem_cons.1 hfg
    rw [List.flatMap_cons, List.flatMap_cons, hhead _ hab, ih htail]

theorem exists_of_mem_forall₂ {b : β} (h : List.Forall₂ R as bs) (hb : b ∈ bs) :
    ∃ a ∈ as, R a b := by
  induction h with
  | nil => cases hb
  | cons hab _ ih =>
    rcases List.mem_cons.1 hb with rfl | hb
    · exact ⟨_, List.mem_cons_self, hab⟩
    · obtain ⟨a, ha, hR⟩ := ih hb
      exact ⟨a, List.mem_cons_of_mem _ ha, hR⟩

theorem exists_append_of_forall₂ (h : List.Forall₂ R (as ++ as') bs) :
    ∃ cs cs', bs = cs ++ cs' ∧ List.Forall₂ R as cs ∧ List.Forall₂ R as' cs' := by
  induction as generalizing bs with
  | nil => exact ⟨[], bs, rfl, .nil, h⟩
  | cons a as ih =>
    obtain ⟨b, rest, hab, hrest, rfl⟩ := List.forall₂_cons_left_iff.1 h
    obtain ⟨cs, cs', rfl, hcs, hcs'⟩ := ih hrest
    exact ⟨b :: cs, cs', rfl, .cons hab hcs, hcs'⟩

end Forall₂

/-- Of what is picked from a list without repetitions, an entry of the list is there once if it was
picked, and not at all otherwise. -/
theorem count_map_filter [DecidableEq β] {f : α → β} {l : List α} {x : α}
    (hnodup : (l.map f).Nodup) (hx : x ∈ l) (p : α → Bool) :
    ((l.filter p).map f).count (f x) = if p x then 1 else 0 := by
  split
  · next hp =>
    have hmem : f x ∈ (l.filter p).map f := List.mem_map_of_mem (List.mem_filter.2 ⟨hx, hp⟩)
    exact List.count_eq_one_of_mem (hnodup.sublist (List.filter_sublist.map f)) hmem
  · next hp =>
    refine List.count_eq_zero.2 fun hmem => ?_
    obtain ⟨y, hy, heq⟩ := List.mem_map.1 hmem
    obtain ⟨hy, hpy⟩ := List.mem_filter.1 hy
    rw [List.inj_on_of_nodup_map hnodup hy hx heq] at hpy
    exact hp hpy

/-- `distinct` has each of the `uses` once, in the order in which they come up first. -/
structure FirstUses [BEq α] (uses distinct : List α) : Prop where
  mem_iff : ∀ a, a ∈ distinct ↔ a ∈ uses
  ordered : distinct.Pairwise fun a b => uses.idxOf a < uses.idxOf b

section FirstUses

variable [BEq α] {uses distinct : List α}

theorem FirstUses.nodup (h : FirstUses uses distinct) : distinct.Nodup := by
  refine h.ordered.imp fun hlt heq => ?_
  rw [heq] at hlt
  exact absurd hlt (Nat.lt_irrefl _)

variable [LawfulBEq α]

/-- What has been used already stays where it is, what is new comes last. -/
theorem FirstUses.use (h : FirstUses uses distinct) (a : α) :
    FirstUses (uses ++ [a]) (if a ∈ uses then distinct else distinct ++ [a]) := by
  have hbefore : distinct.Pairwise fun b c => (uses ++ [a]).idxOf b < (uses ++ [a]).idxOf c := by
    refine h.ordered.imp_of_mem fun hb hc hlt => ?_
    have hb := (h.mem_iff _).1 hb
    have hc := (h.mem_iff _).1 hc
    rwa [List.idxOf_append_of_mem hb, List.idxOf_append_of_mem hc]
  split
  · next hused =>
    refine ⟨fun other => ?_, hbefore⟩
    rw [h.mem_iff, List.mem_append, List.mem_singleton]
    refine ⟨Or.inl, ?_⟩
    rintro (hother | rfl)
    · exact hother
    · exact hused
  · next hnew =>
    refine ⟨fun other => by rw [List.mem_append, List.mem_append, h.mem_iff], ?_⟩
    refine List.pairwise_append.2 ⟨hbefore, List.pairwise_singleton _ _, fun b hb c hc => ?_⟩
    obtain rfl := List.mem_singleton.1 hc
    have hb := (h.mem_iff b).1 hb
    rw [List.idxOf_append_of_mem hb, List.idxOf_append_of_notMem hnew, List.idxOf_cons_self]
    exact Nat.lt_add_right _ (List.idxOf_lt_length_of_mem hb)

theorem firstUses_eraseDups (uses : List α) : FirstUses uses uses.eraseDups := by
  -- along the uses, as they are collected
  induction uses using List.reverseRecOn with
  | nil => exact ⟨by simp, .nil⟩
  | append_singleton uses a ih =>
    have hstep : (uses ++ [a]).eraseDups =
        if a ∈ uses then uses.eraseDups else uses.eraseDups ++ [a] := by
      rw [List.eraseDups_append]
      split
      · next hused => simp [List.removeAll, hused]
      · next hnew => simp [List.removeAll, hnew, List.eraseDups_cons]
    rw [hstep]
    exact ih.use a

end FirstUses

end TemplateProjection
