import Calculator.Text.Cut

/-!
# Cutting and putting together

A text is cut where the separator first occurs, so what stands before it is found again if it does not hold the
separator itself.  Texts without the separator that are put together with it and a gap between them (`List.intercalate`)
are found again by cutting the whole into pieces (`pieces_intercalate`); hence two lists of such texts that give the same
whole are the same (`eq_of_intercalate_eq`).  Conversely, `cut_eq_some_iff`, `dropLast?_eq_some_iff`, `of_mem_pieces`
and `length_pieces` say what a text looks like that was cut.
-/

namespace Calculator.Text

variable {sep : Char} {s : List Char} {texts texts' : List (List Char)}

theorem cut_append_cons (h : sep ∉ s) (t : List Char) : cut sep (s ++ sep :: t) = some (s, t) := by
  induction s with
  | nil =>
    rw [List.nil_append, cut]
    exact if_pos rfl
  | cons c s ih =>
    obtain ⟨hne, hs⟩ := List.ne_and_not_mem_of_not_mem_cons h
    rw [List.cons_append, cut, if_neg (Ne.symm hne), ih hs]
    rfl

/-- A text is cut where the separator first occurs. -/
theorem cut_eq_some_iff {s before after : List Char} :
    cut sep s = some (before, after) ↔ sep ∉ before ∧ s = before ++ sep :: after := by
  constructor
  · intro h
    induction s generalizing before with
    | nil => cases h
    | cons c s ih =>
      rw [cut] at h
      by_cases hc : c = sep
      · rw [if_pos hc, Option.some.injEq, Prod.mk.injEq] at h
        obtain ⟨rfl, rfl⟩ := h
        exact ⟨List.not_mem_nil, by rw [hc, List.nil_append]⟩
      · rw [if_neg hc] at h
        obtain ⟨⟨before', after'⟩, hcut, heq⟩ := Option.map_eq_some_iff.1 h
        rw [Prod.mk.injEq] at heq
        obtain ⟨rfl, rfl⟩ := heq
        obtain ⟨hmem, rfl⟩ := ih hcut
        have hne : sep ≠ c := fun he => hc he.symm
        exact ⟨List.not_mem_cons_of_ne_of_not_mem hne hmem, rfl⟩
  · rintro ⟨hmem, rfl⟩
    exact cut_append_cons hmem after

theorem dropLast?_eq_some_iff {c : Char} {s t : List Char} : dropLast? c s = some t ↔ s = t ++ [c] := by
  rw [dropLast?]
  constructor
  · intro h
    by_cases hlast : s.getLast? = some c
    · rw [if_pos hlast, Option.some.injEq] at h
      obtain ⟨t', rfl⟩ := List.getLast?_eq_some_iff.1 hlast
      rw [← h, List.dropLast_concat]
    · rw [if_neg hlast] at h
      cases h
  · rintro rfl
    rw [if_pos List.getLast?_concat, List.dropLast_concat]

theorem pieces_append_cons (h : sep ∉ s) (t : List Char) : pieces sep (s ++ sep :: t) = s :: pieces sep t := by
  induction s with
  | nil =>
    rw [List.nil_append, pieces]
    exact if_pos rfl
  | cons c s ih =>
    obtain ⟨hne, hs⟩ := List.ne_and_not_mem_of_not_mem_cons h
    rw [List.cons_append, pieces, if_neg (Ne.symm hne), ih hs]
    rfl

theorem pieces_of_not_mem (h : sep ∉ s) : pieces sep s = [s] := by
  induction s with
  | nil => rfl
  | cons c s ih =>
    obtain ⟨hne, hs⟩ := List.ne_and_not_mem_of_not_mem_cons h
    rw [pieces, if_neg (Ne.symm hne), ih hs]
    rfl

theorem pieces_ne_nil (sep : Char) (s : List Char) : pieces sep s ≠ [] := by
  induction s with
  | nil => exact List.cons_ne_nil _ _
  | cons c s ih =>
    rw [pieces]
    split
    · exact List.cons_ne_nil _ _
    · rwa [Ne, List.modifyHead_eq_nil_iff]

/-- There is one piece more than there are separators. -/
theorem length_pieces (sep : Char) (s : List Char) : (pieces sep s).length = s.count sep + 1 := by
  induction s with
  | nil => rfl
  | cons c s ih =>
    rw [pieces]
    by_cases hc : c = sep
    · rw [if_pos hc, hc, List.count_cons_self, List.length_cons, ih]
    · rw [if_neg hc, List.length_modifyHead, ih, List.count_cons_of_ne hc]

/-- A piece is a part of the text without any separator. -/
theorem of_mem_pieces {t : List Char} (h : t ∈ pieces sep s) : sep ∉ t ∧ t ⊆ s := by
  induction s generalizing t with
  | nil =>
    rw [List.mem_singleton.1 h]
    exact ⟨List.not_mem_nil, List.Subset.refl []⟩
  | cons c s ih =>
    rw [pieces] at h
    by_cases hc : c = sep
    · rw [if_pos hc] at h
      rcases List.mem_cons.1 h with rfl | h
      · exact ⟨List.not_mem_nil, List.nil_subset _⟩
      · exact ⟨(ih h).1, List.subset_cons_of_subset c (ih h).2⟩
    · rw [if_neg hc] at h
      cases hp : pieces sep s with
      | nil => exact absurd hp (pieces_ne_nil sep s)
      | cons u texts =>
        rw [hp, List.modifyHead_cons] at h
        rcases List.mem_cons.1 h with rfl | h
        · -- the first piece has the first character in front
          obtain ⟨hmem, hsub⟩ := ih (hp ▸ List.mem_cons_self)
          have hne : sep ≠ c := fun he => hc he.symm
          exact ⟨List.not_mem_cons_of_ne_of_not_mem hne hmem, List.cons_subset_cons c hsub⟩
        · obtain ⟨hmem, hsub⟩ := ih (hp ▸ List.mem_cons_of_mem u h)
          exact ⟨hmem, List.subset_cons_of_subset c hsub⟩

/-- The pieces of a whole that was put together: every text but the first has the gap before it. -/
theorem pieces_intercalate {gap : List Char} (hgap : sep ∉ gap) (h : ∀ t ∈ s :: texts, sep ∉ t) :
    pieces sep ((sep :: gap).intercalate (s :: texts)) = s :: texts.map (gap ++ ·) := by
  induction texts generalizing s with
  | nil =>
    rw [List.intercalate_singleton]
    exact pieces_of_not_mem (h s List.mem_cons_self)
  | cons t texts ih =>
    obtain ⟨hs, hrest⟩ := List.forall_mem_cons.1 h
    have hgap' : sep ∉ gap ++ t := by
      rw [List.mem_append]
      exact not_or_intro hgap (hrest t List.mem_cons_self)
    rw [List.intercalate_cons_cons, List.append_assoc, List.cons_append, pieces_append_cons hs]
    -- the gap counts as the front of the next text
    have hnext : gap ++ (sep :: gap).intercalate (t :: texts) = (sep :: gap).intercalate ((gap ++ t) :: texts) := by
      cases texts with
      | nil => rw [List.intercalate_singleton, List.intercalate_singleton]
      | cons u texts =>
        rw [List.intercalate_cons_cons, List.intercalate_cons_cons, List.append_assoc, List.append_assoc,
          List.append_assoc]
    rw [hnext, ih (List.forall_mem_cons.2 ⟨hgap', (List.forall_mem_cons.1 hrest).2⟩)]
    rfl

/-- Texts that are not empty and do not hold the separator are found again when they have been put together. -/
theorem eq_of_intercalate_eq {gap : List Char} (hgap : sep ∉ gap) (h : ∀ t ∈ texts, t ≠ [] ∧ sep ∉ t)
    (h' : ∀ t ∈ texts', t ≠ [] ∧ sep ∉ t)
    (he : (sep :: gap).intercalate texts = (sep :: gap).intercalate texts') : texts = texts' := by
  have hpieces : pieces sep ((sep :: gap).intercalate texts) = pieces sep ((sep :: gap).intercalate texts') := by
    rw [he]
  cases texts with
  | nil =>
    cases texts' with
    | nil => rfl
    | cons s' texts' =>
      -- nothing at all is one empty piece
      rw [pieces_intercalate hgap fun t ht => (h' t ht).2] at hpieces
      exact absurd (List.cons.inj hpieces).1.symm (h' s' List.mem_cons_self).1
  | cons s texts =>
    rw [pieces_intercalate hgap fun t ht => (h t ht).2] at hpieces
    cases texts' with
    | nil =>
      exact absurd (List.cons.inj hpieces).1 (h s List.mem_cons_self).1
    | cons s' texts' =>
      rw [pieces_intercalate hgap fun t ht => (h' t ht).2] at hpieces
      obtain ⟨rfl, hmap⟩ := List.cons.inj hpieces
      rw [List.map_inj_right fun _ _ => List.append_cancel_left] at hmap
      rw [hmap]

/-- A character of a whole is one of the separator or of the texts. -/
theorem not_mem_intercalate {c : Char} {separator : List Char} (hsep : c ∉ separator) (h : ∀ t ∈ texts, c ∉ t) :
    c ∉ separator.intercalate texts := by
  induction texts with
  | nil => exact List.not_mem_nil
  | cons s texts ih =>
    obtain ⟨hs, hrest⟩ := List.forall_mem_cons.1 h
    cases texts with
    | nil => rwa [List.intercalate_singleton]
    | cons t texts =>
      rw [List.intercalate_cons_cons, List.mem_append, List.mem_append]
      exact not_or_intro (not_or_intro hs hsep) (ih hrest)

end Calculator.Text
