import Calculator.Text.Blank
import Mathlib.Data.List.TakeWhile

/-!
# Blanks around a text

`Padded s t` says that `t` is `s` with blanks around it.  Trimming takes such blanks away again (`Padded.trim_eq`), and
what it leaves is a part of the text that a second trimming does not change (`padded_trim`, `trim_trim`).  Where a text
holds a character that is not blank, its two sides are trimmed one by one (`trim_append_cons`).
-/

namespace Calculator.Text

variable {s t : List Char} {c : Char}

/-- The text without the blanks at its end. -/
def dropEndBlanks (s : List Char) : List Char :=
  (dropBlanks s.reverse).reverse

/-- `t` is `s` with any blanks before and after it. -/
def Padded (s t : List Char) : Prop :=
  ∃ before after, (∀ c ∈ before, isBlank c = true) ∧ (∀ c ∈ after, isBlank c = true) ∧ t = before ++ s ++ after

theorem Padded.refl (s : List Char) : Padded s s :=
  ⟨[], [], List.forall_mem_nil _, List.forall_mem_nil _, (List.append_nil s).symm⟩

theorem padded_of_blanks (h : ∀ c ∈ s, isBlank c = true) : Padded [] s :=
  ⟨s, [], h, List.forall_mem_nil _, by simp⟩

theorem padded_dropBlanks (s : List Char) : Padded (dropBlanks s) s := by
  refine ⟨s.takeWhile isBlank, [], fun c hc => List.mem_takeWhile_imp hc, List.forall_mem_nil _, ?_⟩
  rw [dropBlanks, List.takeWhile_append_dropWhile, List.append_nil]

theorem padded_dropEndBlanks (s : List Char) : Padded (dropEndBlanks s) s := by
  have hblanks : ∀ c ∈ (s.reverse.takeWhile isBlank).reverse, isBlank c = true :=
    fun c hc => List.mem_takeWhile_imp (List.mem_reverse.1 hc)
  refine ⟨[], (s.reverse.takeWhile isBlank).reverse, List.forall_mem_nil _, hblanks, ?_⟩
  rw [List.nil_append, dropEndBlanks, dropBlanks, ← List.reverse_append, List.takeWhile_append_dropWhile,
    List.reverse_reverse]

theorem Padded.trans {u : List Char} (h : Padded s t) (h' : Padded t u) : Padded s u := by
  obtain ⟨before, after, hbefore, hafter, rfl⟩ := h
  obtain ⟨before', after', hbefore', hafter', rfl⟩ := h'
  refine ⟨before' ++ before, after ++ after', ?_, ?_, by simp⟩
  · exact List.forall_mem_append.2 ⟨hbefore', hbefore⟩
  · exact List.forall_mem_append.2 ⟨hafter, hafter'⟩

/-- Trimming takes nothing but blanks away. -/
theorem padded_trim (s : List Char) : Padded (trim s) s :=
  (padded_dropEndBlanks (dropBlanks s)).trans (padded_dropBlanks s)

theorem Padded.isInfix (h : Padded s t) : s <:+: t := by
  obtain ⟨before, after, -, -, rfl⟩ := h
  exact ⟨before, after, rfl⟩

/-! ### Trimming -/

theorem dropBlanks_append_cons (hc : isBlank c = false) (s t : List Char) :
    dropBlanks (s ++ c :: t) = dropBlanks s ++ c :: t := by
  induction s with
  | nil => exact List.dropWhile_cons_of_neg (Bool.eq_false_iff.1 hc)
  | cons d s ih =>
    unfold dropBlanks at ih ⊢
    by_cases hd : isBlank d = true
    · rw [List.cons_append, List.dropWhile_cons_of_pos hd, List.dropWhile_cons_of_pos hd, ih]
    · rw [List.cons_append, List.dropWhile_cons_of_neg hd, List.dropWhile_cons_of_neg hd, List.cons_append]

theorem dropEndBlanks_append_cons (hc : isBlank c = false) (s t : List Char) :
    dropEndBlanks (s ++ c :: t) = s ++ c :: dropEndBlanks t := by
  have hreverse : (s ++ c :: t).reverse = t.reverse ++ c :: s.reverse := by simp
  rw [dropEndBlanks, hreverse, dropBlanks_append_cons hc, dropEndBlanks]
  simp

/-- The sides of a character that is not blank are trimmed at their outer ends only. -/
theorem trim_append_cons (hc : isBlank c = false) (s t : List Char) :
    trim (s ++ c :: t) = dropBlanks s ++ c :: dropEndBlanks t := by
  show dropEndBlanks (dropBlanks (s ++ c :: t)) = _
  rw [dropBlanks_append_cons hc, dropEndBlanks_append_cons hc]

theorem dropBlanks_of_blanks (h : ∀ c ∈ s, isBlank c = true) : dropBlanks s = [] :=
  List.dropWhile_eq_nil_iff.2 h

theorem dropEndBlanks_of_blanks (h : ∀ c ∈ s, isBlank c = true) : dropEndBlanks s = [] := by
  rw [dropEndBlanks, dropBlanks_of_blanks fun c hc => h c (List.mem_reverse.1 hc), List.reverse_nil]

theorem trim_of_blanks (h : ∀ c ∈ s, isBlank c = true) : trim s = [] := by
  show dropEndBlanks (dropBlanks s) = []
  rw [dropBlanks_of_blanks h]
  rfl

/-- A text is blank, or it can be split at a character that is not. -/
theorem blank_or_exists_append_cons (s : List Char) :
    (∀ c ∈ s, isBlank c = true) ∨ ∃ before c after, isBlank c = false ∧ s = before ++ c :: after := by
  by_cases h : ∃ c ∈ s, isBlank c = false
  · obtain ⟨c, hmem, hc⟩ := h
    obtain ⟨before, after, rfl⟩ := List.append_of_mem hmem
    exact Or.inr ⟨before, c, after, hc, rfl⟩
  · refine Or.inl fun c hmem => ?_
    by_cases hc : isBlank c = true
    · exact hc
    · exact absurd ⟨c, hmem, Bool.eq_false_iff.2 hc⟩ h

/-- The blanks around a text make no difference to its trimming. -/
theorem Padded.trim_eq (h : Padded s t) : trim t = trim s := by
  obtain ⟨before, after, hbefore, hafter, rfl⟩ := h
  rcases blank_or_exists_append_cons s with hs | ⟨u, c, v, hc, rfl⟩
  · have hall : ∀ c ∈ before ++ s ++ after, isBlank c = true := by
      simp only [List.forall_mem_append]
      exact ⟨⟨hbefore, hs⟩, hafter⟩
    rw [trim_of_blanks hs, trim_of_blanks hall]
  · have hsplit : before ++ (u ++ c :: v) ++ after = (before ++ u) ++ c :: (v ++ after) := by simp
    have hleft : dropBlanks (before ++ u) = dropBlanks u := List.dropWhile_append_of_pos hbefore
    have hright : dropBlanks (v ++ after).reverse = dropBlanks v.reverse := by
      rw [List.reverse_append]
      exact List.dropWhile_append_of_pos fun d hd => hafter d (List.mem_reverse.1 hd)
    rw [hsplit, trim_append_cons hc, trim_append_cons hc, hleft, dropEndBlanks, hright, dropEndBlanks]

theorem trim_trim (s : List Char) : trim (trim s) = trim s :=
  (padded_trim s).trim_eq.symm

theorem trim_dropBlanks (s : List Char) : trim (dropBlanks s) = trim s :=
  (padded_dropBlanks s).trim_eq.symm

theorem trim_dropEndBlanks (s : List Char) : trim (dropEndBlanks s) = trim s :=
  (padded_dropEndBlanks s).trim_eq.symm

end Calculator.Text
