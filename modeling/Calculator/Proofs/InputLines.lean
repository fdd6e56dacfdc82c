import Calculator.Proofs.Padding
import Calculator.Text.Cut
import Mathlib.Data.List.Forall2

/-!
# The lines of an input

A line ends at a line feed, and a carriage return before the line feed belongs to the break between two lines; the last
line may end with the input instead.  `Text.HasLines lines s` says that `s` has these lines.  Every text has lines
(`Text.exists_hasLines`), and the lines that are cut off at line feeds alone are the same up to blanks at their ends
(`Text.HasLines.padded_lines`).
-/

namespace Calculator.Text

/-- The text consists of these lines, each with a line break behind it that the last one may lack. -/
inductive HasLines : List (List Char) → List Char → Prop where
  | nil : HasLines [] []
  | last {line : List Char} (hne : line ≠ []) (h : '\n' ∉ line) : HasLines [line] line
  | lineFeed {line : List Char} {lines : List (List Char)} {s : List Char} (h : '\n' ∉ line)
      (hreturn : line.getLast? ≠ some '\r') (hlines : HasLines lines s) :
      HasLines (line :: lines) (line ++ '\n' :: s)
  | carriageReturn {line : List Char} {lines : List (List Char)} {s : List Char} (h : '\n' ∉ line)
      (hlines : HasLines lines s) : HasLines (line :: lines) (line ++ '\r' :: '\n' :: s)

/-- The text with a carriage return before every line feed. -/
def withCarriageReturns (s : List Char) : List Char :=
  s.flatMap fun c => if c = '\n' then ['\r', '\n'] else [c]

variable {line s : List Char} {ls : List (List Char)}

/-- A text can be cut into lines, one line break after another. -/
theorem exists_hasLines (s : List Char) : ∃ ls, HasLines ls s := by
  by_cases h : '\n' ∈ s
  · obtain ⟨line, rest, rfl, hline⟩ := List.eq_append_cons_of_mem h
    obtain ⟨ls, hls⟩ := exists_hasLines rest
    by_cases hreturn : line.getLast? = some '\r'
    · obtain ⟨line', rfl⟩ := List.getLast?_eq_some_iff.1 hreturn
      have hline' : '\n' ∉ line' := fun hmem => hline (List.mem_append_left _ hmem)
      rw [List.append_assoc]
      exact ⟨line' :: ls, .carriageReturn hline' hls⟩
    · exact ⟨line :: ls, .lineFeed hline hreturn hls⟩
  · by_cases hne : s = []
    · rw [hne]
      exact ⟨[], .nil⟩
    · exact ⟨[s], .last hne h⟩
termination_by s.length
decreasing_by
  rename_i heq
  rw [heq, List.length_append, List.length_cons]
  omega

theorem HasLines.not_mem (h : HasLines ls s) : ∀ line ∈ ls, '\n' ∉ line := by
  induction h with
  | nil => exact List.forall_mem_nil _
  | last _ h => exact List.forall_mem_singleton.2 h
  | lineFeed h _ _ ih => exact List.forall_mem_cons.2 ⟨h, ih⟩
  | carriageReturn h _ ih => exact List.forall_mem_cons.2 ⟨h, ih⟩

/-! ### Lines cut off at line feeds -/

theorem lines_append_cons (h : '\n' ∉ line) (s : List Char) : lines (line ++ '\n' :: s) = line :: lines s := by
  induction line with
  | nil =>
    rw [List.nil_append, lines]
    exact if_pos rfl
  | cons c line ih =>
    obtain ⟨hc, hline⟩ := List.ne_and_not_mem_of_not_mem_cons h
    rw [List.cons_append, lines, if_neg (Ne.symm hc), ih hline]

theorem lines_of_not_mem (hne : line ≠ []) (h : '\n' ∉ line) : lines line = [line] := by
  induction line with
  | nil => exact absurd rfl hne
  | cons c line ih =>
    obtain ⟨hc, hline⟩ := List.ne_and_not_mem_of_not_mem_cons h
    rw [lines, if_neg (Ne.symm hc)]
    by_cases hnil : line = []
    · rw [hnil]
      rfl
    · rw [ih hnil hline]

theorem padded_carriageReturn (line : List Char) : Padded line (line ++ ['\r']) :=
  ⟨[], ['\r'], List.forall_mem_nil _, List.forall_mem_singleton.2 rfl, rfl⟩

/-- Cutting at line feeds leaves the carriage returns at the ends of the lines. -/
theorem HasLines.padded_lines (h : HasLines ls s) : List.Forall₂ Padded ls (lines s) := by
  induction h with
  | nil => exact .nil
  | last hne h =>
    rw [lines_of_not_mem hne h]
    exact .cons (.refl _) .nil
  | lineFeed h _ _ ih =>
    rw [lines_append_cons h]
    exact .cons (.refl _) ih
  | @carriageReturn line _ s h _ ih =>
    have hline : '\n' ∉ line ++ ['\r'] := by simp [h]
    have hsplit : line ++ '\r' :: '\n' :: s = (line ++ ['\r']) ++ '\n' :: s := by simp
    rw [hsplit, lines_append_cons hline]
    exact .cons (padded_carriageReturn line) ih

/-! ### Carriage returns before line feeds -/

theorem withCarriageReturns_of_not_mem (h : '\n' ∉ line) : withCarriageReturns line = line := by
  induction line with
  | nil => rfl
  | cons c line ih =>
    obtain ⟨hc, hline⟩ := List.ne_and_not_mem_of_not_mem_cons h
    have ih' := ih hline
    unfold withCarriageReturns at ih' ⊢
    rw [List.flatMap_cons, if_neg (Ne.symm hc), ih', List.singleton_append]

theorem withCarriageReturns_append (s t : List Char) :
    withCarriageReturns (s ++ t) = withCarriageReturns s ++ withCarriageReturns t :=
  List.flatMap_append

theorem withCarriageReturns_lineFeed_cons (s : List Char) :
    withCarriageReturns ('\n' :: s) = '\r' :: '\n' :: withCarriageReturns s := rfl

/-- Further carriage returns belong to the lines. -/
theorem HasLines.withCarriageReturns (h : HasLines ls s) :
    ∃ ls', List.Forall₂ Padded ls ls' ∧ HasLines ls' (Text.withCarriageReturns s) := by
  induction h with
  | nil => exact ⟨[], .nil, .nil⟩
  | @last line hne h =>
    rw [withCarriageReturns_of_not_mem h]
    exact ⟨[line], .cons (.refl line) .nil, .last hne h⟩
  | @lineFeed line _ s h _ _ ih =>
    obtain ⟨ls', hpadded, hlines⟩ := ih
    refine ⟨line :: ls', .cons (.refl line) hpadded, ?_⟩
    rw [withCarriageReturns_append, withCarriageReturns_of_not_mem h, withCarriageReturns_lineFeed_cons]
    exact .carriageReturn h hlines
  | @carriageReturn line _ s h _ ih =>
    obtain ⟨ls', hpadded, hlines⟩ := ih
    have hline : '\n' ∉ line ++ ['\r'] := by simp [h]
    have hsplit : line ++ '\r' :: '\n' :: s = (line ++ ['\r']) ++ '\n' :: s := by simp
    refine ⟨(line ++ ['\r']) :: ls', .cons (padded_carriageReturn line) hpadded, ?_⟩
    rw [hsplit, withCarriageReturns_append, withCarriageReturns_of_not_mem hline, withCarriageReturns_lineFeed_cons]
    exact .carriageReturn hline hlines

end Calculator.Text
