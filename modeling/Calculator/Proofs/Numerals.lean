import Calculator.Proofs.Lexemes

/-!
# Reading numerals

A numeral says a whole number, its digits, and how many of them stand behind the point (`parse?_of_isDigits`,
`parse?_point`).  Every numeral names a number and no other text does (`exists_value?`, `isNumeral_of_value?`).
-/

namespace Calculator.Numeral

variable {whole fraction s : List Char} {text : String}

theorem parse?_of_isDigits (h : IsDigits s) : parse? s = some (ofDigits s, 0) := by
  obtain ⟨hne, hs⟩ := h
  have hnil : ∀ c, ([] : List Char).head? = some c → c.isDigit = false := fun _ hc => by cases hc
  have htake := Token.takeWhile_append_of_head? hs hnil
  have hdrop := Token.dropWhile_append_of_head? hs hnil
  rw [List.append_nil] at htake hdrop
  simp only [parse?, htake, hdrop, List.isEmpty_eq_false_iff.2 hne, Bool.false_eq_true, if_false]

theorem parse?_point (hw : IsDigits whole) (hf : IsDigits fraction) :
    parse? (whole ++ '.' :: fraction) = some (ofDigits (whole ++ fraction), fraction.length) := by
  have hpoint : ∀ c, ('.' :: fraction).head? = some c → c.isDigit = false := by
    intro c hc
    cases hc
    decide
  have htake := Token.takeWhile_append_of_head? hw.2 hpoint
  have hdrop := Token.dropWhile_append_of_head? hw.2 hpoint
  have hall : fraction.all Char.isDigit = true := List.all_eq_true.2 hf.2
  simp only [parse?, htake, hdrop, List.isEmpty_eq_false_iff.2 hw.1, List.isEmpty_eq_false_iff.2 hf.1, hall,
    Bool.not_false, Bool.and_self, Bool.false_eq_true, if_false, if_true]

/-- Every numeral names a number. -/
theorem exists_value? (h : IsNumeral text.toList) : ∃ value, value? text = some value := by
  rw [value?]
  obtain ⟨whole, hw, hs | ⟨fraction, hf, hs⟩⟩ := h
  · rw [hs, parse?_of_isDigits hw]
    exact ⟨_, rfl⟩
  · rw [hs, parse?_point hw hf]
    exact ⟨_, rfl⟩

/-- Only numerals are read. -/
theorem isNumeral_of_parse? {r : Nat × Nat} (h : parse? s = some r) : IsNumeral s := by
  have hs : s.takeWhile Char.isDigit ++ s.dropWhile Char.isDigit = s := List.takeWhile_append_dropWhile
  have hdigits : ∀ c ∈ s.takeWhile Char.isDigit, c.isDigit = true :=
    fun c hc => List.all_eq_true.1 List.all_takeWhile c hc
  rw [parse?] at h
  generalize s.takeWhile Char.isDigit = whole at hs hdigits h
  generalize s.dropWhile Char.isDigit = rest at hs h
  by_cases hne : whole.isEmpty = true
  · rw [if_pos hne] at h
    cases h
  · rw [if_neg hne] at h
    have hw : IsDigits whole := ⟨fun hnil => hne (List.isEmpty_iff.2 hnil), hdigits⟩
    split at h
    · exact ⟨whole, hw, .inl (hs.symm.trans (List.append_nil whole))⟩
    · rename_i fraction
      split at h
      · rename_i hfraction
        obtain ⟨hfne, hf⟩ := Bool.and_eq_true_iff.1 hfraction
        refine ⟨whole, hw, .inr ⟨fraction, ⟨?_, List.all_eq_true.1 hf⟩, hs.symm⟩⟩
        rintro rfl
        cases hfne
      · cases h
    · cases h

theorem isNumeral_of_value? {value : Float} (h : value? text = some value) : IsNumeral text.toList := by
  obtain ⟨r, hr, -⟩ := Option.map_eq_some_iff.1 h
  exact isNumeral_of_parse? hr

end Calculator.Numeral
