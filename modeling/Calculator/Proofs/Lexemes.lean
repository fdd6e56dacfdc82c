import Calculator.Token.Lexer

/-!
# Tokens and their texts

A token is valid if its text is of its kind (`Token.Valid`), and it ends before a text that does not make it longer
(`Token.EndsBefore`).  These two say exactly what the scanner takes off the front of a text:
`Token.scan?_eq_some_iff`.  Consequently the tokens of a text are valid (`valid_of_tokenize`).
-/

namespace Calculator

/-! ### Character classes by code point -/

theorem toNat_of_isDigit {c : Char} (h : c.isDigit = true) : 48 ≤ c.toNat ∧ c.toNat ≤ 57 :=
  Char.isDigit_iff_toNat.1 h

theorem toNat_of_isAlpha {c : Char} (h : c.isAlpha = true) :
    (65 ≤ c.toNat ∧ c.toNat ≤ 90) ∨ (97 ≤ c.toNat ∧ c.toNat ≤ 122) := by
  have hcases : (decide (65 ≤ c.val ∧ c.val ≤ 90) || decide (97 ≤ c.val) && decide (c.val ≤ 122)) = true := h
  simp only [Bool.or_eq_true, Bool.and_eq_true, decide_eq_true_eq, UInt32.le_iff_toNat_le] at hcases
  exact hcases

theorem isNamePart_eq (c : Char) : Token.isNamePart c = ((c.isAlpha || c.isDigit) || c == '_') := rfl

theorem toNat_of_isNamePart {c : Char} (h : Token.isNamePart c = true) :
    (48 ≤ c.toNat ∧ c.toNat ≤ 57) ∨ (65 ≤ c.toNat ∧ c.toNat ≤ 90) ∨ c.toNat = 95 ∨
      (97 ≤ c.toNat ∧ c.toNat ≤ 122) := by
  rw [isNamePart_eq, Bool.or_eq_true, Bool.or_eq_true, beq_iff_eq] at h
  rcases h with (h | h) | rfl
  · have := toNat_of_isAlpha h
    omega
  · exact Or.inl (toNat_of_isDigit h)
  · decide

theorem toNat_of_isNameStart {c : Char} (h : Token.isNameStart c = true) :
    (65 ≤ c.toNat ∧ c.toNat ≤ 90) ∨ c.toNat = 95 ∨ (97 ≤ c.toNat ∧ c.toNat ≤ 122) := by
  rw [Token.isNameStart, Bool.or_eq_true, beq_iff_eq] at h
  rcases h with h | rfl
  · have := toNat_of_isAlpha h
    omega
  · decide

theorem toNat_of_isBlank {c : Char} (h : Text.isBlank c = true) : c.toNat ≤ 32 ∨ 133 ≤ c.toNat := by
  simp only [Text.isBlank, Text.blankRanges, List.any_cons, List.any_nil, Bool.or_eq_true, Bool.and_eq_true,
    decide_eq_true_eq, Bool.false_eq_true, or_false] at h
  omega

/-- The character of a kind of symbols. -/
def Token.Kind.symbol? : Kind → Option Char
  | comma => some ','
  | plus => some '+'
  | minus => some '-'
  | star => some '*'
  | slash => some '/'
  | percent => some '%'
  | caret => some '^'
  | leftParen => some '('
  | rightParen => some ')'
  | number | identifier | endOfExpression => none

theorem Token.Kind.ofSymbol?_eq_some_iff {c : Char} {kind : Kind} :
    ofSymbol? c = some kind ↔ kind.symbol? = some c := by
  constructor
  · intro h
    unfold ofSymbol? at h
    split at h <;> cases h <;> rfl
  · intro h
    cases kind <;> cases h <;> rfl

theorem toNat_of_ofSymbol? {c : Char} {kind : Token.Kind} (h : Token.Kind.ofSymbol? c = some kind) :
    (37 ≤ c.toNat ∧ c.toNat ≤ 45) ∨ c.toNat = 47 ∨ c.toNat = 94 := by
  rw [Token.Kind.ofSymbol?_eq_some_iff] at h
  cases kind <;> cases h <;> decide

/-! ### Numerals and names -/

/-- A nonempty run of decimal digits. -/
def IsDigits (s : List Char) : Prop :=
  s ≠ [] ∧ ∀ c ∈ s, c.isDigit = true

/-- A run of digits, and possibly a point and another run of digits. -/
def IsNumeral (s : List Char) : Prop :=
  ∃ whole, IsDigits whole ∧ (s = whole ∨ ∃ fraction, IsDigits fraction ∧ s = whole ++ '.' :: fraction)

/-- A letter or an underscore, and then letters, digits and underscores. -/
def IsName (s : List Char) : Prop :=
  ∃ c rest, s = c :: rest ∧ Token.isNameStart c = true ∧ ∀ d ∈ rest, Token.isNamePart d = true

theorem IsNumeral.eq_cons {s : List Char} (h : IsNumeral s) : ∃ c s', s = c :: s' ∧ c.isDigit = true := by
  obtain ⟨whole, ⟨hne, hw⟩, hs⟩ := h
  cases whole with
  | nil => exact absurd rfl hne
  | cons c whole =>
    have hc := hw c List.mem_cons_self
    rcases hs with rfl | ⟨fraction, -, rfl⟩
    · exact ⟨c, whole, rfl, hc⟩
    · exact ⟨c, whole ++ '.' :: fraction, rfl, hc⟩

theorem point_not_mem {s : List Char} (h : ∀ c ∈ s, c.isDigit = true) : '.' ∉ s := by
  intro hp
  exact absurd (h '.' hp) (by decide)

namespace Token

theorem isNamePart_of_isDigit {c : Char} (h : c.isDigit = true) : isNamePart c = true := by
  rw [isNamePart_eq, h, Bool.or_true, Bool.true_or]

theorem isNamePart_of_isNameStart {c : Char} (h : isNameStart c = true) : isNamePart c = true := by
  rw [isNameStart, Bool.or_eq_true] at h
  rw [isNamePart_eq, Bool.or_eq_true, Bool.or_eq_true]
  rcases h with h | h
  · exact Or.inl (Or.inl h)
  · exact Or.inr h

theorem ofSymbol?_eq_none {c : Char} (h : isNamePart c = true) : Kind.ofSymbol? c = none := by
  cases hk : Kind.ofSymbol? c with
  | none => rfl
  | some kind =>
    have h1 := toNat_of_ofSymbol? hk
    have h2 := toNat_of_isNamePart h
    omega

/-- The text of the token is of its kind. -/
inductive Valid : Token → Prop where
  | number {text : String} (h : IsNumeral text.toList) : Valid ⟨.number, text⟩
  | identifier {text : String} (h : IsName text.toList) : Valid ⟨.identifier, text⟩
  | symbol {kind : Kind} {c : Char} (h : kind.symbol? = some c) : Valid ⟨kind, String.ofList [c]⟩

/-- The text that follows does not make the token longer. -/
def EndsBefore (t : Token) (rest : List Char) : Prop :=
  match t.kind with
  | .identifier => ∀ c, rest.head? = some c → isNamePart c = false
  | .number =>
    (∀ c, rest.head? = some c → c.isDigit = false) ∧
      ('.' ∉ t.text.toList → ∀ d s, rest = '.' :: d :: s → d.isDigit = false)
  | _ => True

theorem Valid.eq_symbol {t : Token} (h : t.Valid) {c : Char} (hc : t.kind.symbol? = some c) :
    t = ⟨t.kind, String.ofList [c]⟩ := by
  cases h with
  | number h => cases hc
  | identifier h => cases hc
  | symbol h =>
    rw [h] at hc
    cases hc
    rfl

theorem Valid.kind_ne_end {t : Token} (h : t.Valid) : t.kind ≠ .endOfExpression := by
  intro hk
  cases h with
  | number h => cases hk
  | identifier h => cases hk
  | @symbol kind c h =>
    have hk' : kind = .endOfExpression := hk
    rw [hk'] at h
    cases h

/-! ### The front of a text -/

theorem takeWhile_append_of_head? {p : Char → Bool} {s rest : List Char} (hs : ∀ c ∈ s, p c = true)
    (hr : ∀ c, rest.head? = some c → p c = false) : (s ++ rest).takeWhile p = s := by
  rw [List.takeWhile_append_of_pos hs]
  cases rest with
  | nil => simp
  | cons c rest => simp [hr c rfl]

theorem dropWhile_append_of_head? {p : Char → Bool} {s rest : List Char} (hs : ∀ c ∈ s, p c = true)
    (hr : ∀ c, rest.head? = some c → p c = false) : (s ++ rest).dropWhile p = rest := by
  rw [List.dropWhile_append_of_pos hs]
  cases rest with
  | nil => rfl
  | cons c rest => simp [hr c rfl]

theorem head?_dropWhile_eq_false {p : Char → Bool} (s : List Char) :
    ∀ c, (s.dropWhile p).head? = some c → p c = false := by
  intro c hc
  have hn := List.head?_dropWhile_not p s
  rw [hc] at hn
  simpa using hn

theorem splitFraction_of_not_digit {rest : List Char} (h : ∀ d s, rest = '.' :: d :: s → d.isDigit = false) :
    Numeral.splitFraction rest = ([], rest) := by
  unfold Numeral.splitFraction
  split
  · rename_i d s
    rw [if_neg (by simp [h d s rfl])]
  · rfl

theorem splitFraction_point {fraction rest : List Char} (hf : IsDigits fraction)
    (hr : ∀ c, rest.head? = some c → c.isDigit = false) :
    Numeral.splitFraction ('.' :: (fraction ++ rest)) = ('.' :: fraction, rest) := by
  obtain ⟨hne, hdigits⟩ := hf
  cases fraction with
  | nil => exact absurd rfl hne
  | cons d fraction =>
    have hd : d.isDigit = true := hdigits d List.mem_cons_self
    have hfr : ∀ c ∈ fraction, c.isDigit = true := fun c hc => hdigits c (List.mem_cons_of_mem d hc)
    rw [List.cons_append, Numeral.splitFraction, if_pos hd, takeWhile_append_of_head? hfr hr,
      dropWhile_append_of_head? hfr hr]

/-- The splitter takes a numeral off the front of a text that does not make it longer. -/
theorem split_append_of_isNumeral {s rest : List Char} (h : IsNumeral s)
    (hr : ∀ c, rest.head? = some c → c.isDigit = false)
    (hp : '.' ∉ s → ∀ d s', rest = '.' :: d :: s' → d.isDigit = false) :
    Numeral.split (s ++ rest) = (s, rest) := by
  obtain ⟨whole, ⟨hne, hw⟩, rfl | ⟨fraction, hf, rfl⟩⟩ := h
  · rw [Numeral.split, takeWhile_append_of_head? hw hr, dropWhile_append_of_head? hw hr,
      splitFraction_of_not_digit (hp (point_not_mem hw)), List.append_nil]
  · have hpoint : ∀ c, ('.' :: (fraction ++ rest)).head? = some c → c.isDigit = false := by
      intro c hc
      cases hc
      decide
    rw [List.append_assoc, List.cons_append, Numeral.split, takeWhile_append_of_head? hw hpoint,
      dropWhile_append_of_head? hw hpoint, splitFraction_point hf hr]

/-- What the splitter takes off the front of a text that begins with a digit is a numeral, and the rest does not make
it longer. -/
theorem isNumeral_split {c : Char} (s : List Char) (hc : c.isDigit = true) :
    IsNumeral (Numeral.split (c :: s)).1 ∧
      (∀ d, (Numeral.split (c :: s)).2.head? = some d → d.isDigit = false) ∧
      ('.' ∉ (Numeral.split (c :: s)).1 →
        ∀ d s', (Numeral.split (c :: s)).2 = '.' :: d :: s' → d.isDigit = false) := by
  have hwhole : IsDigits ((c :: s).takeWhile Char.isDigit) :=
    ⟨by simp [hc], fun d hd => List.all_eq_true.1 List.all_takeWhile d hd⟩
  have hhead := head?_dropWhile_eq_false (p := Char.isDigit) (c :: s)
  rw [Numeral.split]
  generalize (c :: s).takeWhile Char.isDigit = whole at hwhole
  generalize (c :: s).dropWhile Char.isDigit = rest at hhead
  -- a point belongs to the numeral only if a digit follows it
  by_cases hf : ∃ d s', rest = '.' :: d :: s' ∧ d.isDigit = true
  · obtain ⟨d, s', rfl, hd⟩ := hf
    rw [Numeral.splitFraction, if_pos hd]
    refine ⟨⟨whole, hwhole, Or.inr ⟨d :: s'.takeWhile Char.isDigit, ⟨by simp, ?_⟩, rfl⟩⟩, ?_, ?_⟩
    · intro e he
      rcases List.mem_cons.1 he with rfl | he
      · exact hd
      · exact List.all_eq_true.1 List.all_takeWhile e he
    · exact head?_dropWhile_eq_false s'
    · intro hp
      exact absurd (by simp) hp
  · have hnone : ∀ d s', rest = '.' :: d :: s' → d.isDigit = false := by
      intro d s' hr
      exact Bool.eq_false_iff.2 fun hd => hf ⟨d, s', hr, hd⟩
    rw [splitFraction_of_not_digit hnone]
    exact ⟨⟨whole, hwhole, Or.inl (List.append_nil _)⟩, hhead, fun _ => hnone⟩

/-- The scanner takes a valid token off the front of a text that does not make it longer. -/
theorem scan?_of_valid {t : Token} (h : t.Valid) {rest : List Char} (he : t.EndsBefore rest) :
    scan? (t.text.toList ++ rest) = some (t, rest) := by
  cases h with
  | @number text hn =>
    obtain ⟨c, s, hs, hc⟩ := hn.eq_cons
    have hsplit := split_append_of_isNumeral hn he.1 he.2
    show scan? (text.toList ++ rest) = _
    rw [hs, List.cons_append] at hsplit ⊢
    rw [scan?, ofSymbol?_eq_none (isNamePart_of_isDigit hc)]
    simp only [if_pos hc, hsplit]
    rw [← hs, String.ofList_toList]
  | @identifier text hn =>
    obtain ⟨c, s, hs, hc, hrest⟩ := hn
    have hd : ¬ c.isDigit = true := by
      intro hd
      have h1 := toNat_of_isDigit hd
      have h2 := toNat_of_isNameStart hc
      omega
    show scan? (text.toList ++ rest) = _
    rw [hs, List.cons_append, scan?, ofSymbol?_eq_none (isNamePart_of_isNameStart hc)]
    simp only [if_neg hd, if_pos hc, takeWhile_append_of_head? hrest he, dropWhile_append_of_head? hrest he]
    rw [← hs, String.ofList_toList]
  | @symbol kind c hk =>
    have ho := Kind.ofSymbol?_eq_some_iff.2 hk
    show scan? ((String.ofList [c]).toList ++ rest) = _
    rw [String.toList_ofList, List.singleton_append, scan?, ho]

/-- What the scanner takes off the front of a text is a valid token, and the rest does not make it longer. -/
theorem valid_of_scan? {s rest : List Char} {t : Token} (h : scan? s = some (t, rest)) :
    t.Valid ∧ t.EndsBefore rest := by
  cases s with
  | nil => cases h
  | cons c s =>
    rw [scan?] at h
    cases hk : Kind.ofSymbol? c with
    | some kind =>
      rw [hk] at h
      cases h
      have hs := Kind.ofSymbol?_eq_some_iff.1 hk
      refine ⟨.symbol hs, ?_⟩
      cases kind <;> trivial
    | none =>
      rw [hk] at h
      by_cases hd : c.isDigit = true
      · simp only [if_pos hd] at h
        cases h
        obtain ⟨hn, hr⟩ := isNumeral_split s hd
        refine ⟨.number (by rwa [String.toList_ofList]), ?_⟩
        rw [EndsBefore]
        rwa [String.toList_ofList]
      · by_cases hn : isNameStart c = true
        · simp only [if_neg hd, if_pos hn] at h
          cases h
          refine ⟨.identifier ?_, head?_dropWhile_eq_false s⟩
          rw [String.toList_ofList]
          exact ⟨c, _, rfl, hn, fun d hd => List.all_eq_true.1 List.all_takeWhile d hd⟩
        · simp [hd, hn] at h

/-- What the scanner takes off the front of a text. -/
theorem scan?_eq_some_iff {s rest : List Char} {t : Token} :
    scan? s = some (t, rest) ↔ t.Valid ∧ t.EndsBefore rest ∧ s = t.text.toList ++ rest := by
  constructor
  · intro h
    obtain ⟨hv, he⟩ := valid_of_scan? h
    exact ⟨hv, he, (scan?_append h).2.symm⟩
  · rintro ⟨hv, he, rfl⟩
    exact scan?_of_valid hv he

/-! ### The tokens of a text -/

theorem valid_of_lexemes : ∀ {s : List Char} {ts : List Token}, lexemes s = .ok ts → ∀ t ∈ ts, t.Valid := by
  intro s ts h t ht
  rw [lexemes_eq] at h
  by_cases hb : Text.dropBlanks s = []
  · rw [if_pos hb] at h
    cases h
    cases ht
  · rw [if_neg hb] at h
    cases hs : scan? (Text.dropBlanks s) with
    | none => simp [hs] at h
    | some r =>
      obtain ⟨u, rest⟩ := r
      have hlt : rest.length < s.length := Nat.lt_of_lt_of_le (length_lt_of_scan? hs) (Text.length_dropBlanks_le s)
      simp only [hs] at h
      cases hrest : lexemes rest with
      | error e => simp [hrest, Except.map] at h
      | ok us =>
        rw [hrest] at h
        cases h
        rcases List.mem_cons.1 ht with rfl | ht
        · exact (valid_of_scan? hs).1
        · exact valid_of_lexemes hrest t ht
termination_by s => s.length

end Token

theorem valid_of_tokenize {text : String} {stream : TokenStream} (h : tokenize text = .ok stream) :
    ∀ t ∈ stream.lexemes, t.Valid := by
  rw [tokenize] at h
  cases hl : Token.lexemes text.toList with
  | error e => simp [hl] at h
  | ok ts =>
    rw [hl] at h
    cases h
    exact Token.valid_of_lexemes hl

end Calculator
