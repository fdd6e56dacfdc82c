import Calculator.Proofs.Lexemes

/-!
# Writing tokens as text

Tokens may be written with any blanks before, between and behind them, as long as two neighbours that would merge are
kept apart (`Token.Written`).  Such a text splits into the tokens again: `tokenize_of_written`.
-/

namespace Calculator

namespace Token

/-- Whether a token of the first kind goes on with a token of the second if no blank stands between them. -/
def Kind.merges : Kind → Kind → Bool
  | identifier, identifier | identifier, number | number, number => true
  | _, _ => false

/-- `Written ts s`: the text consists of the tokens in their order, with blanks around them.  A blank separates
neighbours that merge. -/
inductive Written : List Token → List Char → Prop where
  | nil {blanks : List Char} (hb : ∀ c ∈ blanks, Text.isBlank c = true) : Written [] blanks
  | cons {blanks s : List Char} {t : Token} {ts : List Token} (hb : ∀ c ∈ blanks, Text.isBlank c = true)
      (hs : Written ts s) (hsep : t.kind.merges (next ts).kind = true → s.head?.any Text.isBlank = true) :
      Written (t :: ts) (blanks ++ (t.text.toList ++ s))

/-- All tokens can be written with one blank before each. -/
theorem written_flatMap (ts : List Token) : Written ts (ts.flatMap fun t => ' ' :: t.text.toList) := by
  have hb : ∀ c ∈ [' '], Text.isBlank c = true := List.forall_mem_singleton.2 rfl
  induction ts with
  | nil => exact .nil (List.forall_mem_nil _)
  | cons t ts ih =>
    rw [List.flatMap_cons]
    refine .cons hb ih fun hm => ?_
    cases ts with
    | nil => cases hk : t.kind <;> rw [hk] at hm <;> cases hm
    | cons u ts => rfl

/-- How the text of a valid token begins. -/
theorem Valid.text_eq_cons {t : Token} (h : t.Valid) :
    ∃ c s, t.text.toList = c :: s ∧
      (t.kind = .number ∧ c.isDigit = true ∨ t.kind = .identifier ∧ isNameStart c = true ∨
        Kind.ofSymbol? c = some t.kind) := by
  cases h with
  | number h =>
    obtain ⟨c, s, hs, hc⟩ := h.eq_cons
    exact ⟨c, s, hs, Or.inl ⟨rfl, hc⟩⟩
  | identifier h =>
    obtain ⟨c, s, hs, hc, -⟩ := h
    exact ⟨c, s, hs, Or.inr (Or.inl ⟨rfl, hc⟩)⟩
  | @symbol kind c h =>
    exact ⟨c, [], String.toList_ofList, Or.inr (Or.inr (Kind.ofSymbol?_eq_some_iff.2 h))⟩

theorem Valid.isBlank_eq_false {t : Token} (h : t.Valid) (s : List Char) :
    ∀ c, (t.text.toList ++ s).head? = some c → Text.isBlank c = false := by
  intro c hc
  obtain ⟨d, s', hs, hd⟩ := h.text_eq_cons
  rw [hs] at hc
  cases hc
  refine Bool.eq_false_iff.2 fun hb => ?_
  have hblank := toNat_of_isBlank hb
  rcases hd with ⟨-, hd⟩ | ⟨-, hd⟩ | hd
  · have := toNat_of_isDigit hd
    omega
  · have := toNat_of_isNameStart hd
    omega
  · have := toNat_of_ofSymbol? hd
    omega

/-- The first character behind a token is a blank or begins a token with which it does not merge. -/
theorem Written.head? {t : Token} {ts : List Token} {s : List Char} (hw : Written ts s)
    (hv : ∀ u ∈ ts, u.Valid) (hsep : t.kind.merges (next ts).kind = true → s.head?.any Text.isBlank = true)
    {c : Char} (hc : s.head? = some c) :
    Text.isBlank c = true ∨ (∃ kind, Kind.ofSymbol? c = some kind) ∨
      t.kind.merges .number = false ∧ c.isDigit = true ∨
        t.kind.merges .identifier = false ∧ isNameStart c = true := by
  by_cases hm : t.kind.merges (next ts).kind = true
  · have hblank := hsep hm
    rw [hc, Option.any_some] at hblank
    exact Or.inl hblank
  · have hm' : t.kind.merges (next ts).kind = false := Bool.eq_false_iff.2 hm
    cases hw with
    | nil hb => exact Or.inl (hb c (List.mem_of_mem_head? hc))
    | @cons blanks s u ts hb hs hsep' =>
      cases blanks with
      | cons d blanks =>
        cases hc
        exact Or.inl (hb c List.mem_cons_self)
      | nil =>
        obtain ⟨d, s', htext, hd⟩ := (hv u List.mem_cons_self).text_eq_cons
        rw [List.nil_append, htext] at hc
        cases hc
        rcases hd with ⟨hk, hd⟩ | ⟨hk, hd⟩ | hd
        · exact Or.inr (Or.inr (Or.inl ⟨hk ▸ hm', hd⟩))
        · exact Or.inr (Or.inr (Or.inr ⟨hk ▸ hm', hd⟩))
        · exact Or.inr (Or.inl ⟨u.kind, hd⟩)

/-- A token ends where neighbours that merge are kept apart. -/
theorem Written.endsBefore {t : Token} {ts : List Token} {s : List Char} (hw : Written ts s) (hv : ∀ u ∈ ts, u.Valid)
    (hsep : t.kind.merges (next ts).kind = true → s.head?.any Text.isBlank = true) : t.EndsBefore s := by
  have hhead := fun c (hc : s.head? = some c) => hw.head? hv hsep hc
  cases hk : t.kind with
  | identifier =>
    rw [EndsBefore, hk]
    intro c hc
    -- letters and digits would merge with the identifier, and blanks and symbols are no part of a name
    refine Bool.eq_false_iff.2 fun hp => ?_
    have hpart := toNat_of_isNamePart hp
    rcases hhead c hc with hb | ⟨kind, hs⟩ | ⟨hm, -⟩ | ⟨hm, -⟩
    · have := toNat_of_isBlank hb
      omega
    · have := toNat_of_ofSymbol? hs
      omega
    · rw [hk] at hm
      cases hm
    · rw [hk] at hm
      cases hm
  | number =>
    -- neither a digit nor the point, which is no symbol, can follow
    have hnot : ∀ c, s.head? = some c → c.toNat < 46 ∨ c.toNat = 47 ∨ 58 ≤ c.toNat := by
      intro c hc
      rcases hhead c hc with hb | ⟨kind, hs⟩ | ⟨hm, -⟩ | ⟨-, hn⟩
      · have := toNat_of_isBlank hb
        omega
      · have := toNat_of_ofSymbol? hs
        omega
      · rw [hk] at hm
        cases hm
      · have := toNat_of_isNameStart hn
        omega
    rw [EndsBefore, hk]
    constructor
    · intro c hc
      refine Bool.eq_false_iff.2 fun hd => ?_
      have hdigit := toNat_of_isDigit hd
      have := hnot c hc
      omega
    · rintro - d s' rfl
      exact absurd (hnot '.' rfl) (by decide)
  | comma | plus | minus | star | slash | percent | caret | leftParen | rightParen | endOfExpression =>
    rw [EndsBefore, hk]
    trivial

theorem lexemes_of_written {ts : List Token} {s : List Char} (hw : Written ts s) (hv : ∀ t ∈ ts, t.Valid) :
    lexemes s = .ok ts := by
  induction hw with
  | @nil blanks hb =>
    have hdrop : Text.dropBlanks (blanks ++ []) = [] := dropWhile_append_of_head? hb (fun c hc => nomatch hc)
    rw [List.append_nil] at hdrop
    rw [lexemes_eq, if_pos hdrop]
  | @cons blanks s t ts hb hs hsep ih =>
    have ht : t.Valid := hv t List.mem_cons_self
    have hvts : ∀ u ∈ ts, u.Valid := fun u hu => hv u (List.mem_cons_of_mem t hu)
    have hdrop : Text.dropBlanks (blanks ++ (t.text.toList ++ s)) = t.text.toList ++ s :=
      dropWhile_append_of_head? hb (ht.isBlank_eq_false s)
    have hscan : scan? (t.text.toList ++ s) = some (t, s) := scan?_of_valid ht (hs.endsBefore hvts hsep)
    have hne : t.text.toList ++ s ≠ [] := by
      intro hnil
      rw [hnil] at hscan
      cases hscan
    rw [lexemes_eq, hdrop, if_neg hne, hscan]
    simp only [ih hvts]
    rfl

end Token

/-- A text in which valid tokens are written splits into these tokens. -/
theorem tokenize_of_written {ts : List Token} {text : String} (hw : Token.Written ts text.toList)
    (hv : ∀ t ∈ ts, t.Valid) : tokenize text = .ok ⟨ts⟩ := by
  rw [tokenize, Token.lexemes_of_written hw hv]

/-- Valid tokens are the tokens of some text. -/
theorem exists_tokenize_eq {ts : List Token} (hv : ∀ t ∈ ts, t.Valid) : ∃ text, tokenize text = .ok ⟨ts⟩ := by
  refine ⟨String.ofList (ts.flatMap fun t => ' ' :: t.text.toList), tokenize_of_written ?_ hv⟩
  rw [String.toList_ofList]
  exact Token.written_flatMap ts

end Calculator
