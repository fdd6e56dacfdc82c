import Calculator.Proofs.Spacing
import Mathlib.Data.List.Chain

/-!
# Layouts

A layout is a list of valid tokens with the blanks before each of them and the blanks behind the last one.  It has a
text, and nothing in it says whether the text splits into these tokens again:

* `Layout.lexemes_text_append`: where each token ends as the layout says, the text behind it is split on its own;
* `exists_layout`: every text is a layout of this kind, with nothing or a character that begins no token behind it;
* `tokenize_text_eq_ok_iff`: the text of a layout splits into its tokens exactly if blanks keep the neighbours apart
  that would merge.
-/

namespace Calculator

/-- A text of blanks alone. -/
abbrev Blanks := { s : List Char // ∀ c ∈ s, Text.isBlank c = true }

/-- A valid token. -/
abbrev Lexeme := { t : Token // t.Valid }

/-- Tokens with the blanks before each of them, and the blanks behind the last one. -/
structure Layout where
  items : List (Blanks × Lexeme)
  final : Blanks

namespace Layout

/-- The text of some items and of the blanks behind them. -/
def render (final : Blanks) : List (Blanks × Lexeme) → List Char
  | [] => final.val
  | (blanks, t) :: items => blanks.val ++ (t.val.text.toList ++ render final items)

/-- The text of a layout. -/
def text (l : Layout) : List Char :=
  render l.final l.items

/-- The tokens of a layout. -/
def tokens (l : Layout) : List Token :=
  l.items.map fun item => item.2.val

/-- Each token ends where the layout says, if the text `s` follows behind the layout. -/
def EndsBefore (l : Layout) (s : List Char) : Prop :=
  ∀ blanks t items, (blanks, t) :: items <:+ l.items → t.val.EndsBefore (render l.final items ++ s)

/-- Blanks stand between neighbours that merge. -/
def Separated (l : Layout) : Prop :=
  l.items.IsChain fun item next => item.2.val.kind.merges next.2.val.kind = true → next.1.val ≠ []

theorem endsBefore_nil (final : Blanks) (s : List Char) : EndsBefore ⟨[], final⟩ s := by
  intro blanks t items h
  cases List.suffix_nil.1 h

theorem endsBefore_cons {blanks : Blanks} {t : Lexeme} {items : List (Blanks × Lexeme)} {final : Blanks}
    {s : List Char} :
    EndsBefore ⟨(blanks, t) :: items, final⟩ s ↔
      t.val.EndsBefore (render final items ++ s) ∧ EndsBefore ⟨items, final⟩ s := by
  constructor
  · intro h
    exact ⟨h blanks t items (List.suffix_refl _), fun b u us hu => h b u us (hu.trans (List.suffix_cons _ _))⟩
  · rintro ⟨ht, hitems⟩ b u us hu
    rcases List.suffix_cons_iff.1 hu with heq | hu
    · cases heq
      exact ht
    · exact hitems b u us hu

end Layout

namespace Token

/-! ### Splitting the text of a layout -/

theorem lexemes_nil : lexemes [] = .ok [] := by
  rw [lexemes_eq]
  rfl

theorem lexemes_blanks_append (blanks : Blanks) (s : List Char) : lexemes (blanks.val ++ s) = lexemes s := by
  have hdrop : Text.dropBlanks (blanks.val ++ s) = Text.dropBlanks s :=
    List.dropWhile_append_of_pos blanks.property
  rw [lexemes_eq, lexemes_eq s, hdrop]

theorem dropBlanks_token_append (t : Lexeme) (s : List Char) :
    Text.dropBlanks (t.val.text.toList ++ s) = t.val.text.toList ++ s :=
  dropWhile_append_of_head? (List.forall_mem_nil _) (t.property.isBlank_eq_false s)

theorem token_append_ne_nil (t : Lexeme) (s : List Char) : t.val.text.toList ++ s ≠ [] := by
  obtain ⟨c, s', hs, -⟩ := t.property.text_eq_cons
  rw [hs]
  exact List.cons_ne_nil _ _

/-- A token at the front of a text is split off where it ends. -/
theorem lexemes_token_append (t : Lexeme) {s : List Char} (he : t.val.EndsBefore s) :
    lexemes (t.val.text.toList ++ s) = (lexemes s).map (t.val :: ·) := by
  rw [lexemes_eq, dropBlanks_token_append, if_neg (token_append_ne_nil t s), scan?_of_valid t.property he]

/-- If a text splits into a token at its front and others, then the token ends where the others begin. -/
theorem endsBefore_of_lexemes {t : Lexeme} {s : List Char} {ts : List Token}
    (h : lexemes (t.val.text.toList ++ s) = .ok (t.val :: ts)) : t.val.EndsBefore s ∧ lexemes s = .ok ts := by
  rw [lexemes_eq, dropBlanks_token_append, if_neg (token_append_ne_nil t s)] at h
  cases hs : scan? (t.val.text.toList ++ s) with
  | none =>
    rw [hs] at h
    cases h
  | some r =>
    obtain ⟨u, rest⟩ := r
    simp only [hs] at h
    cases hrest : lexemes rest with
    | error e =>
      rw [hrest] at h
      cases h
    | ok us =>
      rw [hrest] at h
      cases h
      have happend : t.val.text.toList ++ rest = t.val.text.toList ++ s := (scan?_append hs).2
      obtain rfl := List.append_cancel_left happend
      exact ⟨(valid_of_scan? hs).2, hrest⟩

end Token

namespace Layout

/-- Where the tokens end as the layout says, what follows is split on its own. -/
theorem lexemes_text_append {l : Layout} {s : List Char} (h : l.EndsBefore s) :
    Token.lexemes (l.text ++ s) = (Token.lexemes s).map (l.tokens ++ ·) := by
  obtain ⟨items, final⟩ := l
  show Token.lexemes (render final items ++ s) = (Token.lexemes s).map (items.map (fun item => item.2.val) ++ ·)
  induction items with
  | nil =>
    rw [render, Token.lexemes_blanks_append]
    cases Token.lexemes s <;> rfl
  | cons item items ih =>
    obtain ⟨blanks, t⟩ := item
    obtain ⟨ht, hitems⟩ := endsBefore_cons.1 h
    rw [render, List.append_assoc, List.append_assoc, Token.lexemes_blanks_append,
      Token.lexemes_token_append t ht, ih hitems]
    cases Token.lexemes s <;> rfl

theorem lexemes_text_of_endsBefore {l : Layout} (h : l.EndsBefore []) : Token.lexemes l.text = .ok l.tokens := by
  have happend := lexemes_text_append h
  rw [List.append_nil, Token.lexemes_nil] at happend
  rw [happend, Except.map, List.append_nil]

theorem endsBefore_of_lexemes_text {l : Layout} (h : Token.lexemes l.text = .ok l.tokens) : l.EndsBefore [] := by
  obtain ⟨items, final⟩ := l
  have h' : Token.lexemes (render final items) = .ok (items.map fun item => item.2.val) := h
  clear h
  induction items with
  | nil => exact endsBefore_nil final []
  | cons item items ih =>
    obtain ⟨blanks, t⟩ := item
    rw [render, Token.lexemes_blanks_append] at h'
    obtain ⟨ht, hitems⟩ := Token.endsBefore_of_lexemes h'
    rw [← List.append_nil (render final items)] at ht
    exact endsBefore_cons.2 ⟨ht, ih hitems⟩

/-- A layout is read back from its text exactly if each token ends where the layout says. -/
theorem lexemes_text_eq_ok_iff {l : Layout} : Token.lexemes l.text = .ok l.tokens ↔ l.EndsBefore [] :=
  ⟨endsBefore_of_lexemes_text, lexemes_text_of_endsBefore⟩

end Layout

/-! ### The layout of a text -/

/-- The character is no blank, no letter or digit of ASCII, no underscore and no symbol. -/
def Token.Unreadable (c : Char) : Prop :=
  Text.isBlank c = false ∧ c.isAlpha = false ∧ c.isDigit = false ∧
    c ∉ ['_', ',', '+', '-', '*', '/', '%', '^', '(', ')']

theorem Token.Kind.ofSymbol?_eq_none_iff {c : Char} :
    ofSymbol? c = none ↔ c ∉ [',', '+', '-', '*', '/', '%', '^', '(', ')'] := by
  constructor
  · intro h hmem
    simp only [List.mem_cons, List.not_mem_nil, or_false] at hmem
    rcases hmem with rfl | rfl | rfl | rfl | rfl | rfl | rfl | rfl | rfl <;> cases h
  · intro h
    cases hk : ofSymbol? c with
    | none => rfl
    | some kind =>
      rw [ofSymbol?_eq_some_iff] at hk
      cases kind <;> cases hk <;> exact absurd (by decide) h

theorem Token.unreadable_iff {c : Char} :
    Unreadable c ↔ Text.isBlank c = false ∧ isNamePart c = false ∧ Kind.ofSymbol? c = none := by
  have hpart : isNamePart c = false ↔ c.isAlpha = false ∧ c.isDigit = false ∧ c ≠ '_' := by
    rw [isNamePart_eq, Bool.or_eq_false_iff, Bool.or_eq_false_iff, beq_eq_false_iff_ne, and_assoc]
  rw [Unreadable, hpart, Kind.ofSymbol?_eq_none_iff, List.mem_cons, not_or, and_assoc, and_assoc]

theorem Token.scan?_of_unreadable {c : Char} (h : Unreadable c) (s : List Char) : scan? (c :: s) = none := by
  obtain ⟨-, hpart, hsymbol⟩ := unreadable_iff.1 h
  have hdigit : ¬ c.isDigit = true := fun hd => by
    rw [isNamePart_of_isDigit hd] at hpart
    cases hpart
  have hstart : ¬ isNameStart c = true := fun hs => by
    rw [isNamePart_of_isNameStart hs] at hpart
    cases hpart
  rw [scan?, hsymbol]
  simp only [if_neg hdigit, if_neg hstart]

theorem Token.unreadable_of_scan? {c : Char} {s : List Char} (hb : Text.isBlank c = false)
    (h : scan? (c :: s) = none) : Unreadable c := by
  rw [scan?] at h
  cases hk : Kind.ofSymbol? c with
  | some kind =>
    rw [hk] at h
    cases h
  | none =>
    rw [hk] at h
    by_cases hd : c.isDigit = true
    · simp [hd] at h
    · by_cases hn : isNameStart c = true
      · simp [hd, hn] at h
      · refine unreadable_iff.2 ⟨hb, ?_, hk⟩
        rw [isNameStart, Bool.or_eq_true, not_or] at hn
        rw [isNamePart_eq, Bool.eq_false_iff, ne_eq, Bool.or_eq_true, Bool.or_eq_true, not_or, not_or]
        exact ⟨⟨hn.1, hd⟩, hn.2⟩

/-- No token can be read at the front of a text that begins with an unreadable character. -/
theorem Token.lexemes_of_unreadable {c : Char} (h : Unreadable c) (s : List Char) :
    lexemes (c :: s) = .error (c :: s) := by
  have hdrop : Text.dropBlanks (c :: s) = c :: s := List.dropWhile_cons_of_neg (by simp [h.1])
  rw [lexemes_eq, hdrop, if_neg (List.cons_ne_nil c s), scan?_of_unreadable h]

/-- Every text is a layout, followed by nothing or by a character with which no token begins. -/
theorem exists_layout (s : List Char) :
    ∃ (l : Layout) (rest : List Char), s = l.text ++ rest ∧ l.EndsBefore rest ∧
      ∀ c, rest.head? = some c → Token.Unreadable c := by
  have hblank : ∀ c ∈ s.takeWhile Text.isBlank, Text.isBlank c = true :=
    fun c hc => List.all_eq_true.1 List.all_takeWhile c hc
  have hs : s.takeWhile Text.isBlank ++ Text.dropBlanks s = s := List.takeWhile_append_dropWhile
  cases hscan : Token.scan? (Text.dropBlanks s) with
  | none =>
    refine ⟨⟨[], ⟨_, hblank⟩⟩, Text.dropBlanks s, hs.symm, Layout.endsBefore_nil _ _, fun c hc => ?_⟩
    have hb : Text.isBlank c = false := Token.head?_dropWhile_eq_false s c hc
    cases hdrop : Text.dropBlanks s with
    | nil =>
      rw [hdrop] at hc
      cases hc
    | cons d rest =>
      rw [hdrop] at hc hscan
      cases hc
      exact Token.unreadable_of_scan? hb hscan
  | some r =>
    obtain ⟨t, s'⟩ := r
    have hlt : s'.length < s.length :=
      Nat.lt_of_lt_of_le (Token.length_lt_of_scan? hscan) (Text.length_dropBlanks_le s)
    obtain ⟨ht, he⟩ := Token.valid_of_scan? hscan
    -- the layout of what the token leaves, with the blanks and the token put before it
    obtain ⟨l, rest, hs', hl, hrest⟩ := exists_layout s'
    refine ⟨⟨(⟨_, hblank⟩, ⟨t, ht⟩) :: l.items, l.final⟩, rest, ?_, Layout.endsBefore_cons.2 ⟨?_, hl⟩, hrest⟩
    · show s = (s.takeWhile Text.isBlank ++ (t.text.toList ++ l.text)) ++ rest
      rw [List.append_assoc, List.append_assoc, ← hs', (Token.scan?_append hscan).2, hs]
    · show t.EndsBefore (l.text ++ rest)
      rw [← hs']
      exact he
termination_by s.length

/-- The tokens of a text are those of a layout of it. -/
theorem exists_layout_of_lexemes {s : List Char} {ts : List Token} (h : Token.lexemes s = .ok ts) :
    ∃ l : Layout, l.text = s ∧ l.tokens = ts ∧ l.EndsBefore [] := by
  obtain ⟨l, rest, rfl, hl, hrest⟩ := exists_layout s
  cases rest with
  | nil =>
    rw [List.append_nil, Layout.lexemes_text_of_endsBefore hl] at h
    cases h
    exact ⟨l, (List.append_nil _).symm, rfl, hl⟩
  | cons c rest =>
    rw [Layout.lexemes_text_append hl, Token.lexemes_of_unreadable (hrest c rfl)] at h
    cases h

/-- What is left where no token can be read stands behind a layout and begins with an unreadable character. -/
theorem exists_layout_of_lexemes_error {s r : List Char} (h : Token.lexemes s = .error r) :
    ∃ (l : Layout) (c : Char) (r' : List Char), s = l.text ++ r ∧ l.EndsBefore r ∧ r = c :: r' ∧
      Token.Unreadable c := by
  obtain ⟨l, rest, rfl, hl, hrest⟩ := exists_layout s
  rw [Layout.lexemes_text_append hl] at h
  cases rest with
  | nil =>
    rw [Token.lexemes_eq] at h
    cases h
  | cons c rest =>
    rw [Token.lexemes_of_unreadable (hrest c rfl)] at h
    cases h
    exact ⟨l, c, rest, rfl, hl, rfl, hrest c rfl⟩

/-! ### Which separators are needed -/

namespace Layout

/-- Names merge with names and numbers, and numbers with numbers. -/
theorem eq_of_merges {kind kind' : Token.Kind} (h : kind.merges kind' = true) :
    kind = .identifier ∧ (kind' = .identifier ∨ kind' = .number) ∨ kind = .number ∧ kind' = .number := by
  revert h
  cases kind <;> cases kind' <;> decide

theorem Separated.written {l : Layout} (h : l.Separated) : Token.Written l.tokens l.text := by
  obtain ⟨items, final⟩ := l
  show Token.Written (items.map fun item => item.2.val) (render final items)
  induction items with
  | nil => exact .nil final.property
  | cons item items ih =>
    obtain ⟨blanks, t⟩ := item
    refine .cons blanks.property (ih (List.IsChain.tail h)) fun hm => ?_
    cases items with
    | nil =>
      -- nothing merges with the end
      rcases eq_of_merges hm with ⟨-, hend | hend⟩ | ⟨-, hend⟩ <;> cases hend
    | cons next items =>
      obtain ⟨b, u⟩ := next
      have hne : b.val ≠ [] := (List.isChain_cons_cons.1 h).1 hm
      obtain ⟨c, b', hb⟩ := List.exists_cons_of_ne_nil hne
      have hc : Text.isBlank c = true := b.property c (hb ▸ List.mem_cons_self)
      rw [render, hb, List.cons_append, List.head?_cons, Option.any_some, hc]

/-- A token does not end before one with which it merges. -/
theorem not_endsBefore_of_merges {t u : Lexeme} (hm : t.val.kind.merges u.val.kind = true) (s : List Char) :
    ¬ t.val.EndsBefore (u.val.text.toList ++ s) := by
  intro he
  obtain ⟨c, s', hs, hc⟩ := u.property.text_eq_cons
  rw [hs, List.cons_append] at he
  rcases eq_of_merges hm with ⟨ht, hu⟩ | ⟨ht, hu⟩
  · have hpart : Token.isNamePart c = true := by
      rcases hc with ⟨-, hd⟩ | ⟨-, hn⟩ | hsymbol
      · exact Token.isNamePart_of_isDigit hd
      · exact Token.isNamePart_of_isNameStart hn
      · have hkind := Token.Kind.ofSymbol?_eq_some_iff.1 hsymbol
        rcases hu with hu | hu <;> rw [hu] at hkind <;> cases hkind
    rw [Token.EndsBefore, ht] at he
    rw [he c rfl] at hpart
    cases hpart
  · have hdigit : c.isDigit = true := by
      rcases hc with ⟨-, hd⟩ | ⟨hk, -⟩ | hsymbol
      · exact hd
      · rw [hu] at hk
        cases hk
      · have hkind := Token.Kind.ofSymbol?_eq_some_iff.1 hsymbol
        rw [hu] at hkind
        cases hkind
    rw [Token.EndsBefore, ht] at he
    rw [he.1 c rfl] at hdigit
    cases hdigit

theorem EndsBefore.separated {l : Layout} (h : l.EndsBefore []) : l.Separated := by
  obtain ⟨items, final⟩ := l
  show items.IsChain _
  induction items with
  | nil => exact .nil
  | cons item items ih =>
    obtain ⟨blanks, t⟩ := item
    obtain ⟨ht, hitems⟩ := endsBefore_cons.1 h
    cases items with
    | nil => exact .singleton _
    | cons next items =>
      obtain ⟨b, u⟩ := next
      refine List.isChain_cons_cons.2 ⟨fun hm hb => ?_, ih hitems⟩
      have hb' : b.val = [] := hb
      rw [render, hb', List.nil_append, List.append_assoc] at ht
      exact not_endsBefore_of_merges hm _ ht

end Layout

/-- Writing tokens and splitting the text again gives the same tokens exactly if blanks stand between all neighbours
that merge, which are two identifiers, an identifier and a number, and two numbers.  All other neighbours may touch. -/
theorem tokenize_text_eq_ok_iff (l : Layout) :
    tokenize (String.ofList l.text) = .ok ⟨l.tokens⟩ ↔ l.Separated := by
  constructor
  · intro h
    rw [tokenize, String.toList_ofList] at h
    cases hl : Token.lexemes l.text with
    | error r =>
      rw [hl] at h
      cases h
    | ok ts =>
      rw [hl] at h
      cases h
      exact (Layout.lexemes_text_eq_ok_iff.1 hl).separated
  · intro h
    refine tokenize_of_written ?_ fun t ht => ?_
    · rw [String.toList_ofList]
      exact h.written
    · obtain ⟨item, -, rfl⟩ := List.mem_map.1 ht
      exact item.2.property

end Calculator
