import Calculator.Proofs.LongestMatch
import Mathlib

/-!
# Where splitting into tokens fails

Splitting stops between two parts of a text if the first has tokens of its own and the second begins with a character
with which no token begins (`StopsBetween`).  One character can be read in spite of that: a point goes on with a number
before it if a digit stands behind it.  A text fails to split exactly if it stops somewhere, and there is only one such
place: `tokenize_eq_error_iff_stopsBetween`.
-/

namespace Calculator

/-- The text ends in a number without a point, with no blank behind it. -/
def EndsInWhole (p : String) : Prop :=
  ∃ stream t, tokenize p = .ok stream ∧ stream.lexemes.getLast? = some t ∧ t.kind = .number ∧
    '.' ∉ t.text.toList ∧ t.text.toList <:+ p.toList

/-- Splitting the text `p ++ r` gets as far as `p` and no further. -/
structure StopsBetween (p r : String) : Prop where
  tokenized : ∃ stream, tokenize p = .ok stream
  unreadable : ∃ c s, r.toList = c :: s ∧ Token.Unreadable c
  /-- The point does not go on with a number. -/
  point : ∀ d s, r.toList = '.' :: d :: s → d.isDigit = true → ¬ EndsInWhole p

/-! ### What stands behind a token -/

namespace Token

/-- No character of a token is blank. -/
theorem Valid.isBlank_eq_false_of_mem {t : Token} (h : t.Valid) {c : Char} (hc : c ∈ t.text.toList) :
    Text.isBlank c = false := by
  refine Bool.eq_false_iff.2 fun hb => ?_
  have hblank := toNat_of_isBlank hb
  cases h with
  | number h =>
    obtain ⟨whole, ⟨-, hw⟩, hs⟩ := h
    have hdigit : c.isDigit = true ∨ c = '.' := by
      rcases hs with hs | ⟨fraction, ⟨-, hf⟩, hs⟩
      · exact Or.inl (hw c (hs ▸ hc))
      · rw [hs, List.mem_append, List.mem_cons] at hc
        rcases hc with hc | rfl | hc
        · exact Or.inl (hw c hc)
        · exact Or.inr rfl
        · exact Or.inl (hf c hc)
    rcases hdigit with hd | rfl
    · have := toNat_of_isDigit hd
      omega
    · exact absurd hblank (by decide)
  | identifier h =>
    obtain ⟨d, rest, hs, hd, hrest⟩ := h
    have hpart : isNamePart c = true := by
      rw [hs, List.mem_cons] at hc
      rcases hc with rfl | hc
      · exact isNamePart_of_isNameStart hd
      · exact hrest c hc
    have := toNat_of_isNamePart hpart
    omega
  | @symbol kind d h =>
    rw [String.toList_ofList, List.mem_singleton] at hc
    have := toNat_of_ofSymbol? (Kind.ofSymbol?_eq_some_iff.2 (hc ▸ h))
    omega

/-- A character that is no part of a name does not go on with a token that ends before the text `s`, unless it is the
point of a number. -/
theorem EndsBefore.append_cons {t : Token} {s : List Char} (h : t.EndsBefore s) {c : Char} {r : List Char}
    (hc : isNamePart c = false)
    (hp : s = [] → t.kind = .number → '.' ∉ t.text.toList → ∀ d s', c :: r = '.' :: d :: s' → d.isDigit = false) :
    t.EndsBefore (s ++ c :: r) := by
  cases hk : t.kind with
  | number =>
    have hdigit : c.isDigit = false := Bool.eq_false_iff.2 fun hd => by
      rw [isNamePart_of_isDigit hd] at hc
      cases hc
    rw [EndsBefore, hk] at h ⊢
    cases s with
    | nil =>
      refine ⟨fun d hd => ?_, fun hw => hp rfl hk hw⟩
      cases hd
      exact hdigit
    | cons e s =>
      refine ⟨fun d hd => h.1 d hd, fun hw d s' heq => ?_⟩
      rw [List.cons_append, List.cons.injEq] at heq
      obtain ⟨rfl, heq⟩ := heq
      -- the character behind the point is the new one, or the same as before
      cases s with
      | nil =>
        cases heq
        exact hdigit
      | cons d' s =>
        cases heq
        exact h.2 hw _ _ rfl
  | identifier =>
    rw [EndsBefore, hk] at h ⊢
    intro d hd
    cases s with
    | nil =>
      cases hd
      exact hc
    | cons e s => exact h d hd
  | comma | plus | minus | star | slash | percent | caret | leftParen | rightParen | endOfExpression =>
    rw [EndsBefore, hk]
    trivial

end Token

/-! ### What stands behind a layout -/

namespace Layout

/-- A layout ends in a token if that is its last one and no blanks stand behind it. -/
def EndsIn (l : Layout) (t : Token) : Prop :=
  l.final.val = [] ∧ l.tokens.getLast? = some t

theorem EndsBefore.of_append {l : Layout} {s : List Char} (h : l.EndsBefore s) : l.EndsBefore [] := by
  intro blanks t items hitems
  rw [List.append_nil]
  exact (h blanks t items hitems).of_append

/-- A character that is no part of a name does not go on with the tokens of a layout that ends before the text `s`,
unless it is the point of a number. -/
theorem EndsBefore.append_cons {l : Layout} {s : List Char} (h : l.EndsBefore s) {c : Char} {r : List Char}
    (hc : Token.isNamePart c = false)
    (hp : s = [] → ∀ t, l.EndsIn t → t.kind = .number → '.' ∉ t.text.toList →
      ∀ d s', c :: r = '.' :: d :: s' → d.isDigit = false) :
    l.EndsBefore (s ++ c :: r) := by
  intro blanks t items hitems
  rw [← List.append_assoc]
  refine (h blanks t items hitems).append_cons hc fun hnil => ?_
  obtain ⟨hrender, hs⟩ := List.append_eq_nil_iff.1 hnil
  refine hp hs t.val ?_
  -- nothing is behind the token, so it is the last one
  cases items with
  | nil =>
    obtain ⟨init, hinit⟩ := hitems
    refine ⟨hrender, ?_⟩
    rw [tokens, ← hinit, List.map_append, List.getLast?_append]
    rfl
  | cons item items =>
    obtain ⟨b, u⟩ := item
    rw [render, List.append_eq_nil_iff] at hrender
    exact absurd hrender.2 (Token.token_append_ne_nil u _)

theorem render_concat (final : Blanks) (items : List (Blanks × Lexeme)) (blanks : Blanks) (t : Lexeme) :
    render final (items ++ [(blanks, t)]) = render blanks items ++ (t.val.text.toList ++ final.val) := by
  induction items with
  | nil => rfl
  | cons item items ih =>
    obtain ⟨b, u⟩ := item
    rw [List.cons_append, render, ih, render, List.append_assoc, List.append_assoc]

/-- The last token of a layout stands before the final blanks. -/
theorem exists_items_of_getLast? {l : Layout} {t : Token} (h : l.tokens.getLast? = some t) :
    ∃ init blanks ht, l.items = init ++ [(blanks, ⟨t, ht⟩)] := by
  obtain ⟨items, final⟩ := l
  have hmap : (items.map fun item => item.2.val).getLast? = some t := h
  rw [List.getLast?_map, Option.map_eq_some_iff] at hmap
  obtain ⟨⟨blanks, u⟩, hitem, rfl⟩ := hmap
  obtain ⟨init, hinit⟩ := List.getLast?_eq_some_iff.1 hitem
  exact ⟨init, blanks, u.property, hinit⟩

theorem EndsIn.suffix {l : Layout} {t : Token} (h : l.EndsIn t) : t.text.toList <:+ l.text := by
  obtain ⟨hfinal, hlast⟩ := h
  obtain ⟨init, blanks, ht, hitems⟩ := exists_items_of_getLast? hlast
  rw [text, hitems, render_concat, hfinal, List.append_nil]
  exact List.suffix_append _ _

/-- If the text of a layout ends in that of its last token, no blanks stand behind the token. -/
theorem endsIn_of_suffix {l : Layout} {t : Token} (hlast : l.tokens.getLast? = some t)
    (h : t.text.toList <:+ l.text) : l.EndsIn t := by
  refine ⟨?_, hlast⟩
  obtain ⟨init, blanks, ht, hitems⟩ := exists_items_of_getLast? hlast
  obtain ⟨before, hbefore⟩ := h
  rw [text, hitems, render_concat] at hbefore
  have htext : t.text.toList ≠ [] := by
    obtain ⟨c, s, hs, -⟩ := ht.text_eq_cons
    exact hs ▸ List.cons_ne_nil c s
  -- otherwise the last character would be one of the token and blank
  by_contra hfinal
  have hlasts := congrArg List.getLast? hbefore
  rw [List.getLast?_append, List.getLast?_append, List.getLast?_append, List.getLast?_eq_some_getLast htext,
    List.getLast?_eq_some_getLast hfinal, Option.some_or, Option.some_or, Option.some_or, Option.some.injEq] at hlasts
  have hblank : Text.isBlank (t.text.toList.getLast htext) = true :=
    hlasts ▸ l.final.property _ (List.getLast_mem hfinal)
  rw [ht.isBlank_eq_false_of_mem (List.getLast_mem htext)] at hblank
  cases hblank

end Layout

/-! ### Where a text stops -/

theorem tokenize_ofList_text {l : Layout} (h : l.EndsBefore []) : tokenize (String.ofList l.text) = .ok ⟨l.tokens⟩ := by
  rw [tokenize_eq_ok_iff, String.toList_ofList]
  exact Layout.lexemes_text_of_endsBefore h

/-- A layout that ends before an unreadable character stops there. -/
theorem stopsBetween_of_endsBefore {l : Layout} {r : String} (h : l.EndsBefore r.toList) {c : Char} {s : List Char}
    (hr : r.toList = c :: s) (hc : Token.Unreadable c) : StopsBetween (String.ofList l.text) r := by
  have htokens := tokenize_ofList_text h.of_append
  refine ⟨⟨_, htokens⟩, ⟨c, s, hr, hc⟩, ?_⟩
  rintro d s' hpoint hd ⟨stream, t, hstream, hlast, hnumber, hwhole, hsuffix⟩
  rw [htokens] at hstream
  cases hstream
  rw [String.toList_ofList] at hsuffix
  obtain ⟨init, blanks, ht, hitems⟩ := Layout.exists_items_of_getLast? hlast
  -- the number would have gone on with the point and the digit
  have hends : t.EndsBefore (Layout.render l.final [] ++ r.toList) :=
    h blanks ⟨t, ht⟩ [] (hitems ▸ List.suffix_append _ _)
  rw [Layout.render, (Layout.endsIn_of_suffix hlast hsuffix).1, List.nil_append, Token.EndsBefore, hnumber] at hends
  rw [hends.2 hwhole d s' hpoint] at hd
  cases hd

/-- If splitting stops between two texts, it fails with the second one left over. -/
theorem lexemes_of_stopsBetween {p r : String} (h : StopsBetween p r) :
    Token.lexemes (p ++ r).toList = .error r.toList := by
  obtain ⟨⟨stream, htokens⟩, ⟨c, s, hr, hc⟩, hpoint⟩ := h
  obtain ⟨l, htext, hlexemes, hl⟩ := exists_layout_of_lexemes (tokenize_eq_ok_iff.1 htokens)
  have hends : l.EndsBefore (c :: s) := by
    refine hl.append_cons (Token.unreadable_iff.1 hc).2.1 fun _ t ht hnumber hwhole d s' heq => ?_
    refine Bool.eq_false_iff.2 fun hd => ?_
    exact hpoint d s' (hr.trans heq) hd ⟨stream, t, htokens, hlexemes ▸ ht.2, hnumber, hwhole, htext ▸ ht.suffix⟩
  rw [String.toList_append, ← htext, hr, Layout.lexemes_text_append hends, Token.lexemes_of_unreadable hc]
  rfl

theorem tokenize_of_stopsBetween {p r : String} (h : StopsBetween p r) :
    tokenize (p ++ r) = .error ⟨p.utf8ByteSize, r⟩ := by
  rw [tokenize, lexemes_of_stopsBetween h]
  simp only [String.ofList_toList, String.utf8ByteSize_append, Nat.add_sub_cancel]

theorem exists_stopsBetween_of_tokenize {source : String} {error : LexicalError} (h : tokenize source = .error error) :
    ∃ p, source = p ++ error.remaining ∧ StopsBetween p error.remaining := by
  rw [tokenize] at h
  cases hl : Token.lexemes source.toList with
  | ok ts =>
    rw [hl] at h
    cases h
  | error rest =>
    rw [hl] at h
    cases h
    obtain ⟨l, c, s, hsource, hends, hrest, hc⟩ := exists_layout_of_lexemes_error hl
    refine ⟨String.ofList l.text, ?_, ?_⟩
    · rw [← String.ofList_append, ← hsource, String.ofList_toList]
    · refine stopsBetween_of_endsBefore (c := c) (s := s) ?_ ?_ hc
      · rwa [String.toList_ofList]
      · rwa [String.toList_ofList]

/-- Failures are located exactly.  A text fails to split into tokens exactly if splitting stops at some place in it, and
the error names this place by the number of bytes before it and gives the rest of the text from there.  The place is a
boundary of characters before the end of the text, and there is no other one at which splitting stops. -/
theorem tokenize_eq_error_iff_stopsBetween (source : String) (error : LexicalError) :
    (tokenize source = .error error ↔
      ∃ p, source = p ++ error.remaining ∧ error.offset = p.utf8ByteSize ∧ StopsBetween p error.remaining) ∧
    (tokenize source = .error error →
      error.offset < source.utf8ByteSize ∧ String.Pos.Raw.IsValid source ⟨error.offset⟩) ∧
    ∀ p r p' r', source = p ++ r → source = p' ++ r' → StopsBetween p r → StopsBetween p' r' → p = p' ∧ r = r' := by
  have hiff : tokenize source = .error error ↔
      ∃ p, source = p ++ error.remaining ∧ error.offset = p.utf8ByteSize ∧ StopsBetween p error.remaining := by
    constructor
    · intro h
      obtain ⟨p, hsource, hstops⟩ := exists_stopsBetween_of_tokenize h
      rw [hsource, tokenize_of_stopsBetween hstops] at h
      exact ⟨p, hsource, congrArg LexicalError.offset (Except.error.inj h).symm, hstops⟩
    · rintro ⟨p, hsource, hoffset, hstops⟩
      rw [hsource, tokenize_of_stopsBetween hstops, ← hoffset]
  refine ⟨hiff, fun h => ?_, ?_⟩
  · obtain ⟨p, hsource, hoffset, hstops⟩ := hiff.1 h
    obtain ⟨c, s, hr, -⟩ := hstops.unreadable
    have hpos : error.remaining.utf8ByteSize ≠ 0 := by
      rw [ne_eq, String.utf8ByteSize_eq_zero_iff]
      intro hempty
      rw [hempty] at hr
      cases hr
    constructor
    · rw [hsource, String.utf8ByteSize_append, hoffset]
      omega
    · exact String.Pos.Raw.isValid_iff_exists_append.2 ⟨p, error.remaining, hsource, by rw [hoffset]; rfl⟩
  · rintro p r p' r' rfl hsource hstops hstops'
    have hlexemes := lexemes_of_stopsBetween hstops
    rw [hsource, lexemes_of_stopsBetween hstops', Except.error.injEq] at hlexemes
    obtain rfl := String.toList_injective hlexemes
    exact ⟨(String.append_left_inj _).1 hsource, rfl⟩

/-- A wide blank counts three bytes, and the point after a number without a digit behind it is left over. -/
theorem tokenize_eq_error_iff_stopsBetween_point :
    tokenize "\u3000x1 2.y" = .error ⟨7, ".y"⟩ ∧
    (∃ p, "\u3000x1 2.y" = p ++ ".y" ∧ 7 = p.utf8ByteSize ∧ StopsBetween p ".y") ∧
    String.Pos.Raw.IsValid "\u3000x1 2.y" ⟨7⟩ := by
  have ht : tokenize "\u3000x1 2.y" = .error ⟨7, ".y"⟩ := by cbv
  obtain ⟨hiff, hvalid, -⟩ := tokenize_eq_error_iff_stopsBetween "\u3000x1 2.y" ⟨7, ".y"⟩
  exact ⟨ht, hiff.1 ht, (hvalid ht).2⟩

end Calculator
