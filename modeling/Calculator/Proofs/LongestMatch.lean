import Calculator.Proofs.Layout
import Mathlib

/-!
# The longest token

Of all tokens at the front of a text, of whatever kind, splitting takes the longest one.  So a layout is the one that
splitting finds exactly if each of its tokens is the longest at its place (`Layout.longest_iff_endsBefore`), and a text
has at most one such layout of its tokens.
-/

namespace Calculator

namespace Token

/-- At the end of a text every token ends. -/
theorem endsBefore_nil (t : Token) : t.EndsBefore [] := by
  cases hk : t.kind with
  | number =>
    rw [EndsBefore, hk]
    constructor
    · intro c hc
      cases hc
    · intro _ d s hs
      cases hs
  | identifier =>
    rw [EndsBefore, hk]
    exact fun c hc => by cases hc
  | comma | plus | minus | star | slash | percent | caret | leftParen | rightParen | endOfExpression =>
    rw [EndsBefore, hk]
    trivial

/-- Where a token ends before a text, it ends before every front part of that text. -/
theorem EndsBefore.of_append {t : Token} {s rest : List Char} (h : t.EndsBefore (s ++ rest)) : t.EndsBefore s := by
  have hhead : ∀ c, s.head? = some c → (s ++ rest).head? = some c := by
    intro c hc
    rw [List.head?_append, hc, Option.some_or]
  cases hk : t.kind with
  | number =>
    rw [EndsBefore, hk] at h ⊢
    refine ⟨fun c hc => h.1 c (hhead c hc), fun hp d s' hs => ?_⟩
    rw [hs] at h
    exact h.2 hp d (s' ++ rest) rfl
  | identifier =>
    rw [EndsBefore, hk] at h ⊢
    exact fun c hc => h c (hhead c hc)
  | comma | plus | minus | star | slash | percent | caret | leftParen | rightParen | endOfExpression =>
    rw [EndsBefore, hk]
    trivial

/-- The scanner takes a token off its own text. -/
theorem scan?_text (t : Lexeme) : scan? t.val.text.toList = some (t.val, []) := by
  have hscan := scan?_of_valid t.property (endsBefore_nil t.val)
  rwa [List.append_nil] at hscan

/-- The text of a token splits into the token. -/
theorem lexemes_text (t : Lexeme) : lexemes t.val.text.toList = .ok [t.val] := by
  have hlexemes := lexemes_token_append t (endsBefore_nil t.val)
  rwa [List.append_nil, lexemes_nil] at hlexemes

/-- The scanner finds some token at the front of a text that begins with a token. -/
theorem exists_scan? (t : Lexeme) (s : List Char) : ∃ u rest, scan? (t.val.text.toList ++ s) = some (u, rest) := by
  obtain ⟨c, s', hs, hc⟩ := t.property.text_eq_cons
  have hblank : Text.isBlank c = false := t.property.isBlank_eq_false s c (by rw [hs]; rfl)
  rw [hs, List.cons_append]
  cases hscan : scan? (c :: (s' ++ s)) with
  | some r => exact ⟨r.1, r.2, rfl⟩
  | none =>
    obtain ⟨-, hpart, hsymbol⟩ := unreadable_iff.1 (unreadable_of_scan? hblank hscan)
    rcases hc with ⟨-, hd⟩ | ⟨-, hn⟩ | hk
    · rw [isNamePart_of_isDigit hd] at hpart
      cases hpart
    · rw [isNamePart_of_isNameStart hn] at hpart
      cases hpart
    · rw [hk] at hsymbol
      cases hsymbol

/-- Where a token ends before a text, no token at the front of both is longer. -/
theorem length_le_of_endsBefore {t u : Lexeme} {s : List Char} (he : t.val.EndsBefore s)
    (hu : u.val.text.toList <+: t.val.text.toList ++ s) : u.val.text.toList.length ≤ t.val.text.toList.length := by
  by_contra hlt
  obtain ⟨more, hmore⟩ : t.val.text.toList <+: u.val.text.toList :=
    List.prefix_of_prefix_length_le (List.prefix_append _ _) hu (Nat.le_of_not_le hlt)
  obtain ⟨rest, hrest⟩ := hu
  rw [← hmore, List.append_assoc] at hrest
  obtain rfl := List.append_cancel_left hrest
  -- the scanner would take `t` off the text of `u`, and it takes `u`
  have hscan : scan? u.val.text.toList = some (t.val, more) := hmore ▸ scan?_of_valid t.property he.of_append
  rw [scan?_text u, Option.some.injEq, Prod.mk.injEq] at hscan
  exact hlt (Nat.le_of_eq (congrArg (fun v : Token => v.text.toList.length) hscan.1))

/-- A token ends before a text exactly if no token at the front of both is longer. -/
theorem endsBefore_iff_longest (t : Lexeme) (s : List Char) :
    t.val.EndsBefore s ↔ ∀ u : Lexeme, u.val.text.toList <+: t.val.text.toList ++ s →
      u.val.text.toList.length ≤ t.val.text.toList.length := by
  constructor
  · intro he u hu
    exact length_le_of_endsBefore he hu
  · intro h
    obtain ⟨u, rest, hscan⟩ := exists_scan? t s
    obtain ⟨hu, hrest⟩ := valid_of_scan? hscan
    have happend : u.text.toList ++ rest = t.val.text.toList ++ s := (scan?_append hscan).2
    -- the scanner's token is as long as `t`, so it has the same text and is `t`
    have hle : u.text.toList.length ≤ t.val.text.toList.length := h ⟨u, hu⟩ ⟨rest, happend⟩
    have hge : t.val.text.toList.length ≤ u.text.toList.length :=
      length_le_of_endsBefore (t := ⟨u, hu⟩) hrest ⟨s, happend.symm⟩
    obtain ⟨htext, rfl⟩ := List.append_inj happend (Nat.le_antisymm hle hge)
    have hsame : some (u, ([] : List Char)) = some (t.val, []) := by
      rw [← scan?_text ⟨u, hu⟩, ← scan?_text t, htext]
    cases hsame
    exact hrest

end Token

namespace Layout

/-- Each token is the longest one at its place, of whatever kind. -/
def Longest (l : Layout) : Prop :=
  ∀ blanks t items, (blanks, t) :: items <:+ l.items → ∀ u : Lexeme,
    u.val.text.toList <+: t.val.text.toList ++ render l.final items →
      u.val.text.toList.length ≤ t.val.text.toList.length

theorem longest_iff_endsBefore {l : Layout} : l.Longest ↔ l.EndsBefore [] := by
  simp only [Longest, EndsBefore, Token.endsBefore_iff_longest, List.append_nil]

end Layout

theorem tokenize_eq_ok_iff {source : String} {stream : TokenStream} :
    tokenize source = .ok stream ↔ Token.lexemes source.toList = .ok stream.lexemes := by
  obtain ⟨ts⟩ := stream
  rw [tokenize]
  cases Token.lexemes source.toList with
  | ok us => simp
  | error r => simp

/-- Splitting into tokens loses nothing and always takes the longest token.  A text splits into some tokens exactly if
it consists of them and of blanks around them, each of them the longest one at its place; none is empty, and the end
marker stands behind them and nowhere else. -/
theorem tokenize_eq_ok_iff_longest (source : String) (stream : TokenStream) :
    (tokenize source = .ok stream ↔
      ∃ l : Layout, l.text = source.toList ∧ l.tokens = stream.lexemes ∧ l.Longest) ∧
    (tokenize source = .ok stream →
      (∀ t ∈ stream.lexemes, t.text ≠ "") ∧ stream.tokens.getLast? = some Token.endMarker ∧
        stream.tokens.filter (fun t => t.kind = .endOfExpression) = [Token.endMarker]) := by
  refine ⟨⟨fun h => ?_, ?_⟩, fun h => ⟨fun t ht => ?_, List.getLast?_append_of_ne_nil _ (List.cons_ne_nil _ _), ?_⟩⟩
  · obtain ⟨l, htext, htokens, hl⟩ := exists_layout_of_lexemes (tokenize_eq_ok_iff.1 h)
    exact ⟨l, htext, htokens, Layout.longest_iff_endsBefore.2 hl⟩
  · rintro ⟨l, htext, htokens, hl⟩
    rw [tokenize_eq_ok_iff, ← htext, ← htokens]
    exact Layout.lexemes_text_of_endsBefore (Layout.longest_iff_endsBefore.1 hl)
  · obtain ⟨c, s, hs, -⟩ := (valid_of_tokenize h t ht).text_eq_cons
    rintro hempty
    rw [hempty] at hs
    cases hs
  · have hnone : stream.lexemes.filter (fun t => t.kind = .endOfExpression) = [] := by
      rw [List.filter_eq_nil_iff]
      intro t ht
      have hkind := (valid_of_tokenize h t ht).kind_ne_end
      simpa using hkind
    rw [TokenStream.tokens, List.filter_append, hnone]
    rfl

/-- A name takes the digit behind it, a number takes the point behind it, and a number and a name may touch. -/
theorem tokenize_eq_ok_iff_longest_touching :
    tokenize "x1 1.5y" = .ok ⟨[⟨.identifier, "x1"⟩, ⟨.number, "1.5"⟩, ⟨.identifier, "y"⟩]⟩ ∧
    (∃ l : Layout, l.text = "x1 1.5y".toList ∧
      l.tokens = [⟨.identifier, "x1"⟩, ⟨.number, "1.5"⟩, ⟨.identifier, "y"⟩] ∧ l.Longest) ∧
    ∀ t ∈ [(⟨.identifier, "x1"⟩ : Token), ⟨.number, "1.5"⟩, ⟨.identifier, "y"⟩], t.text ≠ "" := by
  have ht : tokenize "x1 1.5y" = .ok ⟨[⟨.identifier, "x1"⟩, ⟨.number, "1.5"⟩, ⟨.identifier, "y"⟩]⟩ := by cbv
  obtain ⟨hiff, hrest⟩ := tokenize_eq_ok_iff_longest "x1 1.5y" _
  exact ⟨ht, hiff.1 ht, (hrest ht).1⟩

end Calculator
