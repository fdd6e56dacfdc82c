import Calculator.Proofs.LexicalFailure

/-!
# Texts one after another

A character separates if no token before it goes on with it.  Blanks and symbols separate.  Whatever stands before a
separating character is split into tokens without regard to what stands from there on:

* `Token.lexemes_append_of_ok`, `Token.lexemes_append_of_error`: the text before the character has tokens, or it fails;
* `tokenize_append_of_blanks`: two texts with blanks between them.
-/

namespace Calculator

namespace Token

/-- No token goes on with the character. -/
def Separates (c : Char) : Prop :=
  isNamePart c = false ∧ c ≠ '.'

theorem separates_of_isBlank {c : Char} (h : Text.isBlank c = true) : Separates c := by
  have hblank := toNat_of_isBlank h
  constructor
  · refine Bool.eq_false_iff.2 fun hp => ?_
    have := toNat_of_isNamePart hp
    omega
  · rintro rfl
    exact absurd hblank (by decide)

theorem separates_of_symbol? {kind : Kind} {c : Char} (h : kind.symbol? = some c) : Separates c := by
  have hsymbol := Kind.ofSymbol?_eq_some_iff.2 h
  constructor
  · refine Bool.eq_false_iff.2 fun hp => ?_
    rw [ofSymbol?_eq_none hp] at hsymbol
    cases hsymbol
  · rintro rfl
    cases hsymbol

end Token

theorem Layout.EndsBefore.append_separator {l : Layout} {s : List Char} (h : l.EndsBefore s) {c : Char}
    (hc : Token.Separates c) (r : List Char) : l.EndsBefore (s ++ c :: r) :=
  h.append_cons hc.1 fun _ _ _ _ _ _ _ heq => absurd (List.cons.inj heq).1 hc.2

namespace Token

variable {c : Char} {s : List Char}

/-- A text that has tokens leaves what follows behind a separating character to be split on its own. -/
theorem lexemes_append_of_ok (hc : Separates c) {ts : List Token} (h : lexemes s = .ok ts) (r : List Char) :
    lexemes (s ++ c :: r) = (lexemes (c :: r)).map (ts ++ ·) := by
  obtain ⟨l, rfl, rfl, hl⟩ := exists_layout_of_lexemes h
  exact Layout.lexemes_text_append (hl.append_separator hc r)

/-- A text that fails does so at the same place, whatever follows behind a separating character. -/
theorem lexemes_append_of_error (hc : Separates c) {rest : List Char} (h : lexemes s = .error rest) (r : List Char) :
    lexemes (s ++ c :: r) = .error (rest ++ c :: r) := by
  obtain ⟨l, d, rest', rfl, hl, rfl, hd⟩ := exists_layout_of_lexemes_error h
  rw [List.append_assoc, Layout.lexemes_text_append (hl.append_separator hc r), List.cons_append,
    lexemes_of_unreadable hd]
  rfl

end Token

/-- What a text leaves over is the end of it, and the offset says where this end begins. -/
theorem tokenize_eq_error_iff {source : String} {e : LexicalError} :
    tokenize source = .error e ↔
      Token.lexemes source.toList = .error e.remaining.toList ∧
        source.utf8ByteSize = e.offset + e.remaining.utf8ByteSize := by
  constructor
  · intro h
    obtain ⟨p, rfl, hstops⟩ := exists_stopsBetween_of_tokenize h
    rw [tokenize_of_stopsBetween hstops] at h
    have hoffset : p.utf8ByteSize = e.offset := congrArg LexicalError.offset (Except.error.inj h)
    exact ⟨lexemes_of_stopsBetween hstops, by rw [String.utf8ByteSize_append, hoffset]⟩
  · rintro ⟨hlexemes, hsize⟩
    rw [tokenize, hlexemes]
    simp only [String.ofList_toList, hsize, Nat.add_sub_cancel]

/-- Splitting respects the concatenation of texts with blanks between them.  If the first text has tokens, those of the
second one follow them, or the second one fails where it fails on its own, behind the bytes of the first text and the
blanks; and if the first text fails, it fails at the same place. -/
theorem tokenize_append_of_blanks (a b : String) {w : String} (hne : w ≠ "")
    (hw : ∀ c ∈ w.toList, Text.isBlank c = true) :
    (∀ ts us, tokenize a = .ok ⟨ts⟩ → tokenize b = .ok ⟨us⟩ → tokenize (a ++ w ++ b) = .ok ⟨ts ++ us⟩) ∧
    (∀ ts e, tokenize a = .ok ⟨ts⟩ → tokenize b = .error e →
      tokenize (a ++ w ++ b) = .error ⟨(a ++ w).utf8ByteSize + e.offset, e.remaining⟩) ∧
    ∀ e, tokenize a = .error e → tokenize (a ++ w ++ b) = .error ⟨e.offset, e.remaining ++ w ++ b⟩ := by
  have hlist : w.toList ≠ [] := fun hnil => hne (String.toList_eq_nil_iff.1 hnil)
  obtain ⟨c, blanks, hcons⟩ := List.exists_cons_of_ne_nil hlist
  have hc : Token.Separates c := Token.separates_of_isBlank (hw c (hcons ▸ List.mem_cons_self))
  have htext : (a ++ w ++ b).toList = a.toList ++ c :: (blanks ++ b.toList) := by
    rw [String.toList_append, String.toList_append, hcons, List.append_assoc, List.cons_append]
  have hskip : Token.lexemes (c :: (blanks ++ b.toList)) = Token.lexemes b.toList := by
    rw [← List.cons_append, ← hcons]
    exact Token.lexemes_blanks_append ⟨w.toList, hw⟩ b.toList
  refine ⟨fun ts us ha hb => ?_, fun ts e ha hb => ?_, fun e ha => ?_⟩
  · rw [tokenize_eq_ok_iff] at ha hb ⊢
    rw [htext, Token.lexemes_append_of_ok hc ha, hskip, hb]
    rfl
  · rw [tokenize_eq_ok_iff] at ha
    obtain ⟨hb, hsize⟩ := tokenize_eq_error_iff.1 hb
    rw [tokenize_eq_error_iff, htext, Token.lexemes_append_of_ok hc ha, hskip, hb]
    refine ⟨rfl, ?_⟩
    rw [String.utf8ByteSize_append, hsize, Nat.add_assoc]
  · obtain ⟨ha, hsize⟩ := tokenize_eq_error_iff.1 ha
    rw [tokenize_eq_error_iff, htext, Token.lexemes_append_of_error hc ha]
    constructor
    · rw [String.toList_append, String.toList_append, hcons, List.append_assoc, List.cons_append]
    · simp only [String.utf8ByteSize_append, hsize, Nat.add_assoc]

/-- A wide blank keeps the point from going on with the number before it, and counts three bytes. -/
theorem tokenize_append_of_blanks_point :
    "\u3000" ≠ "" ∧ (∀ c ∈ "\u3000".toList, Text.isBlank c = true) ∧
    tokenize "2" = .ok ⟨[⟨.number, "2"⟩]⟩ ∧ tokenize " x" = .ok ⟨[⟨.identifier, "x"⟩]⟩ ∧
    tokenize ".5" = .error ⟨0, ".5"⟩ ∧
    tokenize "2\u3000 x" = .ok ⟨[⟨.number, "2"⟩, ⟨.identifier, "x"⟩]⟩ ∧
    tokenize "2\u3000.5" = .error ⟨4, ".5"⟩ ∧
    tokenize ".5\u30002" = .error ⟨0, ".5\u30002"⟩ := by
  have hne : "\u3000" ≠ "" := by decide
  have hw : ∀ c ∈ "\u3000".toList, Text.isBlank c = true := List.forall_mem_singleton.2 rfl
  have htwo : tokenize "2" = .ok ⟨[⟨.number, "2"⟩]⟩ := by cbv
  have hx : tokenize " x" = .ok ⟨[⟨.identifier, "x"⟩]⟩ := by cbv
  have hpoint : tokenize ".5" = .error ⟨0, ".5"⟩ := by cbv
  exact ⟨hne, hw, htwo, hx, hpoint, (tokenize_append_of_blanks "2" " x" hne hw).1 _ _ htwo hx,
    (tokenize_append_of_blanks "2" ".5" hne hw).2.1 _ _ htwo hpoint,
    (tokenize_append_of_blanks ".5" "2" hne hw).2.2 _ hpoint⟩

end Calculator
