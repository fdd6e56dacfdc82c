import Calculator.Console.Definition
import Calculator.Proofs.Cutting
import Calculator.Proofs.Padding
import Mathlib.Data.List.Forall2

/-!
# Lines that define a function

`Definition.Written d line` says that the line writes the definition `d`, with any blanks around its parts; `d.render`
is one such line.  A definition can be written if no part of it holds a sign that ends the part, and if no part has
blanks at its ends (`Definition.IsWritable`); the body may hold every sign.  Reading a written line gives the definition
back, and a definition that was read from any line can be written: `Definition.parse?_trim_of_written`.

The first `=` of a line belongs to no name or parameter, so the line is cut there, and the same goes for the first `(`
of what stands before it (`Definition.parse?_eq_some_iff`).
-/

namespace Calculator

namespace Text

variable {sep c : Char} {s t : List Char}

theorem Padded.not_mem (h : Padded s t) (hc : isBlank c = false) (hs : c ∉ s) : c ∉ t := by
  obtain ⟨before, after, hbefore, hafter, rfl⟩ := h
  have hblank : ∀ {u : List Char}, (∀ d ∈ u, isBlank d = true) → c ∉ u := by
    intro u hu hmem
    rw [hu c hmem] at hc
    cases hc
  simp only [List.mem_append, not_or]
  exact ⟨⟨hblank hbefore, hs⟩, hblank hafter⟩

theorem not_mem_of_padded {texts texts' : List (List Char)} (h : List.Forall₂ Padded texts texts')
    (hc : isBlank c = false) (htexts : ∀ t ∈ texts, c ∉ t) : ∀ t ∈ texts', c ∉ t := by
  induction h with
  | nil => exact List.forall_mem_nil _
  | cons hpadded _ ih =>
    obtain ⟨ht, htexts⟩ := List.forall_mem_cons.1 htexts
    exact List.forall_mem_cons.2 ⟨hpadded.not_mem hc ht, ih htexts⟩

theorem map_trim_of_padded {texts texts' : List (List Char)} (h : List.Forall₂ Padded texts texts') :
    texts'.map trim = texts.map trim := by
  induction h with
  | nil => rfl
  | cons hpadded _ ih => rw [List.map_cons, List.map_cons, hpadded.trim_eq, ih]

/-- Blanks at the front belong to the first piece. -/
theorem map_trim_pieces_dropBlanks (hsep : isBlank sep = false) (s : List Char) :
    (pieces sep (dropBlanks s)).map trim = (pieces sep s).map trim := by
  induction s with
  | nil => rfl
  | cons c s ih =>
    by_cases hc : isBlank c = true
    · have hne : c ≠ sep := by
        rintro rfl
        rw [hsep] at hc
        cases hc
      have hdrop : dropBlanks (c :: s) = dropBlanks s := List.dropWhile_cons_of_pos hc
      rw [hdrop, ih, pieces, if_neg hne]
      cases hp : pieces sep s with
      | nil => exact absurd hp (pieces_ne_nil sep s)
      | cons t texts =>
        have hpadded : Padded t (c :: t) :=
          ⟨[c], [], List.forall_mem_singleton.2 hc, List.forall_mem_nil _, by simp⟩
        rw [List.modifyHead_cons, List.map_cons, List.map_cons, hpadded.trim_eq]
    · have hdrop : dropBlanks (c :: s) = c :: s := List.dropWhile_cons_of_neg hc
      rw [hdrop]

end Text

namespace Definition

open Text (Padded)

/-- What stands between the parentheses: the parameters, or nothing in their place. -/
def slots (d : Definition) : List (List Char) :=
  if d.params = [] then [[]] else d.params.map String.toList

/-- The parts of a definition can be told apart on a line. -/
structure IsWritable (d : Definition) : Prop where
  name : '(' ∉ d.name.toList ∧ '=' ∉ d.name.toList ∧ Text.trim d.name.toList = d.name.toList
  params : ∀ p ∈ d.params, p ≠ "" ∧ ',' ∉ p.toList ∧ '=' ∉ p.toList ∧ Text.trim p.toList = p.toList
  body : Text.trim d.body.toList = d.body.toList

/-- The line consists of the word `def`, a space, the name, the parameters in parentheses with commas between them, `=`
and the body, with any blanks around each of these parts. -/
inductive Written (d : Definition) : List Char → Prop where
  | intro {name gap body : List Char} {slots : List (List Char)} (hname : Padded d.name.toList name)
      (hslots : List.Forall₂ Padded d.slots slots) (hgap : ∀ c ∈ gap, Text.isBlank c = true)
      (hbody : Padded d.body.toList body) :
      Written d ("def ".toList ++ (name ++ '(' :: ([','].intercalate slots ++ ')' :: gap)) ++ '=' :: body)

/-- The line `def name(p1, ..., pn) = body`. -/
def render (d : Definition) : String :=
  "def " ++ d.name ++ "(" ++ ", ".intercalate d.params ++ ") = " ++ d.body

variable {d : Definition} {s : List Char}

/-! ### Reading what was written -/

theorem slots_ne_nil (d : Definition) : d.slots ≠ [] := by
  rw [slots]
  split
  · exact List.cons_ne_nil _ _
  · rename_i hne
    rwa [Ne, List.map_eq_nil_iff]

theorem IsWritable.slot (h : d.IsWritable) :
    ∀ t ∈ d.slots, ',' ∉ t ∧ '=' ∉ t ∧ Text.trim t = t := by
  intro t ht
  rw [slots] at ht
  split at ht
  · rw [List.mem_singleton.1 ht]
    exact ⟨List.not_mem_nil, List.not_mem_nil, rfl⟩
  · obtain ⟨p, hp, rfl⟩ := List.mem_map.1 ht
    exact (h.params p hp).2

theorem IsWritable.filter_slots (h : d.IsWritable) :
    (d.slots.filter fun t => !t.isEmpty) = d.params.map String.toList := by
  rw [slots]
  split
  · rename_i hnil
    rw [hnil]
    rfl
  · rw [List.filter_eq_self]
    intro t ht
    obtain ⟨p, hp, rfl⟩ := List.mem_map.1 ht
    have hne : p.toList ≠ [] := fun he => (h.params p hp).1 (String.toList_eq_nil_iff.1 he)
    simpa using hne

/-- The parameters between the parentheses are found again. -/
theorem parseParams_intercalate (h : d.IsWritable) {slots : List (List Char)}
    (hslots : List.Forall₂ Padded d.slots slots) : parseParams ([','].intercalate slots) = d.params := by
  have hcomma : ∀ t ∈ slots, ',' ∉ t :=
    Text.not_mem_of_padded hslots rfl fun t ht => (h.slot t ht).1
  have htrim : slots.map Text.trim = d.slots := by
    rw [Text.map_trim_of_padded hslots]
    have hid : d.slots.map Text.trim = d.slots.map id := List.map_congr_left fun t ht => (h.slot t ht).2.2
    rw [hid, List.map_id]
  have hpieces : Text.pieces ',' ([','].intercalate slots) = slots := by
    cases slots with
    | nil => exact absurd (List.forall₂_nil_right_iff.1 hslots) d.slots_ne_nil
    | cons t slots =>
      rw [Text.pieces_intercalate List.not_mem_nil hcomma]
      simp
  rw [parseParams, hpieces, htrim, h.filter_slots, List.map_map]
  simp

theorem parseParams_dropBlanks (s : List Char) : parseParams (Text.dropBlanks s) = parseParams s := by
  rw [parseParams, Text.map_trim_pieces_dropBlanks rfl, parseParams]

/-- A line that is read as a definition is cut at its first `=`, and what stands before it at its first `(`. -/
theorem parse?_eq_some_iff :
    parse? s = some d ↔ ∃ head body name params inner, s = "def ".toList ++ (head ++ '=' :: body) ∧ '=' ∉ head ∧
      Text.trim head = name ++ '(' :: params ∧ '(' ∉ name ∧ Text.trim params = inner ++ [')'] ∧
      d = ⟨String.ofList (Text.trim name), parseParams inner, String.ofList (Text.trim body)⟩ := by
  have hafter : ∀ s, parse? ("def ".toList ++ s) = parseAfterDef? s := fun _ => rfl
  constructor
  · intro h
    unfold parse? at h
    split at h
    · obtain ⟨⟨head, body⟩, hhead, hrest⟩ := Option.bind_eq_some_iff.1 h
      obtain ⟨⟨name, params⟩, hname, hrest⟩ := Option.bind_eq_some_iff.1 hrest
      obtain ⟨inner, hinner, hd⟩ := Option.bind_eq_some_iff.1 hrest
      obtain ⟨hequals, rfl⟩ := Text.cut_eq_some_iff.1 hhead
      obtain ⟨hparen, htrim⟩ := Text.cut_eq_some_iff.1 hname
      exact ⟨head, body, name, params, inner, rfl, hequals, htrim, hparen, Text.dropLast?_eq_some_iff.1 hinner,
        (Option.some.inj hd).symm⟩
    · cases h
  · rintro ⟨head, body, name, params, inner, rfl, hequals, htrim, hparen, hinner, rfl⟩
    have hname : Text.cut '(' (Text.trim head) = some (name, params) := Text.cut_eq_some_iff.2 ⟨hparen, htrim⟩
    have hlast : Text.dropLast? ')' (Text.trim params) = some inner := Text.dropLast?_eq_some_iff.2 hinner
    rw [hafter, parseAfterDef?, Text.cut_append_cons hequals]
    simp [hname, hlast]

/-- A line on which a definition was written is read as this definition. -/
theorem IsWritable.parse?_trim (h : d.IsWritable) {line : List Char} (hline : d.Written line) :
    parse? (Text.trim line) = some d := by
  cases hline with
  | @intro name gap body slots hname hslots hgap hbody =>
    have hparen : '(' ∉ Text.dropBlanks name := fun hmem =>
      hname.not_mem rfl h.name.1 ((Text.padded_dropBlanks name).isInfix.subset hmem)
    have hequals : '=' ∉ name ++ '(' :: ([','].intercalate slots ++ ')' :: gap) := by
      have hslots' : '=' ∉ [','].intercalate slots :=
        Text.not_mem_intercalate (by decide) (Text.not_mem_of_padded hslots rfl fun t ht => (h.slot t ht).2.1)
      have hgap' : '=' ∉ gap := (Text.padded_of_blanks hgap).not_mem rfl List.not_mem_nil
      simp [hname.not_mem rfl h.name.2.1, hslots', hgap']
    have hhead : Text.trim (name ++ '(' :: ([','].intercalate slots ++ ')' :: gap)) =
        Text.dropBlanks name ++ '(' :: ([','].intercalate slots ++ [')']) := by
      rw [Text.trim_append_cons rfl, Text.dropEndBlanks_append_cons rfl, Text.dropEndBlanks_of_blanks hgap]
    have hparams : Text.trim ([','].intercalate slots ++ [')']) =
        Text.dropBlanks ([','].intercalate slots) ++ [')'] := Text.trim_append_cons rfl _ []
    refine parse?_eq_some_iff.2 ⟨_, Text.dropEndBlanks body, _, _, _, ?_, hequals, hhead, hparen, hparams, ?_⟩
    · -- the line ends with the body or, if that is blank, with the equals sign
      rw [Text.trim_append_cons rfl, ← List.append_assoc]
      rfl
    · rw [parseParams_dropBlanks, parseParams_intercalate h hslots, Text.trim_dropBlanks, Text.trim_dropEndBlanks,
        hname.trim_eq, hbody.trim_eq, h.name.2.2, h.body, String.ofList_toList, String.ofList_toList]

/-! ### What was read from a line -/

theorem of_mem_parseParams {p : String} (h : p ∈ parseParams s) :
    p ≠ "" ∧ ',' ∉ p.toList ∧ Text.trim p.toList = p.toList ∧ p.toList ⊆ s := by
  obtain ⟨t, ht, rfl⟩ := List.mem_map.1 h
  obtain ⟨ht, hne⟩ := List.mem_filter.1 ht
  obtain ⟨u, hu, rfl⟩ := List.mem_map.1 ht
  obtain ⟨hcomma, hsub⟩ := Text.of_mem_pieces hu
  have htrim : Text.trim u ⊆ u := (Text.padded_trim u).isInfix.subset
  have hne' : Text.trim u ≠ [] := by simpa using hne
  rw [String.toList_ofList]
  refine ⟨fun he => hne' ?_, fun hmem => hcomma (htrim hmem), Text.trim_trim u, fun c hc => hsub (htrim hc)⟩
  rw [← String.toList_ofList (l := Text.trim u), he]
  rfl

/-- The parts of a definition that was read are parts of the line, and the name and the parameters stand before the
first `=`. -/
theorem exists_head_of_parse? (h : parse? s = some d) :
    ∃ head body, s = "def ".toList ++ (head ++ '=' :: body) ∧ '=' ∉ head ∧ d.name.toList ⊆ head ∧
      (∀ p ∈ d.params, p.toList ⊆ head) ∧ d.body.toList ⊆ body := by
  obtain ⟨head, body, name, params, inner, hs, hequals, htrim, -, hinner, rfl⟩ := parse?_eq_some_iff.1 h
  have hhead : name ++ '(' :: params ⊆ head := htrim ▸ (Text.padded_trim head).isInfix.subset
  have hparams : inner ⊆ head := by
    intro c hc
    have hmem : c ∈ Text.trim params := by
      rw [hinner]
      exact List.mem_append_left _ hc
    have hmem' : c ∈ params := (Text.padded_trim params).isInfix.subset hmem
    exact hhead (List.mem_append_right _ (List.mem_cons_of_mem _ hmem'))
  refine ⟨head, body, hs, hequals, ?_, fun p hp => ?_, ?_⟩
  · rw [String.toList_ofList]
    exact fun c hc => hhead (List.mem_append_left _ ((Text.padded_trim name).isInfix.subset hc))
  · exact fun c hc => hparams ((of_mem_parseParams hp).2.2.2 hc)
  · rw [String.toList_ofList]
    exact (Text.padded_trim body).isInfix.subset

/-- A definition that was read can be written. -/
theorem isWritable_of_parse? (h : parse? s = some d) : d.IsWritable := by
  obtain ⟨head, -, -, hequals, hname, hparams, -⟩ := exists_head_of_parse? h
  obtain ⟨-, body, name, -, inner, -, -, -, hparen, -, rfl⟩ := parse?_eq_some_iff.1 h
  refine ⟨⟨fun hmem => hparen ?_, fun hmem => hequals (hname hmem), ?_⟩, fun p hp => ?_, ?_⟩
  · rw [String.toList_ofList] at hmem
    exact (Text.padded_trim name).isInfix.subset hmem
  · rw [String.toList_ofList, Text.trim_trim]
  · obtain ⟨hne, hcomma, htrim, -⟩ := of_mem_parseParams hp
    exact ⟨hne, hcomma, fun hmem => hequals (hparams p hp hmem), htrim⟩
  · rw [String.toList_ofList, Text.trim_trim]

/-! ### The usual line -/

theorem padded_space (s : List Char) : Padded s (' ' :: s) :=
  ⟨[' '], [], List.forall_mem_singleton.2 rfl, List.forall_mem_nil _, by simp⟩

/-- The space behind a comma belongs to the next parameter. -/
theorem exists_padded_intercalate (s : List Char) (texts : List (List Char)) :
    ∃ slots, List.Forall₂ Padded (s :: texts) slots ∧
      [',', ' '].intercalate (s :: texts) = [','].intercalate slots := by
  induction texts generalizing s with
  | nil => exact ⟨[s], .cons (.refl s) .nil, by simp⟩
  | cons t texts ih =>
    obtain ⟨slots, hslots, heq⟩ := ih t
    cases hslots with
    | @cons _ t' _ slots ht hrest =>
      refine ⟨s :: (' ' :: t') :: slots, .cons (.refl s) (.cons ?_ hrest), ?_⟩
      · exact ht.trans (padded_space t')
      · rw [List.intercalate_cons_cons, heq, List.intercalate_cons_cons]
        cases slots with
        | nil => simp
        | cons u slots => simp [List.intercalate_cons_cons]

theorem written_render (d : Definition) : d.Written d.render.toList := by
  have hslots : ∃ slots, List.Forall₂ Padded d.slots slots ∧
      (", ".intercalate d.params).toList = [','].intercalate slots := by
    rw [String.toList_intercalate, Definition.slots]
    cases d.params with
    | nil => exact ⟨[[]], .cons (.refl []) .nil, rfl⟩
    | cons p params =>
      rw [if_neg (List.cons_ne_nil p params)]
      exact exists_padded_intercalate p.toList (params.map String.toList)
  obtain ⟨slots, hslots, heq⟩ := hslots
  have hspace : ∀ c ∈ [' '], Text.isBlank c = true := List.forall_mem_singleton.2 rfl
  have hline := Written.intro (.refl d.name.toList) hslots hspace (padded_space d.body.toList)
  have hrender : d.render.toList =
      "def ".toList ++ (d.name.toList ++ '(' :: ([','].intercalate slots ++ ')' :: [' '])) ++
        '=' :: ' ' :: d.body.toList := by
    simp [render, heq]
  rwa [hrender]

/-- Reading a definition from a line undoes writing it, and exactly.  A definition whose name, parameters and body can
be told apart is read from every line on which it is written, however many blanks stand around its parts.  Conversely,
whatever is read from a line is such a definition, and it is read again from the line that shows it. -/
theorem parse?_trim_of_written :
    (∀ d : Definition, d.IsWritable → d.Written d.render.toList ∧
      ∀ line, d.Written line → parse? (Text.trim line) = some d) ∧
    ∀ (line : List Char) (d : Definition), parse? (Text.trim line) = some d →
      d.IsWritable ∧ parse? (Text.trim d.render.toList) = some d := by
  constructor
  · intro d hd
    exact ⟨d.written_render, fun line hline => hd.parse?_trim hline⟩
  · intro line d h
    have hd : d.IsWritable := isWritable_of_parse? h
    exact ⟨hd, hd.parse?_trim d.written_render⟩

/-- A definition without a name and a body is read from a line that ends with blanks, although its parameters hold
parentheses; and empty parameters and a second equals sign do not keep a line from being a definition. -/
theorem parse?_trim_of_written_nameless :
    IsWritable ⟨"", ["a)", "( b"], ""⟩ ∧ Written ⟨"", ["a)", "( b"], ""⟩ "def \t( a) ,( b\t) =  ".toList ∧
    parse? (Text.trim "def \t( a) ,( b\t) =  ".toList) = some ⟨"", ["a)", "( b"], ""⟩ ∧
    parse? (Text.trim "def f(x,, y)==x(".toList) = some ⟨"f", ["x", "y"], "=x("⟩ ∧
    IsWritable ⟨"f", ["x", "y"], "=x("⟩ ∧
    parse? (Text.trim (render ⟨"f", ["x", "y"], "=x("⟩).toList) = some ⟨"f", ["x", "y"], "=x("⟩ := by
  have hwritable : IsWritable ⟨"", ["a)", "( b"], ""⟩ := by
    refine ⟨by decide, ?_, by decide⟩
    exact List.forall_mem_cons.2 ⟨by decide, List.forall_mem_singleton.2 (by decide)⟩
  have hwritten : Written ⟨"", ["a)", "( b"], ""⟩ "def \t( a) ,( b\t) =  ".toList := by
    have hspace : ∀ c ∈ [' '], Text.isBlank c = true := List.forall_mem_singleton.2 rfl
    have htab : ∀ c ∈ ['\t'], Text.isBlank c = true := List.forall_mem_singleton.2 rfl
    have hfirst : Padded "a)".toList " a) ".toList := ⟨[' '], [' '], hspace, hspace, rfl⟩
    have hsecond : Padded "( b".toList "( b\t".toList := ⟨[], ['\t'], List.forall_mem_nil _, htab, rfl⟩
    have hbody : ∀ c ∈ [' ', ' '], Text.isBlank c = true := List.forall_mem_cons.2 ⟨rfl, hspace⟩
    exact @Written.intro ⟨"", ["a)", "( b"], ""⟩ _ _ _ _ (Text.padded_of_blanks htab)
      (.cons hfirst (.cons hsecond .nil)) hspace (Text.padded_of_blanks hbody)
  have hparse : parse? (Text.trim "def f(x,, y)==x(".toList) = some ⟨"f", ["x", "y"], "=x("⟩ := by decide
  obtain ⟨hwritable', hrender⟩ := parse?_trim_of_written.2 _ _ hparse
  exact ⟨hwritable, hwritten, (parse?_trim_of_written.1 _ hwritable).2 _ hwritten, hparse, hwritable', hrender⟩

end Definition

end Calculator
