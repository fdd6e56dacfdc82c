import Calculator.Proofs.Cutting
import Calculator.Proofs.Parameters

/-!
# How formulas are shown

A formula is shown by its parameters in parentheses, an arrow, and its body, and nothing of this is escaped.  A body may
hold any of these signs; but the parameters of a well-formed formula are names, so the first `)` ends the parameters,
and the commas before it stand between them.  Hence the text determines the formula (`Formula.WellFormed.eq_of_display`).
-/

namespace Calculator

/-- A name holds neither of the signs that stand around parameters. -/
theorem IsName.not_mem {s : List Char} (h : IsName s) : s ≠ [] ∧ ',' ∉ s ∧ ')' ∉ s := by
  obtain ⟨c, rest, rfl, hc, hrest⟩ := h
  have hpart : ∀ d ∈ c :: rest, Token.isNamePart d = true :=
    List.forall_mem_cons.2 ⟨Token.isNamePart_of_isNameStart hc, hrest⟩
  refine ⟨List.cons_ne_nil c rest, fun hmem => ?_, fun hmem => ?_⟩
  · exact absurd (hpart _ hmem) (by decide)
  · exact absurd (hpart _ hmem) (by decide)

namespace Formula

theorem toList_display (f : Formula) :
    f.display.toList = '(' :: ([',', ' '].intercalate (f.params.map String.toList) ++
      ')' :: (" -> ".toList ++ f.body.toList)) := by
  rw [display, String.toList_append, String.toList_append, String.toList_append, String.toList_intercalate]
  simp only [List.append_assoc]
  rfl

/-- The text of a well-formed formula determines the formula. -/
theorem WellFormed.eq_of_display {f g : Formula} (hf : f.WellFormed) (hg : g.WellFormed)
    (h : f.display = g.display) : f = g := by
  have hnames : ∀ {f : Formula}, f.WellFormed → ∀ s ∈ f.params.map String.toList, IsName s := by
    intro f hf s hs
    obtain ⟨name, hname, rfl⟩ := List.mem_map.1 hs
    exact hf.isName name hname
  have hparen : ∀ {f : Formula}, f.WellFormed → ')' ∉ [',', ' '].intercalate (f.params.map String.toList) :=
    fun hf => Text.not_mem_intercalate (by decide) fun s hs => (hnames hf s hs).not_mem.2.2
  have hlist : f.display.toList = g.display.toList := by rw [h]
  rw [toList_display, toList_display, List.cons_inj_right] at hlist
  -- cutting both texts at the first closing parenthesis
  have hcut := congrArg (Text.cut ')') hlist
  rw [Text.cut_append_cons (hparen hf), Text.cut_append_cons (hparen hg), Option.some_inj, Prod.mk.injEq] at hcut
  obtain ⟨hparams, hbody⟩ := hcut
  have hmap : f.params.map String.toList = g.params.map String.toList :=
    Text.eq_of_intercalate_eq (by decide) (fun s hs => ⟨(hnames hf s hs).not_mem.1, (hnames hf s hs).not_mem.2.1⟩)
      (fun s hs => ⟨(hnames hg s hs).not_mem.1, (hnames hg s hs).not_mem.2.1⟩) hparams
  rw [List.map_inj_right fun _ _ => String.toList_inj.1] at hmap
  have hbody' : f.body = g.body := String.toList_inj.1 (List.append_cancel_left hbody)
  obtain ⟨params, body⟩ := f
  obtain ⟨params', body'⟩ := g
  rw [Formula.mk.injEq]
  exact ⟨hmap, hbody'⟩

/-- Two formulas that come from accepted definitions are shown alike only if they have the same parameters, in the same
order, and the same body. -/
theorem display_eq_iff {params params' : List String} {body body' : String} {f g : Formula}
    (hf : make params body = .ok f) (hg : make params' body' = .ok g) :
    f.display = g.display ↔ f.params = g.params ∧ f.body = g.body := by
  constructor
  · intro h
    rw [(make_eq_ok.1 hf).2.eq_of_display (make_eq_ok.1 hg).2 h]
    exact ⟨rfl, rfl⟩
  · rintro ⟨hparams, hbody⟩
    rw [display, display, hparams, hbody]

/-- A body that goes on like the parameters of another formula does not make the two alike. -/
theorem display_eq_iff_arrow :
    make ["x"] "y) -> x" = .ok ⟨["x"], "y) -> x"⟩ ∧ make ["x", "y"] "y) -> x" = .ok ⟨["x", "y"], "y) -> x"⟩ ∧
      Formula.display ⟨["x"], "y) -> x"⟩ ≠ Formula.display ⟨["x", "y"], "y) -> x"⟩ := by
  have hx : IsName "x".toList := ⟨'x', [], rfl, rfl, List.forall_mem_nil _⟩
  have hy : IsName "y".toList := ⟨'y', [], rfl, rfl, List.forall_mem_nil _⟩
  have hf : make ["x"] "y) -> x" = .ok ⟨["x"], "y) -> x"⟩ :=
    make_eq_ok.2 ⟨rfl, by decide, List.forall_mem_singleton.2 hx, by decide⟩
  have hg : make ["x", "y"] "y) -> x" = .ok ⟨["x", "y"], "y) -> x"⟩ :=
    make_eq_ok.2 ⟨rfl, by decide, List.forall_mem_cons.2 ⟨hx, List.forall_mem_singleton.2 hy⟩, by decide⟩
  refine ⟨hf, hg, fun h => ?_⟩
  obtain ⟨hparams, -⟩ := (display_eq_iff hf hg).1 h
  exact absurd hparams (by decide)

/-- Of the parts that a formula might have, only valid ones can be told apart. -/
example : Formula.display ⟨["x", "y"], "x"⟩ = Formula.display ⟨["x, y"], "x"⟩ := by
  decide

end Formula

end Calculator
