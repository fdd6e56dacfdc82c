import Calculator.Proofs.Cursor
import Calculator.Proofs.Outcome

/-!
# Runs that realize evaluations

`Traced` says what a run may record: calls within the limit, and cursors at or before the end marker, of parsers that
are either the run's `own` or belong to the body of a recorded call.  `Realizes` compares a run with an evaluation:
either they end alike, or the run was short of fuel; what the run recorded is traced in any case.  The relation is
closed under composition: `Realizes.bind` in general, `Realizes.andThen` where a parser goes on from where its cursor
stands.
-/

namespace Calculator

/-- The parser of a text with these constants inside so many calls. -/
structure Parser.Parses (text : String) (constants : ConstantTable) (depth : UInt64) (p : Parser) : Prop where
  stream : tokenize text = .ok p.stream
  constants : p.constants = constants
  depth : p.depth = depth

/-- The parser of the body of a recorded call. -/
def Parser.InCall (events : List Event) (p : Parser) : Prop :=
  ∃ f args, .invoke f args p.depth ∈ events ∧ p.Parses f.body (Std.TreeMap.ofList (f.params.zip args)) p.depth

/-- Cursors stay at or before the end marker, and calls stay within the limit. -/
def Event.Within (limit : UInt64) : Event → Prop
  | cursor p position => p.depth ≤ limit ∧ position ≤ p.stream.lexemes.length
  | invoke _ _ depth => 1 ≤ depth ∧ depth ≤ limit

/-! ### Records -/

/-- A record that a run may leave; `own` are the parsers that it works with itself. -/
structure Traced (limit : UInt64) (own : Parser → Prop) (events : List Event) : Prop where
  within : ∀ e ∈ events, e.Within limit
  parser : ∀ p position, .cursor p position ∈ events → own p ∨ p.InCall events

theorem Parser.InCall.mono {events events' : List Event} (h : events ⊆ events') {p : Parser} :
    p.InCall events → p.InCall events'
  | ⟨f, args, hf, hp⟩ => ⟨f, args, h hf, hp⟩

namespace Traced

variable {limit : UInt64} {own : Parser → Prop} {events events' : List Event}

theorem nil : Traced limit own [] :=
  ⟨List.forall_mem_nil _, fun _ _ h => nomatch h⟩

theorem append (h : Traced limit own events) (h' : Traced limit own events') :
    Traced limit own (events ++ events') where
  within := List.forall_mem_append.2 ⟨h.within, h'.within⟩
  parser p position hp := by
    rcases List.mem_append.1 hp with hp | hp
    · exact (h.parser p position hp).imp_right (.mono (List.subset_append_left events events'))
    · exact (h'.parser p position hp).imp_right (.mono (List.subset_append_right events events'))

/-- A position of a cursor. -/
theorem cursor {p : Parser} {position : Nat} (hp : own p) (hdepth : p.depth ≤ limit)
    (hposition : position ≤ p.stream.lexemes.length) : Traced limit own [.cursor p position] where
  within := List.forall_mem_singleton.2 ⟨hdepth, hposition⟩
  parser q _ hq := by
    cases List.mem_singleton.1 hq
    exact Or.inl hp

/-- A call and what its body leaves. -/
theorem invoke {f : Formula} {args : List Float} {depth : UInt64} (hpositive : 1 ≤ depth) (hdepth : depth ≤ limit)
    (h : Traced limit (Parser.Parses f.body (Std.TreeMap.ofList (f.params.zip args)) depth) events) :
    Traced limit own (.invoke f args depth :: events) where
  within := List.forall_mem_cons.2 ⟨⟨hpositive, hdepth⟩, h.within⟩
  parser p position hp := by
    have hp : .cursor p position ∈ events := (List.mem_cons.1 hp).resolve_left (fun he => nomatch he)
    rcases h.parser p position hp with hbody | hcall
    · have heq := hbody.depth
      subst heq
      exact Or.inr ⟨f, args, List.mem_cons_self, hbody⟩
    · exact Or.inr (hcall.mono (List.subset_cons_self _ events))

end Traced

/-! ### Runs and evaluations -/

/-- The run ends as the evaluation does, with related results, or is `short` of fuel; its record is traced. -/
inductive Realizes {α β : Type} (limit : UInt64) (own : Parser → Prop) (short : Prop)
    (related : List Event → α → β → Prop) : Run α → Except EvalError β → Prop where
  | value {events : List Event} {a : α} {b : β} (htraced : Traced limit own events) (h : related events a b) :
    Realizes limit own short related ⟨events, some (.ok a)⟩ (.ok b)
  | error {events : List Event} (error : EvalError) (htraced : Traced limit own events) :
    Realizes limit own short related ⟨events, some (.error error)⟩ (.error error)
  | outOfFuel {events : List Event} (x : Except EvalError β) (htraced : Traced limit own events) (h : short) :
    Realizes limit own short related ⟨events, none⟩ x

namespace Realizes

variable {α β α' β' : Type} {limit : UInt64} {own : Parser → Prop} {short short' : Prop}
  {related : List Event → α → β → Prop} {m : Run α} {x : Except EvalError β}

theorem traced (h : Realizes limit own short related m x) : Traced limit own m.events := by
  cases h <;> assumption

/-- A run that is not short of fuel ends as the evaluation does. -/
theorem outcome {related : List Event → α → α → Prop} {x : Except EvalError α}
    (h : Realizes limit own short related m x) (hrelated : ∀ events a b, related events a b → a = b)
    (hshort : ¬ short) : m.outcome = some x := by
  cases h with
  | value htraced h => rw [hrelated _ _ _ h]
  | error error htraced => rfl
  | outOfFuel x htraced h => exact absurd h hshort

/-- The result of a run is related to some result. -/
theorem related_of_outcome (h : Realizes limit own short related m x) {a : α} (ha : m.outcome = some (.ok a)) :
    ∃ b, related m.events a b := by
  cases h with
  | value htraced h =>
    cases ha
    exact ⟨_, h⟩
  | error error htraced => cases ha
  | outOfFuel x htraced h => cases ha

theorem pure {a : α} {b : β} (h : related [] a b) :
    Realizes limit own short related (Pure.pure a : Run α) (.ok b) :=
  .value .nil h

theorem fail (error : EvalError) : Realizes limit own short related (Run.fail error : Run α) (.error error) :=
  .error error .nil

theorem ofExcept (x : Except EvalError α) : Realizes limit own short (fun _ => Eq) (Run.ofExcept x) x := by
  cases x with
  | ok a => exact .value .nil rfl
  | error e => exact .error e .nil

theorem starved (h : short) : Realizes limit own short related (Run.outOfFuel : Run α) x :=
  .outOfFuel x .nil h

theorem mono {related' : List Event → α → β → Prop} (hshort : short → short')
    (hrelated : ∀ events a b, related events a b → related' events a b) (h : Realizes limit own short related m x) :
    Realizes limit own short' related' m x := by
  cases h with
  | value htraced h => exact .value htraced (hrelated _ _ _ h)
  | error error htraced => exact .error error htraced
  | outOfFuel x htraced h => exact .outOfFuel x htraced (hshort h)

theorem imp (hshort : short → short') (h : Realizes limit own short related m x) :
    Realizes limit own short' related m x :=
  h.mono hshort fun _ _ _ hab => hab

/-- What was recorded before a run comes before what the run records. -/
theorem append {events : List Event} (htraced : Traced limit own events)
    (h : Realizes limit own short (fun events' => related (events ++ events')) m x) :
    Realizes limit own short related ⟨events ++ m.events, m.outcome⟩ x := by
  cases h with
  | value htraced' h => exact .value (htraced.append htraced') h
  | error error htraced' => exact .error error (htraced.append htraced')
  | outOfFuel x htraced' h => exact .outOfFuel x (htraced.append htraced') h

theorem bind {related' : List Event → α' → β' → Prop} {f : α → Run α'} {g : β → Except EvalError β'}
    (h : Realizes limit own short related m x)
    (hf : ∀ events a b, x = .ok b → related events a b →
      Realizes limit own short (fun events' => related' (events ++ events')) (f a) (g b)) :
    Realizes limit own short related' (m >>= f) (x >>= g) := by
  cases h with
  | value htraced hab => exact (hf _ _ _ rfl hab).append htraced
  | error error htraced => exact .error error htraced
  | outOfFuel x htraced h => exact .outOfFuel _ htraced h

theorem cursor {p : Parser} {position : Nat} (hp : own p) (hdepth : p.depth ≤ limit)
    (hposition : position ≤ p.stream.lexemes.length)
    (h : Realizes limit own short (fun events => related (.cursor p position :: events)) m x) :
    Realizes limit own short related (Run.record (.cursor p position) >>= fun _ => m) x :=
  h.append (.cursor hp hdepth hposition)

theorem invoke {f : Formula} {args : List Float} {depth : UInt64} (hpositive : 1 ≤ depth) (hdepth : depth ≤ limit)
    (h : Realizes limit (Parser.Parses f.body (Std.TreeMap.ofList (f.params.zip args)) depth) short
      (fun events => related (.invoke f args depth :: events)) m x) :
    Realizes limit own short related (Run.record (.invoke f args depth) >>= fun _ => m) x := by
  cases h with
  | value htraced h => exact .value (htraced.invoke hpositive hdepth) h
  | error error htraced => exact .error error (htraced.invoke hpositive hdepth)
  | outOfFuel x htraced h => exact .outOfFuel x (htraced.invoke hpositive hdepth) h

end Realizes

/-! ### Cursors that move -/

/-- The results agree, and the tokens that are left are those at the cursor, which has not moved or was recorded. -/
structure Parser.Leaves {α : Type} (p : Parser) (start : Nat) (events : List Event) (a : α × Nat) (b : α × List Token) :
    Prop where
  result : a.1 = b.1
  rest : b.2 = p.rest a.2
  le : a.2 ≤ p.stream.lexemes.length
  moved : a.2 = start ∨ .cursor p a.2 ∈ events

namespace Realizes

variable {α γ : Type} {limit : UInt64} {own : Parser → Prop} {short : Prop} {p : Parser} {start position : Nat}

/-- A cursor that moved to where a run starts. -/
theorem moved {m : Run (α × Nat)} {x : Except EvalError (α × List Token)} {events : List Event}
    (hmoved : position = start ∨ .cursor p position ∈ events)
    (h : Realizes limit own short (p.Leaves position) m x) :
    Realizes limit own short (fun events' => p.Leaves start (events ++ events')) m x := by
  refine h.mono (fun h => h) fun events' a b hab => ⟨hab.result, hab.rest, hab.le, ?_⟩
  rcases hab.moved with heq | hmem
  · rw [heq]
    exact hmoved.imp_right (List.mem_append_left events')
  · exact Or.inr (List.mem_append_right events hmem)

theorem stay (a : α) (hposition : position ≤ p.stream.lexemes.length) :
    Realizes limit own short (p.Leaves position) (Pure.pure (a, position)) (.ok (a, p.rest position)) :=
  .pure ⟨rfl, rfl, hposition, Or.inl rfl⟩

/-- A parser goes on from where its cursor stands. -/
theorem andThen {m : Run (α × Nat)} {x : Except EvalError (α × List Token)} {f : α × Nat → Run (γ × Nat)}
    {g : α × List Token → Except EvalError (γ × List Token)} (h : Realizes limit own short (p.Leaves start) m x)
    (hf : ∀ a position, x = .ok (a, p.rest position) → position ≤ p.stream.lexemes.length →
      Realizes limit own short (p.Leaves position) (f (a, position)) (g (a, p.rest position))) :
    Realizes limit own short (p.Leaves start) (m >>= f) (x >>= g) := by
  refine h.bind ?_
  rintro events ⟨a, position⟩ ⟨_, _⟩ hx ⟨rfl, rfl, hle, hmoved⟩
  exact (hf a position hx hle).moved hmoved

/-- A value is computed without moving the cursor. -/
theorem value_stay {m : Run α} {x : Except EvalError α} (h : Realizes limit own short (fun _ => Eq) m x)
    (hposition : position ≤ p.stream.lexemes.length) :
    Realizes limit own short (p.Leaves position) (m >>= fun a => Pure.pure (a, position))
      (x.map fun a => (a, p.rest position)) := by
  rw [map_eq_bind]
  refine h.bind ?_
  rintro events a _ - rfl
  exact (stay a hposition).moved (Or.inl rfl)

/-- The cursor moves past a token. -/
theorem advance {t : Token} {ts : List Token} (hp : own p) (hdepth : p.depth ≤ limit) (h : p.rest position = t :: ts)
    (hposition : position + 1 ≤ p.stream.lexemes.length) (ht : t.kind ≠ .endOfExpression)
    {f : Token × Nat → Run (α × Nat)} {x : Except EvalError (α × List Token)}
    (hf : Realizes limit own short (p.Leaves (position + 1)) (f (t, position + 1)) x) :
    Realizes limit own short (p.Leaves position) (p.advance position >>= f) x := by
  have hrecord : (p.advance position >>= f) =
      Run.record (.cursor p (position + 1)) >>= fun _ => f (t, position + 1) := by
    rw [Parser.advance_of_cons h ht]
    rfl
  have hmoved : position + 1 = position ∨ .cursor p (position + 1) ∈ [Event.cursor p (position + 1)] :=
    Or.inr List.mem_cons_self
  rw [hrecord]
  exact .cursor hp hdepth hposition (hf.moved hmoved)

end Realizes

end Calculator
