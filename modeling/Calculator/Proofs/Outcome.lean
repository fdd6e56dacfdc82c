import Calculator.Evaluation

/-!
# Outcomes

An evaluation ends in a value or in an error, and a longer one is put together by `>>=`.  These are the rules by which
such compositions are opened, and the three look-ups that everything that evaluates has in common: a numeral, a
constant and a function.
-/

namespace Calculator

variable {ε α β : Type}

@[simp] theorem ok_bind (a : α) (f : α → Except ε β) : (Except.ok a >>= f) = f a := rfl

@[simp] theorem error_bind (e : ε) (f : α → Except ε β) : (Except.error e >>= f) = Except.error e := rfl

theorem map_eq_bind (x : Except ε α) (f : α → β) : x.map f = x >>= fun a => .ok (f a) := by
  cases x <;> rfl

@[simp] theorem bind_ok (x : Except ε α) : (x >>= fun a => .ok a) = x := by
  cases x <;> rfl

theorem bind_eq_ok {x : Except ε α} {f : α → Except ε β} {b : β} :
    (x >>= f) = .ok b ↔ ∃ a, x = .ok a ∧ f a = .ok b := by
  cases x with
  | error e => simp
  | ok a => simp

theorem bind_eq_error {x : Except ε α} {f : α → Except ε β} {e : ε} :
    (x >>= f) = .error e ↔ x = .error e ∨ ∃ a, x = .ok a ∧ f a = .error e := by
  cases x with
  | error e => simp
  | ok a => simp

theorem map_eq_ok {x : Except ε α} {f : α → β} {b : β} : x.map f = .ok b ↔ ∃ a, x = .ok a ∧ f a = b := by
  rw [map_eq_bind, bind_eq_ok]
  simp

theorem map_eq_error {x : Except ε α} {f : α → β} {e : ε} : x.map f = .error e ↔ x = .error e := by
  rw [map_eq_bind, bind_eq_error]
  simp

/-- The number that a numeral names. -/
def Numeral.read (text : String) : Except EvalError Float :=
  match value? text with
  | some value => .ok value
  | none => .error (.invalidNumber text)

theorem Numeral.read_eq_error {text : String} {e : EvalError} :
    read text = .error e ↔ value? text = none ∧ e = .invalidNumber text := by
  rw [read]
  cases value? text <;> simp [eq_comm]

namespace Scope

/-- The value of a constant. -/
def constant (scope : Scope) (name : String) : Except EvalError Float :=
  match scope.constant? name with
  | some value => .ok value
  | none => .error (.unknownConstant name)

/-- The function of a name. -/
def function (scope : Scope) (name : String) : Except EvalError (List Float → Except EvalError Float) :=
  match scope.function? name with
  | some f => .ok f
  | none => .error (.unknownFunction name)

theorem constant_eq_ok {scope : Scope} {name : String} {value : Float} :
    scope.constant name = .ok value ↔ scope.constant? name = some value := by
  rw [constant]
  cases scope.constant? name <;> simp

theorem constant_eq_error {scope : Scope} {name : String} {e : EvalError} :
    scope.constant name = .error e ↔ scope.constant? name = none ∧ e = .unknownConstant name := by
  rw [constant]
  cases scope.constant? name <;> simp [eq_comm]

theorem function_eq_ok {scope : Scope} {name : String} {f : List Float → Except EvalError Float} :
    scope.function name = .ok f ↔ scope.function? name = some f := by
  rw [function]
  cases scope.function? name <;> simp

theorem function_eq_error {scope : Scope} {name : String} {e : EvalError} :
    scope.function name = .error e ↔ scope.function? name = none ∧ e = .unknownFunction name := by
  rw [function]
  cases scope.function? name <;> simp [eq_comm]

end Scope

end Calculator
