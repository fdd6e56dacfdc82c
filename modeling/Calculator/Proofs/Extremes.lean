import Calculator.Builtins
import Calculator.Proofs.Order

/-!
# Least and greatest arguments

The built-in functions `min` and `max` combine their arguments from the left with a function of two numbers.  What they
need of this function is said by `Extremum.Selects`: it passes over NaN, and of two other numbers it selects one that
does not come behind either.  Then the result is an `Extremum.Extreme` of the arguments: NaN if there is nothing else,
and otherwise one of the arguments that none comes before.

* `Extremum.Extreme.snoc`, `Extremum.Extreme.foldl`: one further argument, and any number of them.
* `Extremum.Extreme.beq_or_isNaN`: the extremes of the same arguments are equal, whatever the order.  They need not be
  the same number, because the two zeros are equal.
-/

namespace Calculator

/-- The two ends of the order of numbers. -/
inductive Extremum where
  | least
  | greatest
deriving DecidableEq, Repr

namespace Extremum

/-- The name of the built-in function. -/
def name : Extremum → String
  | least => "min"
  | greatest => "max"

/-- What the built-in function does with two numbers. -/
def operation : Extremum → Float → Float → Float
  | least => Binary64.minimum
  | greatest => Binary64.maximum

/-- The function of any number of arguments that combines them in this way. -/
def native (e : Extremum) (f : Float → Float → Float) : Native :=
  .reduce f (e.name ++ " needs at least one argument")

theorem mem_natives (e : Extremum) : (e.name, e.native e.operation) ∈ Builtins.natives := by
  cases e <;> simp [Builtins.natives, name, native, operation]

/-! ### From one end of the order -/

/-- The first number comes before the second on the way from this end of the order. -/
def Before : Extremum → Float → Float → Prop
  | least, x, y => x < y
  | greatest, x, y => y < x

/-- The first number does not come behind the second. -/
def Precedes : Extremum → Float → Float → Prop
  | least, x, y => x ≤ y
  | greatest, x, y => y ≤ x

variable {e : Extremum} {x y z : Float}

theorem precedes_refl (e : Extremum) (h : x.isNaN = false) : e.Precedes x x := by
  cases e <;> exact Binary64.le_refl h

theorem Precedes.trans (h : e.Precedes x y) (h' : e.Precedes y z) : e.Precedes x z := by
  cases e with
  | least => exact Binary64.le_trans h h'
  | greatest => exact Binary64.le_trans h' h

theorem Precedes.beq (h : e.Precedes x y) (h' : e.Precedes y x) : (x == y) = true := by
  cases e with
  | least => exact Binary64.beq_of_le_of_le h h'
  | greatest => exact Binary64.beq_of_le_of_le h' h

theorem Before.isNaN_left (h : e.Before x y) : x.isNaN = false := by
  cases e with
  | least => exact (Binary64.lt_iff.1 h).1
  | greatest => exact (Binary64.lt_iff.1 h).2.1

theorem Before.precedes (h : e.Before x y) : e.Precedes x y := by
  cases e <;> exact Binary64.le_of_lt h

theorem precedes_of_not_before (hx : x.isNaN = false) (hy : y.isNaN = false) (h : ¬ e.Before x y) :
    e.Precedes y x := by
  cases e with
  | least => exact Binary64.le_of_not_lt hx hy h
  | greatest => exact Binary64.le_of_not_lt hy hx h

/-! ### Selecting one of two numbers -/

/-- The function passes over NaN, and of two numbers that are not NaN it selects one that does not come behind either. -/
structure Selects (e : Extremum) (f : Float → Float → Float) : Prop where
  of_isNaN_left : ∀ {x y : Float}, x.isNaN = true → y.isNaN = false → f x y = y
  of_isNaN_right : ∀ {x y : Float}, x.isNaN = false → y.isNaN = true → f x y = x
  isNaN : ∀ {x y : Float}, x.isNaN = true → y.isNaN = true → (f x y).isNaN = true
  eq_or_eq : ∀ {x y : Float}, x.isNaN = false → y.isNaN = false → f x y = x ∨ f x y = y
  precedes_left : ∀ {x y : Float}, x.isNaN = false → y.isNaN = false → e.Precedes (f x y) x
  precedes_right : ∀ {x y : Float}, x.isNaN = false → y.isNaN = false → e.Precedes (f x y) y

theorem operation_of_isNaN (e : Extremum) (x : Float) (hy : y.isNaN = true) : e.operation x y = x := by
  cases e <;> exact if_pos hy

theorem operation_of_before (h : e.Before x y) : e.operation x y = x := by
  cases e <;> exact ite_eq_left_iff.2 fun _ => if_pos h

theorem operation_of_not_before (hy : y.isNaN = false) (h : ¬ e.Before x y) : e.operation x y = y := by
  have hne : ¬ y.isNaN = true := Bool.eq_false_iff.1 hy
  cases e <;> exact (if_neg hne).trans (if_neg h)

theorem selects_operation (e : Extremum) : e.Selects e.operation where
  of_isNaN_left hx hy := operation_of_not_before hy fun h => Bool.false_ne_true (h.isNaN_left.symm.trans hx)
  of_isNaN_right _ hy := e.operation_of_isNaN _ hy
  isNaN hx hy := by rwa [e.operation_of_isNaN _ hy]
  eq_or_eq {x y} _ hy := by
    by_cases h : e.Before x y
    · exact Or.inl (operation_of_before h)
    · exact Or.inr (operation_of_not_before hy h)
  precedes_left {x y} hx hy := by
    by_cases h : e.Before x y
    · rw [operation_of_before h]
      exact e.precedes_refl hx
    · rw [operation_of_not_before hy h]
      exact precedes_of_not_before hx hy h
  precedes_right {x y} _ hy := by
    by_cases h : e.Before x y
    · rw [operation_of_before h]
      exact h.precedes
    · rw [operation_of_not_before hy h]
      exact e.precedes_refl hy

/-! ### Extremes of any number of arguments -/

/-- The number is NaN, and so are all the others; or it is one of them and does not come behind any that is not NaN. -/
inductive Extreme (e : Extremum) (xs : List Float) (r : Float) : Prop where
  | isNaN (hr : r.isNaN = true) (hxs : ∀ x ∈ xs, x.isNaN = true)
  | number (hr : r.isNaN = false) (hmem : r ∈ xs) (hprecedes : ∀ x ∈ xs, x.isNaN = false → e.Precedes r x)

variable {f : Float → Float → Float} {xs ys : List Float} {r s : Float}

theorem extreme_singleton (e : Extremum) (x : Float) : e.Extreme [x] x := by
  cases hx : x.isNaN with
  | true => exact .isNaN hx fun y hy => by rwa [List.mem_singleton.1 hy]
  | false =>
    refine .number hx (List.mem_singleton_self x) fun y hy _ => ?_
    rw [List.mem_singleton.1 hy]
    exact e.precedes_refl hx

/-- One more number. -/
theorem Extreme.snoc (hf : e.Selects f) (h : e.Extreme xs r) (x : Float) : e.Extreme (xs ++ [x]) (f r x) := by
  have hx_mem : x ∈ xs ++ [x] := List.mem_append_right xs (List.mem_singleton_self x)
  cases h with
  | isNaN hr hxs =>
    cases hx : x.isNaN with
    | true => exact .isNaN (hf.isNaN hr hx) (List.forall_mem_append.2 ⟨hxs, List.forall_mem_singleton.2 hx⟩)
    | false =>
      rw [hf.of_isNaN_left hr hx]
      refine .number hx hx_mem (List.forall_mem_append.2 ⟨fun y hy hne => ?_, ?_⟩)
      · exact absurd (hne.symm.trans (hxs y hy)) Bool.false_ne_true
      · exact List.forall_mem_singleton.2 fun _ => e.precedes_refl hx
  | number hr hmem hprecedes =>
    have hr_mem : r ∈ xs ++ [x] := List.mem_append_left [x] hmem
    cases hx : x.isNaN with
    | true =>
      rw [hf.of_isNaN_right hr hx]
      refine .number hr hr_mem (List.forall_mem_append.2 ⟨hprecedes, List.forall_mem_singleton.2 fun hne => ?_⟩)
      exact absurd (hne.symm.trans hx) Bool.false_ne_true
    | false =>
      have hselect : (f r x).isNaN = false ∧ f r x ∈ xs ++ [x] := by
        rcases hf.eq_or_eq hr hx with heq | heq
        · rw [heq]
          exact ⟨hr, hr_mem⟩
        · rw [heq]
          exact ⟨hx, hx_mem⟩
      have hleft : e.Precedes (f r x) r := hf.precedes_left hr hx
      have hright : e.Precedes (f r x) x := hf.precedes_right hr hx
      refine .number hselect.1 hselect.2 (List.forall_mem_append.2 ⟨fun y hy hne => ?_, ?_⟩)
      · exact hleft.trans (hprecedes y hy hne)
      · exact List.forall_mem_singleton.2 fun _ => hright

/-- Any number of further ones. -/
theorem Extreme.foldl (hf : e.Selects f) (h : e.Extreme xs r) (ys : List Float) :
    e.Extreme (xs ++ ys) (ys.foldl f r) := by
  induction ys generalizing xs r with
  | nil => rwa [List.append_nil]
  | cons y ys ih =>
    rw [List.append_cons]
    exact ih (h.snoc hf y)

/-- The extremes of the same numbers are equal, or both are NaN. -/
theorem Extreme.beq_or_isNaN (h : e.Extreme xs r) (h' : e.Extreme ys s) (hmem : ∀ x, x ∈ xs ↔ x ∈ ys) :
    (r == s) = true ∨ r.isNaN = true ∧ s.isNaN = true := by
  cases h with
  | isNaN hr hxs =>
    cases h' with
    | isNaN hs hys => exact Or.inr ⟨hr, hs⟩
    | number hs hmem_s _ => exact absurd (hs.symm.trans (hxs s ((hmem s).2 hmem_s))) Bool.false_ne_true
  | number hr hmem_r hr_precedes =>
    cases h' with
    | isNaN hs hys => exact absurd (hr.symm.trans (hys r ((hmem r).1 hmem_r))) Bool.false_ne_true
    | number hs hmem_s hs_precedes =>
      have hrs : e.Precedes r s := hr_precedes s ((hmem s).2 hmem_s) hs
      exact Or.inl (hrs.beq (hs_precedes r ((hmem r).1 hmem_r) hr))

theorem Extreme.isNaN_iff (h : e.Extreme xs r) : r.isNaN = true ↔ ∀ x ∈ xs, x.isNaN = true := by
  cases h with
  | isNaN hr hxs => exact iff_of_true hr hxs
  | number hr hmem _ => exact ⟨fun hnan => absurd (hr.symm.trans hnan) Bool.false_ne_true, fun hxs => hxs r hmem⟩

/-! ### The built-in functions -/

theorem run_native_eq_error {message : String} :
    (e.native f).run xs = .error message ↔ xs = [] ∧ message = e.name ++ " needs at least one argument" := by
  cases xs with
  | nil =>
    show Except.error (e.name ++ " needs at least one argument") = Except.error message ↔ _
    simp [eq_comm]
  | cons x xs =>
    show Except.ok (xs.foldl f x) = Except.error message ↔ _
    simp

theorem extreme_of_run_native (hf : e.Selects f) (h : (e.native f).run xs = .ok r) : e.Extreme xs r := by
  cases xs with
  | nil => cases h
  | cons x xs =>
    cases h
    exact (e.extreme_singleton x).foldl hf xs

end Extremum

/-- `min` and `max` are built in, and combine their arguments from the left by a function of two numbers that passes
over NaN and selects an extreme one.  Of that function no more is needed: for every one of this kind, and whatever
the arguments are, there is a result unless there is no argument.  It is NaN if all arguments are; otherwise it is one
of the arguments, and no argument exceeds it on the side of the extreme.  In any other order the arguments have an
equal result, or both results are NaN. -/
theorem extreme_of_arguments (e : Extremum) :
    (e.name, e.native e.operation) ∈ Builtins.natives ∧ e.Selects e.operation ∧
    ∀ f : Float → Float → Float, e.Selects f → ∀ args : List Float,
      (∀ message, (e.native f).run args = .error message ↔
        args = [] ∧ message = e.name ++ " needs at least one argument") ∧
      ∀ r, (e.native f).run args = .ok r →
        (r.isNaN = true ↔ ∀ x ∈ args, x.isNaN = true) ∧
        (r.isNaN = false → r ∈ args ∧ ∀ x ∈ args, x.isNaN = false → e.Precedes r x) ∧
        ∀ args', args.Perm args' →
          ∃ r', (e.native f).run args' = .ok r' ∧ ((r == r') = true ∨ r.isNaN = true ∧ r'.isNaN = true) := by
  refine ⟨e.mem_natives, e.selects_operation, fun f hf args => ⟨fun _ => Extremum.run_native_eq_error, ?_⟩⟩
  intro r hr
  have hextreme : e.Extreme args r := Extremum.extreme_of_run_native hf hr
  refine ⟨hextreme.isNaN_iff, fun hne => ?_, fun args' hperm => ?_⟩
  · cases hextreme with
    | isNaN hnan _ => exact absurd (hne.symm.trans hnan) Bool.false_ne_true
    | number _ hmem hprecedes => exact ⟨hmem, hprecedes⟩
  · cases hrun : (e.native f).run args' with
    | error message =>
      -- there is an argument, and so there is one in the other order
      obtain ⟨rfl, -⟩ := Extremum.run_native_eq_error.1 hrun
      rw [hperm.eq_nil] at hr
      cases hr
    | ok r' =>
      have hextreme' : e.Extreme args' r' := Extremum.extreme_of_run_native hf hrun
      exact ⟨r', rfl, hextreme.beq_or_isNaN hextreme' fun _ => hperm.mem_iff⟩

/-- NaN is passed over wherever it stands, and which of the two zeros is the result depends on the order. -/
theorem extreme_of_arguments_zeros :
    Extremum.greatest.Selects Binary64.maximum ∧
    (Extremum.greatest.native Binary64.maximum).run [0, 0 / 0, -0, -1] = .ok (-0) ∧
    [(0 : Float), 0 / 0, -0, -1].Perm [-0, 0, 0 / 0, -1] ∧
    (-0 : Float) ∈ [(0 : Float), 0 / 0, -0, -1] ∧
    (∀ x ∈ [(0 : Float), 0 / 0, -0, -1], x.isNaN = false → x ≤ -0) ∧
    (Extremum.greatest.native Binary64.maximum).run [-0, 0, 0 / 0, -1] = .ok 0 ∧ ((-0 : Float) == 0) = true := by
  obtain ⟨-, hselects, harguments⟩ := extreme_of_arguments .greatest
  have hrun : (Extremum.greatest.native Binary64.maximum).run [0, 0 / 0, -0, -1] = .ok (-0) := rfl
  have hrun' : (Extremum.greatest.native Binary64.maximum).run [-0, 0, 0 / 0, -1] = .ok 0 := rfl
  have hperm : [(0 : Float), 0 / 0, -0, -1].Perm [-0, 0, 0 / 0, -1] :=
    (List.perm_middle : ([(0 : Float), 0 / 0] ++ -0 :: [-1]).Perm _)
  obtain ⟨-, hresult⟩ := harguments Binary64.maximum hselects [0, 0 / 0, -0, -1]
  obtain ⟨-, hnumber, horder⟩ := hresult (-0) hrun
  obtain ⟨hmem, hprecedes⟩ := hnumber rfl
  obtain ⟨r', hr', heq⟩ := horder _ hperm
  rw [hrun'] at hr'
  cases hr'
  refine ⟨hselects, hrun, hperm, hmem, hprecedes, hrun', heq.resolve_right fun hnan => ?_⟩
  exact absurd hnan.1 Bool.false_ne_true

end Calculator
