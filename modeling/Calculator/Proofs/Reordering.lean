import Calculator.Proofs.Isolation
import Calculator.Proofs.Registration

/-!
# The order of registrations

A definition is checked without a look at the tables, and the functions that a body calls are looked up when it is
called.  So it makes no difference in which order different names are entered, and a function that is entered again is
from then on the one that its callers call, as if they had been defined behind it:

* `getElem?_insertMany_of_perm`, `getElem?_insertMany_again`: the same for a single table;
* `Environment.Alike.indistinguishable`: evaluations see nothing of a table but what its names stand for;
* `Session.indistinguishable_of_perm`: the two statements on sessions.
-/

namespace Calculator

/-! ### Entering names into a table -/

section Tables

variable {β : Type} {entries entries' : List (String × β)} {name : String}

theorem lookup_reverse_eq_none_iff : entries.reverse.lookup name = none ↔ name ∉ entries.map Prod.fst := by
  rw [List.lookup_eq_none_iff]
  simp only [List.mem_reverse, List.mem_map, not_exists, not_and, bne_iff_ne, ne_eq, @eq_comm _ name]

/-- Where all names are different, it makes no difference which one was entered last. -/
theorem lookup_reverse_eq_some_iff (h : (entries.map Prod.fst).Nodup) {value : β} :
    entries.reverse.lookup name = some value ↔ (name, value) ∈ entries := by
  rw [← getElem?_ofList_eq_some_iff h, Std.TreeMap.ofList_eq_insertMany_empty, getElem?_insertMany_eq_lookup,
    Std.TreeMap.getElem?_emptyc, Option.or_none]

/-- Where all names are different, each stands for what was entered under it. -/
theorem getElem?_insertMany_of_mem (h : (entries.map Prod.fst).Nodup) (t : Std.TreeMap String β) {value : β}
    (hmem : (name, value) ∈ entries) : (t.insertMany entries)[name]? = some value := by
  rw [getElem?_insertMany_eq_lookup, (lookup_reverse_eq_some_iff h).2 hmem, Option.some_or]

theorem getElem?_insertMany_of_not_mem (t : Std.TreeMap String β) (h : name ∉ entries.map Prod.fst) :
    (t.insertMany entries)[name]? = t[name]? := by
  rw [getElem?_insertMany_eq_lookup, lookup_reverse_eq_none_iff.2 h, Option.none_or]

/-- Different names may be entered in any order. -/
theorem getElem?_insertMany_of_perm (hperm : entries.Perm entries') (h : (entries.map Prod.fst).Nodup)
    (t : Std.TreeMap String β) (name : String) :
    (t.insertMany entries)[name]? = (t.insertMany entries')[name]? := by
  have h' : (entries'.map Prod.fst).Nodup := (hperm.map Prod.fst).nodup_iff.1 h
  have hlookup : entries.reverse.lookup name = entries'.reverse.lookup name := by
    ext value
    rw [lookup_reverse_eq_some_iff h, lookup_reverse_eq_some_iff h', hperm.mem_iff]
  rw [getElem?_insertMany_eq_lookup, getElem?_insertMany_eq_lookup, hlookup]

/-- What is entered again might have been entered for the first time, before all that was entered in the meantime. -/
theorem getElem?_insertMany_again {earlier later : List (String × β)} {key : String}
    (h : key ∉ (earlier ++ later).map Prod.fst) (old new : β) (t : Std.TreeMap String β) (name : String) :
    (t.insertMany (earlier ++ (key, old) :: later ++ [(key, new)]))[name]? =
      (t.insertMany ((key, new) :: (earlier ++ later)))[name]? := by
  rw [getElem?_insertMany_eq_lookup, getElem?_insertMany_eq_lookup]
  congr 1
  simp only [List.reverse_append, List.reverse_cons, List.reverse_nil, List.nil_append, List.lookup_append,
    List.append_assoc]
  by_cases hname : name = key
  · subst hname
    rw [List.map_append, List.mem_append, not_or] at h
    rw [lookup_reverse_eq_none_iff.2 h.1, lookup_reverse_eq_none_iff.2 h.2]
    simp
  · have hnone : ∀ value : β, [(key, value)].lookup name = none := by
      intro value
      simp [hname]
    rw [hnone, hnone, Option.none_or, Option.or_none]
    rfl

end Tables

/-! ### What evaluations can tell apart -/

namespace Environment

/-- Two environments have the same limits, and every name stands for the same in both. -/
structure Alike (env env' : Environment) : Prop where
  constants : ∀ name : String, env.constants[name]? = env'.constants[name]?
  functions : ∀ name : String, env.functions[name]? = env'.functions[name]?
  limits : env.limits = env'.limits

/-- Every text, and every batch of texts, has the same values and errors in both environments. -/
structure Indistinguishable (env env' : Environment) : Prop where
  evaluate : ∀ text, env.evaluate text = env'.evaluate text
  evaluateBatch : ∀ texts, env.evaluateBatch texts = env'.evaluateBatch texts

theorem Alike.indistinguishable {env env' : Environment} (h : env.Alike env') : env.Indistinguishable env' := by
  have hevaluate : ∀ text, env.evaluate text = env'.evaluate text := by
    intro text
    rw [Environment.evaluate, Environment.evaluate, ← h.limits]
    exact Scope.evaluateText_nested_congr env.limits (env.limits.callDepth - 0) (fun name _ => h.constants name)
      fun name _ => h.functions name
  exact ⟨hevaluate, fun texts => List.map_congr_left fun text _ => hevaluate text⟩

/-- Different names may be entered in any order. -/
theorem alike_enter_of_perm (env : Environment) {constants constants' : List (String × Float)}
    {functions functions' : List (String × Callable)} (hconstants : constants.Perm constants')
    (hfunctions : functions.Perm functions') (h : (constants.map Prod.fst).Nodup)
    (h' : (functions.map Prod.fst).Nodup) : (env.enter constants functions).Alike (env.enter constants' functions') where
  constants := getElem?_insertMany_of_perm hconstants h env.constants
  functions := getElem?_insertMany_of_perm hfunctions h' env.functions
  limits := rfl

end Environment

/-! ### Sessions -/

/-- The answer to a definition, whatever is in the tables. -/
def Definition.reply (d : Definition) : Session.Reply :=
  match Formula.make d.params d.body with
  | .ok _ => .done
  | .error e => .rejected e

namespace Session

theorem perform_define (s : Session) (d : Definition) : (s.perform (.define d)).2 = d.reply := by
  rw [perform, Environment.define, Definition.reply]
  cases Formula.make d.params d.body <;> rfl

/-- Each reply is given to the command at its place, in the session that the commands before it have led to. -/
theorem exists_reply (s : Session) {commands : List Command} {i : Nat} {c : Command} (h : commands[i]? = some c) :
    ∃ s' : Session, (s.run commands).2[i]? = some (s'.perform c).2 := by
  induction commands generalizing s i with
  | nil => cases h
  | cons d commands ih =>
    cases i with
    | zero =>
      obtain rfl : d = c := Option.some.inj h
      exact ⟨s, rfl⟩
    | succ i => exact ih (s.perform d).1 h

/-- A definition gets its answer wherever it stands. -/
theorem getElem?_run_define (s : Session) {commands : List Command} {i : Nat} {d : Definition}
    (h : commands[i]? = some (.define d)) : (s.run commands).2[i]? = some d.reply := by
  obtain ⟨s', hs'⟩ := s.exists_reply h
  rw [hs', perform_define]

/-- A command that enters a single function enters no constant and takes nothing back. -/
theorem Command.of_functions_eq {c : Command} {entry : String × Callable} (h : c.functions = [entry]) :
    c.constants = [] ∧ .restore ≠ c := by
  cases c with
  | setConstant | registerBuiltins | restore => cases h
  | setNative | define | evaluate | evaluateBatch | list | showLimit | save => exact ⟨rfl, Command.noConfusion⟩

/-- Commands that enter different names may be given in any order. -/
theorem alike_run_of_perm (s : Session) {commands commands' : List Command} (hperm : commands.Perm commands')
    (hrestore : .restore ∉ commands) (hconstants : ((commands.flatMap Command.constants).map Prod.fst).Nodup)
    (hfunctions : ((commands.flatMap Command.functions).map Prod.fst).Nodup) :
    (s.run commands).1.current.Alike (s.run commands').1.current := by
  have hrestore' : .restore ∉ commands' := fun h => hrestore (hperm.mem_iff.2 h)
  rw [run_current hrestore, run_current hrestore']
  exact s.current.alike_enter_of_perm (hperm.flatMap_right Command.constants)
    (hperm.flatMap_right Command.functions) hconstants hfunctions

/-- A function that is entered again might have been entered first, without the old one. -/
theorem alike_run_again (s : Session) {earlier later : List Command} {old new : Command} {name : String}
    {f f' : Callable} (hrestore : .restore ∉ earlier ++ later) (hold : old.functions = [(name, f)])
    (hnew : new.functions = [(name, f')])
    (hname : name ∉ ((earlier ++ later).flatMap Command.functions).map Prod.fst) :
    (s.run (earlier ++ old :: later ++ [new])).1.current.Alike (s.run (new :: (earlier ++ later))).1.current := by
  obtain ⟨holdConstants, holdRestore⟩ := Command.of_functions_eq hold
  obtain ⟨hnewConstants, hnewRestore⟩ := Command.of_functions_eq hnew
  rw [List.mem_append, not_or] at hrestore
  have hleft : .restore ∉ earlier ++ old :: later ++ [new] := by
    simp [hrestore, holdRestore, hnewRestore]
  have hright : .restore ∉ new :: (earlier ++ later) := by
    simp [hrestore, hnewRestore]
  rw [run_current hleft, run_current hright]
  refine ⟨fun other => ?_, fun other => ?_, rfl⟩
  · simp [Environment.enter, holdConstants, hnewConstants]
  · rw [List.flatMap_append] at hname
    simp only [Environment.enter, List.flatMap_append, List.flatMap_cons, List.flatMap_nil, hold, hnew,
      List.append_nil, List.singleton_append]
    exact getElem?_insertMany_again hname f f' s.current.functions other

/-- The order of registrations makes no difference.  If no name is entered twice in the same table, then any two orders
of the same commands accept and reject the same definitions, for the same reasons, and the environments they lead to
cannot be told apart.  And if a function is entered again under its name, then all that was defined before it, or
between the two, might as well have been defined behind the new function, without the old one. -/
theorem indistinguishable_of_perm (s : Session) :
    (∀ commands commands' : List Command, commands.Perm commands' → .restore ∉ commands →
      ((commands.flatMap Command.constants).map Prod.fst).Nodup →
      ((commands.flatMap Command.functions).map Prod.fst).Nodup →
      (∀ (i j : Nat) (d : Definition), commands[i]? = some (.define d) → commands'[j]? = some (.define d) →
        (s.run commands).2[i]? = some d.reply ∧ (s.run commands').2[j]? = some d.reply) ∧
      (s.run commands).1.current.Indistinguishable (s.run commands').1.current) ∧
    ∀ (earlier later : List Command) (old new : Command) (name : String) (f f' : Callable),
      .restore ∉ earlier ++ later → old.functions = [(name, f)] → new.functions = [(name, f')] →
      name ∉ ((earlier ++ later).flatMap Command.functions).map Prod.fst →
      (s.run (earlier ++ old :: later ++ [new])).1.current.Indistinguishable
        (s.run (new :: (earlier ++ later))).1.current := by
  constructor
  · intro commands commands' hperm hrestore hconstants hfunctions
    refine ⟨fun i j d hi hj => ⟨s.getElem?_run_define hi, s.getElem?_run_define hj⟩, ?_⟩
    exact (s.alike_run_of_perm hperm hrestore hconstants hfunctions).indistinguishable
  · intro earlier later old new name f f' hrestore hold hnew hname
    exact (s.alike_run_again hrestore hold hnew hname).indistinguishable

/-- The function `f` calls `g`, which is defined before it in one order and behind it in the other; and when `g` is
defined again so that it calls `f`, then `f` calls the new `g`. -/
theorem indistinguishable_of_perm_mutual :
    (run ⟨⟨Std.TreeMap.ofList [("c", (2 : Float))], ∅, ⟨3⟩⟩, []⟩
      [.define ⟨"h", ["x", "x"], "x"⟩, .define ⟨"g", ["x"], "x"⟩, .define ⟨"f", ["x"], "g(x)"⟩]).2[0]? =
        some (.rejected (.duplicateParameter "x")) ∧
    (run ⟨⟨Std.TreeMap.ofList [("c", (2 : Float))], ∅, ⟨3⟩⟩, []⟩
      [.define ⟨"f", ["x"], "g(x)"⟩, .define ⟨"g", ["x"], "x"⟩, .define ⟨"h", ["x", "x"], "x"⟩]).2[2]? =
        some (.rejected (.duplicateParameter "x")) ∧
    (run ⟨⟨Std.TreeMap.ofList [("c", (2 : Float))], ∅, ⟨3⟩⟩, []⟩
      [.define ⟨"f", ["x"], "g(x)"⟩, .define ⟨"g", ["x"], "x"⟩, .define ⟨"h", ["x", "x"], "x"⟩]).1.current.evaluate
        "f(c)" = .ok 2 ∧
    (run ⟨⟨Std.TreeMap.ofList [("c", (2 : Float))], ∅, ⟨3⟩⟩, []⟩
      [.define ⟨"f", ["x"], "g(x)"⟩, .define ⟨"g", ["x"], "x"⟩, .define ⟨"g", ["x"], "f(x)"⟩]).1.current.evaluate
        "f(c)" = .error (.callDepthExceeded 3) := by
  have hf : Command.functions (.define ⟨"f", ["x"], "g(x)"⟩) = [("f", .formula ⟨["x"], "g(x)"⟩)] := by cbv
  have hg : Command.functions (.define ⟨"g", ["x"], "x"⟩) = [("g", .formula ⟨["x"], "x"⟩)] := by cbv
  have hg' : Command.functions (.define ⟨"g", ["x"], "f(x)"⟩) = [("g", .formula ⟨["x"], "f(x)"⟩)] := by cbv
  have hh : Command.functions (.define ⟨"h", ["x", "x"], "x"⟩) = [] := by cbv
  have hreply : Definition.reply ⟨"h", ["x", "x"], "x"⟩ = .rejected (.duplicateParameter "x") := by cbv
  have hvalue : ∀ c : Float, (run ⟨⟨Std.TreeMap.ofList [("c", c)], ∅, ⟨3⟩⟩, []⟩
      [.define ⟨"h", ["x", "x"], "x"⟩, .define ⟨"g", ["x"], "x"⟩, .define ⟨"f", ["x"], "g(x)"⟩]).1.current.evaluate
        "f(c)" = .ok c := by
    intro c
    cbv
  have hloop : ∀ c : Float, (run ⟨⟨Std.TreeMap.ofList [("c", c)], ∅, ⟨3⟩⟩, []⟩
      [.define ⟨"g", ["x"], "f(x)"⟩, .define ⟨"f", ["x"], "g(x)"⟩]).1.current.evaluate
        "f(c)" = .error (.callDepthExceeded 3) := by
    intro c
    cbv
  obtain ⟨hperm, hagain⟩ := indistinguishable_of_perm ⟨⟨Std.TreeMap.ofList [("c", (2 : Float))], ∅, ⟨3⟩⟩, []⟩
  obtain ⟨hreplies, hsame⟩ := hperm
    [.define ⟨"h", ["x", "x"], "x"⟩, .define ⟨"g", ["x"], "x"⟩, .define ⟨"f", ["x"], "g(x)"⟩]
    [.define ⟨"f", ["x"], "g(x)"⟩, .define ⟨"g", ["x"], "x"⟩, .define ⟨"h", ["x", "x"], "x"⟩]
    (List.reverse_perm _).symm (by simp) List.nodup_nil (by simp [hf, hg, hh])
  obtain ⟨hfirst, hlast⟩ := hreplies 0 2 ⟨"h", ["x", "x"], "x"⟩ rfl rfl
  have hlate := hagain [.define ⟨"f", ["x"], "g(x)"⟩] [] (.define ⟨"g", ["x"], "x"⟩) (.define ⟨"g", ["x"], "f(x)"⟩)
    "g" _ _ (by simp) hg hg' (by simp [hf])
  exact ⟨hfirst.trans (congrArg some hreply), hlast.trans (congrArg some hreply),
    (hsame.evaluate "f(c)").symm.trans (hvalue 2), (hlate.evaluate "f(c)").trans (hloop 2)⟩

end Session

end Calculator
