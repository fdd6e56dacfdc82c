import Calculator.Function.Table
import Calculator.Proofs.LongestMatch
import Calculator.Proofs.Mentions

/-!
# Parameters of a formula

A formula is well formed if its parameters are pairwise different identifiers that all occur in its body.  Checking a
definition accepts exactly the well-formed formulas, and of all the parameters at fault it reports the first one:

* `isIdentifier_iff`, `Text.occursIn_iff`: what the two tests on a single parameter say;
* `Formula.check_eq_ok`, `Formula.exists_defect_of_check`: how far the check of a list of parameters gets;
* `Formula.make_eq_iff`: both outcomes of a definition;
* `Formula.getElem?_constants`: different parameters are bound each to its own argument.
-/

namespace Calculator

/-- A text is an identifier if it is a name as a whole, with no blank around it. -/
theorem isIdentifier_iff {text : String} : isIdentifier text = true ↔ IsName text.toList := by
  constructor
  · intro h
    unfold isIdentifier at h
    split at h
    next t ht =>
      rw [Bool.and_eq_true, beq_iff_eq, beq_iff_eq] at h
      obtain ⟨hkind, htext⟩ := h
      have hvalid : t.Valid := valid_of_tokenize ht t List.mem_cons_self
      obtain ⟨kind, text'⟩ := t
      subst hkind htext
      exact hvalid.isName
    · cases h
  · intro h
    have ht : tokenize text = .ok ⟨[⟨.identifier, text⟩]⟩ :=
      tokenize_eq_ok_iff.2 (Token.lexemes_text ⟨⟨.identifier, text⟩, .identifier h⟩)
    simp [isIdentifier, ht]

/-- One text occurs in another if it is a contiguous part of it. -/
theorem Text.occursIn_iff {w s : List Char} : occursIn w s = true ↔ w <:+: s := by
  induction s with
  | nil => rw [occursIn, List.isEmpty_iff, List.infix_nil]
  | cons c s ih => rw [occursIn, Bool.or_eq_true, List.isPrefixOf_iff_prefix, ih, List.infix_cons_iff]

namespace Formula

/-- The parameters are pairwise different identifiers, and each of them occurs in the body. -/
structure WellFormed (f : Formula) : Prop where
  nodup : f.params.Nodup
  isName : ∀ name ∈ f.params, IsName name.toList
  occurs : ∀ name ∈ f.params, name.toList <:+: f.body.toList

/-- What is wrong with a parameter that follows the `earlier` ones.  The tests are made in this order, so of several
defects the first one counts. -/
inductive Defect (body : String) (earlier : List String) (name : String) : DefinitionError → Prop where
  | duplicate (h : name ∈ earlier) : Defect body earlier name (.duplicateParameter name)
  | invalid (hnew : name ∉ earlier) (h : ¬ IsName name.toList) : Defect body earlier name (.invalidParameter name)
  | unused (hnew : name ∉ earlier) (hname : IsName name.toList) (h : ¬ name.toList <:+: body.toList) :
      Defect body earlier name (.unusedParameter name)

/-- The parameter at position `i` is the same as an earlier one, is no identifier, or does not occur in the body. -/
def Defective (params : List String) (body : String) (i : Nat) : Prop :=
  ∃ name, params[i]? = some name ∧
    (name ∈ params.take i ∨ ¬ IsName name.toList ∨ ¬ name.toList <:+: body.toList)

variable {body name : String} {params seen earlier : List String} {e e' : DefinitionError}

/-! ### One parameter -/

theorem Defect.unique (h : Defect body earlier name e) (h' : Defect body earlier name e') : e = e' := by
  cases h with
  | duplicate h =>
    cases h' with
    | duplicate => rfl
    | invalid hnew | unused hnew => exact absurd h hnew
  | invalid hnew hname =>
    cases h' with
    | duplicate h => exact absurd h hnew
    | invalid => rfl
    | unused _ hname' => exact absurd hname' hname
  | unused hnew hname =>
    cases h' with
    | duplicate h => exact absurd h hnew
    | invalid _ hname' => exact absurd hname hname'
    | unused => rfl

theorem Defect.of_mem_iff {earlier' : List String} (hmem : name ∈ earlier ↔ name ∈ earlier')
    (h : Defect body earlier name e) : Defect body earlier' name e := by
  cases h with
  | duplicate h => exact .duplicate (hmem.1 h)
  | invalid hnew h => exact .invalid (fun hn => hnew (hmem.2 hn)) h
  | unused hnew hname h => exact .unused (fun hn => hnew (hmem.2 hn)) hname h

theorem Defect.defective {i : Nat} (hi : params[i]? = some name) (h : Defect body (params.take i) name e) :
    Defective params body i := by
  refine ⟨name, hi, ?_⟩
  cases h with
  | duplicate h => exact Or.inl h
  | invalid _ h => exact Or.inr (Or.inl h)
  | unused _ _ h => exact Or.inr (Or.inr h)

theorem Defect.not_sound (h : Defect body earlier name e) :
    ¬ (name ∉ earlier ∧ IsName name.toList ∧ name.toList <:+: body.toList) := by
  rintro ⟨hnew, hname, hoccurs⟩
  cases h with
  | duplicate h => exact hnew h
  | invalid _ h => exact h hname
  | unused _ _ h => exact h hoccurs

/-- The check stops at a parameter with a defect and goes on behind one without. -/
theorem check_cons (body : String) (seen : List String) (name : String) :
    (∃ e, Defect body seen name e ∧ ∀ params, check body seen (name :: params) = .error e) ∨
      (name ∉ seen ∧ IsName name.toList ∧ name.toList <:+: body.toList) ∧
        ∀ params, check body seen (name :: params) = check body (name :: seen) params := by
  by_cases hseen : name ∈ seen
  · exact Or.inl ⟨_, .duplicate hseen, fun params => by simp [check, hseen]⟩
  by_cases hname : IsName name.toList
  · have hidentifier : isIdentifier name = true := isIdentifier_iff.2 hname
    by_cases hoccurs : name.toList <:+: body.toList
    · have hoccurs' : Text.occursIn name.toList body.toList = true := Text.occursIn_iff.2 hoccurs
      exact Or.inr ⟨⟨hseen, hname, hoccurs⟩, fun params => by simp [check, hseen, hidentifier, hoccurs']⟩
    · have hoccurs' : Text.occursIn name.toList body.toList = false :=
        Bool.eq_false_iff.2 fun ho => hoccurs (Text.occursIn_iff.1 ho)
      exact Or.inl ⟨_, .unused hseen hname hoccurs, fun params => by simp [check, hseen, hidentifier, hoccurs']⟩
  · have hidentifier : isIdentifier name = false := Bool.eq_false_iff.2 fun hn => hname (isIdentifier_iff.1 hn)
    exact Or.inl ⟨_, .invalid hseen hname, fun params => by simp [check, hseen, hidentifier]⟩

/-! ### All parameters -/

/-- The check accepts new and different parameters that are identifiers and occur in the body. -/
theorem check_eq_ok : check body seen params = .ok () ↔
    WellFormed ⟨params, body⟩ ∧ ∀ name ∈ params, name ∉ seen := by
  induction params generalizing seen with
  | nil =>
    refine ⟨fun _ => ⟨⟨List.nodup_nil, ?_, ?_⟩, ?_⟩, fun _ => rfl⟩ <;> exact List.forall_mem_nil _
  | cons name params ih =>
    rcases check_cons body seen name with ⟨e, hdefect, he⟩ | ⟨⟨hnew, hname, hoccurs⟩, hrest⟩
    · rw [he]
      refine iff_of_false (fun h => by cases h) ?_
      rintro ⟨hwell, hnews⟩
      exact hdefect.not_sound
        ⟨hnews name List.mem_cons_self, hwell.isName name List.mem_cons_self, hwell.occurs name List.mem_cons_self⟩
    · rw [hrest, ih]
      constructor
      · rintro ⟨hwell, hnews⟩
        have hnot : name ∉ params := fun hmem => hnews name hmem List.mem_cons_self
        refine ⟨⟨List.nodup_cons.2 ⟨hnot, hwell.nodup⟩, List.forall_mem_cons.2 ⟨hname, hwell.isName⟩,
          List.forall_mem_cons.2 ⟨hoccurs, hwell.occurs⟩⟩, List.forall_mem_cons.2 ⟨hnew, fun other hother hmem => ?_⟩⟩
        exact hnews other hother (List.mem_cons_of_mem name hmem)
      · rintro ⟨hwell, hnews⟩
        obtain ⟨hnot, hnodup⟩ := List.nodup_cons.1 hwell.nodup
        refine ⟨⟨hnodup, (List.forall_mem_cons.1 hwell.isName).2, (List.forall_mem_cons.1 hwell.occurs).2⟩, ?_⟩
        intro other hother hmem
        rcases List.mem_cons.1 hmem with rfl | hmem
        · exact hnot hother
        · exact hnews other (List.mem_cons_of_mem name hother) hmem

/-- The check stops at a parameter with a defect, and accepts those before it. -/
theorem exists_defect_of_check (h : check body seen params = .error e) :
    ∃ before name after, params = before ++ name :: after ∧ check body seen before = .ok () ∧
      Defect body (before ++ seen) name e := by
  induction params generalizing seen with
  | nil => cases h
  | cons name params ih =>
    rcases check_cons body seen name with ⟨e', hdefect, he⟩ | ⟨-, hrest⟩
    · rw [he] at h
      cases h
      exact ⟨[], name, params, rfl, rfl, hdefect⟩
    · rw [hrest] at h
      obtain ⟨before, other, after, rfl, hbefore, hdefect⟩ := ih h
      refine ⟨name :: before, other, after, rfl, (hrest before).trans hbefore, hdefect.of_mem_iff ?_⟩
      simp only [List.cons_append, List.mem_append, List.mem_cons]
      exact or_left_comm

theorem WellFormed.not_defective (h : WellFormed ⟨params, body⟩) (i : Nat) : ¬ Defective params body i := by
  rintro ⟨name, hi, hdefect⟩
  obtain ⟨hlt, hget⟩ := List.getElem?_eq_some_iff.1 hi
  have hmem : name ∈ params := List.mem_of_getElem? hi
  rcases hdefect with htake | hname | hoccurs
  · -- an earlier parameter of this name would stand at another position
    obtain ⟨j, hj, hjname⟩ := List.mem_take_iff_getElem.1 htake
    have hij : j = i := (List.Nodup.getElem_inj_iff h.nodup).1 (hjname.trans hget.symm)
    omega
  · exact hname (h.isName name hmem)
  · exact hoccurs (h.occurs name hmem)

/-- Whether a parameter is at fault depends on the parameters before it alone. -/
theorem Defective.of_append {before after : List String} {i : Nat} (h : Defective (before ++ after) body i)
    (hi : i < before.length) : Defective before body i := by
  obtain ⟨name, hname, hdefect⟩ := h
  rw [List.getElem?_append_left hi] at hname
  rw [List.take_append_of_le_length (Nat.le_of_lt hi)] at hdefect
  exact ⟨name, hname, hdefect⟩

/-- A rejected definition names the first parameter at fault, with its defect. -/
theorem exists_isLeast_of_make (h : make params body = .error e) :
    ∃ i name, params[i]? = some name ∧ IsLeast {j | Defective params body j} i ∧
      Defect body (params.take i) name e := by
  obtain ⟨before, name, after, rfl, hbefore, hdefect⟩ := exists_defect_of_check (map_eq_error.1 h)
  have hname : (before ++ name :: after)[before.length]? = some name := by simp
  rw [List.append_nil] at hdefect
  have hdefect' : Defect body ((before ++ name :: after).take before.length) name e := by
    rwa [List.take_left]
  refine ⟨before.length, name, hname, ⟨hdefect'.defective hname, fun j hj => ?_⟩, hdefect'⟩
  by_contra hlt
  exact (check_eq_ok.1 hbefore).1.not_defective j (Defective.of_append hj (Nat.lt_of_not_le hlt))

theorem make_eq_ok {f : Formula} : make params body = .ok f ↔ f = ⟨params, body⟩ ∧ f.WellFormed := by
  rw [make, map_eq_ok]
  constructor
  · rintro ⟨_, hcheck, rfl⟩
    exact ⟨rfl, (check_eq_ok.1 hcheck).1⟩
  · rintro ⟨rfl, hwell⟩
    exact ⟨(), check_eq_ok.2 ⟨hwell, fun _ _ => List.not_mem_nil⟩, rfl⟩

/-- A definition is accepted exactly if its parameters are pairwise different identifiers that occur in the body, and it
becomes the formula of these parameters and this body.  Otherwise it is rejected for the first parameter at fault, as a
duplicate before all, then as no identifier, and then as unused. -/
theorem make_eq_iff (params : List String) (body : String) :
    (∀ f, make params body = .ok f ↔ f = ⟨params, body⟩ ∧ f.WellFormed) ∧
    ∀ e, make params body = .error e ↔ ∃ i name, params[i]? = some name ∧
      IsLeast {j | Defective params body j} i ∧ Defect body (params.take i) name e := by
  refine ⟨fun f => make_eq_ok, fun e => ⟨exists_isLeast_of_make, ?_⟩⟩
  rintro ⟨i, name, hname, hleast, hdefect⟩
  cases hmake : make params body with
  | ok f =>
    obtain ⟨rfl, hwell⟩ := make_eq_ok.1 hmake
    exact absurd hleast.1 (hwell.not_defective i)
  | error e' =>
    obtain ⟨i', name', hname', hleast', hdefect'⟩ := exists_isLeast_of_make hmake
    obtain rfl : i = i' := hleast.unique hleast'
    obtain rfl : name = name' := Option.some.inj (hname.symm.trans hname')
    rw [hdefect.unique hdefect']

/-- The second parameter is at fault before the third one is looked at. -/
example : make ["x", "y", "x"] "x+1" = .error (.unusedParameter "y") := by
  cbv

end Formula

/-! ### What parameters are bound to -/

/-- A name that is entered several times stands for its last value. -/
theorem getElem?_insertMany_eq_lookup {β : Type} (t : Std.TreeMap String β) (entries : List (String × β))
    (name : String) : (t.insertMany entries)[name]? = (entries.reverse.lookup name).or t[name]? := by
  have hentry : (fun entry : String × β => if compare entry.1 name = .eq then some entry.2 else none) =
      fun entry => if name == entry.1 then some entry.2 else none := by
    funext entry
    simp only [Std.compare_eq_iff_eq, beq_iff_eq, @eq_comm _ name]
  rw [Std.TreeMap.getElem?_insertMany_list, List.findSomeRev?_eq_findSome?_reverse, List.lookup_eq_findSome?, ← hentry]

/-- Where all names are different, every entry is found. -/
theorem getElem?_ofList_eq_some_iff {β : Type} {entries : List (String × β)} (h : (entries.map Prod.fst).Nodup)
    {name : String} {value : β} : (Std.TreeMap.ofList entries)[name]? = some value ↔ (name, value) ∈ entries := by
  constructor
  · intro hvalue
    rw [Std.TreeMap.ofList_eq_insertMany_empty, getElem?_insertMany_eq_lookup, Std.TreeMap.getElem?_emptyc,
      Option.or_none] at hvalue
    obtain ⟨before, after, heq, -⟩ := List.lookup_eq_some_iff.1 hvalue
    rw [← List.mem_reverse, heq]
    exact List.mem_append_right before List.mem_cons_self
  · intro hmem
    refine Std.TreeMap.getElem?_ofList_of_mem Std.ReflCmp.compare_self ?_ hmem
    exact (List.pairwise_map.1 h).imp fun hne he => hne (Std.LawfulEqCmp.eq_of_compare he)

/-- The constants in the body of a formula are its parameters, each with the argument at its own position. -/
theorem Formula.getElem?_constants {f : Formula} (hf : f.params.Nodup) {args : List Float}
    (hargs : args.length = f.arity) {name : String} {value : Float} :
    (Std.TreeMap.ofList (f.params.zip args))[name]? = some value ↔
      ∃ i : Nat, f.params[i]? = some name ∧ args[i]? = some value := by
  have hkeys : ((f.params.zip args).map Prod.fst).Nodup := by
    rwa [List.map_fst_zip (Nat.le_of_eq hargs.symm)]
  rw [getElem?_ofList_eq_some_iff hkeys]
  simp only [List.mem_iff_getElem?, List.getElem?_zip_eq_some]

end Calculator
