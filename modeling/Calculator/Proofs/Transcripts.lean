import Calculator.Proofs.DefinitionLines
import Calculator.Proofs.InputLines
import Calculator.Proofs.OneLine
import Calculator.Proofs.ReadBack

/-!
# The shape of a transcript

Every line that is not blank is answered by a text on one line (`Console.Replies`).  For the environment never holds a
body with a line break: it starts without one, and the body of a definition is a part of its line
(`Console.replies_answer`, and along the lines `Console.forall₂_replies_answers`).  So the line breaks of a transcript
count the lines that are not blank, and since every line is trimmed first, blanks at the ends of lines and carriage
returns make no difference: `Console.transcript_of_hasLines`.
-/

namespace Calculator

namespace Builtins

theorem oneLine_refusal {name message : String} {count : Nat} (h : refusal? name count = some message) :
    Text.OneLine message := by
  have hname : arity? name = none → Text.OneLine name := by
    unfold arity?
    split
    · exact fun _ => by decide
    · exact fun _ => by decide
    · intro h
      cases h
    · intro h
      cases h
  rw [refusal?] at h
  split at h
  · split at h
    · cases h
    · cases h
      exact oneLine_argumentCountMessage _ _
  · rename_i harity
    split at h
    · cases h
      exact .append (hname harity) (by decide)
    · cases h

/-- The built-in functions report no line breaks. -/
theorem oneLine_of_mem_functions {entry : String × Callable} (h : entry ∈ functions) : entry.2.OneLine := by
  rcases List.mem_append.1 h with h | h
  · obtain ⟨⟨name, f⟩, hmem, rfl⟩ := List.mem_map.1 h
    intro args message hrun
    have hrefusal := failure?_run hmem args
    rw [hrun] at hrefusal
    exact oneLine_refusal hrefusal.symm
  · obtain ⟨d, hmem, rfl⟩ := List.mem_map.1 h
    have hbody : ∀ d ∈ definitions, Text.OneLine d.body := by
      rw [definitions, List.forall_mem_cons, List.forall_mem_cons, List.forall_mem_cons, List.forall_mem_singleton]
      exact ⟨by decide, by decide, by decide, by decide⟩
    exact hbody d hmem

end Builtins

namespace Console

variable {env : Environment} {line : List Char} {ls ls' : List (List Char)} {replies : List (Option String)}

/-- What stands in a transcript for a line: nothing for a blank line, and a text on one line for any other. -/
def Replies (line : List Char) (reply : Option String) : Prop :=
  (reply = none ↔ Text.trim line = []) ∧ ∀ text, reply = some text → Text.OneLine text

theorem replies_some {text : String} (hne : Text.trim line ≠ []) (htext : Text.OneLine text) :
    Replies line (some text) := by
  refine ⟨by simp [hne], fun text' h => ?_⟩
  cases h
  exact htext

/-! ### No line break enters the environment -/

theorem oneLine_initial : initial.OneLine := by
  intro name f hf
  rw [initial_eq] at hf
  have hlookup : ((∅ : FunctionTable).insertMany Builtins.functions)[name]? = some f := hf
  rw [getElem?_insertMany_eq_lookup, Std.TreeMap.getElem?_emptyc, Option.or_none] at hlookup
  obtain ⟨before, after, heq, -⟩ := List.lookup_eq_some_iff.1 hlookup
  have hmem : (name, f) ∈ Builtins.functions := by
    rw [← List.mem_reverse, heq]
    exact List.mem_append_right before List.mem_cons_self
  exact Builtins.oneLine_of_mem_functions hmem

theorem oneLine_showResult (henv : env.OneLine) {text : String} (htext : Text.OneLine text) :
    Text.OneLine (showResult (env.evaluate text)) := by
  cases hresult : env.evaluate text with
  | ok value => exact Text.oneLine_of_unblank (Numeral.unblank_write value).2
  | error e => exact .append (by decide) (henv.message htext hresult)

/-- A line without a line break is answered on one line, and enters no line break. -/
theorem replies_answer (henv : env.OneLine) (hline : '\n' ∉ line) :
    (answer env line).1.OneLine ∧ Replies line (answer env line).2 := by
  have htrim : '\n' ∉ Text.trim line := fun hmem => hline ((Text.padded_trim line).isInfix.subset hmem)
  have hparts : ∀ d, Definition.parse? (Text.trim line) = some d →
      Text.trim line ≠ [] ∧ Text.OneLine d.name ∧ (∀ p ∈ d.params, Text.OneLine p) ∧ Text.OneLine d.body := by
    intro d hd
    obtain ⟨head, body, hsplit, -, hname, hparams, hbody⟩ := Definition.exists_head_of_parse? hd
    rw [hsplit] at htrim ⊢
    simp only [List.mem_append, List.mem_cons, not_or] at htrim
    obtain ⟨-, hhead, -, hrest⟩ := htrim
    exact ⟨List.cons_ne_nil _ _, fun hmem => hhead (hname hmem), fun p hp hmem => hhead (hparams p hp hmem),
      fun hmem => hrest (hbody hmem)⟩
  rcases answer_cases env line with ⟨d, env', hd, hdefine, h⟩ | ⟨d, e, hd, hdefine, h⟩ | ⟨hblank, h⟩ | ⟨-, hne, h⟩
  · obtain ⟨hne, hname, -, hbody⟩ := hparts d hd
    rw [h]
    exact ⟨henv.define hbody hdefine, replies_some hne (.append (by decide) hname)⟩
  · obtain ⟨hne, -, hparams, -⟩ := hparts d hd
    have hmessage : Text.OneLine e.message := Formula.oneLine_message_of_make (map_eq_error.1 hdefine) hparams
    rw [h]
    exact ⟨henv, replies_some hne (.append (by decide) hmessage)⟩
  · rw [h]
    exact ⟨henv, ⟨by simp [hblank], fun text htext => by cases htext⟩⟩
  · have htext : Text.OneLine (String.ofList (Text.trim line)) := by
      rwa [Text.OneLine, String.toList_ofList]
    rw [h]
    exact ⟨henv, replies_some hne (oneLine_showResult henv htext)⟩

/-- All lines of a session are answered on one line each. -/
theorem forall₂_replies_answers (henv : env.OneLine) (hlines : ∀ line ∈ ls, '\n' ∉ line) :
    List.Forall₂ Replies ls (answers env ls) := by
  induction ls generalizing env with
  | nil => exact .nil
  | cons line ls ih =>
    obtain ⟨hline, hlines⟩ := List.forall_mem_cons.1 hlines
    obtain ⟨henv', hreplies⟩ := replies_answer henv hline
    exact .cons hreplies (ih henv' hlines)

/-! ### What makes no difference -/

theorem answer_eq_of_trim_eq {line' : List Char} (h : Text.trim line = Text.trim line') :
    answer env line = answer env line' := by
  unfold answer
  rw [h]

/-- Blanks at the ends of lines make no difference to any answer. -/
theorem answers_eq_of_padded (h : List.Forall₂ Text.Padded ls ls') : answers env ls' = answers env ls := by
  induction h generalizing env with
  | nil => rfl
  | @cons line line' ls ls' hpadded _ ih =>
    show (answer env line').2 :: answers (answer env line').1 ls' =
      (answer env line).2 :: answers (answer env line).1 ls
    rw [answer_eq_of_trim_eq hpadded.trim_eq, ih]

/-- The transcript of an input by its lines. -/
theorem transcript_eq {input : String} (h : Text.HasLines ls input.toList) :
    transcript input = prompt ++ String.join ((answers initial ls).map showAnswer) := by
  rw [transcript, answers_eq_of_padded h.padded_lines]

theorem transcript_eq_of_padded {input input' : String} (h : Text.HasLines ls input.toList)
    (h' : Text.HasLines ls' input'.toList) (hpadded : List.Forall₂ Text.Padded ls ls') :
    transcript input' = transcript input := by
  rw [transcript_eq h, transcript_eq h', answers_eq_of_padded hpadded]

/-! ### Counting line breaks -/

theorem showAnswer_eq (reply : Option String) : showAnswer reply = reply.elim "" (· ++ "\n") ++ "> " := by
  cases reply <;> rfl

/-- Each answer ends one line of the transcript. -/
theorem count_join_showAnswer (h : List.Forall₂ Replies ls replies) :
    (String.join (replies.map showAnswer)).toList.count '\n' = (ls.filter fun line => Text.trim line ≠ []).length := by
  induction h with
  | nil => rfl
  | @cons line reply ls replies hreply _ ih =>
    obtain ⟨hnone, htext⟩ := hreply
    rw [String.toList_join] at ih ⊢
    rw [List.map_cons, List.flatMap_cons, List.count_append, ih]
    cases reply with
    | none =>
      have hblank : Text.trim line = [] := hnone.1 rfl
      have hcount : (showAnswer none).toList.count '\n' = 0 := by decide
      simp [hblank, hcount]
    | some text =>
      have hne : Text.trim line ≠ [] := fun hblank => Option.some_ne_none text (hnone.2 hblank)
      have hcount : (showAnswer (some text)).toList.count '\n' = 1 := by
        have hzero : text.toList.count '\n' = 0 := List.count_eq_zero.2 (htext text rfl)
        rw [showAnswer, String.toList_append, String.toList_append, List.count_append, List.count_append, hzero]
        rfl
      simp only [List.filter_cons, hne, hcount, ne_eq, not_false_eq_true, decide_true, if_true, List.length_cons]
      omega

/-- What the console writes for an input: a prompt, and for each line in order its answer and the next prompt, where a
blank line is not answered and any other line by a text without a line break that a line break follows.  So the output
has one line more than the input has lines that are not blank.  Carriage returns before the line feeds make no
difference, nor do other blanks at the ends of lines. -/
theorem transcript_of_hasLines (input : String) :
    (∃ ls, Text.HasLines ls input.toList) ∧
    ∀ ls, Text.HasLines ls input.toList →
      (∃ replies, List.Forall₂ Replies ls replies ∧
        transcript input = "> " ++ String.join (replies.map fun reply => reply.elim "" (· ++ "\n") ++ "> ")) ∧
      (Text.pieces '\n' (transcript input).toList).length =
        (ls.filter fun line => Text.trim line ≠ []).length + 1 ∧
      transcript (String.ofList (Text.withCarriageReturns input.toList)) = transcript input ∧
      ∀ ls' input', List.Forall₂ Text.Padded ls ls' → Text.HasLines ls' (String.toList input') →
        transcript input' = transcript input := by
  refine ⟨Text.exists_hasLines input.toList, fun ls hls => ?_⟩
  have hreplies : List.Forall₂ Replies ls (answers initial ls) := forall₂_replies_answers oneLine_initial hls.not_mem
  refine ⟨⟨_, hreplies, ?_⟩, ?_, ?_, fun ls' input' hpadded hls' => transcript_eq_of_padded hls hls' hpadded⟩
  · rw [transcript_eq hls, List.map_congr_left fun reply _ => showAnswer_eq reply]
    rfl
  · have hprompt : prompt.toList.count '\n' = 0 := by decide
    rw [Text.length_pieces, transcript_eq hls, String.toList_append, List.count_append, hprompt,
      count_join_showAnswer hreplies, Nat.zero_add]
  · obtain ⟨ls', hpadded, hls'⟩ := hls.withCarriageReturns
    rw [← String.toList_ofList (l := Text.withCarriageReturns input.toList)] at hls'
    exact transcript_eq_of_padded hls hls' hpadded

/-- Two of three lines are answered, whether the blank one has one blank or two. -/
theorem transcript_of_hasLines_blank :
    Text.HasLines ["$".toList, " ".toList, "x".toList] "$\r\n \nx".toList ∧
    Text.HasLines ["\t$ ".toList, "  ".toList, "x\u3000".toList] "\t$ \n  \nx\u3000".toList ∧
    (Text.pieces '\n' (transcript "$\r\n \nx").toList).length = 3 ∧
    transcript "\t$ \n  \nx\u3000" = transcript "$\r\n \nx" := by
  have hlines : Text.HasLines ["$".toList, " ".toList, "x".toList] "$\r\n \nx".toList :=
    @Text.HasLines.carriageReturn "$".toList _ _ (by decide)
      (@Text.HasLines.lineFeed " ".toList _ _ (by decide) (by decide) (.last (by decide) (by decide)))
  have hlines' : Text.HasLines ["\t$ ".toList, "  ".toList, "x\u3000".toList] "\t$ \n  \nx\u3000".toList :=
    @Text.HasLines.lineFeed "\t$ ".toList _ _ (by decide) (by decide)
      (@Text.HasLines.lineFeed "  ".toList _ _ (by decide) (by decide) (.last (by decide) (by decide)))
  have hnone : ∀ c ∈ ([] : List Char), Text.isBlank c = true := List.forall_mem_nil _
  have hone : ∀ c : Char, Text.isBlank c = true → ∀ d ∈ [c], Text.isBlank d = true :=
    fun _ hc => List.forall_mem_singleton.2 hc
  have hpadded : List.Forall₂ Text.Padded ["$".toList, " ".toList, "x".toList]
      ["\t$ ".toList, "  ".toList, "x\u3000".toList] :=
    .cons ⟨['\t'], [' '], hone '\t' rfl, hone ' ' rfl, rfl⟩
      (.cons ⟨[' '], [], hone ' ' rfl, hnone, rfl⟩ (.cons ⟨[], ['\u3000'], hnone, hone '\u3000' rfl, rfl⟩ .nil))
  obtain ⟨-, hcount, -, hsame⟩ := (transcript_of_hasLines "$\r\n \nx").2 _ hlines
  exact ⟨hlines, hlines', hcount.trans (by decide), hsame _ _ hpadded hlines'⟩

end Console

end Calculator
