import JsonTemplate.Proofs.Template.Operands
import JsonTemplate.Proofs.Text.Position

namespace JsonTemplate

open JsonTemplate.Text JsonTemplate.Pattern JsonTemplate.Pattern.Recognizer

namespace Tag

/-- The first formatter of a text that offends against the grammar, and the problem that is: it has
no name, an unknown one, no arguments where it demands some, or arguments that it refuses. The text
starts with a pipe at a place. -/
inductive Offends (rules : Rules) : Position → List Char → Diagnostic → Prop where
  | malformed {place : Position} {rest : List Char} :
      (∀ word more, IsWord word → rest ≠ word ++ more) →
      Offends rules place ('|' :: rest)
        ((Diagnostic.compile .formatterInvalid (place.forward 1)).withName (String.ofList rest))
  | unknown {place : Position} {word rest : List Char} :
      IsWord word → Stops isWordChar rest →
      rules.vocabulary.formatter? (String.ofList word) = none →
      Offends rules place ('|' :: (word ++ rest))
        ((Diagnostic.compile .formatterUnknown (place.forward 1)).withName (String.ofList word))
  | lacking {place : Position} {word rest : List Char} {s : Signature} :
      IsWord word → endsVars rest →
      rules.vocabulary.formatter? (String.ofList word) = some s → s.requiresArgs = true →
      Offends rules place ('|' :: (word ++ rest))
        ((Diagnostic.compile .formatterNeedsArgs (place.forward 1)).withData (String.ofList word))
  | rejecting {place : Position} {word raw rest : List Char} {s : Signature} {objection : String} :
      IsWord word → Stops isWordChar raw → (∀ c ∈ raw, isArgumentChar c = true) →
      endsVars rest → rules.vocabulary.formatter? (String.ofList word) = some s →
      (s.requiresArgs = true → raw ≠ []) → s.check (Arguments.parse raw) = .error objection →
      Offends rules place ('|' :: (word ++ (raw ++ rest)))
        (((Diagnostic.compile .formatterArgsInvalid
          (place.forward (1 + if raw = [] then 0 else word.length))).withName
            (String.ofList word)).withData objection)
  | later {place : Position} {call : Call} {raw rest : List Char} {d : Diagnostic} :
      FormatterCall rules call raw →
      Offends rules (place.forward (1 + call.name.toList.length + raw.length)) rest d →
      Offends rules place ('|' :: (call.name.toList ++ (raw ++ rest))) d

section

variable {rules : Rules} {place here : Position} {anchor text : List Char} {d : Diagnostic}
  {fuel : Nat}

theorem Offends.starts (h : Offends rules here text d) : ∃ more, text = '|' :: more := by
  cases h <;> exact ⟨_, rfl⟩

theorem forward_suffix (place : Position) (front back : List Char) {length : Nat}
    (inside : (front ++ back).length ≤ length) :
    (place.forward (length - (front ++ back).length)).forward front.length =
      place.forward (length - back.length) := by
  simp only [List.length_append] at inside ⊢
  simp only [Position.forward, Position.mk.injEq, true_and]
  omega

/-- A text at the end of another one, at a place that is counted from there. -/
structure Anchored (place : Position) (anchor : List Char) (here : Position) (text : List Char) :
    Prop where
  inside : text.length ≤ anchor.length
  placed : here = place.forward (anchor.length - text.length)

namespace Anchored

variable {back : List Char}

theorem behind (front : List Char) (h : Anchored place anchor here (front ++ back)) :
    Anchored place anchor (here.forward front.length) back where
  inside := by
    have inside := h.inside
    rw [List.length_append] at inside
    omega
  placed := by
    rw [h.placed]
    exact forward_suffix place front back h.inside

theorem afterPipe (h : Anchored place anchor here ('|' :: back)) :
    here.forward 1 = place.forward (anchor.length - back.length) :=
  (h.behind ['|']).placed

end Anchored

theorem readFormatters_malformed {rest : List Char}
    (nameless : ∀ word more, IsWord word → rest ≠ word ++ more) :
    readFormatters rules place anchor (fuel + 1) ('|' :: rest) =
      .error (refuse ((Diagnostic.compile .formatterInvalid
        (place.forward (anchor.length - rest.length))).withName (String.ofList rest))) := by
  have unnamed : wordPattern.split? rest = none := by
    cases taken : wordPattern.split? rest with
    | none => rfl
    | some result =>
      exact absurd (split?_append taken).symm (nameless _ _ (takes_wordPattern.sound taken).1)
  rw [readFormatters]
  simp only [unnamed]

theorem readFormatters_unknown {word rest : List Char} (isWord : IsWord word)
    (stop : Stops isWordChar rest)
    (unknown : rules.vocabulary.formatter? (String.ofList word) = none) :
    readFormatters rules place anchor (fuel + 1) ('|' :: (word ++ rest)) =
      .error (refuse ((Diagnostic.compile .formatterUnknown
        (place.forward (anchor.length - (word ++ rest).length))).withName
          (String.ofList word))) := by
  rw [readFormatters]
  simp only [takes_wordPattern.complete isWord stop, unknown]

section

variable {word rest : List Char} {s : Signature} (isWord : IsWord word) (ends : endsVars rest)
  (known : rules.vocabulary.formatter? (String.ofList word) = some s)

include isWord ends known

theorem readFormatters_lacking (asks : s.requiresArgs = true) :
    readFormatters rules place anchor (fuel + 1) ('|' :: (word ++ rest)) =
      .error (refuse ((Diagnostic.compile .formatterNeedsArgs
        (place.forward (anchor.length - (word ++ rest).length))).withData
          (String.ofList word))) := by
  have named : wordPattern.split? (word ++ rest) = some (word, rest) :=
    split?_word isWord .nil ends
  have none : (readArgs? rest).isNone = true :=
    (readArgs_source (List.forall_mem_nil _) ends).2.mpr rfl
  have empty : readArgs? rest = Option.none := Option.isNone_iff_eq_none.mp none
  rw [readFormatters]
  simp only [named, known, asks, empty, Option.isNone_none, and_self, if_true,
    Option.isSome_none, Bool.false_eq_true, if_false]

theorem readFormatters_rejecting {raw : List Char} {objection : String}
    (stop : Stops isWordChar raw) (run : ∀ c ∈ raw, isArgumentChar c = true)
    (given : s.requiresArgs = true → raw ≠ [])
    (objects : s.check (Arguments.parse raw) = .error objection) :
    readFormatters rules place anchor (fuel + 1) ('|' :: (word ++ (raw ++ rest))) =
      .error (refuse (((Diagnostic.compile .formatterArgsInvalid (place.forward
        (anchor.length - (if raw = [] then word ++ (raw ++ rest) else raw ++ rest).length))).withName
          (String.ofList word)).withData objection)) := by
  have named := split?_word isWord stop ends
  obtain ⟨taken, none⟩ := readArgs_source run ends
  have given : ¬(s.requiresArgs = true ∧ (readArgs? (raw ++ rest)).isNone = true) := by
    rintro ⟨asks, empty⟩
    exact given asks (none.mp empty)
  have start : (if (readArgs? (raw ++ rest)).isSome then raw ++ rest
      else word ++ (raw ++ rest)) = if raw = [] then word ++ (raw ++ rest) else raw ++ rest := by
    by_cases empty : raw = []
    · rw [Option.isNone_iff_eq_none.mp (none.mpr empty), if_pos empty]
      rfl
    · have present : (readArgs? (raw ++ rest)).isSome = true := by
        rw [← Option.not_isNone, Bool.not_eq_true', Bool.eq_false_iff]
        exact mt none.mp empty
      rw [if_neg empty, if_pos present]
  rw [readFormatters, ← start]
  simp only [named, known, given, if_false, taken, objects]

end

theorem Offends.reads (h : Offends rules here text d) (enough : text.length ≤ fuel)
    (anchored : Anchored place anchor here text) :
    readFormatters rules place anchor (fuel + 1) text = .error (refuse d) := by
  induction h generalizing fuel with
  | malformed nameless => rw [readFormatters_malformed nameless, anchored.afterPipe]
  | unknown isWord stop unknown =>
    rw [readFormatters_unknown isWord stop unknown, anchored.afterPipe]
  | lacking isWord ends known asks =>
    rw [readFormatters_lacking isWord ends known asks, anchored.afterPipe]
  | @rejecting here word raw rest s objection isWord stop run ends known given objects =>
    rw [readFormatters_rejecting isWord ends known stop run given objects]
    by_cases empty : raw = []
    · rw [if_pos empty, if_pos empty, anchored.afterPipe]
    · have behind : here.forward (1 + word.length) =
          place.forward (anchor.length - (raw ++ rest).length) := by
        rw [Nat.add_comm]
        exact (anchored.behind ('|' :: word)).placed
      rw [if_neg empty, if_neg empty, behind]
  | @later here call raw rest d first h ih =>
    cases fuel with
    | zero => cases enough
    | succ fuel =>
      simp only [List.length_cons, List.length_append] at enough
      have whole : '|' :: (call.name.toList ++ (raw ++ rest)) =
          ('|' :: call.name.toList ++ raw) ++ rest := by
        simp only [List.append_assoc, List.cons_append]
      have counted : ('|' :: call.name.toList ++ raw).length =
          1 + call.name.toList.length + raw.length := by
        simp only [List.length_append, List.length_cons]
        omega
      have behind := (whole ▸ anchored).behind _
      rw [counted] at behind
      rw [first.reads (fuel + 1) (h.starts.elim fun more same => .inr ⟨more, same⟩),
        ih (by omega) behind]
      rfl

theorem eq_pipe_of_isArgumentChar {c : Char} (outside : isArgumentChar c = false) (other : c ≠ '}') :
    c = '|' := by
  have among : c ∈ ['|', '}'] := by
    rwa [isArgumentChar, Bool.not_eq_false', List.contains_iff_mem] at outside
  exact (List.mem_cons.mp among).resolve_right fun last => other (List.mem_singleton.mp last)

theorem exists_arguments (braceless : '}' ∉ text) :
    ∃ raw rest, text = raw ++ rest ∧ (∀ c ∈ raw, isArgumentChar c = true) ∧ endsVars rest := by
  refine ⟨_, _, (List.takeWhile_append_dropWhile (p := isArgumentChar)).symm,
    List.all_eq_true.mp List.all_takeWhile, ?_⟩
  have stop : Stops isArgumentChar (text.dropWhile isArgumentChar) := stops_dropWhile text
  have kept := List.dropWhile_suffix isArgumentChar (l := text)
  cases left : text.dropWhile isArgumentChar with
  | nil => exact .inl rfl
  | cons c more =>
    rw [left] at stop kept
    have other : c ≠ '}' := fun same => braceless (same ▸ kept.subset List.mem_cons_self)
    exact .inr ⟨more, by rw [eq_pipe_of_isArgumentChar (stop c rfl) other]⟩

theorem chain_or_offends (rules : Rules) (ends : endsVars text) (braceless : '}' ∉ text)
    (place : Position) :
    (∃ calls, FormatterChain rules calls text) ∨ ∃ d, Offends rules place text d := by
  induction size : text.length using Nat.strongRecOn generalizing text place with
  | ind length ih =>
    rcases ends with rfl | ⟨rest, rfl⟩
    · exact .inl ⟨[], .nil⟩
    have braceless := List.not_mem_of_not_mem_cons braceless
    cases taken : wordPattern.split? rest with
    | none =>
      refine .inr ⟨_, .malformed ?_⟩
      rintro (_ | ⟨c, word⟩) more isWord rfl
      · cases isWord
      · have letter : isLetter c = true := isWord.1
        rw [split?_wordPattern] at taken
        simp [letter] at taken
    | some result =>
      obtain ⟨word, afterName⟩ := result
      obtain ⟨isWord, stop⟩ := takes_wordPattern.sound taken
      obtain rfl := split?_append taken
      obtain ⟨raw, left, rfl, run, ends⟩ :=
        exists_arguments fun member => braceless (List.mem_append_right word member)
      have stop : Stops isWordChar raw := stop.front
      cases known : rules.vocabulary.formatter? (String.ofList word) with
      | none => exact .inr ⟨_, .unknown isWord ‹_› known⟩
      | some s =>
        by_cases lacks : s.requiresArgs = true ∧ raw = []
        · obtain ⟨asks, rfl⟩ := lacks
          exact .inr ⟨_, .lacking isWord ends known asks⟩
        have given (asks : s.requiresArgs = true) : raw ≠ [] := fun empty => lacks ⟨asks, empty⟩
        cases check : s.check (Arguments.parse raw) with
        | error objection =>
          exact .inr ⟨_, .rejecting isWord stop run ends known given check⟩
        | ok _ =>
          let call : Call := ⟨String.ofList word, (Arguments.parse raw).accept⟩
          have first : FormatterCall rules call raw :=
            { name := by rwa [String.toList_ofList]
              known := ⟨s, known, rfl, check⟩
              stops := stop
              inside := run
              given := fun other same asks => given (Option.some.inj (known.symm.trans same) ▸ asks) }
          have named : call.name.toList = word := String.toList_ofList
          have inside : '}' ∉ left := fun member =>
            braceless (List.mem_append_right word (List.mem_append_right raw member))
          have shorter : left.length < length := by
            simp only [← size, List.length_cons, List.length_append]
            omega
          rcases ih left.length shorter ends inside
              (place.forward (1 + call.name.toList.length + raw.length)) rfl with
            ⟨calls, chain⟩ | ⟨d, offends⟩
          · have whole := FormatterChain.cons first chain
            rw [named] at whole
            exact .inl ⟨_, whole⟩
          · have whole := Offends.later first offends
            rw [named] at whole
            exact .inr ⟨_, whole⟩

end

end Tag

end JsonTemplate
