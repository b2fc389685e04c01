import JsonTemplate.Proofs.Execution.Step
import JsonTemplate.Proofs.Template.RoundTrip

namespace JsonTemplate

open JsonTemplate.Text

namespace Piece

def isComment : Piece → Bool
  | text _ _ => false
  | tag _ _ _ => false
  | comment _ _ => true
  | openComment _ _ _ => true

def passed : Piece → List Char
  | text _ content => content
  | tag _ _ content => inBraces content
  | comment _ _ => []
  | openComment _ _ _ => []

def inert : Piece → Position × Leaf
  | text place content => (place, .text (String.ofList content))
  | tag _ mark content => (mark, .text (String.ofList (inBraces content)))
  | comment place content => (place, .comment (String.ofList content) true)
  | openComment place _ content => (place, .comment (String.ofList content) true)

theorem passed_eq {piece : Piece} (h : piece.isComment = false) : piece.passed = piece.source := by
  cases piece with
  | text => rfl
  | tag => rfl
  | comment => cases h
  | openComment => cases h

theorem isComment_source {piece : Piece} (h : piece.isComment = true) :
    commentStart <+: piece.source := by
  cases piece with
  | text => cases h
  | tag => cases h
  | comment place content => exact ⟨content ++ commentEnd, by simp [source]⟩
  | openComment place mark content => exact ⟨content, rfl⟩

theorem passed_length_le (piece : Piece) : piece.passed.length ≤ piece.source.length := by
  cases piece <;> simp [passed, source]

theorem flatMap_passed_length_le (pieces : List Piece) :
    (pieces.flatMap passed).length ≤ (pieces.flatMap source).length := by
  induction pieces with
  | nil => exact Nat.le_refl 0
  | cons piece rest ih =>
    have one := passed_length_le piece
    simp only [List.flatMap_cons, List.length_append]
    omega

theorem passed_whole_iff (pieces : List Piece) :
    pieces.flatMap passed = pieces.flatMap source ↔ ∀ piece ∈ pieces, piece.isComment = false := by
  constructor
  · intro same
    induction pieces with
    | nil => simp
    | cons piece rest ih =>
      have one := passed_length_le piece
      have others := flatMap_passed_length_le rest
      have lengths := congrArg List.length same
      simp only [List.flatMap_cons, List.length_append] at lengths
      have parts := List.append_inj same (by omega)
      refine List.forall_mem_cons.mpr ⟨?_, ih parts.2⟩
      cases piece with
      | text => rfl
      | tag => rfl
      | comment => simp [passed, source, commentStart] at parts
      | openComment => simp [passed, source, commentStart] at parts
  · intro none
    exact List.flatMap_congr fun piece member => passed_eq (none piece member)

def Mode.Comments : Mode → List Char → Prop
  | .outside _, rest => commentStart <:+: rest
  | .inside _ _, _ => True

theorem scan_comments (mark here : Position) (mode : Mode) (rest : List Char)
    (h : mode.Comments rest) : ∃ piece ∈ (scan mark here mode rest).1, piece.isComment = true := by
  fun_induction scan mark here mode rest with
  | case1 mark here p => simp [Mode.Comments, commentStart] at h
  | case2 mark here place content => exact ⟨_, List.mem_singleton_self _, rfl⟩
  | case3 mark here p rest pieces stop scanned ih =>
    rw [scanned] at ih
    obtain ⟨piece, member, found⟩ := ih trivial
    exact ⟨piece, List.mem_append_right _ member, found⟩
  | case4 mark here place content rest after pieces stop scanned ih =>
    exact ⟨_, List.mem_cons_self, rfl⟩
  | case5 mark here p rest single ih =>
    refine ih ((List.infix_cons_iff.mp h).resolve_left fun starts => ?_)
    obtain ⟨more, same⟩ := (List.prefix_cons_inj '{').mp starts
    exact single more rfl same.symm
  | case6 mark here p rest pieces stop _ _ after scanned ih =>
    rw [scanned] at ih
    have later := (List.infix_cons_iff.mp h).resolve_left (by simp [commentStart])
    obtain ⟨piece, member, found⟩ := ih later
    exact ⟨piece, List.mem_append_right _ member, found⟩
  | case7 mark here p c rest _ left _ ih =>
    refine ih ((List.infix_cons_iff.mp h).resolve_left ?_)
    simp [commentStart, Ne.symm left]
  | case8 mark here place content c rest _ ih => exact ih trivial

theorem ofSource_comments (text : List Char) :
    (∃ piece ∈ (ofSource text).1, piece.isComment = true) ↔ commentStart <:+: text := by
  constructor
  · rintro ⟨piece, member, found⟩
    obtain ⟨front, back, parts⟩ := List.append_of_mem member
    obtain ⟨more, written⟩ := isComment_source found
    have whole := ofSource_whole text
    rw [parts, List.flatMap_append, List.flatMap_cons, ← written] at whole
    exact ⟨front.flatMap source, more ++ back.flatMap source, by simp [← whole]⟩
  · exact scan_comments .start .start (.outside .empty) text

end Piece

namespace Event

variable {rules : Tag.Rules}

theorem ofPiece_inert (on : rules.preprocess = true) {piece : Piece}
    (ends : ∀ place mark content, piece ≠ .openComment place mark content)
    (other : ∀ place mark content, piece = .tag place mark content → content.head? ≠ some '^') :
    ofPiece rules piece = [emit ⟨piece.inert.1, .leaf piece.inert.2⟩] := by
  cases piece with
  | text => rfl
  | comment => rfl
  | openComment place mark content => exact absurd rfl (ends place mark content)
  | tag place mark content =>
    have plain : Tag.read rules place content = ⟨[], .plain⟩ := by
      rw [Tag.read.eq_2, if_pos on]
      rintro body rfl
      exact other place mark _ rfl rfl
    rw [ofPiece, plain]
    rfl

theorem noCaret_of_source {source content : List Char} {place mark : Position}
    (noCaret : ¬['{', '^'] <:+: source)
    (member : Piece.tag place mark content ∈ (Piece.ofSource source).1) :
    content.head? ≠ some '^' := by
  intro starts
  obtain ⟨front, back, parts⟩ := List.append_of_mem member
  obtain ⟨rest, rfl⟩ := List.head?_eq_some_iff.mp starts
  have whole := Piece.ofSource_whole source
  rw [parts, List.flatMap_append, List.flatMap_cons] at whole
  refine noCaret ⟨front.flatMap Piece.source, rest ++ ['}'] ++ back.flatMap Piece.source, ?_⟩
  rw [← whole]
  simp [Piece.source, inBraces]

end Event

namespace Assembly

theorem feed_leaves (leaves : List (Position × Leaf)) (stop : Position) (a : Assembly)
    (flat : a.stack.blocks = []) (going : a.eof = none) :
    ∃ s, a.feed (leaves.map (fun l => ⟨l.1, .leaf l.2⟩) ++ [⟨stop, .eof⟩]) = (s, none) ∧
      s.finish.body = a.stack.root.reverse ++ leaves.map fun l => .leaf l.1 l.2 := by
  obtain ⟨⟨blocks, root⟩, lenient, problems, count, eof⟩ := a
  cases flat
  cases going
  induction leaves generalizing root count with
  | nil => exact ⟨_, rfl, (List.append_nil _).symm⟩
  | cons l rest ih =>
    obtain ⟨s, fed, body⟩ := ih (count + 1) (.leaf l.1 l.2 :: root)
    exact ⟨s, fed, by simp [body]⟩

end Assembly

namespace Step

variable (c : Catalog) (nested : Nested)

theorem write_empty (ctx : Context) : ctx.write "" = ctx := by simp [Context.write]

theorem write_write (ctx : Context) (first second : String) :
    (ctx.write first).write second = ctx.write (first ++ second) := by
  simp [Context.write, String.append_assoc]

theorem runLeaf_inert (piece : Piece) (ctx : Context) :
    runLeaf c nested piece.inert.2 ctx = (.ok (), ctx.write (String.ofList piece.passed)) := by
  cases piece with
  | text => rfl
  | tag => rfl
  | comment => exact congrArg (Prod.mk _) (write_empty ctx).symm
  | openComment => exact congrArg (Prod.mk _) (write_empty ctx).symm

theorem runTrees_inert (pieces : List Piece) (ctx : Context) (unlimited : ctx.limiter = none) :
    runTrees c nested (pieces.map fun piece => .leaf piece.inert.1 piece.inert.2) ctx =
      (.ok (), ctx.write (String.ofList (pieces.flatMap Piece.passed))) := by
  induction pieces generalizing ctx with
  | nil => exact congrArg (Prod.mk _) (write_empty ctx).symm
  | cons piece rest ih =>
    have first : runTree c nested (.leaf piece.inert.1 piece.inert.2) ctx =
        (.ok (), ctx.write (String.ofList piece.passed)) := by
      have counted : count { ctx with place := piece.inert.1 } =
          (.ok (), { ctx with place := piece.inert.1 }) := count_none unlimited
      exact instruction_ok ((bind_ok counted).trans (runLeaf_inert c nested piece _))
    have later := ih (ctx.write (String.ofList piece.passed)) unlimited
    rw [List.map_cons, runTrees, bind_ok first, later, write_write, ← String.ofList_append]
    rfl

end Step

namespace Compiled

theorem compile_inert (c : Catalog) (preprocess : Bool) (expr : ExprOptions) {source : List Char}
    (inert : ∀ piece ∈ (Piece.ofSource source).1,
      Event.ofPiece ⟨c.vocabulary, expr, preprocess⟩ piece =
        [.emit ⟨piece.inert.1, .leaf piece.inert.2⟩]) :
    ∃ compiled, compile c.vocabulary ⟨false, preprocess, expr⟩ source = .ok compiled ∧
      ∀ options node, (Context.start options none node).run c compiled.template =
        (.ok (), (Context.start options none node).write
          (String.ofList ((Piece.ofSource source).1.flatMap Piece.passed))) := by
  let pieces := (Piece.ofSource source).1
  let leaves := pieces.map Piece.inert
  let stop := (Piece.ofSource source).2
  let items : List Instruction := leaves.map fun l => ⟨l.1, .leaf l.2⟩
  have read : Event.ofSource ⟨c.vocabulary, expr, preprocess⟩ source =
      (items ++ [Instruction.mk stop .eof]).map Event.emit := by
    have each : pieces.flatMap (Event.ofPiece ⟨c.vocabulary, expr, preprocess⟩) =
        pieces.flatMap fun piece => [Event.emit ⟨piece.inert.1, .leaf piece.inert.2⟩] :=
      List.flatMap_congr inert
    change pieces.flatMap (Event.ofPiece ⟨c.vocabulary, expr, preprocess⟩) ++
      [Event.emit ⟨stop, .eof⟩] = _
    rw [each, ← List.map_eq_flatMap]
    simp [items, leaves]
  obtain ⟨s, fed, body⟩ := Assembly.feed_leaves leaves stop (.start false) rfl rfl
  refine ⟨⟨s.finish, [], s.count⟩, ?_, fun options node => ?_⟩
  · have run := feedStrict_emits fed
    rw [← read] at run
    exact congrArg (Except.map _) run
  · have trees : s.finish.body =
        pieces.map fun piece => .leaf piece.inert.1 piece.inert.2 := by
      simp [body, leaves, Assembly.start, Stack.empty]
    have whole : Step.runBody c s.finish.body (Context.start options none node) =
        (.ok (), (Context.start options none node).write
          (String.ofList (pieces.flatMap Piece.passed))) := by
      rw [trees]
      exact Step.instruction_ok ((Step.bind_ok (Step.count_none rfl)).trans
        (Step.runTrees_inert c _ pieces _ rfl))
    rw [Context.run_eq_conclude, whole]
    rfl

theorem compile_preprocessed (c : Catalog) (expr : ExprOptions) {source : List Char}
    (noCaret : ¬['{', '^'] <:+: source)
    (ends : ∀ place mark content, Piece.openComment place mark content ∉
      (Piece.ofSource source).1) :
    ∃ compiled, compile c.vocabulary ⟨false, true, expr⟩ source = .ok compiled ∧
      ∀ options node, (Context.start options none node).run c compiled.template =
        (.ok (), (Context.start options none node).write
          (String.ofList ((Piece.ofSource source).1.flatMap Piece.passed))) := by
  refine compile_inert c true expr fun piece member => Event.ofPiece_inert rfl ?_ ?_
  · rintro place mark content rfl
    exact ends place mark content member
  · rintro place mark content rfl
    exact Event.noCaret_of_source noCaret member

/-- A source without tags for the preprocessor is passed through unchanged exactly when no comment
over several lines starts in it. -/
theorem preprocess_passes_iff (c : Catalog) (expr : ExprOptions) (source : List Char)
    (noCaret : ¬['{', '^'] <:+: source) :
    (∃ compiled, compile c.vocabulary ⟨false, true, expr⟩ source = .ok compiled ∧
      ∀ options node, ∃ after,
        (Context.start options none node).run c compiled.template = (.ok (), after) ∧
          after.output = String.ofList source ∧ after.problems = []) ↔
      ¬Piece.commentStart <:+: source := by
  rw [← Piece.ofSource_comments]
  have whole := Piece.passed_whole_iff (Piece.ofSource source).1
  rw [Piece.ofSource_whole] at whole
  constructor
  · rintro ⟨compiled, found, runs⟩ ⟨piece, member, comment⟩
    obtain ⟨again, foundAgain, runsAgain⟩ := compile_preprocessed c expr noCaret (ends_of_ok found)
    cases found.symm.trans foundAgain
    obtain ⟨after, ran, output, -⟩ := runs .strict .missing
    rw [runsAgain] at ran
    cases ran
    have same : (Piece.ofSource source).1.flatMap Piece.passed = source :=
      String.ofList_injective (String.empty_append.symm.trans output)
    rw [whole.mp same piece member] at comment
    cases comment
  · intro none
    have clean : ∀ piece ∈ (Piece.ofSource source).1, piece.isComment = false :=
      fun piece member => Bool.eq_false_iff.mpr fun found => none ⟨piece, member, found⟩
    obtain ⟨compiled, found, runs⟩ := compile_preprocessed c expr noCaret
      fun place mark content member => nomatch clean _ member
    refine ⟨compiled, found, fun options node => ⟨_, runs options node, ?_, rfl⟩⟩
    rw [whole.mpr clean]
    exact String.empty_append

theorem preprocess_passes_tags :
    ¬['{', '^'] <:+: "\x7b.end\x7d \x7bx|y\x7d".toList ∧
      ∃ compiled, compile Catalog.core.vocabulary ⟨false, true, .unlimited⟩
          "\x7b.end\x7d \x7bx|y\x7d".toList = .ok compiled ∧
        ∀ options node, ∃ after,
          (Context.start options none node).run .core compiled.template = (.ok (), after) ∧
            after.output = String.ofList "\x7b.end\x7d \x7bx|y\x7d".toList ∧
              after.problems = [] := by
  have noCaret : ¬['{', '^'] <:+: "\x7b.end\x7d \x7bx|y\x7d".toList := by decide +kernel
  have noComment : ¬Piece.commentStart <:+: "\x7b.end\x7d \x7bx|y\x7d".toList := by
    decide +kernel
  exact ⟨noCaret, (preprocess_passes_iff .core .unlimited _ noCaret).mpr noComment⟩

/-- A comment over several lines is dropped although nothing in the source is for the preprocessor.
-/
theorem preprocess_drops_comment :
    ¬['{', '^'] <:+: "a\x7b## c ##\x7db".toList ∧
      ∃ compiled, compile Catalog.core.vocabulary ⟨false, true, .unlimited⟩
          "a\x7b## c ##\x7db".toList = .ok compiled ∧
        ∃ after, (Context.start .strict none .missing).run .core compiled.template =
            (.ok (), after) ∧
          after.output = "ab" := by
  have noCaret : ¬['{', '^'] <:+: "a\x7b## c ##\x7db".toList := by decide +kernel
  have cut : (Piece.ofSource "a\x7b## c ##\x7db".toList).1.map Piece.erase =
      [.text .nowhere ['a'], .comment .nowhere [' ', 'c', ' '], .text .nowhere ['b']] := by
    decide +kernel
  have ends (place mark : Position) (content : List Char) :
      Piece.openComment place mark content ∉ (Piece.ofSource "a\x7b## c ##\x7db".toList).1 := by
    intro member
    have erased := List.mem_map_of_mem (f := Piece.erase) member
    rw [cut] at erased
    simp [Piece.erase] at erased
  obtain ⟨compiled, found, runs⟩ := compile_preprocessed .core .unlimited noCaret ends
  exact ⟨noCaret, compiled, found, _, runs .strict .missing, by decide +kernel⟩

end Compiled

end JsonTemplate
