import JsonTemplate.Proofs.Pattern.Words
import JsonTemplate.Template.Tag

namespace JsonTemplate

open JsonTemplate.Text JsonTemplate.Pattern JsonTemplate.Pattern.Recognizer

def Diagnostic.ofCompile (d : Diagnostic) : Bool :=
  match d.fault with
  | .compile _ => true
  | .run _ => false

def CompileFault.ofFormatter : CompileFault → Bool
  | .formatterInvalid | .formatterUnknown | .formatterNeedsArgs | .formatterArgsInvalid => true
  | _ => false

def Diagnostic.ofFormatter (d : Diagnostic) : Bool :=
  match d.fault with
  | .compile fault => fault.ofFormatter
  | .run _ => false

def Op.inTag : Op → Bool
  | .leaf (.text _) => false
  | .leaf (.comment _ multiline) => !multiline
  | .eof => false
  | _ => true

def Op.predicates : Op → List Call
  | opening (.predicate call) => [call]
  | opening (.ifPredicate call) => [call]
  | or (some call) => [call]
  | _ => []

def Op.Agreed (op : Op) : Prop := ∀ call ∈ op.predicates, call.args.accepted = true

theorem Op.agreed_of_predicates {op : Op} (none : op.predicates = []) : op.Agreed := by
  simp [Agreed, none]

namespace Tag

theorem Keyword.word_of_bind {word : String} (h : Keyword.ofWord? word = some .bind) :
    word = ".var" := by
  unfold Keyword.ofWord? at h
  split at h <;> first | rfl | cases h

/-- What holds of the ways to read a tag of a place: it is an instruction, it is refused with a
problem, or it is an instruction in spite of one. No such problem is with a formatter. -/
structure Covers (place : Position) (P : TagReading → Prop) : Prop where
  accept {op : Op} : op.inTag → op.Agreed → P (accept op)
  refuse {d : Diagnostic} : d.place = place → d.ofCompile → d.ofFormatter = false → P (refuse d)
  doubt {d : Diagnostic} {op : Op} :
    d.place = place → d.ofCompile → d.ofFormatter = false → op.inTag → P ⟨[d], .instruction op⟩

namespace Covers

variable {place : Position} {P : TagReading → Prop} (covers : Covers place P)

include covers

theorem refuseAt {fault : CompileFault} (other : fault.ofFormatter = false) (rest : List Char) :
    P (refuseAt place fault rest) := covers.refuse rfl rfl other

theorem refuseIn {fault : CompileFault} (other : fault.ofFormatter = false) (keyword : Keyword)
    (rest : List Char) : P (refuseIn place fault keyword rest) := covers.refuse rfl rfl other

theorem acceptPlain {op : Op} (inTag : op.inTag) (none : op.predicates = []) : P (Tag.accept op) :=
  covers.accept inTag (Op.agreed_of_predicates none)

theorem finish (keyword : Keyword) {op : Op} (inTag : op.inTag) (none : op.predicates = [])
    (rest : List Char) : P (finish place keyword op rest) := by
  unfold Tag.finish
  split
  · exact covers.acceptPlain inTag none
  · exact covers.refuseIn rfl _ _

theorem afterSpace (text : List Char) {next : List Char → TagReading} (h : ∀ rest, P (next rest)) :
    P (afterSpace place text next) := by
  unfold Tag.afterSpace
  split
  · exact h _
  · exact covers.refuseAt rfl _

theorem afterBlank (text : List Char) {next : List Char → TagReading} (h : ∀ rest, P (next rest)) :
    P (afterBlank place text next) := by
  unfold Tag.afterBlank
  split
  · exact h _
  · exact covers.refuseAt rfl _

theorem afterLocal {fault : CompileFault} (other : fault.ofFormatter = false) (text : List Char)
    {next : String → List Char → TagReading} (h : ∀ name rest, P (next name rest)) :
    P (afterLocal place fault text next) := by
  refine covers.afterSpace text fun body => ?_
  split
  · exact covers.refuseAt other _
  · exact covers.afterSpace _ (h _)

theorem withPredicate (rules : Rules) (name : String) (rest : List Char) {make : Call → Op}
    (inTag : ∀ call, (make call).inTag) (only : ∀ call, (make call).predicates = [call]) :
    P (withPredicate rules place name rest make) := by
  unfold Tag.withPredicate
  split
  · exact covers.doubt rfl rfl rfl (inTag _)
  · split
    · exact covers.refuse rfl rfl rfl
    · dsimp only
      split
      · exact covers.refuse rfl rfl rfl
      · refine covers.accept (inTag _) fun call member => ?_
        rw [only, List.mem_singleton] at member
        rw [member]
        rfl

theorem readIfChain (text : List Char) : P (readIfChain place text) := by
  unfold Tag.readIfChain
  split
  · exact covers.refuse rfl rfl rfl
  · split
    · exact covers.refuseAt rfl _
    · split
      · exact covers.refuse rfl rfl rfl
      · split
        · exact covers.refuse rfl rfl rfl
        · exact covers.acceptPlain rfl rfl

theorem readIf (rules : Rules) (text : List Char) : P (readIf rules place text) := by
  refine covers.afterBlank text fun body => ?_
  split
  · exact covers.withPredicate _ _ _ (fun _ => rfl) fun _ => rfl
  · split
    · dsimp only
      split
      · exact covers.acceptPlain rfl rfl
      · exact covers.refuse rfl rfl rfl
    · exact covers.readIfChain body

theorem readSection (keyword : Keyword) (text : List Char) {make : VarName → Op}
    (inTag : ∀ v, (make v).inTag) (none : ∀ v, (make v).predicates = []) :
    P (readSection place keyword text make) := by
  unfold Tag.readSection
  split
  · exact covers.refuseAt rfl _
  · exact covers.finish _ (inTag _) (none _) _

theorem readEval (rules : Rules) (text : List Char) : P (readEval rules place text) := by
  unfold Tag.readEval
  split
  · exact covers.refuseAt rfl _
  · refine covers.afterBlank text fun content => ?_
    dsimp only
    generalize (if content.head? = some '#' then content.drop 1 else content) = body
    split
    · exact covers.refuseAt rfl _
    · exact covers.acceptPlain rfl rfl

theorem readInclude (text : List Char) : P (readInclude place text) := by
  unfold Tag.readInclude
  split
  · exact covers.refuseAt rfl _
  · dsimp only
    split
    · exact covers.refuseAt rfl _
    · exact covers.acceptPlain rfl rfl

theorem readOr (rules : Rules) (text : List Char) : P (readOr rules place text) := by
  unfold Tag.readOr
  split
  · split
    · exact covers.refuseIn rfl _ _
    · exact covers.withPredicate _ _ _ (fun _ => rfl) fun _ => rfl
  · exact covers.finish _ rfl rfl _

theorem readInstruction (rules : Rules) {keyword : Keyword} (other : keyword ≠ .bind)
    (text : List Char) : P (readInstruction rules place keyword text) := by
  cases keyword with
  | bind => exact absurd rfl other
  | alternates =>
    refine covers.afterSpace text fun body => ?_
    split
    · exact covers.refuseAt rfl _
    · exact covers.finish _ rfl rfl _
  | object =>
    simp only [Tag.readInstruction]
    refine covers.afterLocal rfl text fun name body => ?_
    split
    · exact covers.refuseAt rfl _
    · exact covers.acceptPlain rfl rfl
  | close => exact covers.finish _ rfl rfl _
  | brace left => exact covers.finish _ rfl rfl _
  | blank kind => exact covers.finish _ rfl rfl _
  | eval => exact covers.readEval rules text
  | ifTest => exact covers.readIf rules text
  | includePartial => exact covers.readInclude text
  | inject =>
    simp only [Tag.readInstruction]
    refine covers.afterLocal rfl text fun name body => ?_
    split
    · exact covers.refuseAt rfl _
    · exact covers.acceptPlain rfl rfl
  | macroStart =>
    refine covers.afterSpace text fun body => ?_
    split
    · exact covers.refuse rfl rfl rfl
    · exact covers.finish _ rfl rfl _
  | or => exact covers.readOr rules text
  | repeated =>
    refine covers.afterBlank text fun body => ?_
    split
    · exact covers.refuseAt rfl _
    · exact covers.afterBlank _ fun rest => covers.readSection _ rest (fun _ => rfl) fun _ => rfl
  | sectionOn =>
    exact covers.afterBlank text fun body => covers.readSection _ body (fun _ => rfl) fun _ => rfl

theorem readBind (rules : Rules) (text : List Char)
    (chain : ∀ (name : String) (word body rest : List Char) (vars : List VarName), IsWord word →
      text = ' ' :: ('@' :: word) ++ [' '] ++ body → readVars body = .ok (vars, rest) →
        P (withFormatters rules place text rest fun calls => .leaf (.bind name vars calls))) :
    P (Tag.readInstruction rules place .bind text) := by
  simp only [Tag.readInstruction, Tag.afterLocal, Tag.afterSpace]
  split
  · split
    · exact covers.refuseAt rfl _
    · rename_i name afterName named
      obtain ⟨⟨word, isWord, rfl⟩, -⟩ := takes_localVariable.sound named
      obtain rfl := split?_append named
      split
      · split
        · exact covers.refuseAt rfl _
        · refine chain _ _ _ _ _ isWord ?_ ‹_›
          simp only [List.cons_append, List.append_assoc, List.nil_append]
      · exact covers.refuseAt rfl _
  · exact covers.refuseAt rfl _

theorem readBody (rules : Rules) {anchor text : List Char}
    (output : P (readOutput rules place anchor text))
    (bind : ∀ rest, text = ".var".toList ++ rest → P (Tag.readInstruction rules place .bind rest)) :
    P (readBody rules place anchor text) := by
  unfold Tag.readBody
  split
  · exact covers.acceptPlain rfl rfl
  · split
    · exact output
    · rename_i word rest named
      obtain rfl := split?_append named
      split
      · exact covers.withPredicate _ _ _ (fun _ => rfl) fun _ => rfl
      · split
        · rename_i k known
          by_cases binds : k = .bind
          · subst binds
            refine bind rest ?_
            rw [← Keyword.word_of_bind known, String.toList_ofList]
          · exact covers.readInstruction rules binds _
        · exact covers.refuseAt rfl _

end Covers

end Tag

end JsonTemplate
