import JsonTemplate.Proofs.Template.Cut
import JsonTemplate.Proofs.Template.Operands

namespace JsonTemplate

open JsonTemplate.Text JsonTemplate.Pattern JsonTemplate.Pattern.Recognizer

def Braceless (text : List Char) : Prop := ∀ c ∈ text, c ≠ '{' ∧ c ≠ '}'

instance (text : List Char) : Decidable (Braceless text) :=
  decidable_of_iff (text.all (fun c => c ≠ '{' ∧ c ≠ '}') = true) (by simp [Braceless])

namespace Braceless

variable {text front back : List Char}

theorem nil : Braceless [] := by simp [Braceless]

theorem cons {c : Char} (h : Braceless text) (left : c ≠ '{') (right : c ≠ '}') :
    Braceless (c :: text) := by
  intro d member
  rcases List.mem_cons.mp member with rfl | member
  · exact ⟨left, right⟩
  · exact h d member

theorem append (first : Braceless front) (second : Braceless back) : Braceless (front ++ back) := by
  intro c member
  rcases List.mem_append.mp member with member | member
  · exact first c member
  · exact second c member

theorem of_subset (h : Braceless text) (sub : ∀ c ∈ front, c ∈ text) : Braceless front :=
  fun c member => h c (sub c member)

theorem right (h : Braceless (front ++ back)) : Braceless back :=
  h.of_subset fun _ => List.mem_append_right front

theorem left (h : Braceless (front ++ back)) : Braceless front :=
  h.of_subset fun _ => List.mem_append_left back

theorem tail {c : Char} (h : Braceless (c :: text)) : Braceless text :=
  h.of_subset fun _ => List.mem_cons_of_mem c

theorem of_class {class' : Char → Bool} (noLeft : class' '{' = false) (noRight : class' '}' = false)
    (h : ∀ c ∈ text, class' c = true) : Braceless text := by
  refine fun c member => ⟨?_, ?_⟩
  · rintro rfl
    rw [h _ member] at noLeft
    cases noLeft
  · rintro rfl
    rw [h _ member] at noRight
    cases noRight

theorem of_isWord (h : IsWord text) : Braceless text :=
  of_class (by decide) (by decide) h.isWordChar

theorem of_readable {v : VarName} (h : v.Readable) : Braceless v.text.toList :=
  of_class (by decide) (by decide) h.written.isNameChar

theorem of_split {r : Recognizer} (h : Braceless text)
    (taken : r.split? text = some (front, back)) :
    Braceless front ∧ Braceless back := by
  rw [← split?_append taken] at h
  exact ⟨h.left, h.right⟩

theorem isContent (h : Braceless text) (start : text.head? ≠ some '#') : Piece.IsContent text := by
  refine ⟨fun member => (h _ member).1 rfl, fun member => (h _ member).2 rfl, ?_⟩
  rintro ⟨more, rfl⟩
  exact start rfl

end Braceless

namespace Tag

def Keyword.word : Keyword → String
  | alternates => ".alternates"
  | bind => ".var"
  | object => ".ctx"
  | close => ".end"
  | eval => ".eval"
  | ifTest => ".if"
  | includePartial => ".include"
  | inject => ".inject"
  | macroStart => ".macro"
  | brace left => if left then ".meta-left" else ".meta-right"
  | blank kind => "." ++ kind.keyword
  | or => ".or"
  | repeated => ".repeated"
  | sectionOn => ".section"

theorem Keyword.ofWord?_word (k : Keyword) : ofWord? k.word = some k := by
  cases k with
  | brace left => cases left <;> rfl
  | blank kind => cases kind <;> rfl
  | _ => rfl

def Keyword.letters (k : Keyword) : List Char := k.word.toList.drop 1

theorem Keyword.word_eq (k : Keyword) : k.word.toList = '.' :: k.letters := by
  cases k with
  | brace left => cases left <;> rfl
  | blank kind => cases kind <;> rfl
  | _ => rfl

theorem Keyword.isWord (k : Keyword) : IsWord k.letters := by
  cases k with
  | brace left => cases left <;> decide
  | blank kind => cases kind <;> decide
  | _ => decide

/-- A content of a tag that is read as an instruction wherever the tag stands. -/
structure Spells (rules : Rules) (content : List Char) (op : Op) : Prop where
  isContent : Piece.IsContent content
  noCaret : content.head? ≠ some '^'
  read : ∀ place, readBody rules place content content = accept op

def Respelled (rules : Rules) (op : Op) : Prop :=
  ∃ content, op.source = inBraces content ∧ Spells rules content op.canonical

/-- What is written after the word of an instruction, and that it is read as the instruction. -/
structure Follows (rules : Rules) (k : Keyword) (op : Op) (rest : List Char) : Prop where
  written : op.source = inBraces (k.word.toList ++ rest)
  braceless : Braceless rest
  stops : Stops isKeywordChar rest
  read : ∀ place, readInstruction rules place k rest = accept op.canonical

variable {rules : Rules} {place : Position} {text rest : List Char} {op : Op}

theorem getLast?_word {word : List Char} (h : IsWord word) : ('.' :: word).getLast? ≠ some '?' := by
  intro last
  have member := List.mem_of_getLast? last
  rcases List.mem_cons.mp member with same | member
  · exact absurd same (by decide)
  · exact absurd (h.isWordChar _ member) (by decide)

theorem Follows.respelled {k : Keyword} (h : Follows rules k op rest) : Respelled rules op := by
  have isWord := k.isWord
  refine ⟨_, h.written, ?_⟩
  rw [k.word_eq]
  refine ⟨?_, by simp, fun place => ?_⟩
  · refine Braceless.isContent ?_ (by simp)
    exact ((Braceless.of_isWord isWord).cons (by decide) (by decide)).append h.braceless
  · have named : String.ofList ('.' :: k.letters) = k.word := by
      rw [← k.word_eq, String.ofList_toList]
    rw [List.cons_append, readBody]
    · rw [← List.cons_append, split?_keyword isWord h.stops]
      simp only [getLast?_word isWord, if_false, named, Keyword.ofWord?_word, h.read]
    · simp

theorem afterSpace_read {next : List Char → TagReading}
    (h : afterSpace place text next = accept op) :
    ∃ rest, text = ' ' :: rest ∧ next rest = accept op := by
  unfold afterSpace at h
  split at h
  · exact ⟨_, rfl, h⟩
  · cases h

theorem afterBlank_read {next : List Char → TagReading}
    (h : afterBlank place text next = accept op) :
    ∃ rest, Stops isTagSpace rest ∧ (∀ c ∈ rest, c ∈ text) ∧ next rest = accept op := by
  unfold afterBlank at h
  split at h
  · rename_i blank rest taken
    refine ⟨rest, (takes_whitespace.sound taken).2, fun c member => ?_, h⟩
    rw [← split?_append taken]
    exact List.mem_append_right _ member
  · cases h

theorem afterBlank_source (stop : Stops isTagSpace rest) (next : List Char → TagReading) :
    afterBlank place (' ' :: rest) next = next rest := by
  rw [afterBlank, split?_whitespace stop]

def localSource (word rest : List Char) : List Char := ' ' :: '@' :: (word ++ ' ' :: rest)

theorem afterLocal_read {fault : CompileFault} {next : String → List Char → TagReading}
    (h : afterLocal place fault text next = accept op) :
    ∃ word rest, IsWord word ∧ (∀ c ∈ rest, c ∈ text) ∧
      next (String.ofList ('@' :: word)) rest = accept op := by
  obtain ⟨body, rfl, inner⟩ := afterSpace_read h
  split at inner
  · cases inner
  · rename_i name afterName named
    obtain ⟨rest, rfl, last⟩ := afterSpace_read inner
    obtain ⟨⟨word, isWord, rfl⟩, -⟩ := takes_localVariable.sound named
    refine ⟨word, rest, isWord, fun c member => ?_, last⟩
    rw [← split?_append named]
    simp [member]

theorem afterLocal_source {word : List Char} (isWord : IsWord word) (fault : CompileFault)
    (next : String → List Char → TagReading) :
    afterLocal place fault (localSource word rest) next =
      next (String.ofList ('@' :: word)) rest := by
  have named : localVariable.split? ('@' :: word ++ ' ' :: rest) =
      some ('@' :: word, ' ' :: rest) :=
    takes_localVariable.complete ⟨word, isWord, rfl⟩ (.cons (by decide) _)
  rw [localSource, afterLocal, afterSpace, ← List.cons_append, named]
  rfl

theorem braceless_localSource {word : List Char} (isWord : IsWord word) (h : Braceless rest) :
    Braceless (localSource word rest) := by
  have tail : Braceless (word ++ ' ' :: rest) :=
    (Braceless.of_isWord isWord).append (h.cons (by decide) (by decide))
  exact (tail.cons (by decide) (by decide)).cons (by decide) (by decide)

theorem finish_read {k : Keyword} {other : Op} (h : finish place k other text = accept op) :
    text = [] ∧ op = other := by
  unfold finish at h
  split at h
  · rename_i empty
    exact ⟨List.isEmpty_iff.mp empty, (accept_inj h).symm⟩
  · cases h

theorem finish_nil (k : Keyword) (op : Op) : finish place k op [] = accept op := rfl

theorem follows_word {k : Keyword} {other : Op} (written : other.source = inBraces k.word.toList)
    (same : other.canonical = other)
    (read : ∀ place text, readInstruction rules place k text = finish place k other text)
    (h : readInstruction rules place k text = accept op) : ∃ rest, Follows rules k op rest := by
  rw [read] at h
  obtain ⟨-, rfl⟩ := finish_read h
  refine ⟨[], by rw [List.append_nil, written], .nil, .nil, fun place => ?_⟩
  rw [read, finish_nil, same]

theorem follows_close (h : readInstruction rules place .close text = accept op) :
    ∃ rest, Follows rules .close op rest :=
  follows_word rfl rfl (fun _ _ => rfl) h

theorem follows_brace {left : Bool}
    (h : readInstruction rules place (.brace left) text = accept op) :
    ∃ rest, Follows rules (.brace left) op rest :=
  follows_word (by cases left <;> rfl) rfl (fun _ _ => rfl) h

theorem follows_blank {kind : Blank}
    (h : readInstruction rules place (.blank kind) text = accept op) :
    ∃ rest, Follows rules (.blank kind) op rest :=
  follows_word (by cases kind <;> rfl) rfl (fun _ _ => rfl) h

theorem follows_alternates (h : readInstruction rules place .alternates text = accept op) :
    ∃ rest, Follows rules .alternates op rest := by
  obtain ⟨body, -, inner⟩ := afterSpace_read h
  split at inner
  · cases inner
  · obtain ⟨-, rfl⟩ := finish_read inner
    have braceless : Braceless " with".toList := by decide
    exact ⟨" with".toList, rfl, braceless, .cons (by decide) _, fun place => rfl⟩

theorem follows_macroName {name : List Char} (isPath : IsRun isPathChar name) :
    Follows rules .macroStart (.macroStart (String.ofList name)) (' ' :: name) := by
  refine ⟨?_, ?_, .cons (by decide) _, fun place => ?_⟩
  · have spelled : (String.ofList name).toList = name := String.toList_ofList
    rw [Op.source, macroSource, spelled]
    rfl
  · exact (Braceless.of_class (by decide) (by decide) isPath.2).cons (by decide) (by decide)
  · simp only [readInstruction, afterSpace, takes_path.whole isPath]
    rfl

theorem follows_macroStart (h : readInstruction rules place .macroStart text = accept op) :
    ∃ rest, Follows rules .macroStart op rest := by
  obtain ⟨body, -, inner⟩ := afterSpace_read h
  split at inner
  · cases inner
  · rename_i name left named
    obtain ⟨rfl, rfl⟩ := finish_read inner
    exact ⟨' ' :: name, follows_macroName (takes_path.sound named).1⟩

theorem readSection_read {k : Keyword} {make : VarName → Op}
    (h : readSection place k text make = accept op) : ∃ v, v.Readable ∧ op = make v := by
  unfold readSection at h
  split at h
  · cases h
  · rename_i v left named
    exact ⟨v, readVar?_readable named, (finish_read h).2⟩

theorem readSection_source {v : VarName} (h : v.Readable) (k : Keyword) (make : VarName → Op) :
    readSection place k v.text.toList make = accept (make v) := by
  rw [readSection, readVar?_whole h]
  rfl

theorem stops_tagSpace_text {v : VarName} (h : v.Readable) : Stops isTagSpace v.text.toList := by
  have stop := stops_tagSpace_variable h.written []
  rwa [List.append_nil] at stop

theorem follows_sectionOn (h : readInstruction rules place .sectionOn text = accept op) :
    ∃ rest, Follows rules .sectionOn op rest := by
  obtain ⟨body, -, -, inner⟩ := afterBlank_read h
  obtain ⟨v, readable, rfl⟩ := readSection_read inner
  refine ⟨' ' :: v.text.toList, rfl, ?_, .cons (by decide) _, fun place => ?_⟩
  · exact (Braceless.of_readable readable).cons (by decide) (by decide)
  · rw [readInstruction, afterBlank_source (stops_tagSpace_text readable),
      readSection_source readable]
    rfl

theorem follows_repeated (h : readInstruction rules place .repeated text = accept op) :
    ∃ rest, Follows rules .repeated op rest := by
  obtain ⟨body, -, -, inner⟩ := afterBlank_read h
  split at inner
  · cases inner
  · obtain ⟨more, -, -, last⟩ := afterBlank_read inner
    obtain ⟨v, readable, rfl⟩ := readSection_read last
    refine ⟨" section ".toList ++ v.text.toList, rfl, ?_, .cons (by decide) _, fun place => ?_⟩
    · exact Braceless.append (by decide) (Braceless.of_readable readable)
    · have written : " section ".toList ++ v.text.toList =
          ' ' :: ("section".toList ++ ' ' :: v.text.toList) := rfl
      have word : wordSection.split? ("section".toList ++ ' ' :: v.text.toList) =
          some ("section".toList, ' ' :: v.text.toList) := split?_literal _ _
      have stop : Stops isTagSpace ("section".toList ++ ' ' :: v.text.toList) :=
        .cons (c := 's') (by decide) _
      rw [written, readInstruction, afterBlank_source stop, word]
      simp only [afterBlank_source (stops_tagSpace_text readable), readSection_source readable]
      rfl

theorem program_source (options : ExprOptions) (source : String) :
    (Program.parse options source).source = source := by
  unfold Program.parse Program.build
  split <;> rfl

def evalParts (content : List Char) : Bool × List Char :=
  if content.head? = some '#' then (true, content.drop 1) else (false, content)

theorem evalParts_source (content : List Char) :
    (if (evalParts content).1 then ['#'] else []) ++ (evalParts content).2 = content := by
  unfold evalParts
  cases content with
  | nil => rfl
  | cons c body =>
    by_cases sign : c = '#' <;> simp [sign]

theorem readEval_parts (text : List Char) :
    readEval rules place text =
      if text.isEmpty then refuseAt place .evalExpectsExpression text
      else
        afterBlank place text fun content =>
          if (evalParts content).2.all isUnicodeSpace then
            refuseAt place .evalExpectsExpression content
          else
            accept (.leaf (.eval (Program.parse rules.expr (String.ofList (evalParts content).2))
              (evalParts content).1)) := by
  unfold readEval evalParts
  congr 2
  funext content
  by_cases sign : content.head? = some '#' <;> simp [sign]

theorem follows_eval (braceless : Braceless text)
    (h : readInstruction rules place .eval text = accept op) :
    ∃ rest, Follows rules .eval op rest := by
  rw [readInstruction, readEval_parts] at h
  split at h
  · cases h
  · obtain ⟨content, stop, inside, inner⟩ := afterBlank_read h
    split at inner
    · cases inner
    · rename_i full
      cases accept_inj inner
      refine ⟨' ' :: content, ?_, ?_, .cons (by decide) _, fun place => ?_⟩
      · simp only [Op.source, Leaf.source, program_source, String.toList_ofList]
        rw [List.append_assoc, evalParts_source]
        rfl
      · exact (braceless.of_subset inside).cons (by decide) (by decide)
      · rw [readInstruction, readEval_parts, afterBlank_source stop]
        simp only [List.isEmpty_cons, full]
        rfl

/-- A predicate whose source is read as its name and its arguments. -/
structure PredicateRead (rules : Rules) (call : Call) : Prop where
  braceless : Braceless call.source
  stops : Stops isTagSpace call.source
  split : predicateName.split? call.source = some (call.name.toList, call.args.join)
  read (place : Position) (make : Call → Op) :
    withPredicate rules place call.name call.args.join make = accept (make call.canonical)

theorem withPredicate_split (steady : rules.vocabulary.Steady) {name body : List Char}
    {make : Call → Op} (braceless : Braceless body)
    (named : predicateName.split? body = some (name, rest))
    (h : withPredicate rules place (String.ofList name) rest make = accept op) :
    ∃ call, PredicateRead rules call ∧ op = make call := by
  obtain ⟨call, same, isPredicate, rfl⟩ := withPredicate_read h
  have spelled : call.name.toList = name := by rw [same, String.toList_ofList]
  obtain ⟨s, known, agreed⟩ := isPredicate
  have ⟨nameChars, restChars⟩ := braceless.of_split named
  obtain ⟨⟨word, isWord, parts⟩, -⟩ := takes_predicateName.sound named
  refine ⟨call, ⟨?_, ?_, ?_, ?_⟩, rfl⟩
  · rw [Call.source, spelled]
    exact nameChars.append (restChars.of_subset fun c => agreed.mem)
  · rw [Call.source, spelled, parts, List.append_assoc]
    exact stops_tagSpace_word isWord _
  · rw [Call.source, spelled]
    exact takes_predicateName.complete ⟨word, isWord, parts⟩ fun _ _ => rfl
  · exact fun place make => withPredicate_source steady place ⟨s, known, agreed⟩ make

def isChainChar (c : Char) : Bool := isNameChar c || [' ', '&', '|'].contains c

theorem isChainChar_of_mem {vars : List VarName} (ops : List BoolOp) (h : ∀ v ∈ vars, v.Readable) :
    ∀ c ∈ chainSource vars ops, isChainChar c = true := by
  have name {v : VarName} (readable : v.Readable) {c : Char} (member : c ∈ v.text.toList) :
      isChainChar c = true := by
    rw [isChainChar, readable.written.isNameChar c member, Bool.true_or]
  have symbol (o : BoolOp) : ∀ c ∈ o.symbol.toList, isChainChar c = true := by
    refine List.all_eq_true.mp ?_
    cases o <;> decide
  induction vars generalizing ops with
  | nil => simp [chainSource]
  | cons v vars ih =>
    intro c member
    have readable := h v List.mem_cons_self
    cases vars with
    | nil => exact name readable member
    | cons w vars =>
      simp only [chainSource, List.append_assoc, List.cons_append, List.mem_append,
        List.mem_cons] at member
      rcases member with member | rfl | member | rfl | member
      · exact name readable member
      · decide
      · exact symbol _ c member
      · decide
      · exact ih _ (fun x inside => h x (List.mem_cons_of_mem _ inside)) c member

theorem readIfChain_read (h : readIfChain place text = accept op) :
    ∃ vars ops, op = .opening (.ifChain vars ops) ∧ (∀ v ∈ vars, v.Readable) ∧
      vars.length = ops.length + 1 ∧ vars.length ≤ ifVariableLimit := by
  unfold readIfChain at h
  split at h
  · cases h
  · rename_i c read
    obtain ⟨readable, short⟩ := readChain_read read
    split at h
    · cases h
    · split at h
      · cases h
      · split at h
        · cases h
        · rename_i fits
          exact ⟨c.vars, c.ops, (accept_inj h).symm, readable, Decidable.of_not_not fits, short⟩

theorem readIfChain_source {vars : List VarName} {ops : List BoolOp} (h : ∀ v ∈ vars, v.Readable)
    (fits : vars.length = ops.length + 1) (short : vars.length ≤ ifVariableLimit) :
    readIfChain place (chainSource vars ops) = accept (.opening (.ifChain vars ops)) := by
  have some' : vars.isEmpty = false := by
    cases vars with
    | nil => cases fits
    | cons => rfl
  rw [readIfChain, readChain_source h fits short]
  simp [some', fits]

theorem follows_ifTest_chain {vars : List VarName} {ops : List BoolOp}
    (h : ∀ v ∈ vars, v.Readable) (fits : vars.length = ops.length + 1)
    (short : vars.length ≤ ifVariableLimit) :
    Follows rules .ifTest (.opening (.ifChain vars ops)) (' ' :: chainSource vars ops) := by
  have chars := isChainChar_of_mem ops h
  refine ⟨rfl, ?_, .cons (by decide) _, fun place => ?_⟩
  · exact (Braceless.of_class (by decide) (by decide) chars).cons (by decide) (by decide)
  · have noPredicate : predicateName.split? (chainSource vars ops) = none := by
      cases taken : predicateName.split? (chainSource vars ops) with
      | none => rfl
      | some result =>
        obtain ⟨front, back⟩ := result
        obtain ⟨⟨word, -, rfl⟩, -⟩ := takes_predicateName.sound taken
        have mark := chars '?' (by rw [← split?_append taken]; simp)
        exact absurd mark (by decide)
    have noExpression : (chainSource vars ops).any expressionChars.contains = false := by
      refine List.any_eq_false.mpr fun c member found => ?_
      have outside : expressionChars.any isChainChar = false := by decide
      have listed : c ∈ expressionChars := List.contains_iff_mem.mp found
      exact absurd (chars c member) (List.any_eq_false.mp outside c listed)
    rw [readInstruction, readIf, afterBlank_source (stops_chainSource h fits), noPredicate]
    simp only [noExpression, readIfChain_source h fits short]
    rfl

theorem follows_ifTest (steady : rules.vocabulary.Steady) (braceless : Braceless text)
    (h : readInstruction rules place .ifTest text = accept op) :
    ∃ rest, Follows rules .ifTest op rest := by
  obtain ⟨body, stop, inside, inner⟩ := afterBlank_read h
  have bodyChars : Braceless body := braceless.of_subset inside
  split at inner
  · rename_i name left named
    obtain ⟨call, predicate, rfl⟩ := withPredicate_split steady bodyChars named inner
    refine ⟨' ' :: call.source, rfl, ?_, .cons (by decide) _, fun place => ?_⟩
    · exact predicate.braceless.cons (by decide) (by decide)
    · rw [readInstruction, readIf, afterBlank_source predicate.stops, predicate.split]
      simp only [String.ofList_toList, predicate.read]
      rfl
  · rename_i noPredicate
    split at inner
    · rename_i expression
      dsimp only at inner
      split at inner
      · rename_i sane
        cases accept_inj inner
        refine ⟨' ' :: body, ?_, ?_, .cons (by decide) _, fun place => ?_⟩
        · simp only [Op.source, Opener.source, program_source, String.toList_ofList]
          rfl
        · exact bodyChars.cons (by decide) (by decide)
        · rw [readInstruction, readIf, afterBlank_source stop, noPredicate]
          simp only [expression, if_true, sane]
          rfl
      · cases inner
    · obtain ⟨vars, ops, rfl, readable, fits, short⟩ := readIfChain_read inner
      exact ⟨_, follows_ifTest_chain readable fits short⟩

theorem follows_or (steady : rules.vocabulary.Steady) (braceless : Braceless text)
    (h : readInstruction rules place .or text = accept op) : ∃ rest, Follows rules .or op rest := by
  rw [readInstruction, readOr.eq_def] at h
  split at h
  · split at h
    · cases h
    · rename_i body name left named
      obtain ⟨call, predicate, rfl⟩ := withPredicate_split steady braceless.tail named h
      refine ⟨' ' :: call.source, rfl, ?_, .cons (by decide) _, fun place => ?_⟩
      · exact predicate.braceless.cons (by decide) (by decide)
      · simp only [readInstruction, readOr, predicate.split, String.ofList_toList, predicate.read]
        rfl
  · obtain ⟨-, rfl⟩ := finish_read h
    exact ⟨[], rfl, .nil, .nil, fun place => rfl⟩

theorem follows_includePartial (braceless : Braceless text) (stop : Stops isKeywordChar text)
    (h : readInstruction rules place .includePartial text = accept op) :
    ∃ rest, Follows rules .includePartial op rest := by
  rw [readInstruction, readInclude] at h
  split at h
  · cases h
  · rename_i raw left taken
    dsimp only at h
    split at h
    · cases h
    · rename_i name options values
      cases accept_inj h
      have parts : (readArgs? text).getD ([], text) = (raw, left) := by
        rw [taken]
        rfl
      obtain ⟨stops, inside, -⟩ := readArgs_read stop parts
      have rawChars := (braceless.of_split taken).1
      have some' : (Arguments.parse raw).join ≠ [] := by
        rw [ne_eq, Arguments.join_eq_nil, values]
        exact List.cons_ne_nil _ _
      have again := takes_argumentsPattern.whole
        ⟨some', fun c member => inside c (Arguments.mem_of_mem_join member)⟩
      refine ⟨(Arguments.parse raw).join, rfl, ?_, Arguments.stops_join stops, fun place => ?_⟩
      · exact rawChars.of_subset fun c => Arguments.mem_of_mem_join
      · simp only [readInstruction, readInclude, readArgs?, again, Arguments.parse_join,
          Arguments.canonical_values, values]
        rfl

theorem readInject_parts (text : List Char) :
    readInstruction rules place .inject text =
      afterLocal place .injectExpectsName text fun name body =>
        match path.split? body with
        | none => refuseAt place .injectExpectsPath body
        | some (path, afterPath) =>
          accept (.leaf (.inject name (String.ofList path)
            (Arguments.parse ((readArgs? afterPath).getD ([], afterPath)).1))) := by
  rw [readInstruction]
  congr 1
  funext name body
  cases path.split? body with
  | none => rfl
  | some result =>
    cases found : readArgs? result.2 with
    | none =>
      simp only [found]
      rfl
    | some args => simp only [found, Option.getD_some]

theorem follows_inject (braceless : Braceless text)
    (h : readInstruction rules place .inject text = accept op) :
    ∃ rest, Follows rules .inject op rest := by
  rw [readInject_parts] at h
  obtain ⟨word, body, isWord, inside, inner⟩ := afterLocal_read h
  split at inner
  · cases inner
  · rename_i path afterPath named
    obtain ⟨isPath, stop⟩ := takes_path.sound named
    rcases taken : (readArgs? afterPath).getD ([], afterPath) with ⟨raw, left⟩
    obtain ⟨stops, argumentChars, whole⟩ := readArgs_read stop taken
    rw [taken] at inner
    cases accept_inj inner
    obtain ⟨pathChars, afterChars⟩ := (braceless.of_subset inside).of_split named
    have rawChars : Braceless raw := (whole ▸ afterChars).left
    have joinChars : Braceless (Arguments.parse raw).join :=
      rawChars.of_subset fun c => Arguments.mem_of_mem_join
    have again := takes_path.complete isPath (Arguments.stops_join stops)
    have args := (readArgs_source
      (fun c member => argumentChars c (Arguments.mem_of_mem_join member)) (.inl rfl)).1
    rw [List.append_nil] at args
    refine ⟨localSource word (path ++ (Arguments.parse raw).join), ?_, ?_, ?_, fun place => ?_⟩
    · simp only [Op.source, Leaf.source, String.toList_ofList]
      rw [List.append_assoc]
      rfl
    · exact braceless_localSource isWord (pathChars.append joinChars)
    · exact .cons (by decide) _
    · rw [readInject_parts, afterLocal_source isWord, again]
      simp only [args, Arguments.parse_join]
      rfl

/-- Variables and formatters whose source is read as both. -/
structure OutputRead (rules : Rules) (vars : List VarName) (calls : List Call) : Prop where
  names : VarsRead vars (formattersSource calls)
  formatters : ∀ call ∈ calls, ∃ raw, IsFormatter rules call raw
  braceless : Braceless (varsSource vars ++ formattersSource calls)

theorem braceless_varsSource {vars : List VarName} (h : ∀ v ∈ vars, v.Readable) :
    Braceless (varsSource vars) := by
  cases vars with
  | nil => exact .nil
  | cons v vars =>
    rw [varsSource, List.map_cons, joinWith_cons]
    refine (Braceless.of_readable (h v List.mem_cons_self)).append ?_
    intro c member
    obtain ⟨name, inside, member⟩ := List.mem_flatMap.mp member
    obtain ⟨w, other, rfl⟩ := List.mem_map.mp inside
    have chars := Braceless.of_readable (h w (List.mem_cons_of_mem _ other))
    exact chars.cons (c := ',') (by decide) (by decide) c member

theorem outputRead {vars : List VarName} {body anchor : List Char} {make : List Call → Op}
    (braceless : Braceless body) (first : readVars body = .ok (vars, rest))
    (h : withFormatters rules place anchor rest make = accept op) :
    ∃ calls, OutputRead rules vars calls ∧ op = make calls := by
  obtain ⟨calls, rfl, formatters, chars, alone⟩ := withFormatters_read h
  obtain ⟨⟨readable, some', single⟩, further⟩ := readVars_read first
  refine ⟨calls, ⟨⟨readable, some', fun none => single (alone ?_)⟩, formatters, ?_⟩, rfl⟩
  · cases calls with
    | nil => rfl
    | cons call calls => cases none
  · refine (braceless_varsSource readable).append (braceless.of_subset fun c member => ?_)
    exact further.subset (chars c member)

theorem OutputRead.readVars {vars : List VarName} {calls : List Call}
    (h : OutputRead rules vars calls) :
    readVars (varsSource vars ++ formattersSource calls) = .ok (vars, formattersSource calls) := by
  refine readVars_source h.names (endsVars_formattersSource calls) ?_
  intro more same
  cases calls with
  | nil => cases same
  | cons call calls =>
    obtain ⟨raw, isWord, -⟩ := h.formatters call List.mem_cons_self
    rw [formattersSource_cons, Call.source] at same
    cases name : call.name.toList with
    | nil => exact isWord.ne_nil name
    | cons c rest =>
      rw [name] at isWord same
      have bar : c = '|' := by simpa using (List.cons.inj (List.cons.inj same).2).1
      rw [bar] at isWord
      exact absurd isWord.1 (by decide)

theorem follows_bind (steady : rules.vocabulary.Steady) (braceless : Braceless text)
    (h : readInstruction rules place .bind text = accept op) :
    ∃ rest, Follows rules .bind op rest := by
  simp only [readInstruction] at h
  obtain ⟨word, body, isWord, inside, inner⟩ := afterLocal_read h
  split at inner
  · cases inner
  · rename_i vars left first
    obtain ⟨calls, output, rfl⟩ := outputRead (braceless.of_subset inside) first inner
    refine ⟨localSource word (varsSource vars ++ formattersSource calls), ?_,
      braceless_localSource isWord output.braceless, .cons (by decide) _, fun place => ?_⟩
    · simp only [Op.source, Leaf.source, String.toList_ofList]
      rw [List.append_assoc]
      rfl
    · simp only [readInstruction, afterLocal_source isWord, output.readVars,
        withFormatters_source steady output.formatters]
      rfl

theorem follows_object (h : readInstruction rules place .object text = accept op) :
    ∃ rest, Follows rules .object op rest := by
  simp only [readInstruction] at h
  obtain ⟨word, body, isWord, -, inner⟩ := afterLocal_read h
  split at inner
  · cases inner
  · rename_i bindings left some' read
    cases accept_inj inner
    have areBindings := readBindings_read read
    cases bindings with
    | nil => exact absurd rfl some'
    | cons b bindings =>
      have first := areBindings b List.mem_cons_self
      have others : ∀ other ∈ bindings, IsBinding other :=
        fun other member => areBindings other (List.mem_cons_of_mem _ member)
      have again := readBindings_source (length_bindings b bindings) first others
      have chars {other : Binding} (h : IsBinding other) : Braceless (bindingSource other) :=
        (Braceless.of_isWord h.name).append
          ((Braceless.of_readable h.var).cons (by decide) (by decide))
      have othersChars : Braceless (bindings.flatMap fun b => ' ' :: bindingSource b) := by
        intro c member
        obtain ⟨other, found, member⟩ := List.mem_flatMap.mp member
        exact (chars (others other found)).cons (c := ' ') (by decide) (by decide) c member
      refine ⟨localSource word
          (bindingSource b ++ bindings.flatMap fun b => ' ' :: bindingSource b),
        ?_, braceless_localSource isWord ((chars first).append othersChars), .cons (by decide) _,
        fun place => ?_⟩
      · simp only [Op.source, Leaf.source, String.toList_ofList]
        rw [List.append_assoc]
        rfl
      · simp only [readInstruction, afterLocal_source isWord, again]
        rfl

theorem follows (steady : rules.vocabulary.Steady) {k : Keyword} (braceless : Braceless text)
    (stop : Stops isKeywordChar text) (h : readInstruction rules place k text = accept op) :
    ∃ rest, Follows rules k op rest := by
  cases k with
  | alternates => exact follows_alternates h
  | bind => exact follows_bind steady braceless h
  | object => exact follows_object h
  | close => exact follows_close h
  | eval => exact follows_eval braceless h
  | ifTest => exact follows_ifTest steady braceless h
  | includePartial => exact follows_includePartial braceless stop h
  | inject => exact follows_inject braceless h
  | macroStart => exact follows_macroStart h
  | brace left => exact follows_brace h
  | blank kind => exact follows_blank h
  | or => exact follows_or steady braceless h
  | repeated => exact follows_repeated h
  | sectionOn => exact follows_sectionOn h

theorem respelled_output (steady : rules.vocabulary.Steady) {vars : List VarName}
    {calls : List Call} (h : OutputRead rules vars calls) :
    Respelled rules (.leaf (.output vars calls)) := by
  refine ⟨_, rfl, ?_⟩
  have output (place : Position) (anchor : List Char) :
      readOutput rules place anchor (varsSource vars ++ formattersSource calls) =
        accept (.leaf (.output vars (calls.map Call.canonical))) := by
    rw [readOutput, h.readVars]
    exact withFormatters_source steady h.formatters _
  -- The first character of a name is what keeps the tag from being a comment or an instruction.
  obtain ⟨c, more, starts, outside⟩ : ∃ c more,
      varsSource vars ++ formattersSource calls = c :: more ∧ c ∉ ['#', '^', '.'] := by
    cases vars with
    | nil => exact absurd rfl h.names.some'
    | cons v vars =>
      obtain ⟨c, more, name, kind⟩ := (h.names.readable v List.mem_cons_self).written.starts
      refine ⟨c, _, by rw [varsSource, List.map_cons, joinWith_cons, name]; rfl, ?_⟩
      rcases kind with rfl | word
      · decide
      · intro member
        have none := not_contains_of_class ['#', '^', '.'] (by decide) word
        rw [List.contains_iff_mem.mpr member] at none
        cases none
  have braceless := h.braceless
  rw [starts] at output braceless ⊢
  simp only [List.mem_cons, List.not_mem_nil, or_false, not_or] at outside
  refine ⟨braceless.isContent (by simp [outside.1]), by simp [outside.2.1], fun place => ?_⟩
  rw [readBody]
  · rw [split?_keyword_none (.cons (by simp [outside.2.2]) more)]
    exact output place _
  · intro rest same
    exact outside.1 (List.cons.inj same).1

theorem respelled_predicate (steady : rules.vocabulary.Steady) {letters : List Char}
    (isWord : IsWord letters) (braceless : Braceless rest)
    (h : withPredicate rules place (String.ofList (letters ++ ['?'])) rest
      (fun c => .opening (.predicate c)) = accept op) : Respelled rules op := by
  obtain ⟨call, same, isPredicate, rfl⟩ := withPredicate_read h
  have spelled : call.name.toList = letters ++ ['?'] := by rw [same, String.toList_ofList]
  have read (place : Position) := withPredicate_source steady place isPredicate
  obtain ⟨s, -, agreed⟩ := isPredicate
  have joinChars : Braceless call.args.join := braceless.of_subset fun c => agreed.mem
  have source : call.source = letters ++ '?' :: call.args.join := by
    rw [Call.source, spelled, List.append_assoc]
    rfl
  refine ⟨'.' :: (letters ++ '?' :: call.args.join), by rw [← source]; rfl, ?_, by simp,
    fun place => ?_⟩
  · refine Braceless.isContent ?_ (by simp)
    have chars := (Braceless.of_isWord isWord).append
      (joinChars.cons (c := '?') (by decide) (by decide))
    exact chars.cons (by decide) (by decide)
  · have last : ('.' :: letters ++ ['?']).getLast? = some '?' := List.getLast?_concat
    have name : String.ofList (('.' :: letters ++ ['?']).drop 1) = call.name := by
      rw [List.cons_append, List.drop_one, List.tail_cons, ← spelled, String.ofList_toList]
    rw [readBody]
    · rw [← List.cons_append, split?_keyword_mark isWord]
      simp only [last, if_true, name, read]
      rfl
    · simp

theorem readBody_respelled (steady : rules.vocabulary.Steady) {content : List Char}
    (isContent : Piece.IsContent content) (noCaret : content.head? ≠ some '^')
    (h : readBody rules place content content = accept op) : Respelled rules op := by
  have braceless : Braceless content := by
    intro c member
    refine ⟨?_, ?_⟩
    · rintro rfl
      exact isContent.noLeft member
    · rintro rfl
      exact isContent.noRight member
  unfold readBody at h
  split at h
  · rename_i body
    cases accept_inj h
    refine ⟨'#' :: body, ?_, isContent, noCaret, fun place => ?_⟩
    · simp [Op.source, Leaf.source]
    · simp [readBody, Op.canonical, Leaf.canonical]
  · split at h
    · unfold readOutput at h
      split at h
      · cases h
      · rename_i vars left first
        obtain ⟨calls, output, rfl⟩ := outputRead braceless first h
        exact respelled_output steady output
    · rename_i word left named
      obtain ⟨wordChars, leftChars⟩ := braceless.of_split named
      obtain ⟨letters, isWord, shape⟩ := of_split?_keyword named
      rcases shape with rfl | ⟨rfl, stop⟩
      · have last : ('.' :: letters ++ ['?']).getLast? = some '?' := List.getLast?_concat
        rw [if_pos last] at h
        exact respelled_predicate steady isWord leftChars h
      · rw [if_neg (getLast?_word isWord)] at h
        split at h
        · obtain ⟨rest, written⟩ := follows steady leftChars stop h
          exact written.respelled
        · cases h

end Tag

end JsonTemplate
