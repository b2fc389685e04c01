import JsonTemplate.Proofs.Assembly.Nesting
import JsonTemplate.Proofs.Template.ProblemOrder
import JsonTemplate.Template.Compile

namespace JsonTemplate

open JsonTemplate.Text

theorem Stack.objection_concern {s : Stack} {i : Instruction} {d : Diagnostic}
    (rejected : s.objection i = some d) : d.place ∈ Event.concern (.emit i) := by
  have same := (objection_report rejected).1
  obtain ⟨place, op⟩ := i
  cases op with
  | leaf l => cases rejected
  | opening | repeated | alternates | or | macroStart | close | eof =>
    exact List.mem_singleton.mpr same

theorem Stack.fault_of_objection {s : Stack} {i : Instruction} {d : Diagnostic}
    (h : s.objection i = some d) :
    ∃ fault ∈ [CompileFault.eofInBlock, .mismatchedEnd, .notAllowedAtRoot, .notAllowedInBlock,
      .deadCodeBlock], d.fault = .compile fault := by
  obtain ⟨place, op⟩ := i
  obtain ⟨blocks, root⟩ := s
  cases op with
  | leaf | opening | repeated | macroStart => cases h
  | close | eof =>
    cases blocks <;> cases h
    exact ⟨_, by decide, rfl⟩
  | alternates =>
    rcases blocks with _ | ⟨⟨head, body⟩, rest⟩
    · cases h
      exact ⟨_, by decide, rfl⟩
    · cases head <;> cases h <;> exact ⟨_, by decide, rfl⟩
  | or call =>
    rcases blocks with _ | ⟨⟨head, body⟩, rest⟩
    · cases h
      exact ⟨_, by decide, rfl⟩
    · cases head with
      | or place before => cases before <;> cases h; exact ⟨_, by decide, rfl⟩
      | block | repeated | between => cases h
      | macroDef => cases h; exact ⟨_, by decide, rfl⟩

theorem Stack.ofCompile_of_objection {s : Stack} {i : Instruction} {d : Diagnostic}
    (h : s.objection i = some d) : d.ofCompile := by
  obtain ⟨fault, -, same⟩ := Stack.fault_of_objection h
  rw [Diagnostic.ofCompile, same]

namespace Assembly

def relaxed (a : Assembly) : Assembly := { a with lenient := true }

theorem accept_relaxed {a next : Assembly} {i : Instruction} (strict : a.lenient = false)
    (taken : a.accept i = (next, none)) :
    a.relaxed.accept i = (next.relaxed, none) ∧ next.lenient = false ∧
      next.problems = a.problems := by
  cases complete : a.isComplete with
  | true =>
    rw [accept_complete i complete] at taken
    cases taken
    exact ⟨accept_complete i (a := a.relaxed) complete, strict, rfl⟩
  | false =>
    cases objection : a.stack.objection i with
    | none =>
      rw [accept_allowed complete objection] at taken
      cases taken
      exact ⟨accept_allowed (a := a.relaxed) complete objection, strict, rfl⟩
    | some d =>
      rw [accept_refused strict complete objection] at taken
      cases taken

theorem accept_relaxed_of_refused {a next : Assembly} {i : Instruction} {d : Diagnostic}
    (strict : a.lenient = false) (refused : a.accept i = (next, some d)) :
    d.place ∈ Event.concern (.emit i) ∧
      ∃ after, a.relaxed.accept i = (after, none) ∧ after.lenient = true ∧
        after.problems = a.problems ++ [d] := by
  cases complete : a.isComplete with
  | true =>
    rw [accept_complete i complete] at refused
    cases refused
  | false =>
    cases objection : a.stack.objection i with
    | none =>
      rw [accept_allowed complete objection] at refused
      cases refused
    | some e =>
      rw [accept_refused strict complete objection] at refused
      cases refused
      refine ⟨Stack.objection_concern objection, _,
        accept_noted (a := a.relaxed) rfl complete objection, recover_lenient _ i, rfl⟩

theorem feed_problems (a : Assembly) (instructions : List Instruction)
    (lenient : a.lenient = true) :
    ∃ new, (a.feed instructions).1.problems = a.problems ++ new ∧
      ∀ d ∈ new, ∃ i ∈ instructions, d.place ∈ Event.concern (.emit i) := by
  induction instructions generalizing a with
  | nil => exact ⟨[], by simp [feed], by simp⟩
  | cons i rest ih =>
    obtain ⟨next, step, still, noted⟩ := accept_lenient i lenient
    obtain ⟨new, problems, concerns⟩ := ih next still
    have later : ∀ d ∈ new, ∃ j ∈ i :: rest, d.place ∈ Event.concern (.emit j) := by
      intro d hd
      obtain ⟨j, member, concern⟩ := concerns d hd
      exact ⟨j, List.mem_cons_of_mem _ member, concern⟩
    rw [feed_cons rest step, problems]
    rcases noted with same | ⟨d, objection, added⟩
    · exact ⟨new, by rw [same], later⟩
    · refine ⟨d :: new, by simp [added], ?_⟩
      intro e he
      rcases List.mem_cons.mp he with rfl | he
      · exact ⟨i, List.mem_cons_self, Stack.objection_concern objection⟩
      · exact later e he

end Assembly

namespace Event

theorem problem_cases {rules : Tag.Rules} {source : List Char} {d : Diagnostic}
    (h : problem d ∈ ofSource rules source) :
    (∃ mark, d = .compile .eofInComment mark) ∨
      ∃ place mark content, .tag place mark content ∈ (Piece.ofSource source).1 ∧
        d ∈ (Tag.read rules place content).problems := by
  rcases List.mem_append.mp h with inside | last
  · obtain ⟨piece, among, member⟩ := List.mem_flatMap.mp inside
    cases piece with
    | text | comment =>
      cases List.mem_singleton.mp member
    | openComment place mark content =>
      rcases List.mem_cons.mp member with same | same
      · cases same
      · cases List.mem_singleton.mp same
        exact .inl ⟨mark, rfl⟩
    | tag place mark content =>
      rcases List.mem_append.mp member with reported | read
      · obtain ⟨e, found, same⟩ := List.mem_map.mp reported
        cases same
        exact .inr ⟨place, mark, content, among, found⟩
      · generalize (Tag.read rules place content).reading = reading at read
        cases reading with
        | dropped => cases read
        | instruction | plain | asText => cases List.mem_singleton.mp read
  · cases List.mem_singleton.mp last

theorem ofCompile_of_problem {rules : Tag.Rules} {source : List Char} {d : Diagnostic}
    (h : problem d ∈ ofSource rules source) : d.ofCompile := by
  rcases problem_cases h with ⟨mark, rfl⟩ | ⟨place, mark, content, -, among⟩
  · rfl
  · rcases Tag.read_shaped rules place content with dropped | shaped
    · rw [dropped] at among
      cases among
    · generalize Tag.read rules place content = r at among shaped
      cases shaped with
      | clean => cases among
      | refused _ _ _ _ compile =>
        cases List.mem_singleton.mp among
        exact compile
      | doubtful _ _ _ compile =>
        cases List.mem_singleton.mp among
        exact compile

theorem concern_mem_of_instruction {events : List Event} {i : Instruction} {p : Position}
    (member : i ∈ instructions events) (h : p ∈ concern (.emit i)) :
    p ∈ events.flatMap concern := by
  obtain ⟨event, inside, is⟩ := List.mem_filterMap.mp member
  cases event with
  | emit j => cases is; exact List.mem_flatMap.mpr ⟨_, inside, h⟩
  | problem d => cases is

theorem concern_mem_of_problem {events : List Event} {d : Diagnostic}
    (member : d ∈ problems events) : d.place ∈ events.flatMap concern := by
  obtain ⟨event, inside, is⟩ := List.mem_filterMap.mp member
  cases event with
  | emit i => cases is
  | problem e => cases is; exact List.mem_flatMap.mpr ⟨_, inside, List.mem_singleton.mpr rfl⟩

end Event

namespace Compiled

def noted (a : Assembly) (events : List Event) : List Diagnostic :=
  (a.relaxed.feed (Event.instructions events)).1.problems ++ Event.problems events

theorem noted_concern {a : Assembly} {events : List Event} {e : Diagnostic}
    (fresh : a.problems = []) (h : e ∈ noted a events) :
    e.place ∈ events.flatMap Event.concern := by
  rcases List.mem_append.mp h with member | member
  · obtain ⟨new, problems, concerns⟩ :=
      Assembly.feed_problems a.relaxed (Event.instructions events) rfl
    have inside : e ∈ new := by
      rw [problems] at member
      simpa [Assembly.relaxed, fresh] using member
    obtain ⟨i, source, concern⟩ := concerns e inside
    exact Event.concern_mem_of_instruction source concern
  · exact Event.concern_mem_of_problem member

theorem feedStrict_ok {a s : Assembly} {events : List Event} (strict : a.lenient = false)
    (fresh : a.problems = []) (h : feedStrict a events = .ok s) :
    (a.relaxed.feed (Event.instructions events)).1 = s.relaxed ∧ noted a events = [] := by
  induction events generalizing a with
  | nil =>
    cases h
    exact ⟨rfl, by simp [noted, Event.instructions, Event.problems, Assembly.feed,
      Assembly.relaxed, fresh]⟩
  | cons event rest ih =>
    cases event with
    | problem d => cases h
    | emit i =>
      rcases step : a.accept i with ⟨next, _ | d⟩
      · obtain ⟨same, still, problems⟩ := Assembly.accept_relaxed strict step
        simp only [feedStrict, step] at h
        obtain ⟨state, none⟩ := ih still (problems.trans fresh) h
        have fed : a.relaxed.feed (Event.instructions (.emit i :: rest)) =
            next.relaxed.feed (Event.instructions rest) := Assembly.feed_cons _ same
        refine ⟨by rw [fed, state], ?_⟩
        rw [noted, fed]
        exact none
      · simp [feedStrict, step] at h

theorem problem_least {a : Assembly} {rest : List Event} {d : Diagnostic} (fresh : a.problems = [])
    (first : ∀ q ∈ rest.flatMap Event.concern, d.place ≤ q) :
    d ∈ noted a (.problem d :: rest) ∧ ∀ e ∈ noted a (.problem d :: rest), d.place ≤ e.place := by
  have parts : noted a (.problem d :: rest) =
      (a.relaxed.feed (Event.instructions rest)).1.problems ++ d :: Event.problems rest := rfl
  rw [parts]
  refine ⟨by simp, fun e he => ?_⟩
  rcases List.mem_append.mp he with he | he
  · exact first _ (noted_concern fresh (List.mem_append_left _ he))
  · rcases List.mem_cons.mp he with rfl | he
    · exact Position.le_refl _
    · exact first _ (noted_concern fresh (List.mem_append_right _ he))

theorem refused_least {a next : Assembly} {i : Instruction} {rest : List Event} {d : Diagnostic}
    (strict : a.lenient = false) (fresh : a.problems = []) (step : a.accept i = (next, some d))
    (first : ∀ p ∈ Event.concern (.emit i), ∀ q ∈ rest.flatMap Event.concern, p ≤ q) :
    d ∈ noted a (.emit i :: rest) ∧ ∀ e ∈ noted a (.emit i :: rest), d.place ≤ e.place := by
  obtain ⟨concern, after, same, lenient, problems⟩ := Assembly.accept_relaxed_of_refused strict step
  have first : ∀ q ∈ rest.flatMap Event.concern, d.place ≤ q := first d.place concern
  have fed : a.relaxed.feed (Event.instructions (.emit i :: rest)) =
      after.feed (Event.instructions rest) := Assembly.feed_cons _ same
  obtain ⟨new, added, concerns⟩ := Assembly.feed_problems after (Event.instructions rest) lenient
  have parts : noted a (.emit i :: rest) = d :: (new ++ Event.problems rest) := by
    rw [noted, fed, added, problems, fresh]
    rfl
  rw [parts]
  refine ⟨List.mem_cons_self, fun e he => ?_⟩
  rcases List.mem_cons.mp he with rfl | he
  · exact Position.le_refl _
  · rcases List.mem_append.mp he with he | he
    · obtain ⟨j, member, place⟩ := concerns e he
      exact first _ (Event.concern_mem_of_instruction member place)
    · exact first _ (Event.concern_mem_of_problem he)

theorem feedStrict_error {a : Assembly} {events : List Event} {d : Diagnostic}
    (strict : a.lenient = false) (fresh : a.problems = [])
    (ascending : (events.flatMap Event.concern).Pairwise (· ≤ ·))
    (h : feedStrict a events = .error d) :
    d ∈ noted a events ∧ ∀ e ∈ noted a events, d.place ≤ e.place := by
  -- The places ascend along the events, so the problem that is met first is a least one. The state
  -- is general: every instruction that is taken in leaves another one.
  induction events generalizing a with
  | nil => cases h
  | cons event rest ih =>
    rw [List.flatMap_cons, List.pairwise_append] at ascending
    obtain ⟨-, behind, first⟩ := ascending
    cases event with
    | problem e =>
      cases h
      exact problem_least fresh (first d.place (List.mem_singleton.mpr rfl))
    | emit i =>
      rcases step : a.accept i with ⟨next, _ | e⟩
      · obtain ⟨same, still, problems⟩ := Assembly.accept_relaxed strict step
        simp only [feedStrict, step] at h
        have fed : a.relaxed.feed (Event.instructions (.emit i :: rest)) =
            next.relaxed.feed (Event.instructions rest) := Assembly.feed_cons _ same
        have parts : noted a (.emit i :: rest) = noted next rest := by
          rw [noted, fed]
          rfl
        rw [parts]
        exact ih still (problems.trans fresh) behind h
      · simp only [feedStrict, step] at h
        cases h
        exact refused_least strict fresh step first

theorem ofCompile_of_feedStrict {a : Assembly} {events : List Event} {d : Diagnostic}
    (strict : a.lenient = false) (staged : ∀ e, .problem e ∈ events → e.ofCompile)
    (h : feedStrict a events = .error d) : d.ofCompile := by
  induction events generalizing a with
  | nil => cases h
  | cons event rest ih =>
    have later : ∀ e, .problem e ∈ rest → e.ofCompile :=
      fun e member => staged e (List.mem_cons_of_mem _ member)
    cases event with
    | problem e =>
      cases h
      exact staged d List.mem_cons_self
    | emit i =>
      rcases step : a.accept i with ⟨next, _ | e⟩
      · simp only [feedStrict, step] at h
        exact ih (Assembly.accept_relaxed strict step).2.1 later h
      · simp only [feedStrict, step] at h
        cases h
        cases complete : a.isComplete with
        | true =>
          rw [Assembly.accept_complete i complete] at step
          cases step
        | false =>
          cases objection : a.stack.objection i with
          | none =>
            rw [Assembly.accept_allowed complete objection] at step
            cases step
          | some e =>
            rw [Assembly.accept_refused strict complete objection] at step
            cases step
            exact Stack.ofCompile_of_objection objection

theorem objection_of_accept (a : Assembly) (i : Instruction) {d : Diagnostic}
    (member : d ∈ (a.accept i).1.problems) :
    d ∈ a.problems ∨ ∃ (s : Stack) (i : Instruction), s.objection i = some d := by
  cases complete : a.isComplete with
  | true =>
    rw [Assembly.accept_complete i complete] at member
    exact .inl member
  | false =>
    cases objection : a.stack.objection i with
    | none =>
      rw [Assembly.accept_allowed complete objection] at member
      exact .inl member
    | some e =>
      cases lenient : a.lenient with
      | false =>
        rw [Assembly.accept_refused lenient complete objection] at member
        exact .inl member
      | true =>
        rw [Assembly.accept_noted lenient complete objection] at member
        rcases List.mem_append.mp member with old | new
        · exact .inl old
        · rw [List.mem_singleton.mp new]
          exact .inr ⟨_, _, objection⟩

theorem objection_of_feed (a : Assembly) (items : List Instruction) {d : Diagnostic}
    (member : d ∈ (a.feed items).1.problems) :
    d ∈ a.problems ∨ ∃ (s : Stack) (i : Instruction), s.objection i = some d := by
  induction items generalizing a with
  | nil => exact .inl member
  | cons i rest ih =>
    rcases step : a.accept i with ⟨next, _ | e⟩
    · rw [Assembly.feed_cons rest step] at member
      rcases ih next member with old | objected
      · exact objection_of_accept a i (by rwa [step])
      · exact .inr objected
    · simp only [Assembly.feed, step] at member
      exact objection_of_accept a i (by rwa [step])

theorem noted_cases {vocabulary : Vocabulary} {options : CompileOptions}
    {source : List Char} {c : Compiled} (h : compile vocabulary options source = .ok c)
    {d : Diagnostic} (member : d ∈ c.problems) :
    (∃ (s : Stack) (i : Instruction), s.objection i = some d) ∨
      .problem d ∈ Event.ofSource ⟨vocabulary, options.expr, options.preprocess⟩ source := by
  unfold compile at h
  dsimp only at h
  split at h
  · cases h
    rcases List.mem_append.mp (List.mem_mergeSort.mp member) with rejected | read
    · rcases objection_of_feed _ _ rejected with old | objected
      · cases old
      · exact .inl objected
    · obtain ⟨event, found, told⟩ := List.mem_filterMap.mp read
      cases event with
      | emit i => cases told
      | problem e =>
        cases told
        exact .inr found
  · cases outcome : feedStrict (Assembly.start false) (Event.ofSource
        ⟨vocabulary, options.expr, options.preprocess⟩ source) with
    | error e =>
      rw [outcome] at h
      cases h
    | ok s =>
      rw [outcome] at h
      cases h
      cases member

theorem ofCompile_of_compile {vocabulary : Vocabulary} {options : CompileOptions}
    {source : List Char} {c : Compiled} (h : compile vocabulary options source = .ok c)
    {d : Diagnostic} (member : d ∈ c.problems) : d.ofCompile := by
  rcases noted_cases h member with ⟨s, i, objection⟩ | found
  · exact Stack.ofCompile_of_objection objection
  · exact Event.ofCompile_of_problem found

section

variable {vocabulary : Vocabulary} {preprocess : Bool} {expr : ExprOptions} {source : List Char}

theorem compile_lenient_of_ok {c : Compiled}
    (h : compile vocabulary ⟨false, preprocess, expr⟩ source = .ok c) :
    compile vocabulary ⟨true, preprocess, expr⟩ source = .ok c ∧ c.problems = [] := by
  let events := Event.ofSource ⟨vocabulary, expr, preprocess⟩ source
  have strictly : (feedStrict (Assembly.start false) events).map
      (fun a => (⟨a.finish, [], a.count⟩ : Compiled)) = .ok c := h
  cases outcome : feedStrict (Assembly.start false) events with
  | error d =>
    rw [outcome] at strictly
    cases strictly
  | ok s =>
    obtain ⟨state, none⟩ := feedStrict_ok rfl rfl outcome
    rw [outcome] at strictly
    cases strictly
    have leniently : compile vocabulary ⟨true, preprocess, expr⟩ source =
        .ok ⟨((Assembly.start false).relaxed.feed (Event.instructions events)).1.finish,
          (noted (Assembly.start false) events).mergeSort inOrder,
          ((Assembly.start false).relaxed.feed (Event.instructions events)).1.count⟩ := rfl
    rw [leniently, none, state, List.mergeSort_nil]
    exact ⟨rfl, rfl⟩

theorem compile_lenient_of_error {d : Diagnostic}
    (h : compile vocabulary ⟨false, preprocess, expr⟩ source = .error d) :
    d.ofCompile ∧
      ∃ c, compile vocabulary ⟨true, preprocess, expr⟩ source = .ok c ∧ d ∈ c.problems := by
  let events := Event.ofSource ⟨vocabulary, expr, preprocess⟩ source
  have strictly : (feedStrict (Assembly.start false) events).map
      (fun a => (⟨a.finish, [], a.count⟩ : Compiled)) = .error d := h
  cases outcome : feedStrict (Assembly.start false) events with
  | ok s =>
    rw [outcome] at strictly
    cases strictly
  | error e =>
    rw [outcome] at strictly
    cases strictly
    have ascending := Event.ofSource_ordered ⟨vocabulary, expr, preprocess⟩ source
    have member := (feedStrict_error rfl rfl ascending outcome).1
    exact ⟨ofCompile_of_feedStrict rfl (fun e => Event.ofCompile_of_problem) outcome, _, rfl,
      List.mem_mergeSort.mpr member⟩

end

/-- A lenient compilation always gives a template. A strict one gives the same, with the same number
of instructions, exactly where the lenient one notes no problem; otherwise it fails with one of the
problems noted, and none of them has an earlier place. -/
theorem compile_modes_agree (vocabulary : Vocabulary) (preprocess : Bool) (expr : ExprOptions)
    (source : List Char) :
    let strict := compile vocabulary ⟨false, preprocess, expr⟩ source
    ∃ c, compile vocabulary ⟨true, preprocess, expr⟩ source = .ok c ∧
      (strict.isOk = true ↔ c.problems = []) ∧
      match strict with
      | .ok s => s.template = c.template ∧ s.count = c.count
      | .error d => d ∈ c.problems ∧ ∀ e ∈ c.problems, e.place.before d.place = false := by
  let events := Event.ofSource ⟨vocabulary, expr, preprocess⟩ source
  let state := ((Assembly.start true).feed (Event.instructions events)).1
  have strictly : compile vocabulary ⟨false, preprocess, expr⟩ source =
      (feedStrict (Assembly.start false) events).map fun a => ⟨a.finish, [], a.count⟩ := rfl
  refine ⟨⟨state.finish, (noted (Assembly.start false) events).mergeSort inOrder, state.count⟩,
    rfl, ?_⟩
  rw [strictly]
  cases outcome : feedStrict (Assembly.start false) events with
  | ok s =>
    obtain ⟨same, none⟩ := feedStrict_ok rfl rfl outcome
    have state_eq : state = s.relaxed := same
    refine ⟨by simp [Except.map, Except.isOk, Except.toBool, none], ?_⟩
    exact ⟨by rw [state_eq]; rfl, by rw [state_eq]; rfl⟩
  | error d =>
    have ascending := Event.ofSource_ordered ⟨vocabulary, expr, preprocess⟩ source
    obtain ⟨member, first⟩ := feedStrict_error rfl rfl ascending outcome
    have inside : d ∈ (noted (Assembly.start false) events).mergeSort inOrder :=
      List.mem_mergeSort.mpr member
    refine ⟨?_, inside, fun e he => first e (List.mem_mergeSort.mp he)⟩
    simp [Except.map, Except.isOk, Except.toBool, List.ne_nil_of_mem inside]

end Compiled

end JsonTemplate
