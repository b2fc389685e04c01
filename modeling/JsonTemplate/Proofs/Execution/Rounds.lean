import JsonTemplate.Proofs.Execution.Lockstep

namespace JsonTemplate

def Records.code (c : Catalog) (options : RunOptions) (r : Records) (name : String) :
    Option (List Tree) :=
  match r.compiled.get? name with
  | some body => some body
  | none =>
    match options.partials.get? name with
    | none => none
    | some source =>
      (Context.compileSource c options source).toOption.map fun compiled => compiled.template.body

namespace Context

def code (c : Catalog) (ctx : Context) : String → Option (List Tree) :=
  ctx.records.code c ctx.options

section

variable {c : Catalog} {ctx after : Context} {name : String}

theorem code_of_kept {body : List Tree} (kept : ctx.compiled.get? name = some body) :
    ctx.code c name = some body := by
  rw [code, Records.code, show ctx.records.compiled = ctx.compiled from rfl, kept]

theorem code_of_fresh (fresh : ctx.compiled.get? name = none) :
    ctx.code c name = (ctx.options.partials.get? name).bind fun source =>
      (compileSource c ctx.options source).toOption.map fun compiled => compiled.template.body := by
  rw [code, Records.code, show ctx.records.compiled = ctx.compiled from rfl, fresh]
  cases ctx.options.partials.get? name <;> rfl

theorem code_keep {body : List Tree} (known : ctx.code c name = some body)
    (options : after.options = ctx.options) (kept : after.compiled = ctx.compiled.set name body) :
    after.code c = ctx.code c := by
  funext other
  by_cases same : other = name
  · rw [same, known]
    exact code_of_kept (by rw [kept, Bindings.get?_set_self])
  · have unchanged : after.compiled.get? other = ctx.compiled.get? other := by
      rw [kept, Bindings.get?_set_of_ne same]
    cases found : ctx.compiled.get? other with
    | some body => rw [code_of_kept found, code_of_kept (unchanged.trans found)]
    | none => rw [code_of_fresh found, code_of_fresh (unchanged.trans found), options]

theorem findPartial_code (safe : ctx.options.safe = true) (name : String) :
    (ctx.findPartial c name).1 = .ok ((ctx.frames.macro? name).or (ctx.code c name)) ∧
      (ctx.findPartial c name).2.code c = ctx.code c := by
  unfold findPartial
  cases ctx.frames.macro? name with
  | some body => exact ⟨rfl, rfl⟩
  | none =>
    rw [Option.none_or]
    cases kept : ctx.compiled.get? name with
    | some body => exact ⟨congrArg Except.ok (code_of_kept kept).symm, rfl⟩
    | none =>
      have known := code_of_fresh (c := c) kept
      cases source : ctx.options.partials.get? name with
      | none =>
        rw [source] at known
        exact ⟨congrArg Except.ok known.symm, rfl⟩
      | some text =>
        obtain ⟨compiled, outcome⟩ := Step.compileSource_safe c safe text
        rw [source, Option.bind_some, outcome] at known
        dsimp only
        rw [outcome]
        let once := ctx.compiledOnce.noteFaulty name compiled.problems
        have once_same : once.options = ctx.options ∧ once.compiled = ctx.compiled := by
          unfold once noteFaulty
          split <;> exact ⟨rfl, rfl⟩
        change _ ∧ (once.keep name compiled.template.body).code c = ctx.code c
        refine ⟨congrArg Except.ok known.symm, code_keep known once_same.1 ?_⟩
        rw [keep, once_same.2]

end

end Context

def Pairing.sameCode (c : Catalog) (code : String → Option (List Tree)) : Pairing where
  Matches options a b := options.safe = true ∧ a.limiter = none ∧ b.limiter = none ∧
    a.code c options = code ∧ b.code c options = code
  Parted _ _ _ := False

theorem Pairing.sameCode_lawful (c : Catalog) (code : String → Option (List Tree)) :
    (sameCode c code).Lawful c where
  note _ h := h
  log _ h := h
  count {x y} paired := by
    obtain ⟨-, left, right, -⟩ := paired.records
    rw [Step.count_none left, Step.count_none right]
    exact .steady _ paired
  tick := nofun
  find {x y} name paired := by
    obtain ⟨safe, left, right, code_left, code_right⟩ := paired.records
    obtain ⟨found, kept⟩ := Context.findPartial_code (c := c) safe name
    obtain ⟨found', kept'⟩ := Context.findPartial_code (c := c) (paired.options ▸ safe) name
    have right_eq : y.code c = code := by
      rw [Context.code, ← paired.options]
      exact code_right
    have left_eq : x.code c = code := code_left
    obtain ⟨frames, options, place, active, -, limiter⟩ := (x.findPartial_finds c name).rest
    obtain ⟨frames', options', place', active', -, limiter'⟩ := (y.findPartial_finds c name).rest
    have options_eq : (x.findPartial c name).2.options = (y.findPartial c name).2.options := by
      rw [options, options', paired.options]
    refine ⟨?_, ⟨?_, options_eq, ?_, ?_, ?_, limiter.trans left, limiter'.trans right, ?_, ?_⟩⟩
    · rw [found, found', paired.frames.macro?, right_eq, left_eq]
    · rw [frames, frames']
      exact paired.frames
    · rw [place, place', paired.place]
    · rw [active, active', paired.active]
    · rw [options]
      exact safe
    · exact kept.trans left_eq
    · rw [options_eq]
      exact kept'.trans right_eq

/-- The node of an item in its round: null counts as missing. -/
def Node.ofItem (item : Json.Value) : Node :=
  if (Node.value item).isNull then .missing else .value item

namespace Context

/-- Goes on to a round of the section whose frame is the innermost one. -/
def beginRound (i : Nat) (item : Json.Value) (ctx : Context) : Context :=
  (ctx.updateTop (.setIndex (some i))).enter (.ofItem item)

/-- The state in a round, with nothing executed before it: there is a frame for the array with the
number of the round, and one for the item. -/
def inRound (items : List Json.Value) (i : Nat) (item : Json.Value) (ctx : Context) : Context :=
  (ctx.push ((Frame.ofNode (.value (.array items))).setIndex (some i))).enter (.ofItem item)

/-- A state between two rounds of a section. Of the state in which the section was begun, all that
its code depends on is left. -/
structure BetweenRounds (begun : Context) (items : List Json.Value) (x : Context) : Prop where
  frames : ∃ index,
    x.frames = begun.frames.push ((Frame.ofNode (.value (.array items))).setIndex index)
  options : x.options = begun.options
  place : x.place = begun.place
  active : x.active = begun.active
  limiter : x.limiter = none
  code : x.code .core = begun.code .core

end Context

namespace Step

inductive Part where
  | body
  | between
  deriving DecidableEq

/-- Rounds as they follow on one another, with the parts that are executed in them. Each part
succeeds. -/
inductive Rounds (body between : Step Unit) :
    Nat → List Json.Value → Context → List Part → Context → Prop where
  | last {i : Nat} {item : Json.Value} {x after : Context} :
      body (x.beginRound i item) = (.ok (), after) →
        Rounds body between i [item] x [.body] after.pop
  | more {i : Nat} {item next : Json.Value} {rest : List Json.Value} {x middle turned after : Context}
      {parts : List Part} :
      body (x.beginRound i item) = (.ok (), middle) → between middle = (.ok (), turned) →
        Rounds body between (i + 1) (next :: rest) turned.pop parts after →
          Rounds body between i (item :: next :: rest) x (.body :: .between :: parts) after

section

variable {body between : Step Unit} {x after : Context}

theorem rounds_cons {i : Nat} {item : Json.Value} {rest : List Json.Value}
    (h : (do body; if !rest.isEmpty then between : Step Unit) (x.beginRound i item) =
      (.ok (), after)) :
    rounds body between i (item :: rest) x = rounds body between (i + 1) rest after.pop := by
  rw [rounds]
  exact (bind_ok rfl).trans (bind_ok (within_ok h))

theorem rounds_executed (first : Completes body) (second : Completes between)
    (i : Nat) (item : Json.Value) (rest : List Json.Value) (forgiving : x.Forgiving) :
    ∃ parts after, rounds body between i (item :: rest) x = (.ok (), after) ∧
      Rounds body between i (item :: rest) x parts after ∧
      parts.count .body = rest.length + 1 ∧ parts.count .between = rest.length := by
  induction rest generalizing i item x with
  | nil =>
    obtain ⟨_, after, outcome, -⟩ := first (x.beginRound i item) ⟨forgiving.safe, forgiving.limits⟩
    exact ⟨[.body], after.pop, rounds_cons (bind_ok outcome), .last outcome, rfl, rfl⟩
  | cons next rest ih =>
    have begun : (x.beginRound i item).Forgiving := ⟨forgiving.safe, forgiving.limits⟩
    obtain ⟨_, middle, outcome, settled⟩ := first (x.beginRound i item) begun
    have going := settled.forgiving begun
    obtain ⟨_, turned, further, settled'⟩ := second middle going
    have calmed := settled'.forgiving going
    have ready : turned.pop.Forgiving := ⟨calmed.safe, calmed.limits⟩
    obtain ⟨parts, after, done, executed, bodies, betweens⟩ := ih (i + 1) next ready
    have both : (do body; if !(next :: rest).isEmpty then between : Step Unit)
        (x.beginRound i item) = (.ok (), turned) := (bind_ok outcome).trans further
    refine ⟨_, after, (rounds_cons both).trans done, .more outcome further executed, ?_, ?_⟩
    · rw [List.count_cons_self, List.count_cons_of_ne (by decide), bodies]
      rfl
    · rw [List.count_cons_of_ne (by decide), List.count_cons_self, betweens]
      rfl

end

/-- What is executed in a round: the body, and unless it is the last one what stands between two. -/
def round (c : Catalog) (nested : Nested) (body : List Tree) (alternates : Alternates)
    (last : Bool) : Step Unit := do
  runTrees c nested body
  if !last then runAlternates c nested alternates

theorem completes_alternates (depth : Nat) (alternates : Alternates) :
    Completes (runAlternates .core (runNested .core depth) alternates) := by
  cases alternates with
  | none => exact completes_value ()
  | between place body close =>
    have nesting := completes_nested Catalog.core_contained depth
    exact completes_count.bind fun _ => completes_trees Catalog.core_contained nesting body

section

variable (depth : Nat) (body : List Tree) (alternates : Alternates) (last : Bool)

theorem completes_round :
    Completes (round .core (runNested .core depth) body alternates last) := by
  have nesting := completes_nested Catalog.core_contained depth
  refine (completes_trees Catalog.core_contained nesting body).bind fun _ => ?_
  cases last with
  | true => exact completes_value ()
  | false => exact completes_alternates depth alternates

theorem mirror_round : Mirror .core (runNested .core depth) (runNested .core depth) (fun _ => True)
    (round .core (runNested .core depth) body alternates last)
    (round .core (runNested .core depth) body alternates last) := by
  refine .bind (mirror_trees _ _ _ _ body fun _ _ => trivial) fun _ => ?_
  cases last with
  | true => exact .value ()
  | false => exact mirror_alternates _ _ _ _ alternates fun _ _ => trivial

theorem inStep_round {K : Pairing} (lawful : K.Lawful .core) :
    InStep K (round .core (runNested .core depth) body alternates last)
      (round .core (runNested .core depth) body alternates last) :=
  (mirror_round depth body alternates last).inStep lawful (inStep_nested lawful depth)
    (calm_nested Catalog.core_tidy depth)

theorem keeps_round : Keeps Context.Undisturbed
    (round .core (runNested .core depth) body alternates last) :=
  (mirror_round depth body alternates last).keeps Catalog.core_tidy
    (calm_nested Catalog.core_tidy depth)

end

section

variable {begun x : Context} {items : List Json.Value} (h : begun.BetweenRounds items x)
  (safe : begun.options.safe = true) (unlimited : begun.limiter = none) (depth : Nat)
  (body : List Tree) (alternates : Alternates)

include h safe unlimited

theorem round_apart (i : Nat) (item : Json.Value) (last : Bool) :
    ∃ text ended after,
      round .core (runNested .core depth) body alternates last (begun.inRound items i item) =
          (.ok (), ended) ∧ ended.output = begun.output ++ text ∧
        round .core (runNested .core depth) body alternates last (x.beginRound i item) =
          (.ok (), after) ∧ after.output = x.output ++ text ∧
        begun.BetweenRounds items after.pop := by
  -- The frames are the same as with nothing before; what has been compiled need not be.
  let K := Pairing.sameCode .core (begun.code .core)
  have frames : (x.beginRound i item).frames = (begun.inRound items i item).frames := by
    obtain ⟨index, frames⟩ := h.frames
    change (x.frames.updateTop _).push _ = _
    rw [frames]
    rfl
  have right_code : (begun.inRound items i item).code .core = begun.code .core := rfl
  have left_code : (x.beginRound i item).code .core = begun.code .core := h.code
  have paired : (x.beginRound i item).Paired K (begun.inRound items i item) := by
    refine ⟨frames ▸ .refl _, h.options, h.place, h.active, ?_, h.limiter, unlimited, left_code, ?_⟩
    · exact h.options ▸ safe
    · exact h.options ▸ right_code
  obtain ⟨_, after, outcome, settled⟩ := completes_round depth body alternates last
    (x.beginRound i item) (.of_unlimited (h.options ▸ safe) h.limiter)
  obtain ⟨_, ended, apart, -⟩ := completes_round depth body alternates last
    (begun.inRound items i item) (.of_unlimited safe unlimited)
  have both := (inStep_round depth body alternates last
    (Pairing.sameCode_lawful .core (begun.code .core))).together paired
  have kept := (keeps_round depth body alternates last (x.beginRound i item)).toKeepsBelow
  rw [outcome, apart] at both
  rw [outcome] at kept
  cases both with
  | same text now printed printed' =>
    refine ⟨text, ended, after, apart, printed', outcome, printed, ?_⟩
    have popped : after.pop = { after with frames := x.frames.updateTop (.setIndex (some i)) } :=
      kept.pop_eq
    obtain ⟨-, limiter, -, code, -⟩ := now.records
    obtain ⟨index, frames⟩ := h.frames
    rw [popped]
    exact {
      frames := ⟨some i, by rw [frames]; rfl⟩
      options := settled.options.trans h.options
      place := kept.place.trans h.place
      active := kept.active.trans h.active
      limiter := limiter
      code := code }

theorem rounds_apart (i : Nat) (more : List Json.Value) :
    ∃ texts after,
      rounds (runTrees .core (runNested .core depth) body)
          (runAlternates .core (runNested .core depth) alternates) i more x = (.ok (), after) ∧
        after.output = x.output ++ String.join texts ∧ begun.BetweenRounds items after ∧
        texts.length = more.length ∧
        ∀ k item, more[k]? = some item → ∃ text ended, texts[k]? = some text ∧
          round .core (runNested .core depth) body alternates (k + 1 = more.length)
            (begun.inRound items (i + k) item) = (.ok (), ended) ∧
          ended.output = begun.output ++ text := by
  -- On the items that are left: a round leaves a state between two rounds for the next one.
  induction more generalizing i x with
  | nil =>
    refine ⟨[], x, rfl, ?_, h, rfl, nofun⟩
    rw [String.join_nil, String.append_empty]
  | cons item rest ih =>
    obtain ⟨text, ended, turned, apart, printed, outcome, further, left⟩ :=
      round_apart h safe unlimited depth body alternates i item rest.isEmpty
    obtain ⟨texts, after, done, output, still, size, alone⟩ := ih left (i + 1)
    have joined : after.output = x.output ++ String.join (text :: texts) := by
      have same : turned.pop.output = turned.output := rfl
      rw [output, same, further, String.join_cons, String.append_assoc]
    refine ⟨text :: texts, after, (rounds_cons outcome).trans done, joined, still,
      congrArg (· + 1) size, ?_⟩
    intro k other found
    cases k with
    | zero =>
      cases found
      have last : rest.isEmpty = decide (0 + 1 = (item :: rest).length) := by
        cases rest <;> rfl
      exact ⟨text, ended, rfl, last ▸ apart, printed⟩
    | succ k =>
      obtain ⟨text, ended, found', apart, printed⟩ := alone k other found
      refine ⟨text, ended, found', ?_, printed⟩
      have last : decide (k + 1 = rest.length) = decide (k + 1 + 1 = (item :: rest).length) :=
        decide_eq_decide.mpr Nat.succ_inj.symm
      have number : i + 1 + k = i + (k + 1) := by omega
      rw [← number, ← last]
      exact apart

end

/-- A repeated section on an array that is not empty. Each of its rounds prints what it prints alone,
from the state in which the section was begun; the body is executed once for each item, and what
stands between two rounds once less; afterwards the frames are the same. -/
theorem repeated_apart {ctx : Context} (safe : ctx.options.safe = true)
    (unlimited : ctx.limiter = none) {var : VarName} {items : List Json.Value}
    (resolved : ctx.resolveSection var = .value (.array items)) (some' : items ≠ []) (depth : Nat)
    (place : Text.Position) (body : List Tree) (alternates : Alternates) (tail : Tail) :
    let nested := runNested .core depth
    let begun : Context := { ctx with place }
    ∃ texts parts last after,
      runTree .core nested (.repeated place var body alternates tail) ctx = (.ok (), after) ∧
        after = { last.pop with place := ctx.place } ∧
        Rounds (runTrees .core nested body) (runAlternates .core nested alternates) 0 items
          (begun.enter (.value (.array items))) parts last ∧
        parts.count .body = items.length ∧ parts.count .between = items.length - 1 ∧
        after.frames = ctx.frames ∧ after.output = ctx.output ++ String.join texts ∧
        texts.length = items.length ∧
        ∀ i item, items[i]? = some item → ∃ text ended, texts[i]? = some text ∧
          round .core nested body alternates (i + 1 = items.length) (begun.inRound items i item) =
            (.ok (), ended) ∧
          ended.output = ctx.output ++ text := by
  intro nested begun
  obtain ⟨item, rest, rfl⟩ := List.exists_cons_of_ne_nil some'
  let x := begun.enter (.value (.array (item :: rest)))
  have forgiving : x.Forgiving := .of_unlimited safe unlimited
  have nesting := completes_nested Catalog.core_contained depth
  obtain ⟨parts, last, done, executed, bodies, betweens⟩ :=
    rounds_executed (completes_trees Catalog.core_contained nesting body)
      (completes_alternates depth alternates) 0 item rest forgiving
  have fresh : begun.BetweenRounds (item :: rest) x :=
    ⟨⟨none, rfl⟩, rfl, rfl, rfl, unlimited, rfl⟩
  obtain ⟨texts, after, done', output, left, size, alone⟩ :=
    rounds_apart fresh safe unlimited depth body alternates 0 (item :: rest)
  cases done.symm.trans done'
  have popped : last.pop.frames = ctx.frames := by
    obtain ⟨index, frames⟩ := left.frames
    change last.frames.pop = _
    rw [frames]
    rfl
  refine ⟨texts, parts, last, _, instruction_ok ?_, rfl, executed, bodies, betweens, popped,
    output, size, ?_⟩
  · have uncounted : count begun = (.ok (), begun) := count_none unlimited
    have found : read (Context.resolveSection · var) begun =
        (.ok (.value (.array (item :: rest))), begun) :=
      congrArg (fun node => (Except.ok node, begun)) resolved
    exact (bind_ok uncounted).trans ((bind_ok found).trans (within_ok done))
  · intro i other found
    have apart := alone i other found
    rwa [Nat.zero_add] at apart

def twoItems : List Json.Value := [.string "one", .null]

def itemized : Context :=
  .start { RunOptions.strict with safe := true } none
    (.value (.object [("items", .array twoItems)]))

def binding : List Tree :=
  [.macroDef ⟨1, 1⟩ "m" [.leaf ⟨1, 1⟩ (.text "macro")] none,
    .block ⟨1, 1⟩ (.ifChain [.path [.key "@seen"]] []) [.leaf ⟨1, 1⟩ (.text "again")]
      (.closed ⟨1, 1⟩),
    .leaf ⟨1, 1⟩ (.bind "@seen" [.current] [])]

theorem repeated_apart_twoItems :
    itemized.options.safe = true ∧ itemized.limiter = none ∧
      itemized.resolveSection (.path [.key "items"]) = .value (.array twoItems) ∧ twoItems ≠ [] ∧
      ∃ texts after, runTree .core (runNested .core 0)
          (.repeated ⟨1, 1⟩ (.path [.key "items"]) binding
            (.between ⟨1, 1⟩ [.leaf ⟨1, 1⟩ (.text ", ")] none) (.closed ⟨1, 1⟩))
          itemized = (.ok (), after) ∧
        after.frames = itemized.frames ∧ after.output = itemized.output ++ String.join texts ∧
          texts.length = 2 := by
  have resolved : itemized.resolveSection (.path [.key "items"]) = .value (.array twoItems) := rfl
  have some' : twoItems ≠ [] := nofun
  have safe : itemized.options.safe = true := rfl
  have unlimited : itemized.limiter = none := rfl
  obtain ⟨texts, -, -, after, done, -, -, -, -, frames, output, size, -⟩ :=
    repeated_apart safe unlimited resolved some' 0 ⟨1, 1⟩ binding
      (.between ⟨1, 1⟩ [.leaf ⟨1, 1⟩ (.text ", ")] none) (.closed ⟨1, 1⟩)
  exact ⟨safe, unlimited, resolved, some', texts, after, done, frames, output, size⟩

end Step

end JsonTemplate
