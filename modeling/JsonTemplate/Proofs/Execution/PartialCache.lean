import JsonTemplate.Proofs.Execution.Company
import JsonTemplate.Proofs.Template.Modes
import Mathlib.Data.List.Nodup

namespace JsonTemplate

namespace Context

/-- Compiles the source of a partial at every use. -/
def findAnew (c : Catalog) : Search := fun name ctx =>
  match ctx.frames.macro? name with
  | some body => (.ok (some body), ctx)
  | none =>
    match ctx.options.partials.get? name with
    | none => (.ok none, ctx)
    | some source =>
      match compileSource c ctx.options source with
      | .error d => (.error d, ctx.compiledOnce)
      | .ok compiled =>
        (.ok (some compiled.template.body), ctx.compiledOnce.noteFaulty name compiled.problems)

/-- A search that writes down every compilation and counts none. What has been written down is what
is kept: an entry for each time that a source is compiled. A refused source has no code. -/
def findLogging (c : Catalog) : Search := fun name ctx =>
  match ctx.frames.macro? name with
  | some body => (.ok (some body), ctx)
  | none =>
    match ctx.compiled.get? name with
    | some body => (.ok (some body), ctx)
    | none =>
      match ctx.options.partials.get? name with
      | none => (.ok none, ctx)
      | some source =>
        match compileSource c ctx.options source with
        | .error d => (.error d, { ctx with compiled := (name, []) :: ctx.compiled })
        | .ok compiled =>
          let noted := ctx.noteFaulty name compiled.problems
          let body := compiled.template.body
          (.ok (some body), { noted with compiled := (name, body) :: noted.compiled })

end Context

/-- Both are reports that the same partial is faulty. -/
def Diagnostic.repeats (d e : Diagnostic) : Bool :=
  d.isFaultReport && e.isFaultReport && d.name == e.name

/-- Leaves out all reports of a faulty partial but the first. -/
def reportedOnce (problems : List Diagnostic) : List Diagnostic :=
  problems.foldl (fun kept d => if kept.any d.repeats then kept else kept ++ [d]) []

theorem reportedOnce_concat (problems : List Diagnostic) (d : Diagnostic) :
    reportedOnce (problems ++ [d]) =
      if (reportedOnce problems).any d.repeats then reportedOnce problems
      else reportedOnce problems ++ [d] := by
  simp [reportedOnce]

theorem reportedOnce_append {found : List Diagnostic}
    (plain : ∀ d ∈ found, d.isFaultReport = false) (problems : List Diagnostic) :
    reportedOnce (problems ++ found) = reportedOnce problems ++ found := by
  induction found generalizing problems with
  | nil => simp
  | cons d rest ih =>
    have first : ∀ e, d.repeats e = false := by simp [Diagnostic.repeats, plain d]
    have later := ih (fun e member => plain e (List.mem_cons_of_mem _ member)) (problems ++ [d])
    rw [reportedOnce_concat] at later
    simpa [first] using later

theorem reportedOnce_plain {problems : List Diagnostic}
    (plain : ∀ d ∈ problems, d.isFaultReport = false) : reportedOnce problems = problems :=
  reportedOnce_append plain []

namespace Bindings

variable {α : Type} {b : Bindings α} {name : String}

theorem mem_names_iff : name ∈ b.map Prod.fst ↔ ∃ value, b.get? name = some value := by
  constructor
  · intro member
    rw [← Option.ne_none_iff_exists']
    intro absent
    obtain ⟨entry, inside, same⟩ := List.mem_map.mp member
    have differs := List.lookup_eq_none_iff.mp absent entry inside
    simp [same] at differs
  · rintro ⟨value, found⟩
    exact List.mem_map.mpr ⟨_, mem_of_get? found, rfl⟩

theorem set_fresh (fresh : b.get? name = none) (value : α) :
    b.set name value = (name, value) :: b := by
  have others : b.filter (fun entry => decide (entry.1 ≠ name)) = b := by
    refine List.filter_eq_self.mpr fun entry inside => ?_
    have differs : name ≠ entry.1 := by simpa using List.lookup_eq_none_iff.mp fresh entry inside
    exact decide_eq_true differs.symm
  rw [set, others]

end Bindings

namespace Context

def faultReport (name : String) (problems : List Diagnostic) (x : Context) : Diagnostic :=
  ((x.problem .compilePartialSyntax).withName name).withCauses problems

@[simp] theorem faultReport_isFaultReport (name : String) (problems : List Diagnostic)
    (x : Context) : (x.faultReport name problems).isFaultReport = true := rfl

@[simp] theorem faultReport_name (name : String) (problems : List Diagnostic) (x : Context) :
    (x.faultReport name problems).name = some name := rfl

def faultReports (name : String) (problems : List Diagnostic) (x : Context) : List Diagnostic :=
  if problems.isEmpty then [] else [x.faultReport name problems]

theorem noteFaulty_eq (name : String) (problems : List Diagnostic) (x : Context) :
    x.noteFaulty name problems = x.keeping (x.account.noteAll (x.faultReports name problems)) := by
  unfold noteFaulty faultReports
  by_cases none : problems.isEmpty = true
  · simp [none]
  · simp [none]
    rfl

section

variable {c : Catalog} {name source : String} {x : Context} {body : List Tree}
  {compiled : Compiled} {d : Diagnostic}

theorem findAnew_defined (defined : x.frames.macro? name = some body) :
    findAnew c name x = (.ok (some body), x) := by
  simp [findAnew, defined]

theorem findLogging_defined (defined : x.frames.macro? name = some body) :
    findLogging c name x = (.ok (some body), x) := by
  simp [findLogging, defined]

variable (undefined : x.frames.macro? name = none)

include undefined

theorem findAnew_missing (missing : x.options.partials.get? name = none) :
    findAnew c name x = (.ok none, x) := by
  simp [findAnew, undefined, missing]

theorem findAnew_faulty (found : x.options.partials.get? name = some source)
    (faulty : compileSource c x.options source = .error d) :
    findAnew c name x = (.error d, x.compiledOnce) := by
  simp [findAnew, undefined, found, faulty]

theorem findAnew_compiled (found : x.options.partials.get? name = some source)
    (ok : compileSource c x.options source = .ok compiled) :
    findAnew c name x = (.ok (some compiled.template.body), x.keeping
      ⟨x.problems ++ x.faultReports name compiled.problems, x.compiled, x.compileCount + 1⟩) := by
  simp only [findAnew, undefined, found, ok, noteFaulty_eq]
  rfl

theorem findLogging_kept (kept : x.compiled.get? name = some body) :
    findLogging c name x = (.ok (some body), x) := by
  simp [findLogging, undefined, kept]

variable (fresh : x.compiled.get? name = none)

include fresh

theorem findLogging_missing (missing : x.options.partials.get? name = none) :
    findLogging c name x = (.ok none, x) := by
  simp [findLogging, undefined, fresh, missing]

theorem findLogging_faulty (found : x.options.partials.get? name = some source)
    (faulty : compileSource c x.options source = .error d) :
    findLogging c name x =
      (.error d, x.keeping ⟨x.problems, x.compiled.set name [], x.compileCount⟩) := by
  rw [Bindings.set_fresh fresh]
  simp [findLogging, undefined, fresh, found, faulty]
  rfl

theorem findLogging_compiled (found : x.options.partials.get? name = some source)
    (ok : compileSource c x.options source = .ok compiled) :
    findLogging c name x = (.ok (some compiled.template.body), x.keeping
      ⟨x.problems ++ x.faultReports name compiled.problems,
        x.compiled.set name compiled.template.body, x.compileCount⟩) := by
  rw [Bindings.set_fresh fresh]
  simp only [findLogging, undefined, fresh, found, ok, noteFaulty_eq]
  rfl

theorem find_compiled_keeping (found : x.options.partials.get? name = some source)
    (ok : compileSource c x.options source = .ok compiled) :
    x.findPartial c name = (.ok (some compiled.template.body), x.keeping
      ⟨x.problems ++ x.faultReports name compiled.problems,
        x.compiled.set name compiled.template.body, x.compileCount + 1⟩) := by
  rw [find_compiled undefined fresh found ok, noteFaulty_eq]
  rfl

end

end Context

/-- What has been compiled is written down, each name once, and the count is that of the entries. -/
structure Logged (o : RunOptions) (log : Bindings (List Tree)) (a q : Account) : Prop where
  distinct : (log.map Prod.fst).Nodup
  resolved : ∀ name ∈ log.map Prod.fst, ∃ source, o.partials.get? name = some source
  count : a.compileCount = log.length
  own : q = ⟨a.problems, log, 0⟩

theorem Logged.set {o : RunOptions} {log : Bindings (List Tree)} {a q : Account}
    (h : Logged o log a q) {name source : String} (fresh : log.get? name = none)
    (found : o.partials.get? name = some source) (body : List Tree) {b : Account}
    (counted : b.compileCount = a.compileCount + 1) :
    Logged o (log.set name body) b ⟨b.problems, log.set name body, 0⟩ := by
  rw [Bindings.set_fresh fresh]
  exact {
    distinct := by
      have absent : name ∉ log.map Prod.fst := by simp [Bindings.mem_names_iff, fresh]
      exact List.nodup_cons.mpr ⟨absent, h.distinct⟩
    resolved := List.forall_mem_cons.mpr ⟨⟨source, found⟩, h.resolved⟩
    count := by rw [counted, h.count, List.length_cons]
    own := rfl }

theorem Logged.keeping {x : Context} {q : Account}
    (h : Logged x.options x.compiled x.account q) : x.keeping q = { x with compileCount := 0 } := by
  rw [h.own]
  rfl

namespace Company

def logging (c : Catalog) : Company Unit where
  search _ := Context.findLogging c
  Going o a r := Logged o a.compiled a (r ())
  Ended o a r := ∃ log, Logged o log a (r ())

theorem logging_lawful (c : Catalog) : (logging c).Lawful c where
  ended going := ⟨_, going⟩
  note {o a r} found plain going := by
    have own : r () = ⟨a.problems, a.compiled, 0⟩ := going.own
    refine ⟨going.distinct, going.resolved, going.count, ?_⟩
    dsimp only
    rw [own]
    rfl
  find name x r going := by
    have going : Logged x.options x.compiled x.account (r ()) := going
    have own (i : Unit) : x.keeping (r i) = { x with compileCount := 0 } := going.keeping
    cases defined : x.frames.macro? name with
    | some body =>
      exact ⟨_, x, r, Context.find_defined defined, rfl,
        fun i => Context.findLogging_defined (x := x.keeping (r i)) defined, going⟩
    | none =>
      cases kept : x.compiled.get? name with
      | some body =>
        refine ⟨_, x, r, Context.find_kept defined kept, rfl, fun i => ?_, going⟩
        rw [own]
        exact Context.findLogging_kept (x := { x with compileCount := 0 }) defined kept
      | none =>
        cases found : x.options.partials.get? name with
        | none =>
          refine ⟨_, x, r, Context.find_missing defined kept found, rfl, fun i => ?_, going⟩
          rw [own]
          exact Context.findLogging_missing (x := { x with compileCount := 0 }) defined kept found
        | some source =>
          cases outcome : Context.compileSource c x.options source with
          | error d =>
            refine ⟨_, x.compiledOnce, fun _ => ⟨x.problems, x.compiled.set name [], 0⟩,
              Context.find_faulty defined kept found outcome, rfl, fun i => ?_,
              _, going.set kept found [] rfl⟩
            rw [own]
            exact Context.findLogging_faulty (x := { x with compileCount := 0 }) defined kept found
              outcome
          | ok compiled =>
            let body := compiled.template.body
            let problems := x.problems ++ x.faultReports name compiled.problems
            refine ⟨_, _, fun _ => ⟨problems, x.compiled.set name body, 0⟩,
              Context.find_compiled_keeping defined kept found outcome, rfl, fun i => ?_,
              going.set kept found body rfl⟩
            rw [own]
            exact Context.findLogging_compiled (x := { x with compileCount := 0 }) defined kept
              found outcome

end Company

/-- What is kept is what its source is compiled to, and all its problems have been reported. -/
structure Remembered (c : Catalog) (o : RunOptions) (a : Account) : Prop where
  sound : ∀ {name body}, a.compiled.get? name = some body → ∃ source compiled,
    o.partials.get? name = some source ∧ Context.compileSource c o source = .ok compiled ∧
      compiled.template.body = body ∧ (compiled.problems.isEmpty = false →
        ∃ d ∈ a.problems, d.isFaultReport = true ∧ d.name = some name)
  reported : ∀ d ∈ a.problems, d.isFaultReport = true →
    ∃ name body, d.name = some name ∧ a.compiled.get? name = some body

section

variable {c : Catalog} {o : RunOptions} {a : Account}

theorem Remembered.noteAll (h : Remembered c o a) {found : List Diagnostic}
    (plain : ∀ d ∈ found, d.isFaultReport = false) : Remembered c o (a.noteAll found) where
  sound kept := by
    obtain ⟨source, compiled, resolved, ok, same, reported⟩ := h.sound kept
    refine ⟨source, compiled, resolved, ok, same, fun faulty => ?_⟩
    obtain ⟨d, member, told⟩ := reported faulty
    exact ⟨d, List.mem_append_left _ member, told⟩
  reported d member told := by
    rcases List.mem_append.mp member with old | new
    · exact h.reported d old told
    · rw [plain d new] at told
      cases told

theorem Remembered.fresh_report (h : Remembered c o a) {name : String}
    (fresh : a.compiled.get? name = none) {d : Diagnostic} (same : d.name = some name) :
    a.problems.any d.repeats = false := by
  rw [List.any_eq_false]
  intro e member repeats
  simp only [Diagnostic.repeats, Bool.and_eq_true, beq_iff_eq] at repeats
  obtain ⟨⟨-, told⟩, names⟩ := repeats
  obtain ⟨other, body, named, kept⟩ := h.reported e member told
  have names : name = other := by simpa [same, named] using names
  rw [← names, fresh] at kept
  cases kept

variable {x : Context} {problems : List Diagnostic} {name : String}

theorem Remembered.report_again (h : Remembered c x.options x.account) {body : List Tree}
    (kept : x.compiled.get? name = some body) {source : String} {compiled : Compiled}
    (resolved : x.options.partials.get? name = some source)
    (ok : Context.compileSource c x.options source = .ok compiled) {others : List Diagnostic}
    (once : x.problems = reportedOnce others) :
    x.problems = reportedOnce (others ++ x.faultReports name compiled.problems) := by
  unfold Context.faultReports
  by_cases clean : compiled.problems.isEmpty = true
  · simpa [clean] using once
  · obtain ⟨source', compiled', resolved', ok', -, reported⟩ := h.sound kept
    cases resolved.symm.trans resolved'
    cases ok.symm.trans ok'
    obtain ⟨d, member, told, named⟩ := reported (by simpa using clean)
    have repeated : (reportedOnce others).any (x.faultReport name compiled.problems).repeats := by
      rw [← once, List.any_eq_true]
      exact ⟨d, member, by simp [Diagnostic.repeats, told, named]⟩
    rw [if_neg clean, reportedOnce_concat, if_pos repeated]
    exact once

theorem Remembered.report_first (h : Remembered c x.options x.account)
    (fresh : x.compiled.get? name = none) {others : List Diagnostic}
    (once : x.problems = reportedOnce others) :
    x.problems ++ x.faultReports name problems =
      reportedOnce (others ++ x.faultReports name problems) := by
  unfold Context.faultReports
  by_cases clean : problems.isEmpty = true
  · simpa [clean] using once
  · have first := h.fresh_report fresh (x.faultReport_name name problems)
    have first : (reportedOnce others).any (x.faultReport name problems).repeats = false := by
      rw [← once]
      exact first
    rw [if_neg clean, reportedOnce_concat, first, once]
    rfl

theorem Remembered.compile (h : Remembered c x.options x.account)
    {source : String} {compiled : Compiled}
    (resolved : x.options.partials.get? name = some source)
    (ok : Context.compileSource c x.options source = .ok compiled) (n : Nat) :
    Remembered c x.options ⟨x.problems ++ x.faultReports name compiled.problems,
      x.compiled.set name compiled.template.body, n⟩ where
  sound {other body} kept := by
    by_cases same : other = name
    · subst same
      rw [Bindings.get?_set_self] at kept
      refine ⟨source, compiled, resolved, ok, Option.some.inj kept, fun faulty => ?_⟩
      refine ⟨x.faultReport other compiled.problems, List.mem_append_right _ ?_, rfl, rfl⟩
      simp [Context.faultReports, faulty]
    · rw [Bindings.get?_set_of_ne same] at kept
      obtain ⟨source', compiled', resolved', ok', body', reported⟩ := h.sound kept
      refine ⟨source', compiled', resolved', ok', body', fun faulty => ?_⟩
      obtain ⟨d, member, told⟩ := reported faulty
      exact ⟨d, List.mem_append_left _ member, told⟩
  reported d member told := by
    rcases List.mem_append.mp member with old | new
    · obtain ⟨other, body, named, kept⟩ := h.reported d old told
      by_cases same : other = name
      · subst same
        exact ⟨other, _, named, Bindings.get?_set_self _ _⟩
      · exact ⟨other, body, named, (Bindings.get?_set_of_ne same _).trans kept⟩
    · unfold Context.faultReports at new
      split at new
      · cases new
      · rw [List.mem_singleton.mp new]
        exact ⟨name, _, rfl, Bindings.get?_set_self _ _⟩

end

namespace Company

def anew (c : Catalog) : Company Unit where
  search _ := Context.findAnew c
  Going o a r := Remembered c o a ∧ a.problems = reportedOnce (r ()).problems
  Ended _ a r := a.problems = reportedOnce (r ()).problems

theorem anew_lawful (c : Catalog) : (anew c).Lawful c where
  ended going := going.2
  note {o a r} found plain going := by
    refine ⟨going.1.noteAll plain, ?_⟩
    have once : a.problems = reportedOnce (r ()).problems := going.2
    simp only [Account.noteAll]
    rw [reportedOnce_append plain, ← once]
  find name x r going := by
    obtain ⟨remembered, once⟩ := going
    cases defined : x.frames.macro? name with
    | some body =>
      exact ⟨_, x, r, Context.find_defined defined, rfl,
        fun _ => Context.findAnew_defined defined, remembered, once⟩
    | none =>
      cases kept : x.compiled.get? name with
      | some body =>
        obtain ⟨source, compiled, resolved, ok, rfl, -⟩ := remembered.sound kept
        exact ⟨_, x, _, Context.find_kept defined kept, rfl,
          fun i => Context.findAnew_compiled (x := x.keeping (r i)) defined resolved ok,
          remembered, remembered.report_again kept resolved ok once⟩
      | none =>
        cases found : x.options.partials.get? name with
        | none =>
          exact ⟨_, x, r, Context.find_missing defined kept found, rfl,
            fun _ => Context.findAnew_missing defined found, remembered, once⟩
        | some source =>
          cases outcome : Context.compileSource c x.options source with
          | error d =>
            exact ⟨_, x.compiledOnce, fun i => { r i with compileCount := (r i).compileCount + 1 },
              Context.find_faulty defined kept found outcome, rfl,
              fun i => Context.findAnew_faulty (x := x.keeping (r i)) defined found outcome, once⟩
          | ok compiled =>
            exact ⟨_, _, _, Context.find_compiled_keeping defined kept found outcome, rfl,
              fun i => Context.findAnew_compiled (x := x.keeping (r i)) defined found outcome,
              remembered.compile found outcome _, remembered.report_first kept once⟩

end Company

section

open Context

/-- What is known of the cache when a run can be executed with any search. -/
structure CacheExact (exec : Search → Except Diagnostic Unit × Context) : Prop where
  /-- Writing down what is compiled changes nothing but what is kept and counted. -/
  logging : ∃ log, exec (findLogging .core) = ((exec (findPartial .core)).1,
    { (exec (findPartial .core)).2 with compiled := log, compileCount := 0 })
  /-- No name is written down twice. -/
  once : ((exec (findLogging .core)).2.compiled.map Prod.fst).Nodup
  resolved : ∀ name ∈ (exec (findLogging .core)).2.compiled.map Prod.fst, ∃ source,
    (exec (findPartial .core)).2.options.partials.get? name = some source
  /-- The count of compilations is the number of names that are written down. -/
  count : (exec (findPartial .core)).2.compileCount =
    ((exec (findLogging .core)).2.compiled.map Prod.fst).length
  outcome : (exec (findAnew .core)).1 = (exec (findPartial .core)).1
  output : (exec (findAnew .core)).2.output = (exec (findPartial .core)).2.output
  logged : (exec (findAnew .core)).2.logged = (exec (findPartial .core)).2.logged
  problems : (exec (findPartial .core)).2.problems = reportedOnce (exec (findAnew .core)).2.problems

abbrev runWith (extra : Nat) (t : Template) (x : Context) (find : Search) :
    Except Diagnostic Unit × Context := (Manner.ofSearch find).run .core extra t x

theorem conclude_keeping (result : Except Failure Unit) (x : Context) (a : Account) :
    conclude (result, x.keeping a) =
      ((conclude (result, x)).1, (conclude (result, x)).2.keeping a) := by
  rcases result with (d | ⟨name, message⟩) | u <;> rfl

theorem Company.run {ι : Type} {G : Company ι} (lawful : G.Lawful .core) (extra : Nat)
    (t : Template) {x : Context} (going : G.Going x.options x.account fun _ => x.account) :
    let lead := runWith extra t x (findPartial .core)
    ∃ r, (∀ i, runWith extra t x (G.search i) = (lead.1, lead.2.keeping (r i))) ∧
      G.Ended lead.2.options lead.2.account r := by
  obtain ⟨result, y, r, left, right, onward⟩ :=
    Step.inCompany_body lawful (x.nestingLimit .core t.body + extra) t.body x _ going
  have own : runWith extra t x (findPartial .core) = conclude (result, y) := congrArg conclude left
  have other (i : ι) : runWith extra t x (G.search i) = conclude (result, y.keeping (r i)) :=
    congrArg conclude (right i)
  refine ⟨r, fun i => ?_, ?_⟩
  · rw [other, own, conclude_keeping]
  · rw [own, conclude_state]
    cases result with
    | ok u => exact lawful.ended onward
    | error f =>
      rcases onward with going | ended
      · exact lawful.ended going
      · exact ended.2

/-- Before anything has been compiled. -/
structure Fresh (x : Context) : Prop where
  compiled : x.compiled = []
  compileCount : x.compileCount = 0
  problems : ∀ d ∈ x.problems, d.isFaultReport = false

theorem Fresh.logging {x : Context} (h : Fresh x) :
    (Company.logging .core).Going x.options x.account fun _ => x.account := by
  have none : x.account.compiled = [] := h.compiled
  have zero : x.account.compileCount = 0 := h.compileCount
  exact ⟨by simp [none], by simp [none], by simp [none, zero], by rw [← zero]⟩

theorem Fresh.anew {x : Context} (h : Fresh x) :
    (Company.anew .core).Going x.options x.account fun _ => x.account := by
  refine ⟨⟨fun {name body} kept => ?_, fun d member told => ?_⟩, ?_⟩
  · rw [account, h.compiled] at kept
    cases kept
  · rw [h.problems d member] at told
    cases told
  · exact (reportedOnce_plain h.problems).symm

theorem cacheExact_of_accounts {exec : Search → Except Diagnostic Unit × Context} {p q : Account}
    {log : Bindings (List Tree)}
    (written : exec (findLogging .core) =
      ((exec (findPartial .core)).1, (exec (findPartial .core)).2.keeping p))
    (ended : Logged (exec (findPartial .core)).2.options log
      (exec (findPartial .core)).2.account p)
    (again : exec (findAnew .core) =
      ((exec (findPartial .core)).1, (exec (findPartial .core)).2.keeping q))
    (once : (exec (findPartial .core)).2.problems = reportedOnce q.problems) :
    CacheExact exec := by
  have own : exec (findLogging .core) = ((exec (findPartial .core)).1,
      { (exec (findPartial .core)).2 with compiled := log, compileCount := 0 }) := by
    rw [written, ended.own]
    rfl
  refine ⟨⟨log, own⟩, ?_, ?_, ?_, ?_, ?_, ?_, ?_⟩
  · rw [own]
    exact ended.distinct
  · rw [own]
    exact ended.resolved
  · rw [own, List.length_map]
    exact ended.count
  · rw [again]
  · rw [again]
    rfl
  · rw [again]
    rfl
  · rw [again]
    exact once

theorem cacheExact_of_fresh {x : Context} (fresh : Fresh x) (extra : Nat) (t : Template) :
    CacheExact (runWith extra t x) := by
  obtain ⟨p, written, log, ended⟩ :=
    Company.run (Company.logging_lawful .core) extra t fresh.logging
  obtain ⟨q, again, once⟩ := Company.run (Company.anew_lawful .core) extra t fresh.anew
  exact cacheExact_of_accounts (written ()) ended (again ()) once

theorem cacheExact_of_refused (outcome : Except Diagnostic Unit) {x : Context} (fresh : Fresh x) :
    CacheExact fun _ => (outcome, x) := by
  refine ⟨⟨[], ?_⟩, by simp [fresh.compiled], by simp [fresh.compiled],
    by simp [fresh.compiled, fresh.compileCount], rfl, rfl, rfl,
    (reportedOnce_plain fresh.problems).symm⟩
  rw [← fresh.compiled, ← fresh.compileCount]

theorem fresh_start (options : RunOptions) (limiter : Option Limiter) (node : Node) :
    Fresh (start options limiter node) := ⟨rfl, rfl, by simp [start]⟩

theorem Fresh.noteAll {found : List Diagnostic} (plain : ∀ d ∈ found, d.isFaultReport = false)
    {x : Context} (h : Fresh x) : Fresh (found.foldl (fun ctx d => ctx.note d) x) := by
  induction found generalizing x with
  | nil => exact h
  | cons d rest ih =>
    refine ih (fun e member => plain e (List.mem_cons_of_mem _ member)) ?_
    refine ⟨h.compiled, h.compileCount, fun e member => ?_⟩
    rcases List.mem_append.mp member with old | new
    · exact h.problems e old
    · rw [List.mem_singleton.mp new]
      exact plain d List.mem_cons_self

theorem isFaultReport_of_ofCompile {d : Diagnostic} (h : d.ofCompile) :
    d.isFaultReport = false := by
  unfold Diagnostic.ofCompile at h
  unfold Diagnostic.isFaultReport Diagnostic.isRun
  cases fault : d.fault with
  | compile => simp
  | run => simp [fault] at h

theorem cacheExact_source {x : Context} (fresh : Fresh x) (extra : Nat) (source : String) :
    CacheExact fun find => (Manner.ofSearch find).runSource .core extra source x := by
  unfold Manner.runSource
  cases outcome : compileSource .core x.options source with
  | error d => exact cacheExact_of_refused (.error d) fresh
  | ok compiled =>
    have plain : ∀ d ∈ compiled.problems, d.isFaultReport = false :=
      fun d member => isFaultReport_of_ofCompile (Compiled.ofCompile_of_compile outcome member)
    exact cacheExact_of_fresh (fresh.noteAll plain) extra compiled.template

/-- The cache of partials is exact and cannot be seen from outside: every name is compiled at most
once, the count is the number of names compiled, and a run that compiles at every use has the same
outcome and output, and the same problems but for repeated reports of a faulty partial. -/
theorem partial_cache_exact (options : RunOptions) (limiter : Option Limiter) (node : Node)
    (extra : Nat) :
    let x := start options limiter node
    (∀ t, (Manner.ofSearch (findPartial .core)).run .core extra t x = x.run .core t ∧
      CacheExact fun find => (Manner.ofSearch find).run .core extra t x) ∧
    ∀ source,
      (Manner.ofSearch (findPartial .core)).runSource .core extra source x =
        x.runSource .core source ∧
      CacheExact fun find => (Manner.ofSearch find).runSource .core extra source x := by
  have fresh := fresh_start options limiter node
  refine ⟨fun t => ⟨?_, cacheExact_of_fresh fresh extra t⟩,
    fun source => ⟨?_, cacheExact_source fresh extra source⟩⟩
  · exact Manner.plain_run .core Catalog.core_tidy extra t _
  · exact Manner.plain_source .core Catalog.core_tidy extra source _

end

end JsonTemplate
