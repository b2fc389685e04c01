import JsonTemplate.Proofs.Execution.Watch
import JsonTemplate.Proofs.Template.Agreement
import JsonTemplate.Proofs.Template.SiteNames

namespace JsonTemplate

open JsonTemplate.Json JsonTemplate.Text

/-- The variables among the arguments of a core predicate, if it takes operands. -/
def CorePredicate.operands (p : CorePredicate) (args : Arguments) : List VarName :=
  match p with
  | debug => []
  | plural => []
  | singular => []
  | _ => args.values.filterMap fun raw => (Operand.parse? raw.toList).bind Operand.name?

/-- The variables that a call of a predicate refers to. A core predicate refers to its operands;
another one names what it reads. -/
inductive Call.Refers (c : Catalog) (call : Call) : VarName → Prop where
  | operand (p : CorePredicate) {v : VarName} : c.predicate? call.name = some p.toPredicate →
      v ∈ p.operands call.args → Refers c call v
  | own {v : VarName} : (∀ p : CorePredicate, c.predicate? call.name ≠ some p.toPredicate) →
      v ∈ c.vocabulary.predicateVars call.name call.args → Refers c call v

/-- The variables that an instruction refers to. -/
inductive Op.Refers (c : Catalog) : Op → VarName → Prop where
  | output {vars : List VarName} {calls : List Call} {v : VarName} :
      v ∈ vars → Refers c (.leaf (.output vars calls)) v
  | bind {name : String} {vars : List VarName} {calls : List Call} {v : VarName} :
      v ∈ vars → Refers c (.leaf (.bind name vars calls)) v
  | chain {vars : List VarName} {ops : List BoolOp} {v : VarName} :
      v ∈ vars → Refers c (.opening (.ifChain vars ops)) v
  | test {op : Op} {call : Call} {v : VarName} :
      call ∈ op.predicates → call.Refers c v → Refers c op v

section

variable {c : Catalog} {call : Call} {v : VarName} {op : Op}

theorem CorePredicate.vars_eq (p : CorePredicate) (args : Arguments) :
    p.vars args = if args.accepted then p.operands args else [] := by
  cases p with
  | debug | plural | singular => exact (ite_self []).symm
  | compare | even | odd | nth => rfl

theorem predicateVars_core {p : CorePredicate}
    (core : c.predicate? call.name = some p.toPredicate) :
    c.vocabulary.predicateVars call.name call.args = p.vars call.args := by
  simp only [Catalog.vocabulary, core]
  rfl

theorem Call.refers_of_vars (member : v ∈ c.vocabulary.predicateVars call.name call.args) :
    call.Refers c v := by
  by_cases known : ∃ p : CorePredicate, c.predicate? call.name = some p.toPredicate
  · obtain ⟨p, core⟩ := known
    rw [predicateVars_core core, p.vars_eq] at member
    split at member
    · exact .operand p core member
    · cases member
  · exact .own (fun p core => known ⟨p, core⟩) member

theorem Call.Refers.vars (accepted : call.args.accepted = true) (h : call.Refers c v) :
    v ∈ c.vocabulary.predicateVars call.name call.args := by
  cases h with
  | operand p core member =>
    rw [predicateVars_core core, p.vars_eq, if_pos accepted]
    exact member
  | own _ member => exact member

theorem Op.refers_of_uses (member : v ∈ op.uses c.vocabulary) : op.Refers c v := by
  unfold uses at member
  split at member
  · exact .output member
  · exact .bind member
  · exact .test List.mem_cons_self (Call.refers_of_vars member)
  · exact .chain member
  · exact .test List.mem_cons_self (Call.refers_of_vars member)
  · cases member

theorem Op.Refers.uses (agreed : op.Agreed) (other : ∀ call, op ≠ .opening (.ifPredicate call))
    (h : op.Refers c v) : v ∈ op.uses c.vocabulary := by
  cases h with
  | output member | bind member | chain member => exact member
  | @test _ call _ called refers =>
    have member := refers.vars (agreed call called)
    unfold predicates at called
    split at called
    · cases List.mem_singleton.mp called
      exact member
    · exact absurd rfl (other _)
    · cases List.mem_singleton.mp called
      exact member
    · cases called

end

/-- The sections that a name at an instruction can be listed under: those in whose scopes it is
executed, with or without the sections of whose branches it is a part. -/
def Enclosing.Lists (around : List Enclosing) (χ : List String) : Prop :=
  χ = scopes around ∨ χ = names around

/-- How the variables that a report lists relate to the scopes of a run. -/
structure Template.ReportsScopes (c : Catalog) (t : Template) (report : Value) : Prop where
  /-- What an instruction refers to is listed under its sections. -/
  listed : ∀ s ∈ t.sites, (∀ call, s.instruction.op ≠ .opening (.ifPredicate call)) →
    ∀ v, s.instruction.op.Refers c v →
      ∃ χ, Enclosing.Lists s.around χ ∧ report.Names ("variables" :: χ) v.text
  /-- What is listed under some sections is what an instruction refers to, or a section, and these
  are its sections. -/
  referred : ∀ χ w, report.Names ("variables" :: χ) w →
    ∃ s ∈ t.sites, Enclosing.Lists s.around χ ∧
      ((∃ v, s.instruction.op.Refers c v ∧ v.text = w) ∨ s.instruction.op.opened = some w)
  /-- An instruction is executed in the scopes of its sections: the template pushes frames for just
  these, and a macro pushes frames for those of them that are not around the macro. -/
  executed : ∀ code ∈ t.codes, ∀ depth ctx, Step.Always c (Step.runNested c depth) code.2
    (Step.InScope t.sites (Enclosing.scopes code.1) ctx.nodes) ctx

namespace Report

open Enclosing

theorem toValue_names (r : Report) (χ : List String) (w : String) :
    r.toValue.Names ("variables" :: χ) w ↔ r.usage.Names χ w := by
  have found : Value.lookup "variables" r.toValue.members = some r.usage.toValue := by
    simp [toValue, Value.members, Value.lookup]
  rw [← Usage.toValue_names, Value.Names, found]
  simp

/-- The variables in the report of a strictly compiled source mirror the scopes of its runs. -/
theorem ofTemplate_scopes (c : Catalog) (tidy : c.Tidy) (preprocess : Bool) (expr : ExprOptions)
    (source : List Char) (compiled : Compiled)
    (ok : Compiled.compile c.vocabulary ⟨false, preprocess, expr⟩ source = .ok compiled) :
    compiled.template.ReportsScopes c (ofTemplate c.vocabulary compiled.template).toValue where
  listed s among other v refers := by
    have member : s.instruction ∈ compiled.template.scanned := by
      rw [← Template.sites_instructions]
      exact List.mem_map_of_mem among
    have used := refers.uses (Compiled.compile_agreed ok _ member) other
    refine ⟨names s.around, .inr rfl, (toValue_names _ _ _).mpr ?_⟩
    refine (ofTemplate_names _ _ _ _).mpr ⟨s, among, rfl, ?_⟩
    exact List.mem_append_right _ (List.mem_map_of_mem used)
  referred χ w named := by
    obtain ⟨s, among, here, member⟩ :=
      (ofTemplate_names _ _ _ _).mp ((toValue_names _ _ _).mp named)
    refine ⟨s, among, .inr here.symm, ?_⟩
    rcases List.mem_append.mp member with opened | used
    · exact .inr (Option.mem_toList.mp opened)
    · obtain ⟨v, used, same⟩ := List.mem_map.mp used
      exact .inl ⟨v, Op.refers_of_uses used, same⟩
  executed _ member depth ctx := Step.always_inScope tidy member depth ctx

def nestedRounds : List Char :=
  ("\x7b.section a\x7d\x7b.repeated section b\x7d\x7b.equal? x 1\x7dy\x7b.end\x7d" ++
    "\x7b.alternates with\x7d\x7bz\x7d\x7b.end\x7d\x7b.end\x7d").toList

theorem ofTemplate_scopes_nested :
    Catalog.core.Tidy ∧
      ∃ compiled, Compiled.compile Catalog.core.vocabulary ⟨false, false, .unlimited⟩ nestedRounds =
          .ok compiled ∧
        compiled.template.ReportsScopes .core
          (ofTemplate Catalog.core.vocabulary compiled.template).toValue ∧
        (ofTemplate Catalog.core.vocabulary compiled.template).toValue.Names
          ["variables", "a", "b"] "x" ∧
        (ofTemplate Catalog.core.vocabulary compiled.template).toValue.Names
          ["variables", "a", "b"] "z" := by
  have found : ((Compiled.compile Catalog.core.vocabulary ⟨false, false, .unlimited⟩
      nestedRounds).toOption.map fun c =>
        let report := (ofTemplate Catalog.core.vocabulary c.template).toValue
        (decide (report.Names ["variables", "a", "b"] "x"),
          decide (report.Names ["variables", "a", "b"] "z"))) = some (true, true) := by
    decide +kernel
  obtain ⟨compiled, some', names⟩ := Option.map_eq_some_iff.mp found
  obtain ⟨first, second⟩ := Prod.mk.inj names
  have ok := Compiled.ok_of_toOption some'
  exact ⟨Catalog.core_tidy, compiled, ok,
    ofTemplate_scopes .core Catalog.core_tidy false .unlimited nestedRounds compiled ok,
    of_decide_eq_true first, of_decide_eq_true second⟩

def macroInSection : List Char :=
  ("\x7b.macro m\x7d\x7bv\x7d\x7b.end\x7d" ++
    "\x7b.section a\x7d\x7b@|apply m\x7d\x7b.end\x7d").toList

/-- What a macro refers to is not listed under the section that it is applied in, although it is
executed in the scope of that section. -/
theorem ofTemplate_scopes_macro :
    ∃ compiled, Compiled.compile Catalog.core.vocabulary ⟨false, false, .unlimited⟩ macroInSection =
        .ok compiled ∧
      (ofTemplate Catalog.core.vocabulary compiled.template).toValue.Names ["variables"] "v" ∧
      ¬(ofTemplate Catalog.core.vocabulary compiled.template).toValue.Names ["variables", "a"] "v" ∧
      ((Context.start .strict none (.value (.object [("a", .object [("v", .text "inner")]),
        ("v", .text "outer")]))).run .core compiled.template).2.output = "inner" := by
  have found : ((Compiled.compile Catalog.core.vocabulary ⟨false, false, .unlimited⟩
      macroInSection).toOption.map fun c =>
        let report := (ofTemplate Catalog.core.vocabulary c.template).toValue
        (decide (report.Names ["variables"] "v"), decide (report.Names ["variables", "a"] "v"),
          ((Context.start .strict none (.value (.object [("a", .object [("v", .text "inner")]),
            ("v", .text "outer")]))).run .core c.template).2.output)) =
      some (true, false, "inner") := by
    decide +kernel
  obtain ⟨compiled, some', same⟩ := Option.map_eq_some_iff.mp found
  obtain ⟨outside, rest⟩ := Prod.mk.inj same
  obtain ⟨inside, output⟩ := Prod.mk.inj rest
  exact ⟨compiled, Compiled.ok_of_toOption some', of_decide_eq_true outside,
    of_decide_eq_false inside, output⟩

end Report

end JsonTemplate
