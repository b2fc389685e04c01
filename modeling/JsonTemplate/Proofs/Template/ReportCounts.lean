import Mathlib.Algebra.Order.Group.Multiset
import Mathlib.Tactic.Abel
import JsonTemplate.Plugin.Core
import JsonTemplate.Proofs.Assembly.Formed
import JsonTemplate.Proofs.Template.MacroSource
import JsonTemplate.Proofs.Template.Scan

namespace JsonTemplate

open JsonTemplate.Text

namespace Tree

open Instruction

mutual

theorem scanned_perm : (t : Tree) → (t.scanned : Multiset Instruction) =
    t.linear + (closings t.implied : Multiset Instruction)
  | leaf _ _ => rfl
  | block place o body tail => by
    have inside := scannedAll_perm body
    have after := scannedTail_perm tail
    simp only [scanned, linear, implied, closings_append, List.cons_append, ← Multiset.cons_coe,
      ← Multiset.coe_add, inside, after, Multiset.cons_add]
    congr 1
    abel
  | repeated place var body alternates tail => by
    have inside := scannedAll_perm body
    have after := scannedTail_perm tail
    have part := scannedAlternates_perm alternates
    simp only [scanned, linear, implied, closings_append, List.cons_append, ← Multiset.cons_coe,
      ← Multiset.coe_add, inside, after, part, Multiset.cons_add]
    congr 1
    abel
  | macroDef place name body close => by
    have inside := scannedAll_perm body
    simp only [scanned, linear, implied, List.cons_append, ← Multiset.cons_coe, ← Multiset.coe_add,
      inside, Multiset.cons_add]
    congr 1
    abel

theorem scannedAll_perm : (items : List Tree) → (scannedAll items : Multiset Instruction) =
    linearAll items + (closings (impliedAll items) : Multiset Instruction)
  | [] => rfl
  | t :: rest => by
    have first := scanned_perm t
    have later := scannedAll_perm rest
    simp only [scannedAll, linearAll, impliedAll, closings_append, ← Multiset.coe_add, first, later]
    abel

theorem scannedTail_perm : (tail : Tail) → (scannedTail tail : Multiset Instruction) =
    linearTail tail + (closings (impliedTail tail) : Multiset Instruction)
  | .unclosed => rfl
  | .closed _ => rfl
  | .or place call body tail => by
    have inside := scannedAll_perm body
    have after := scannedTail_perm tail
    simp only [scannedTail, linearTail, impliedTail, closings_append, List.cons_append,
      ← Multiset.cons_coe, ← Multiset.coe_add, inside, after, Multiset.cons_add]
    congr 1
    abel

theorem scannedAlternates_perm : (alternates : Alternates) →
    (scannedAlternates alternates : Multiset Instruction) =
      linearAlternates alternates + (closings (impliedAlternates alternates) : Multiset Instruction)
  | .none => rfl
  | .between place body close => by
    have inside := scannedAll_perm body
    have last : (close.map fun stop => Instruction.mk stop .close).toList =
        closings close.toList := by cases close <;> rfl
    simp only [scannedAlternates, linearAlternates, impliedAlternates, closings_append,
      List.cons_append, ← Multiset.cons_coe, ← Multiset.coe_add, inside, last, Multiset.cons_add]
    congr 1
    abel

end

theorem ifTags_of_branch {tail : Tail} (none : tail.branch = none) :
    Instruction.ifTags (scannedTail tail) = [] ∧ Instruction.ifTags (linearTail tail) = [] := by
  cases tail with
  | unclosed | closed => exact ⟨rfl, rfl⟩
  | or => cases none

mutual

theorem Formed.ifTags {t : Tree} : t.Formed → t.implied = [] →
    Instruction.ifTags t.scanned = Instruction.ifTags t.linear
  | .leaf _ _, _ => rfl
  | .block place o body tail, free => by
    obtain ⟨first, second⟩ := List.append_eq_nil_iff.mp free
    simp only [scanned, linear, List.cons_append, ifTags_cons, ifTags_append, body.ifTags first,
      tail.ifTags second]
  | .repeated place var body alternates tail, free => by
    obtain ⟨front, third⟩ := List.append_eq_nil_iff.mp free
    obtain ⟨first, second⟩ := List.append_eq_nil_iff.mp front
    cases alternates with
    | none =>
      simp only [scanned, linear, List.cons_append, ifTags_cons, ifTags_append, body.ifTags first,
        tail.ifTags third, scannedAlternates, linearAlternates, List.append_nil]
    | between _ start part =>
      obtain ⟨inside, noBranch⟩ := List.append_eq_nil_iff.mp second
      obtain ⟨scan, list⟩ := ifTags_of_branch (Option.toList_eq_nil_iff.mp noBranch)
      simp only [scanned, linear, List.cons_append, ifTags_cons, ifTags_append, body.ifTags first,
        scan, list, scannedAlternates, linearAlternates, part.ifTags inside,
        Option.toList_eq_nil_iff.mp noBranch, Option.map_none, Option.toList_none, List.append_nil]
  | .macroDef place close name body, free => by
    simp only [scanned, linear, List.cons_append, ifTags_cons, ifTags_append, body.ifTags free]

theorem FormedAll.ifTags {items : List Tree} : FormedAll items → impliedAll items = [] →
    Instruction.ifTags (scannedAll items) = Instruction.ifTags (linearAll items)
  | .nil, _ => rfl
  | .cons first later, free => by
    obtain ⟨one, more⟩ := List.append_eq_nil_iff.mp free
    simp only [scannedAll, linearAll, ifTags_append, first.ifTags one, later.ifTags more]

theorem FormedTail.ifTags {tail : Tail} : FormedTail tail → impliedTail tail = [] →
    Instruction.ifTags (scannedTail tail) = Instruction.ifTags (linearTail tail)
  | .closed _, _ => rfl
  | .test place call body tail, free => by
    obtain ⟨first, second⟩ := List.append_eq_nil_iff.mp free
    simp only [scannedTail, linearTail, List.cons_append, ifTags_cons, ifTags_append,
      body.ifTags first, tail.ifTags second]
  | .last place close body, free => by
    obtain ⟨first, -⟩ := List.append_eq_nil_iff.mp free
    simp only [scannedTail, linearTail, List.cons_append, ifTags_cons, ifTags_append,
      body.ifTags first]

end

end Tree

namespace Template

theorem scanned_perm (t : Template) :
    t.scanned.Perm (t.linear ++ Instruction.closings (Tree.impliedAll t.body)) := by
  have body := Tree.scannedAll_perm t.body
  rw [← Multiset.coe_eq_coe]
  simp only [scanned, linear, ← Multiset.coe_add, body]
  abel

theorem scanned_ifTags {t : Template} (formed : Tree.FormedAll t.body)
    (free : Tree.impliedAll t.body = []) :
    Instruction.ifTags t.scanned = Instruction.ifTags t.linear := by
  simp only [scanned, linear, Instruction.ifTags_append, formed.ifTags free]

end Template

namespace Instruction

theorem typeNames_closings (places : List Position) :
    typeNames (closings places) = List.replicate places.length "END" := by
  induction places with
  | nil => rfl
  | cons place rest ih => exact congrArg ("END" :: ·) ih

theorem quiet_closings (places : List Position) :
    formatterNames (closings places) = [] ∧ predicateNames (closings places) = [] ∧
      textBytes (closings places) = 0 ∧ ifTags (closings places) = [] := by
  induction places with
  | nil => exact ⟨rfl, rfl, rfl, rfl⟩
  | cons place rest ih =>
    obtain ⟨formatters, predicates, bytes, tags⟩ := ih
    exact ⟨formatters, predicates, (Nat.zero_add _).trans bytes, tags⟩

variable {items others : List Instruction} {places : List Position}

theorem typeNames_of_perm (h : items.Perm (others ++ closings places)) :
    (typeNames items).Perm (typeNames others ++ List.replicate places.length "END") := by
  rw [← typeNames_closings, typeNames, typeNames, typeNames, ← List.map_append]
  exact h.map _

theorem formatterNames_of_perm (h : items.Perm (others ++ closings places)) :
    (formatterNames items).Perm (formatterNames others) := by
  rw [← List.append_nil (formatterNames others), ← (quiet_closings places).1, formatterNames,
    formatterNames, formatterNames, ← List.flatMap_append]
  exact h.flatMap_right _

theorem predicateNames_of_perm (h : items.Perm (others ++ closings places)) :
    (predicateNames items).Perm (predicateNames others) := by
  rw [← List.append_nil (predicateNames others), ← (quiet_closings places).2.1, predicateNames,
    predicateNames, predicateNames, ← List.flatMap_append]
  exact h.flatMap_right _

theorem textBytes_append (front back : List Instruction) :
    textBytes (front ++ back) = textBytes front + textBytes back := by
  induction front with
  | nil => exact (Nat.zero_add _).symm
  | cons i rest ih => rw [List.cons_append, textBytes, textBytes, ih, Nat.add_assoc]

theorem textBytes_perm (h : items.Perm others) : textBytes items = textBytes others := by
  induction h with
  | nil => rfl
  | cons i _ ih => rw [textBytes, textBytes, ih]
  | swap i j rest => simp only [textBytes, Nat.add_left_comm]
  | trans _ _ first second => exact first.trans second

theorem textBytes_of_perm (h : items.Perm (others ++ closings places)) :
    textBytes items = textBytes others := by
  rw [textBytes_perm h, textBytes_append, (quiet_closings places).2.2.1, Nat.add_zero]

theorem ifTags_of_perm (h : items.Perm (others ++ closings places)) :
    (ifTags items).Perm (ifTags others) := by
  rw [← List.append_nil (ifTags others), ← (quiet_closings places).2.2.2, ← ifTags_append]
  exact h.filterMap _

end Instruction

namespace Compiled

variable {vocabulary : Vocabulary} {preprocess : Bool} {expr : ExprOptions} {source : List Char}

theorem compile_read {c : Compiled}
    (h : compile vocabulary ⟨false, preprocess, expr⟩ source = .ok c) :
    ∃ items stop a,
      Event.instructions (Event.ofSource ⟨vocabulary, expr, preprocess⟩ source) =
          items ++ [Instruction.mk stop .eof] ∧ (∀ i ∈ items, i.op.isEof = false) ∧
        (Assembly.start false).feed (items ++ [⟨stop, .eof⟩]) = (a, none) ∧
          c = ⟨a.finish, [], a.count⟩ := by
  obtain ⟨a, fed, rfl⟩ := Pattern.ok_of_map (f := fun a : Assembly => Compiled.mk a.finish [] a.count)
    (show _ = Except.ok c from h)
  obtain ⟨clean, run⟩ := feedStrict_clean fed
  rw [Event.ofSource, Event.problems, List.filterMap_append] at clean
  obtain ⟨ops, does⟩ := Event.does_pieces (List.append_eq_nil_iff.mp clean).1
  obtain ⟨items, stop, read, rfl⟩ := does.ofSource rfl
  rw [read, Event.instructions_emits] at run ⊢
  exact ⟨items, stop, a, rfl, does.going, run, rfl⟩

theorem compile_formed {c : Compiled}
    (h : compile vocabulary ⟨false, preprocess, expr⟩ source = .ok c) :
    let stream := Event.instructions (Event.ofSource ⟨vocabulary, expr, preprocess⟩ source)
    Tree.FormedAll c.template.body ∧ c.template.linear = stream ∧ c.count = stream.length ∧
      Tree.impliedAll c.template.body = BlockKind.implied [] stream := by
  obtain ⟨items, stop, a, read, going, fed, rfl⟩ := compile_read h
  have formed := Assembly.formed_of_feed going fed
  have linear := linear_of_feed going fed
  have counted := Assembly.feed_count fed
  refine ⟨formed, linear.trans read.symm, ?_, ?_⟩
  · rw [read, counted]
    exact Nat.zero_add _
  · rw [read, ← linear, Template.linear, formed.implied]
    cases a.finish.eof <;> simp [BlockKind.implied, BlockKind.impliedBy]

end Compiled

namespace Report

open Instruction

/-- What the report of a strictly compiled source counts. It counts what the source holds, and a
closing tag more for each `.or` that ends a part between rounds. -/
theorem ofTemplate_counts (vocabulary : Vocabulary) (preprocess : Bool) (expr : ExprOptions)
    (source : List Char) (c : Compiled)
    (compiled : Compiled.compile vocabulary ⟨false, preprocess, expr⟩ source = .ok c) :
    let report := ofTemplate vocabulary c.template
    let stream := Event.instructions (Event.ofSource ⟨vocabulary, expr, preprocess⟩ source)
    let implied := BlockKind.implied [] stream
    (∀ name, report.instructions.count name =
        (typeNames stream).count name + if name = "END" then implied.length else 0) ∧
      c.count = stream.length ∧ report.instructions.total = c.count + implied.length ∧
      (∀ name, report.formatters.count name = (formatterNames stream).count name) ∧
      (∀ name, report.predicates.count name = (predicateNames stream).count name) ∧
      report.textBytes = Instruction.textBytes stream ∧
      report.ifTags.Perm (Instruction.ifTags stream) ∧
      (implied = [] → report.ifTags = Instruction.ifTags stream) := by
  intro report stream implied
  obtain ⟨formed, linear, counted, same⟩ := Compiled.compile_formed compiled
  -- The report takes in what a scan meets, in any order what is read and the implied closing tags.
  have met := (ofTemplate_meets vocabulary c.template).trans (meetAll_eq _ _ _)
  rw [c.template.sites_instructions] at met
  have all : c.template.scanned.Perm (stream ++ closings implied) := by
    have perm := c.template.scanned_perm
    rwa [linear, same] at perm
  have sorted : Tally.Sorted [] := .nil
  have names : report.instructions = Tally.bumpAll (typeNames c.template.scanned) [] :=
    congrArg Report.instructions met
  have formatters : report.formatters = Tally.bumpAll (formatterNames c.template.scanned) [] :=
    congrArg Report.formatters met
  have predicates : report.predicates = Tally.bumpAll (predicateNames c.template.scanned) [] :=
    congrArg Report.predicates met
  have tags : report.ifTags = Instruction.ifTags c.template.scanned := congrArg Report.ifTags met
  refine ⟨fun name => ?_, counted, ?_, fun name => ?_, fun name => ?_, ?_, ?_, fun free => ?_⟩
  · rw [names, Tally.count_bumpAll _ sorted, (typeNames_of_perm all).count_eq, List.count_append,
      List.count_replicate]
    rcases eq_or_ne name "END" with rfl | other
    · simp [Tally.count]
    · simp [Tally.count, other, other.symm]
  · rw [names, Tally.total_bumpAll, (typeNames_of_perm all).length_eq, counted]
    simp [Tally.total, typeNames, stream]
  · rw [formatters, Tally.count_bumpAll _ sorted, (formatterNames_of_perm all).count_eq]
    exact Nat.zero_add _
  · rw [predicates, Tally.count_bumpAll _ sorted, (predicateNames_of_perm all).count_eq]
    exact Nat.zero_add _
  · have bytes := congrArg Report.textBytes met
    exact bytes.trans ((Nat.zero_add _).trans (textBytes_of_perm all))
  · rw [tags]
    exact ifTags_of_perm all
  · rw [tags, Template.scanned_ifTags formed (same.trans free), linear]

def branchedRounds : List Char :=
  ("\x7b.repeated section a\x7d\x7bx|json\x7d\x7b.alternates with\x7d, " ++
    "\x7b.or\x7d-\x7b.end\x7d").toList

theorem ofTemplate_counts_branches :
    ∃ c,
      Compiled.compile Catalog.core.vocabulary ⟨false, false, .unlimited⟩ branchedRounds = .ok c ∧
      (let report := ofTemplate Catalog.core.vocabulary c.template
      let stream := Event.instructions
        (Event.ofSource ⟨Catalog.core.vocabulary, .unlimited, false⟩ branchedRounds)
      let implied := BlockKind.implied [] stream
      (∀ name, report.instructions.count name =
          (typeNames stream).count name + if name = "END" then implied.length else 0) ∧
        c.count = stream.length ∧ report.instructions.total = c.count + implied.length ∧
        (∀ name, report.formatters.count name = (formatterNames stream).count name) ∧
        (∀ name, report.predicates.count name = (predicateNames stream).count name) ∧
        report.textBytes = Instruction.textBytes stream ∧
        report.ifTags.Perm (Instruction.ifTags stream) ∧
        (implied = [] → report.ifTags = Instruction.ifTags stream)) := by
  have found : (Compiled.compile Catalog.core.vocabulary ⟨false, false, .unlimited⟩
      branchedRounds).toOption.isSome := by
    decide +kernel
  obtain ⟨c, some'⟩ := Option.isSome_iff_exists.mp found
  have compiled := Compiled.ok_of_toOption some'
  exact ⟨c, compiled, ofTemplate_counts _ false .unlimited _ c compiled⟩

/-- A test in the part between the rounds, and another one in the branch behind it. -/
def branchedTests : List Char :=
  ("\x7b.repeated section a\x7d\x7b.alternates with\x7d\x7b.if x\x7d1\x7b.end\x7d" ++
    "\x7b.or\x7d\x7b.if y\x7d2\x7b.end\x7d\x7b.end\x7d").toList

/-- The first source has one closing tag, and its report counts two. The report of the second one
lists the later test first. -/
theorem ofTemplate_counts_closing :
    (∃ c,
      Compiled.compile Catalog.core.vocabulary ⟨false, false, .unlimited⟩ branchedRounds = .ok c ∧
      (ofTemplate Catalog.core.vocabulary c.template).instructions.count "END" = 2 ∧
      (typeNames (Event.instructions (Event.ofSource ⟨Catalog.core.vocabulary, .unlimited, false⟩
        branchedRounds))).count "END" = 1 ∧
      (ofTemplate Catalog.core.vocabulary c.template).instructions.total = c.count + 1) ∧
    ∃ c,
      Compiled.compile Catalog.core.vocabulary ⟨false, false, .unlimited⟩ branchedTests = .ok c ∧
      (ofTemplate Catalog.core.vocabulary c.template).ifTags =
        ["\x7b.if y\x7d", "\x7b.if x\x7d"] ∧
      Instruction.ifTags (Event.instructions
        (Event.ofSource ⟨Catalog.core.vocabulary, .unlimited, false⟩ branchedTests)) =
          ["\x7b.if x\x7d", "\x7b.if y\x7d"] := by
  have found : (Compiled.compile Catalog.core.vocabulary ⟨false, false, .unlimited⟩
      branchedRounds).toOption.map
        (fun c => ((ofTemplate Catalog.core.vocabulary c.template).instructions, c.count)) =
      some ([("ALTERNATES_WITH", 1), ("END", 2), ("EOF", 1), ("OR_PREDICATE", 1), ("REPEATED", 1),
        ("TEXT", 2), ("VARIABLE", 1)], 8) := by
    decide +kernel
  have listed : (Compiled.compile Catalog.core.vocabulary ⟨false, false, .unlimited⟩
      branchedTests).toOption.map
        (fun c => (ofTemplate Catalog.core.vocabulary c.template).ifTags) =
      some ["\x7b.if y\x7d", "\x7b.if x\x7d"] := by
    decide +kernel
  obtain ⟨c, some', same⟩ := Option.map_eq_some_iff.mp found
  obtain ⟨counts, count⟩ := Prod.mk.inj same
  obtain ⟨d, some'', tags⟩ := Option.map_eq_some_iff.mp listed
  refine ⟨⟨c, Compiled.ok_of_toOption some', ?_, by decide +kernel, ?_⟩, d,
    Compiled.ok_of_toOption some'', tags, by decide +kernel⟩
  · rw [counts]
    rfl
  · rw [counts, count]
    rfl

end Report

end JsonTemplate
