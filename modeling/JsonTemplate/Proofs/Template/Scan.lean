import JsonTemplate.Proofs.Template.Sites
import JsonTemplate.Proofs.Template.TagCases
import JsonTemplate.Proofs.Template.Tally

namespace JsonTemplate

open JsonTemplate.Text

namespace Op

def formatters : Op → List Call
  | leaf (.output _ calls) => calls
  | leaf (.bind _ _ calls) => calls
  | _ => []

def textBytes : Op → Nat
  | leaf (.text content) => byteLength content.toList
  | _ => 0

def ifTag : Op → Option String
  | opening (.ifChain vars ops) => some (String.ofList (Opener.ifChain vars ops).source)
  | opening (.ifPredicate call) => some (String.ofList (Opener.ifPredicate call).source)
  | opening (.ifExpression program) => some (String.ofList (Opener.ifExpression program).source)
  | _ => none

def uses (vocabulary : Vocabulary) : Op → List VarName
  | leaf (.output vars _) => vars
  | leaf (.bind _ vars _) => vars
  | opening (.predicate call) => vocabulary.predicateVars call.name call.args
  | opening (.ifChain vars _) => vars
  | or (some call) => vocabulary.predicateVars call.name call.args
  | _ => []

def names (vocabulary : Vocabulary) (op : Op) : List String :=
  op.opened.toList ++ (op.uses vocabulary).map VarName.text

end Op

namespace Instruction

def typeNames (items : List Instruction) : List String := items.map typeName

def formatterNames (items : List Instruction) : List String :=
  items.flatMap fun i => i.op.formatters.map Call.name

def predicateNames (items : List Instruction) : List String :=
  items.flatMap fun i => i.op.predicates.map Call.name

def textBytes : List Instruction → Nat
  | [] => 0
  | i :: rest => i.op.textBytes + textBytes rest

def ifTags (items : List Instruction) : List String := items.filterMap fun i => i.op.ifTag

def closings (places : List Position) : List Instruction := places.map (⟨·, .close⟩)

theorem ifTags_append (front back : List Instruction) :
    ifTags (front ++ back) = ifTags front ++ ifTags back := List.filterMap_append

theorem ifTags_cons (i : Instruction) (items : List Instruction) :
    ifTags (i :: items) = i.op.ifTag.toList ++ ifTags items := by
  cases tag : i.op.ifTag <;> simp [ifTags, tag]

theorem closings_append (front back : List Position) :
    closings (front ++ back) = closings front ++ closings back := List.map_append

end Instruction

namespace Usage

open Enclosing

def addAll (sections : List String) (vars : List VarName) (u : Usage) : Usage :=
  vars.foldl (fun u v => u.add v.text sections) u

def take (vocabulary : Vocabulary) (u : Usage) (s : Site) : Usage :=
  let sections := names s.around
  let opened := match s.instruction.op.opened with
    | none => u
    | some w => u.openScope (sections ++ [w])
  opened.addAll sections (s.instruction.op.uses vocabulary)

def takeAll (vocabulary : Vocabulary) (found : List Site) (u : Usage) : Usage :=
  found.foldl (take vocabulary) u

end Usage

namespace Report

open Enclosing

def meet (vocabulary : Vocabulary) (r : Report) (s : Site) : Report where
  instructions := r.instructions.bump s.instruction.typeName
  formatters := r.formatters.bumpAll (s.instruction.op.formatters.map Call.name)
  predicates := r.predicates.bumpAll (s.instruction.op.predicates.map Call.name)
  usage := r.usage.take vocabulary s
  textBytes := r.textBytes + s.instruction.op.textBytes
  ifTags := r.ifTags ++ s.instruction.op.ifTag.toList

def meetAll (vocabulary : Vocabulary) (found : List Site) (r : Report) : Report :=
  found.foldl (meet vocabulary) r

section

variable (vocabulary : Vocabulary) (around : List Enclosing) (r : Report)

theorem meetAll_cons (s : Site) (found : List Site) :
    r.meetAll vocabulary (s :: found) = (r.meet vocabulary s).meetAll vocabulary found := rfl

theorem meetAll_append (front back : List Site) :
    r.meetAll vocabulary (front ++ back) = (r.meetAll vocabulary front).meetAll vocabulary back :=
  List.foldl_append

theorem meetAll_eq (found : List Site) :
    let items := found.map Site.instruction
    r.meetAll vocabulary found =
      { instructions := r.instructions.bumpAll (Instruction.typeNames items)
        formatters := r.formatters.bumpAll (Instruction.formatterNames items)
        predicates := r.predicates.bumpAll (Instruction.predicateNames items)
        usage := r.usage.takeAll vocabulary found
        textBytes := r.textBytes + Instruction.textBytes items
        ifTags := r.ifTags ++ Instruction.ifTags items } := by
  induction found generalizing r with
  | nil => simp [meetAll, Instruction.typeNames, Instruction.formatterNames,
      Instruction.predicateNames, Instruction.textBytes, Instruction.ifTags, Tally.bumpAll,
      Usage.takeAll]
  | cons s rest ih =>
    rw [meetAll_cons, ih]
    simp [meet, Instruction.typeNames, Instruction.formatterNames, Instruction.predicateNames,
      Instruction.textBytes, Instruction.ifTags_cons, Tally.bumpAll, Usage.takeAll, Nat.add_assoc]

theorem addFormatters_eq (calls : List Call) : r.addFormatters calls =
    { r with formatters := r.formatters.bumpAll (calls.map Call.name) } := by
  rw [addFormatters, Tally.bumpAll, List.foldl_map]

theorem addLeaf_meets (place : Position) (l : Leaf) :
    r.addLeaf (names around) l = r.meet vocabulary ⟨around, place, .leaf l⟩ := by
  cases l <;> simp [addLeaf, addInstruction, addFormatters_eq, addVars, meet, Tally.bumpAll,
    Op.formatters, Op.predicates, Op.textBytes, Op.ifTag, Op.opened, Op.uses, Usage.take,
    Usage.addAll, Instruction.typeName, Op.typeName]

theorem addOpener_meets (place : Position) (o : Opener) :
    r.addOpener vocabulary (names around) o = r.meet vocabulary ⟨around, place, .opening o⟩ := by
  cases o <;> simp [addOpener, addInstruction, addCall, addPredicate, addVars, openScope, addIf,
    meet, Tally.bumpAll, Op.formatters, Op.predicates, Op.textBytes, Op.ifTag, Op.opened, Op.uses,
    Usage.take, Usage.addAll, Instruction.typeName, Op.typeName]

theorem addInstruction_meets (i : Instruction) (quiet : i.op.formatters = [])
    (untested : i.op.predicates = []) (short : i.op.textBytes = 0) (plain : i.op.ifTag = none)
    (unnamed : i.op.names vocabulary = []) :
    r.addInstruction i.op.typeName = r.meet vocabulary ⟨around, i⟩ := by
  obtain ⟨closed, unused⟩ := List.append_eq_nil_iff.mp unnamed
  simp [addInstruction, meet, quiet, untested, short, plain, Usage.take, Usage.addAll,
    Option.toList_eq_nil_iff.mp closed, List.map_eq_nil_iff.mp unused, Tally.bumpAll,
    Instruction.typeName]

theorem addBranch_meets (place : Position) (call : Option Call) :
    (match call with
      | none => r.addInstruction (Op.or call).typeName
      | some c => (r.addInstruction (Op.or call).typeName).addCall vocabulary (names around) c) =
      r.meet vocabulary ⟨around, place, .or call⟩ := by
  cases call <;> simp [addInstruction, addCall, addPredicate, addVars, meet, Tally.bumpAll,
    Op.formatters, Op.predicates, Op.textBytes, Op.ifTag, Op.opened, Op.uses, Usage.take,
    Usage.addAll, Instruction.typeName]

theorem addClose_meets (close : Option Position) :
    (match close with
      | none => r
      | some _ => r.addInstruction Op.close.typeName) =
      r.meetAll vocabulary (close.map (Site.mk around ⟨·, .close⟩)).toList := by
  cases close with
  | none => rfl
  | some place => exact addInstruction_meets vocabulary around r ⟨place, .close⟩ rfl rfl rfl rfl rfl

theorem inside_eq (o : Opener) (entered : Bool) :
    inside (names around) o = names (around ++ o.enclosing entered) := by
  cases o <;> simp [inside, Opener.enclosing, names]

end

mutual

theorem addTree_meets (vocabulary : Vocabulary) (around : List Enclosing) (r : Report) :
    (t : Tree) → addTree vocabulary (names around) r t = r.meetAll vocabulary (t.sites around)
  | .leaf place l => addLeaf_meets vocabulary around r place l
  | .block place o body tail => by
    rw [addTree, Tree.sites, List.cons_append, meetAll_cons, meetAll_append,
      ← addOpener_meets vocabulary around r place, ← addTrees_meets, ← addTail_meets,
      ← inside_eq, ← inside_eq]
  | .repeated place var body alternates tail => by
    have opened : (r.addInstruction (Op.repeated var).typeName).openScope
        (names around ++ [var.text]) = r.meet vocabulary ⟨around, place, .repeated var⟩ := by
      simp [addInstruction, openScope, meet, Tally.bumpAll, Op.formatters, Op.predicates,
        Op.textBytes, Op.ifTag, Op.opened, Op.uses, Usage.take, Usage.addAll, Instruction.typeName]
    have inner (entered : Bool) :
        names around ++ [var.text] = names (around ++ [⟨var.text, entered⟩]) :=
      (names_append around [⟨var.text, entered⟩]).symm
    rw [addTree, Tree.sites, List.cons_append, List.cons_append, meetAll_cons, meetAll_append,
      meetAll_append, ← opened, ← addTrees_meets, ← addTail_meets, ← addAlternates_meets, ← inner,
      ← inner]
  | .macroDef place name body close => by
    have opened : r.addInstruction (Op.macroStart name).typeName =
        r.meet vocabulary ⟨around, place, .macroStart name⟩ :=
      addInstruction_meets vocabulary around r ⟨place, .macroStart name⟩ rfl rfl rfl rfl rfl
    rw [Tree.sites, List.cons_append, meetAll_cons, meetAll_append, ← opened, ← addTrees_meets]
    exact addClose_meets vocabulary around _ close

theorem addTrees_meets (vocabulary : Vocabulary) (around : List Enclosing) (r : Report) :
    (items : List Tree) → addTrees vocabulary (names around) r items =
      r.meetAll vocabulary (Tree.sitesAll around items)
  | [] => rfl
  | t :: rest => by
    rw [addTrees, Tree.sitesAll, meetAll_append, ← addTree_meets, ← addTrees_meets]

theorem addTail_meets (vocabulary : Vocabulary) (around : List Enclosing) (r : Report) :
    (tail : Tail) → addTail vocabulary (names around) r tail =
      r.meetAll vocabulary (Tree.sitesTail around tail)
  | .unclosed => rfl
  | .closed place => addInstruction_meets vocabulary around r ⟨place, .close⟩ rfl rfl rfl rfl rfl
  | .or place call body tail => by
    rw [Tree.sitesTail, List.cons_append, meetAll_cons, meetAll_append,
      ← addBranch_meets vocabulary around r place call, ← addTrees_meets, ← addTail_meets]
    cases call <;> rfl

theorem addAlternates_meets (vocabulary : Vocabulary) (around : List Enclosing) (r : Report) :
    (alternates : Alternates) → addAlternates vocabulary (names around) r alternates =
      r.meetAll vocabulary (Tree.sitesAlternates around alternates)
  | .none => rfl
  | .between place body close => by
    have opened : r.addInstruction Op.alternates.typeName =
        r.meet vocabulary ⟨around, place, .alternates⟩ :=
      addInstruction_meets vocabulary around r ⟨place, .alternates⟩ rfl rfl rfl rfl rfl
    rw [Tree.sitesAlternates, List.cons_append, meetAll_cons, meetAll_append, ← opened,
      ← addTrees_meets]
    exact addClose_meets vocabulary around _ close

end

theorem ofTemplate_meets (vocabulary : Vocabulary) (t : Template) :
    ofTemplate vocabulary t = empty.meetAll vocabulary t.sites := by
  rw [Template.sites, meetAll_append, ← addTrees_meets]
  obtain ⟨items, eof⟩ := t
  cases eof with
  | none => rfl
  | some place => exact addInstruction_meets vocabulary [] _ ⟨place, .eof⟩ rfl rfl rfl rfl rfl

end Report

end JsonTemplate
