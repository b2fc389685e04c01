import Mathlib.Data.List.Infix
import JsonTemplate.Template.Tree

namespace JsonTemplate

open JsonTemplate.Text

namespace Tree

mutual

def scanned : Tree → List Instruction
  | leaf place l => [⟨place, .leaf l⟩]
  | block place o body tail => ⟨place, .opening o⟩ :: scannedAll body ++ scannedTail tail
  | repeated place var body alternates tail =>
    ⟨place, .repeated var⟩ :: scannedAll body ++ scannedTail tail ++ scannedAlternates alternates
  | macroDef place name body close =>
    ⟨place, .macroStart name⟩ :: scannedAll body ++ (close.map (⟨·, .close⟩)).toList

def scannedAll : List Tree → List Instruction
  | [] => []
  | t :: rest => scanned t ++ scannedAll rest

def scannedTail : Tail → List Instruction
  | .unclosed => []
  | .closed place => [⟨place, .close⟩]
  | .or place call body tail => ⟨place, .or call⟩ :: scannedAll body ++ scannedTail tail

def scannedAlternates : Alternates → List Instruction
  | .none => []
  | .between place body close =>
    ⟨place, .alternates⟩ :: scannedAll body ++ (close.map (⟨·, .close⟩)).toList

end

end Tree

def Template.scanned (t : Template) : List Instruction :=
  Tree.scannedAll t.body ++ (t.eof.map (⟨·, .eof⟩)).toList

/-- A section around an instruction. -/
structure Enclosing where
  name : String
  /-- Whether the instruction is in a part that is executed in the scope of the section. A branch of
  the section is not. -/
  entered : Bool

namespace Enclosing

def names (around : List Enclosing) : List String := around.map name

/-- The sections in whose scopes an instruction is executed. -/
def scopes (around : List Enclosing) : List String := names (around.filter entered)

@[simp] theorem names_append (front back : List Enclosing) :
    names (front ++ back) = names front ++ names back := List.map_append

@[simp] theorem scopes_append (front back : List Enclosing) :
    scopes (front ++ back) = scopes front ++ scopes back := by
  simp [scopes]

end Enclosing

structure Site where
  around : List Enclosing
  instruction : Instruction

/-- The name of the section that an instruction opens. -/
def Op.opened : Op → Option String
  | .opening (.sectionOn var) => some var.text
  | .repeated var => some var.text
  | _ => none

/-- What an opening tag puts around its block. -/
def Opener.enclosing (entered : Bool) : Opener → List Enclosing
  | .sectionOn var => [⟨var.text, entered⟩]
  | _ => []

theorem Enclosing.names_enclosing (around : List Enclosing) (o : Opener) (entered : Bool) :
    names (around ++ o.enclosing entered) =
      names around ++ (Op.opening o).opened.toList := by
  cases o <;> simp [Opener.enclosing, Op.opened, names]

namespace Tree

open Enclosing

mutual

/-- The sites of a tree in the order of a scan. -/
def sites (around : List Enclosing) : Tree → List Site
  | leaf place l => [⟨around, place, .leaf l⟩]
  | block place o body tail =>
    ⟨around, place, .opening o⟩ :: sitesAll (around ++ o.enclosing true) body
      ++ sitesTail (around ++ o.enclosing false) tail
  | repeated place var body alternates tail =>
    ⟨around, place, .repeated var⟩ :: sitesAll (around ++ [⟨var.text, true⟩]) body
      ++ sitesTail (around ++ [⟨var.text, false⟩]) tail
      ++ sitesAlternates (around ++ [⟨var.text, true⟩]) alternates
  | macroDef place name body close =>
    ⟨around, place, .macroStart name⟩ :: sitesAll around body
      ++ (close.map (Site.mk around ⟨·, .close⟩)).toList

def sitesAll (around : List Enclosing) : List Tree → List Site
  | [] => []
  | t :: rest => sites around t ++ sitesAll around rest

def sitesTail (around : List Enclosing) : Tail → List Site
  | .unclosed => []
  | .closed place => [⟨around, place, .close⟩]
  | .or place call body tail =>
    ⟨around, place, .or call⟩ :: sitesAll around body ++ sitesTail around tail

def sitesAlternates (around : List Enclosing) : Alternates → List Site
  | .none => []
  | .between place body close =>
    ⟨around, place, .alternates⟩ :: sitesAll around body
      ++ (close.map (Site.mk around ⟨·, .close⟩)).toList

end

mutual

theorem sites_instructions (around : List Enclosing) :
    (t : Tree) → (t.sites around).map Site.instruction = t.scanned
  | leaf _ _ => rfl
  | block _ o body tail => by
    simp [sites, scanned, sitesAll_instructions _ body, sitesTail_instructions _ tail]
  | repeated _ var body alternates tail => by
    simp [sites, scanned, sitesAll_instructions _ body, sitesTail_instructions _ tail,
      sitesAlternates_instructions _ alternates]
  | macroDef _ name body close => by
    cases close <;> simp [sites, scanned, sitesAll_instructions _ body]

theorem sitesAll_instructions (around : List Enclosing) :
    (items : List Tree) → (sitesAll around items).map Site.instruction = scannedAll items
  | [] => rfl
  | t :: rest => by
    simp [sitesAll, scannedAll, sites_instructions around t, sitesAll_instructions around rest]

theorem sitesTail_instructions (around : List Enclosing) :
    (tail : Tail) → (sitesTail around tail).map Site.instruction = scannedTail tail
  | .unclosed => rfl
  | .closed _ => rfl
  | .or _ call body tail => by
    simp [sitesTail, scannedTail, sitesAll_instructions _ body, sitesTail_instructions _ tail]

theorem sitesAlternates_instructions (around : List Enclosing) : (alternates : Alternates) →
    (sitesAlternates around alternates).map Site.instruction = scannedAlternates alternates
  | .none => rfl
  | .between _ body close => by
    cases close <;> simp [sitesAlternates, scannedAlternates, sitesAll_instructions _ body]

end

section

variable {χ sections : List String} {w : String}

def Opened (χ : List String) (w : String) (sections : List String) (found : List Site) : Prop :=
  ∀ s ∈ found, χ ++ [w] <+: names s.around →
    χ ++ [w] <+: sections ∨
      ∃ opener ∈ found, names opener.around = χ ∧ opener.instruction.op.opened = some w

theorem Opened.nil : Opened χ w sections [] := nofun

theorem Opened.append {front back : List Site} (first : Opened χ w sections front)
    (second : Opened χ w sections back) : Opened χ w sections (front ++ back) := by
  intro s member inside
  rcases List.mem_append.mp member with member | member
  · exact (first s member inside).imp_right fun ⟨opener, among, opens⟩ =>
      ⟨opener, List.mem_append_left _ among, opens⟩
  · exact (second s member inside).imp_right fun ⟨opener, among, opens⟩ =>
      ⟨opener, List.mem_append_right _ among, opens⟩

theorem Opened.under {i : Instruction} {around : List Enclosing} {found : List Site}
    (below : Opened χ w (names around ++ i.op.opened.toList) found) :
    Opened χ w (names around) (⟨around, i⟩ :: found) := by
  intro s member inside
  rcases List.mem_cons.mp member with rfl | member
  · exact .inl inside
  · rcases below s member inside with outside | ⟨opener, among, opens⟩
    · cases name : i.op.opened with
      | none =>
        rw [name, Option.toList_none, List.append_nil] at outside
        exact .inl outside
      | some v =>
        rw [name, Option.toList_some, List.prefix_concat_iff] at outside
        rcases outside with same | outside
        · obtain ⟨rfl, last⟩ := List.append_inj' same rfl
          cases last
          exact .inr ⟨_, List.mem_cons_self, rfl, name⟩
        · exact .inl outside
    · exact .inr ⟨opener, List.mem_cons_of_mem _ among, opens⟩

theorem Opened.single {around : List Enclosing} {i : Instruction} :
    Opened χ w (names around) [⟨around, i⟩] := .under .nil

theorem Opened.close {around : List Enclosing} (close : Option Position) :
    Opened χ w (names around) (close.map (Site.mk around ⟨·, .close⟩)).toList := by
  cases close with
  | none => exact .nil
  | some place => exact .single

variable (χ w)

mutual

theorem sites_opened (around : List Enclosing) :
    (t : Tree) → Opened χ w (names around) (t.sites around)
  | leaf _ _ => .single
  | block place o body tail => by
    have inside := sitesAll_opened (around ++ o.enclosing true) body
    have after := sitesTail_opened (around ++ o.enclosing false) tail
    rw [names_enclosing] at inside after
    exact .under (i := ⟨place, .opening o⟩) (inside.append after)
  | repeated place var body alternates tail => by
    have inside := sitesAll_opened (around ++ [⟨var.text, true⟩]) body
    have after := sitesTail_opened (around ++ [⟨var.text, false⟩]) tail
    have between := sitesAlternates_opened (around ++ [⟨var.text, true⟩]) alternates
    rw [names_append] at inside after between
    exact .under (i := ⟨place, .repeated var⟩) ((inside.append after).append between)
  | macroDef place name body close => by
    have inside := (sitesAll_opened around body).append (.close close)
    rw [← List.append_nil (names around)] at inside
    exact .under (i := ⟨place, .macroStart name⟩) inside

theorem sitesAll_opened (around : List Enclosing) :
    (items : List Tree) → Opened χ w (names around) (sitesAll around items)
  | [] => .nil
  | t :: rest => (sites_opened around t).append (sitesAll_opened around rest)

theorem sitesTail_opened (around : List Enclosing) :
    (tail : Tail) → Opened χ w (names around) (sitesTail around tail)
  | .unclosed => .nil
  | .closed _ => .single
  | .or place call body tail => by
    have inside := (sitesAll_opened around body).append (sitesTail_opened around tail)
    exact Opened.single.append inside

theorem sitesAlternates_opened (around : List Enclosing) : (alternates : Alternates) →
    Opened χ w (names around) (sitesAlternates around alternates)
  | .none => .nil
  | .between _ body close =>
    Opened.single.append ((sitesAll_opened around body).append (.close close))

end

end

mutual

def codes (around : List Enclosing) : Tree → List (List Enclosing × List Tree)
  | leaf _ _ => []
  | block _ o body tail =>
    codesAll (around ++ o.enclosing true) body ++ codesTail (around ++ o.enclosing false) tail
  | repeated _ var body alternates tail =>
    codesAll (around ++ [⟨var.text, true⟩]) body
      ++ codesTail (around ++ [⟨var.text, false⟩]) tail
      ++ codesAlternates (around ++ [⟨var.text, true⟩]) alternates
  | macroDef _ _ body _ => (around, body) :: codesAll around body

def codesAll (around : List Enclosing) : List Tree → List (List Enclosing × List Tree)
  | [] => []
  | t :: rest => codes around t ++ codesAll around rest

def codesTail (around : List Enclosing) : Tail → List (List Enclosing × List Tree)
  | .unclosed => []
  | .closed _ => []
  | .or _ _ body tail => codesAll around body ++ codesTail around tail

def codesAlternates (around : List Enclosing) : Alternates → List (List Enclosing × List Tree)
  | .none => []
  | .between _ body _ => codesAll around body

end

section

variable {code : List Enclosing × List Tree} {s : Site}

mutual

theorem mem_sites_of_codes (inside : s ∈ sitesAll code.1 code.2) (around : List Enclosing) :
    (t : Tree) → code ∈ t.codes around → s ∈ t.sites around
  | leaf _ _, member => nomatch member
  | block _ o body tail, member => by
    rcases List.mem_append.mp member with member | member
    · have found := mem_sitesAll_of_codes inside _ body member
      exact List.mem_append_left _ (List.mem_cons_of_mem _ found)
    · exact List.mem_append_right _ (mem_sitesTail_of_codes inside _ tail member)
  | repeated _ var body alternates tail, member => by
    rcases List.mem_append.mp member with member | member
    · refine List.mem_append_left _ ?_
      rcases List.mem_append.mp member with member | member
      · have found := mem_sitesAll_of_codes inside _ body member
        exact List.mem_append_left _ (List.mem_cons_of_mem _ found)
      · exact List.mem_append_right _ (mem_sitesTail_of_codes inside _ tail member)
    · exact List.mem_append_right _ (mem_sitesAlternates_of_codes inside _ alternates member)
  | macroDef place name body close, member => by
    refine List.mem_append_left _ (List.mem_cons_of_mem _ ?_)
    rcases List.mem_cons.mp member with rfl | member
    · exact inside
    · exact mem_sitesAll_of_codes inside _ body member

theorem mem_sitesAll_of_codes (inside : s ∈ sitesAll code.1 code.2) (around : List Enclosing) :
    (items : List Tree) → code ∈ codesAll around items → s ∈ sitesAll around items
  | [], member => nomatch member
  | t :: rest, member => by
    rcases List.mem_append.mp member with member | member
    · exact List.mem_append_left _ (mem_sites_of_codes inside _ t member)
    · exact List.mem_append_right _ (mem_sitesAll_of_codes inside _ rest member)

theorem mem_sitesTail_of_codes (inside : s ∈ sitesAll code.1 code.2) (around : List Enclosing) :
    (tail : Tail) → code ∈ codesTail around tail → s ∈ sitesTail around tail
  | .unclosed, member => nomatch member
  | .closed _, member => nomatch member
  | .or _ _ body tail, member => by
    rcases List.mem_append.mp member with member | member
    · have found := mem_sitesAll_of_codes inside _ body member
      exact List.mem_append_left _ (List.mem_cons_of_mem _ found)
    · exact List.mem_append_right _ (mem_sitesTail_of_codes inside _ tail member)

theorem mem_sitesAlternates_of_codes (inside : s ∈ sitesAll code.1 code.2)
    (around : List Enclosing) : (alternates : Alternates) →
      code ∈ codesAlternates around alternates → s ∈ sitesAlternates around alternates
  | .none, member => nomatch member
  | .between _ body _, member =>
    List.mem_append_left _ (List.mem_cons_of_mem _ (mem_sitesAll_of_codes inside _ body member))

end

end

end Tree

namespace Template

def sites (t : Template) : List Site :=
  Tree.sitesAll [] t.body ++ (t.eof.map (Site.mk [] ⟨·, .eof⟩)).toList

/-- What a template executes: itself and its macros, each with the sections around it. -/
def codes (t : Template) : List (List Enclosing × List Tree) :=
  ([], t.body) :: Tree.codesAll [] t.body

theorem sites_instructions (t : Template) : t.sites.map Site.instruction = t.scanned := by
  rw [sites, scanned, List.map_append, Tree.sitesAll_instructions]
  cases t.eof <;> rfl

theorem sites_opened {t : Template} {s : Site} (member : s ∈ t.sites) {χ : List String}
    {w : String} (inside : χ ++ [w] <+: Enclosing.names s.around) :
    ∃ opener ∈ t.sites,
      Enclosing.names opener.around = χ ∧ opener.instruction.op.opened = some w := by
  have opened : Tree.Opened χ w [] t.sites := by
    refine (Tree.sitesAll_opened χ w [] t.body).append ?_
    cases t.eof with
    | none => exact .nil
    | some place =>
      have last : Tree.Opened χ w (Enclosing.names []) [⟨[], place, .eof⟩] := .single
      exact last
  refine (opened s member inside).resolve_left fun outside => ?_
  exact absurd (List.prefix_nil.mp outside) (by simp)

theorem mem_sites_of_codes {t : Template} {code : List Enclosing × List Tree}
    (member : code ∈ t.codes) {s : Site} (inside : s ∈ Tree.sitesAll code.1 code.2) :
    s ∈ t.sites := by
  refine List.mem_append_left _ ?_
  rcases List.mem_cons.mp member with rfl | member
  · exact inside
  · exact Tree.mem_sitesAll_of_codes inside [] t.body member

end Template

end JsonTemplate
