import JsonTemplate.Proofs.Template.Scan
import JsonTemplate.Proofs.Template.UsageNames

namespace JsonTemplate

namespace Usage

open Enclosing

section

variable {χ sections : List String} {w : String} {u : Usage} {vocabulary : Vocabulary}

theorem Names.addAll (vars : List VarName) (h : Names χ w u) :
    Names χ w (u.addAll sections vars) := by
  induction vars generalizing u with
  | nil => exact h
  | cons v rest ih => exact ih h.add

theorem names_addAll {v : VarName} {vars : List VarName} (member : v ∈ vars) :
    Names sections v.text (u.addAll sections vars) := by
  induction vars generalizing u with
  | nil => cases member
  | cons first rest ih =>
    rcases List.mem_cons.mp member with rfl | later
    · exact Names.addAll rest names_add
    · exact ih later

theorem Names.of_addAll {vars : List VarName} (h : Names χ w (u.addAll sections vars)) :
    Names χ w u ∨ χ ++ [w] <+: sections ∨ χ = sections ∧ w ∈ vars.map VarName.text := by
  induction vars generalizing u with
  | nil => exact .inl h
  | cons v rest ih =>
    rcases ih h with before | around | ⟨here, member⟩
    · refine before.of_add.imp_right (.imp_right fun ⟨here, same⟩ => ⟨here, ?_⟩)
      rw [same]
      exact List.mem_cons_self
    · exact .inr (.inl around)
    · exact .inr (.inr ⟨here, List.mem_cons_of_mem _ member⟩)

theorem Names.take (s : Site) (h : Names χ w u) : Names χ w (u.take vocabulary s) := by
  refine Names.addAll _ ?_
  cases s.instruction.op.opened with
  | none => exact h
  | some w => exact h.openScope

theorem names_take {s : Site} (member : w ∈ s.instruction.op.names vocabulary) :
    Names (names s.around) w (u.take vocabulary s) := by
  rcases List.mem_append.mp member with opened | used
  · refine Names.addAll _ ?_
    rw [Option.mem_toList] at opened
    rw [Option.mem_def.mp opened]
    exact names_openScope
  · obtain ⟨v, listed, rfl⟩ := List.mem_map.mp used
    exact names_addAll listed

theorem Names.of_take {s : Site} (h : Names χ w (u.take vocabulary s)) :
    Names χ w u ∨ χ ++ [w] <+: names s.around ∨
      χ = names s.around ∧ w ∈ s.instruction.op.names vocabulary := by
  rcases h.of_addAll with before | around | ⟨here, used⟩
  · cases opens : s.instruction.op.opened with
    | none =>
      rw [opens] at before
      exact .inl before
    | some v =>
      rw [opens] at before
      rcases before.of_openScope with before | inside
      · exact .inl before
      · rcases List.prefix_concat_iff.mp inside with same | around
        · obtain ⟨rfl, last⟩ := List.append_inj' same rfl
          cases last
          refine .inr (.inr ⟨rfl, List.mem_append_left _ ?_⟩)
          rw [opens]
          exact List.mem_singleton_self w
        · exact .inr (.inl around)
  · exact .inr (.inl around)
  · exact .inr (.inr ⟨here, List.mem_append_right _ used⟩)

theorem Names.takeAll (found : List Site) (h : Names χ w u) :
    Names χ w (u.takeAll vocabulary found) := by
  induction found generalizing u with
  | nil => exact h
  | cons s rest ih => exact ih (h.take s)

theorem names_takeAll {found : List Site} {s : Site} (among : s ∈ found)
    (member : w ∈ s.instruction.op.names vocabulary) :
    Names (names s.around) w (u.takeAll vocabulary found) := by
  induction found generalizing u with
  | nil => cases among
  | cons first rest ih =>
    rcases List.mem_cons.mp among with rfl | later
    · exact Names.takeAll rest (names_take member)
    · exact ih later

theorem Names.of_takeAll {found : List Site} (h : Names χ w (u.takeAll vocabulary found)) :
    Names χ w u ∨ ∃ s ∈ found, χ ++ [w] <+: names s.around ∨
      χ = names s.around ∧ w ∈ s.instruction.op.names vocabulary := by
  induction found generalizing u with
  | nil => exact .inl h
  | cons s rest ih =>
    rcases ih h with before | ⟨other, among, found⟩
    · exact before.of_take.imp_right fun found => ⟨s, List.mem_cons_self, found⟩
    · exact .inr ⟨other, List.mem_cons_of_mem _ among, found⟩

end

end Usage

namespace Report

open Enclosing

theorem ofTemplate_names (vocabulary : Vocabulary) (t : Template) (χ : List String) (w : String) :
    (ofTemplate vocabulary t).usage.Names χ w ↔
      ∃ s ∈ t.sites, names s.around = χ ∧ w ∈ s.instruction.op.names vocabulary := by
  have met : (ofTemplate vocabulary t).usage = empty.usage.takeAll vocabulary t.sites :=
    congrArg Report.usage ((ofTemplate_meets vocabulary t).trans (meetAll_eq _ _ _))
  rw [met]
  constructor
  · intro named
    rcases named.of_takeAll with before | ⟨s, among, inside | ⟨here, member⟩⟩
    · cases χ with
      | nil => obtain ⟨entry, none, -⟩ := before; cases none
      | cons outer inner => obtain ⟨child, none, -⟩ := before; cases none
    · obtain ⟨opener, found, here, opens⟩ := Template.sites_opened among inside
      refine ⟨opener, found, here, List.mem_append_left _ ?_⟩
      rw [opens]
      exact List.mem_singleton_self w
    · exact ⟨s, among, here.symm, member⟩
  · rintro ⟨s, among, rfl, member⟩
    exact Usage.names_takeAll among member

end Report

end JsonTemplate
