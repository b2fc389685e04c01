import JsonTemplate.Escape.Html
import JsonTemplate.Proofs.Execution.Preprocess
import Mathlib.Data.List.Pairwise

namespace JsonTemplate

open JsonTemplate.Text

namespace Escape

/-- Neither of two entities starts with the other. -/
def Apart (entity : Char → List Char) (mark mark' : Char) : Prop :=
  ¬entity mark <+: entity mark' ∧ ¬entity mark' <+: entity mark

instance (entity : Char → List Char) : DecidableRel (Apart entity) :=
  fun _ _ => inferInstanceAs (Decidable (¬_ ∧ ¬_))

instance (entity : Char → List Char) : Std.Symm (Apart entity) := ⟨fun _ _ h => h.symm⟩

/-- The characters that an escape replaces, with the entities that stand for them. -/
structure Entities where
  marks : List Char
  entity : Char → List Char
  other : ∀ c ∉ marks, entity c = [c]
  ampersand : '&' ∈ marks
  opens : ∀ mark ∈ marks, (entity mark).head? = some '&'
  once : ∀ mark ∈ marks, '&' ∉ (entity mark).tail
  apart : marks.Pairwise (Apart entity)

namespace Entities

def escape (e : Entities) (text : List Char) : List Char := text.flatMap e.entity

/-- Replaces entities back, after the rest of one that has been replaced. -/
def restoreAfter (e : Entities) : Nat → List Char → List Char
  | _, [] => []
  | left + 1, _ :: rest => restoreAfter e left rest
  | 0, c :: rest =>
    match e.marks.find? fun mark => (e.entity mark).isPrefixOf (c :: rest) with
    | some mark => mark :: restoreAfter e ((e.entity mark).length - 1) rest
    | none => c :: restoreAfter e 0 rest

/-- Replaces the entities in a text back, from the front on. -/
def restore (e : Entities) (text : List Char) : List Char := e.restoreAfter 0 text

variable (e : Entities)

theorem exists_body {mark : Char} (member : mark ∈ e.marks) :
    ∃ body, e.entity mark = '&' :: body ∧ '&' ∉ body := by
  have once := e.once mark member
  obtain ⟨body, written⟩ := List.head?_eq_some_iff.mp (e.opens mark member)
  rw [written] at once
  exact ⟨body, written, once⟩

theorem restoreAfter_length (front rest : List Char) :
    e.restoreAfter front.length (front ++ rest) = e.restore rest := by
  induction front with
  | nil => rfl
  | cons c front ih => exact ih

theorem find_entity {mark : Char} (member : mark ∈ e.marks) (rest : List Char) :
    (e.marks.find? fun other => (e.entity other).isPrefixOf (e.entity mark ++ rest)) =
      some mark := by
  cases found : e.marks.find? fun other => (e.entity other).isPrefixOf (e.entity mark ++ rest) with
  | none =>
    have own := List.find?_eq_none.mp found mark member
    simp at own
  | some other =>
    have starts := List.find?_some found
    rw [List.isPrefixOf_iff_prefix] at starts
    have listed : other ∈ e.marks := List.mem_of_find?_eq_some found
    by_contra differ
    obtain ⟨less, more⟩ := e.apart.forall listed member fun same => differ (congrArg some same)
    rcases List.prefix_or_prefix_of_prefix starts (List.prefix_append _ rest) with inside | inside
    · exact less inside
    · exact more inside

theorem find_other {c : Char} (plain : c ∉ e.marks) (rest : List Char) :
    (e.marks.find? fun mark => (e.entity mark).isPrefixOf (c :: rest)) = none := by
  refine List.find?_eq_none.mpr fun mark member starts => ?_
  obtain ⟨body, written, -⟩ := e.exists_body member
  rw [written, List.isPrefixOf_iff_prefix, List.cons_prefix_cons] at starts
  exact plain (starts.1 ▸ e.ampersand)

theorem restore_entity (c : Char) (rest : List Char) :
    e.restore (e.entity c ++ rest) = c :: e.restore rest := by
  by_cases member : c ∈ e.marks
  · have found := e.find_entity member rest
    obtain ⟨body, written, -⟩ := e.exists_body member
    rw [written, List.cons_append] at found ⊢
    rw [restore, restoreAfter, found]
    dsimp only
    rw [written, List.length_cons, Nat.add_sub_cancel, restoreAfter_length]
  · rw [e.other c member, List.singleton_append, restore, restoreAfter, e.find_other member]
    rfl

theorem restore_escape (text : List Char) : e.restore (e.escape text) = text := by
  induction text with
  | nil => rfl
  | cons c rest ih => rw [escape, List.flatMap_cons, restore_entity, ← escape, ih]

theorem suffix_of_append {front back rest : List Char} (none : '&' ∉ front)
    (h : '&' :: rest <:+ front ++ back) : '&' :: rest <:+ back := by
  induction front with
  | nil => exact h
  | cons c front ih =>
    obtain ⟨first, none⟩ := List.ne_and_not_mem_of_not_mem_cons none
    rcases List.suffix_cons_iff.mp h with same | later
    · exact absurd (List.cons.inj same).1 first
    · exact ih none later

theorem starts_of_ampersand {text rest : List Char} (h : '&' :: rest <:+ e.escape text) :
    ∃ mark ∈ e.marks, e.entity mark <+: '&' :: rest := by
  induction text with
  | nil => simp [escape] at h
  | cons c text ih =>
    rw [escape, List.flatMap_cons] at h
    by_cases member : c ∈ e.marks
    · obtain ⟨body, written, none⟩ := e.exists_body member
      rw [written, List.cons_append] at h
      rcases List.suffix_cons_iff.mp h with same | later
      · exact ⟨c, member, by rw [same, written]; exact ⟨_, rfl⟩⟩
      · exact ih (suffix_of_append none later)
    · have plain : '&' ∉ e.entity c := by
        rw [e.other c member, List.mem_singleton]
        rintro rfl
        exact member e.ampersand
      exact ih (suffix_of_append plain h)

end Entities

def htmlEntities : Entities where
  marks := ['&', '<', '>']
  entity := htmlEntity
  other := by
    intro c plain
    unfold htmlEntity
    split <;> simp_all
  ampersand := by decide
  opens := by
    simp only [List.forall_mem_cons, List.not_mem_nil, false_implies, implies_true]
    decide
  once := by
    simp only [List.forall_mem_cons, List.not_mem_nil, false_implies, implies_true]
    decide
  apart := by decide

def attributeEntities : Entities where
  marks := ['{', '}', '|', '>', '<', '"', '&']
  entity := attributeEntity
  other := by
    intro c plain
    unfold attributeEntity
    split <;> simp_all
  ampersand := by decide
  opens := by
    simp only [List.forall_mem_cons, List.not_mem_nil, false_implies, implies_true]
    decide
  once := by
    simp only [List.forall_mem_cons, List.not_mem_nil, false_implies, implies_true]
    decide
  apart := by decide

theorem htmlEntities_spelled :
    htmlEntities.marks.map (fun c => (c, String.ofList (htmlEntity c))) =
      [('&', "&amp;"), ('<', "&lt;"), ('>', "&gt;")] := by
  decide

theorem attributeEntities_spelled :
    attributeEntities.marks.map (fun c => (c, String.ofList (attributeEntity c))) =
      [('{', "&#123;"), ('}', "&#125;"), ('|', "&#124;"), ('>', "&gt;"), ('<', "&lt;"),
        ('"', "&quot;"), ('&', "&amp;")] := by
  decide

theorem attributeEntity_code {c : Char} (h : c ∈ ['{', '}', '|']) :
    attributeEntity c = ['&', '#'] ++ (toString c.toNat).toList ++ [';'] := by
  simp only [List.mem_cons, List.not_mem_nil, or_false] at h
  rcases h with rfl | rfl | rfl <;> decide

theorem htmlEntity_noAngle (c : Char) : '<' ∉ htmlEntity c ∧ '>' ∉ htmlEntity c := by
  unfold htmlEntity
  split
  · decide
  · decide
  · decide
  · rename_i left right
    exact ⟨fun member => left (List.mem_singleton.mp member).symm,
      fun member => right (List.mem_singleton.mp member).symm⟩

theorem attributeEntity_noBrace (c : Char) : '{' ∉ attributeEntity c ∧ '}' ∉ attributeEntity c := by
  unfold attributeEntity
  split
  iterate 7 decide
  rename_i left right _ _ _ _ _
  exact ⟨fun member => left (List.mem_singleton.mp member).symm,
    fun member => right (List.mem_singleton.mp member).symm⟩

end Escape

namespace Piece

theorem ofSource_plain {source : List Char} (noLeft : '{' ∉ source) (noRight : '}' ∉ source) :
    (ofSource source).1 = textPiece .start source := by
  have whole := scan_content .start .start .empty [] noLeft noRight
  rw [List.append_nil, Pending.empty, Pending.foldl_push_none] at whole
  rw [ofSource, Pending.empty, whole, scan]
  simp [Pending.all, Pending.backward]

end Piece

namespace Compiled

theorem compile_plain (c : Catalog) (preprocess : Bool) (expr : ExprOptions) {source : List Char}
    (noLeft : '{' ∉ source) (noRight : '}' ∉ source) :
    ∃ compiled, compile c.vocabulary ⟨false, preprocess, expr⟩ source = .ok compiled ∧
      ∀ options node, (Context.start options none node).run c compiled.template =
        (.ok (), (Context.start options none node).write (String.ofList source)) := by
  have one := Piece.ofSource_plain noLeft noRight
  have inert : ∀ piece ∈ (Piece.ofSource source).1,
      Event.ofPiece ⟨c.vocabulary, expr, preprocess⟩ piece =
        [.emit ⟨piece.inert.1, .leaf piece.inert.2⟩] := by
    intro piece member
    rw [one, Piece.textPiece] at member
    split at member
    · cases member
    · rw [List.mem_singleton.mp member]
      rfl
  have printed : (Piece.ofSource source).1.flatMap Piece.passed = source := by
    rw [one]
    cases source with
    | nil => rfl
    | cons => exact List.append_nil _
  obtain ⟨compiled, found, runs⟩ := compile_inert c preprocess expr inert
  rw [printed] at runs
  exact ⟨compiled, found, runs⟩

end Compiled

namespace Escape

/-- Both escapes are undone by replacing entities back. An escaped text has no angle brackets, and
its ampersands start entities. An escaped attribute is a template that prints itself on any data. -/
theorem entities_lossless (text : List Char) :
    htmlEntities.restore (html text) = text ∧
      attributeEntities.restore (htmlAttribute text) = text ∧
      '<' ∉ html text ∧ '>' ∉ html text ∧
      (∀ rest, '&' :: rest <:+ html text →
        ∃ mark ∈ ['&', '<', '>'], htmlEntity mark <+: '&' :: rest) ∧
      ∀ (c : Catalog) preprocess expr, ∃ compiled,
        Compiled.compile c.vocabulary ⟨false, preprocess, expr⟩ (htmlAttribute text) =
            .ok compiled ∧
          ∀ options node, ∃ after,
            (Context.start options none node).run c compiled.template = (.ok (), after) ∧
              after.output = String.ofList (htmlAttribute text) ∧ after.problems = [] := by
  have noAngle (c : Char) (angle : ∀ d, c ∉ htmlEntity d) : c ∉ html text := by
    intro member
    obtain ⟨d, -, inside⟩ := List.mem_flatMap.mp member
    exact angle d inside
  have noBrace (c : Char) (brace : ∀ d, c ∉ attributeEntity d) : c ∉ htmlAttribute text := by
    intro member
    obtain ⟨d, -, inside⟩ := List.mem_flatMap.mp member
    exact brace d inside
  have noLeft := noBrace '{' fun d => (attributeEntity_noBrace d).1
  have noRight := noBrace '}' fun d => (attributeEntity_noBrace d).2
  refine ⟨htmlEntities.restore_escape text, attributeEntities.restore_escape text,
    noAngle '<' fun d => (htmlEntity_noAngle d).1, noAngle '>' fun d => (htmlEntity_noAngle d).2,
    fun rest starts => htmlEntities.starts_of_ampersand starts, fun c preprocess expr => ?_⟩
  obtain ⟨compiled, found, runs⟩ := Compiled.compile_plain c preprocess expr noLeft noRight
  refine ⟨compiled, found, fun options node => ⟨_, runs options node, ?_, rfl⟩⟩
  exact String.empty_append

end Escape

end JsonTemplate
