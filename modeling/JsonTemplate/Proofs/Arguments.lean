import JsonTemplate.Arguments
import JsonTemplate.Proofs.Pattern.Split
import JsonTemplate.Proofs.Text.Pieces

namespace JsonTemplate

open JsonTemplate.Text JsonTemplate.Pattern

namespace Arguments

/-- The arguments with the usual delimiter, unless there are values that it stands between. -/
def canonical (a : Arguments) : Arguments :=
  if a.values.isEmpty then { a with delimiter := ' ' } else a

@[simp] theorem canonical_values (a : Arguments) : a.canonical.values = a.values := by
  unfold canonical
  split <;> rfl

@[simp] theorem canonical_canonical (a : Arguments) : a.canonical.canonical = a.canonical := by
  cases none : a.values.isEmpty <;> simp [canonical, none]

@[simp] theorem canonical_accept (a : Arguments) : a.accept.canonical = a.canonical.accept := by
  unfold canonical accept
  split <;> rfl

@[simp] theorem accept_join (a : Arguments) : a.accept.join = a.join := rfl

@[simp] theorem canonical_join (a : Arguments) : a.canonical.join = a.join := by
  unfold canonical
  split
  · rename_i empty
    simp [join, List.isEmpty_iff.mp empty]
  · rfl

theorem join_eq_nil {a : Arguments} : a.join = [] ↔ a.values = [] := by
  cases values : a.values <;> simp [join, values]

theorem parse_values (delimiter : Char) {values : List (List Char)}
    (whole : ∀ value ∈ values, delimiter ∉ value ∧ value ≠ []) :
    parse (join ⟨delimiter, values.map String.ofList, false⟩) =
      canonical ⟨delimiter, values.map String.ofList, false⟩ := by
  cases values with
  | nil => rfl
  | cons value rest =>
    have joined : join ⟨delimiter, (value :: rest).map String.ofList, false⟩ =
        delimiter :: joinWith [delimiter] (value :: rest) := by
      simp [join, joinWith_cons, List.flatMap_map]
    rw [joined, parse, filter_pieces_joinWith whole]
    rfl

theorem parse_join (raw : List Char) : parse (parse raw).join = (parse raw).canonical := by
  cases raw with
  | nil => rfl
  | cons delimiter rest => exact parse_values delimiter fun _ member => mem_filter_pieces member

theorem whole_of_mem_values {raw : List Char} {value : String} (h : value ∈ (parse raw).values) :
    value ≠ "" ∧ (parse raw).delimiter ∉ value.toList := by
  cases raw with
  | nil => cases h
  | cons delimiter rest =>
    obtain ⟨piece, counted, rfl⟩ := List.mem_map.mp h
    obtain ⟨free, full⟩ := mem_filter_pieces counted
    rw [String.toList_ofList]
    exact ⟨fun empty => full (by simpa using empty), free⟩

theorem toList_join_values (raw : List Char) :
    (String.join (parse raw).values).toList = raw.filter (· != (parse raw).delimiter) := by
  cases raw with
  | nil => rfl
  | cons delimiter rest =>
    calc (String.join (parse (delimiter :: rest)).values).toList
      _ = ((pieces delimiter rest).filter (!·.isEmpty)).flatten := by
        simp [parse, List.flatMap_map, List.flatMap_id']
      _ = rest.filter (· != delimiter) := flatten_filter_pieces rest
      _ = (delimiter :: rest).filter (· != delimiter) := by simp

theorem mem_of_mem_join {raw : List Char} {c : Char} (h : c ∈ (parse raw).join) : c ∈ raw := by
  cases raw with
  | nil => cases h
  | cons delimiter rest =>
    obtain ⟨value, member, inside⟩ := List.mem_flatMap.mp h
    obtain ⟨piece, old, rfl⟩ := List.mem_map.mp member
    rw [String.toList_ofList] at inside
    rcases List.mem_cons.mp inside with rfl | inside
    · exact List.mem_cons_self
    · exact List.mem_cons_of_mem _ (mem_pieces (List.mem_filter.mp old).1 c inside).2

theorem stops_join {class' : Char → Bool} {raw : List Char} (h : Stops class' raw) :
    Stops class' (parse raw).join := by
  cases raw with
  | nil => exact .nil
  | cons delimiter rest =>
    unfold join
    cases (parse (delimiter :: rest)).values with
    | nil => exact .nil
    | cons value more => exact .cons (h delimiter rfl) _

/-- Arguments have one source form. No argument is empty or holds the delimiter, and together they
are the text without it. The source form is read as the same arguments, with the same delimiter if
there are any, and is its own source form. -/
theorem source_form_canonical (raw : List Char) :
    (∀ value ∈ (parse raw).values, value ≠ "" ∧ (parse raw).delimiter ∉ value.toList) ∧
    (parse (parse raw).join).values = (parse raw).values ∧
    ((parse raw).values ≠ [] → (parse (parse raw).join).delimiter = (parse raw).delimiter) ∧
    (parse (parse raw).join).join = (parse raw).join ∧
    (String.join (parse raw).values).toList = raw.filter (· != (parse raw).delimiter) := by
  rw [parse_join]
  refine ⟨fun _ member => whole_of_mem_values member, canonical_values _, fun some' => ?_,
    canonical_join _, toList_join_values raw⟩
  rw [canonical, if_neg (by simpa using some')]

/-- A wide delimiter that stands twice between two arguments is written once. -/
theorem source_form_canonical_wide :
    (parse "éxééy".toList).values ≠ [] ∧
      ("y" ∈ (parse "éxééy".toList).values ∧ 'é' ∉ "y".toList) ∧
      (parse "éxééy".toList).join = "éxéy".toList ∧
      (parse "éxéy".toList).values = ["x", "y"] ∧ (parse "éxéy".toList).delimiter = 'é' := by
  have read : parse "éxééy".toList = ⟨'é', ["x", "y"], false⟩ := by decide +kernel
  have joined : (parse "éxééy".toList).join = "éxéy".toList := by
    rw [read]
    decide +kernel
  obtain ⟨whole, values, delimiter, -, -⟩ := source_form_canonical "éxééy".toList
  rw [joined, read] at values delimiter
  rw [read] at whole
  rw [joined, read]
  exact ⟨by decide, ⟨by decide, (whole "y" (by decide)).2⟩, rfl, values, delimiter (by decide)⟩

example : (parse [':', ':']).delimiter = ':' ∧ (parse (parse [':', ':']).join).delimiter = ' ' := by
  decide

end Arguments

end JsonTemplate
