import JsonTemplate.Proofs.Variable.Name

namespace JsonTemplate

open JsonTemplate.Text

/-- What can stand between the points of a name. -/
structure IsPiece (piece : List Char) : Prop where
  ne_nil : piece ≠ []
  no_point : '.' ∉ piece

def namePieces (raw : List Char) : List (List Char) := (pieces '.' raw).filter (!·.isEmpty)

theorem isPiece_of_mem {raw piece : List Char} (h : piece ∈ namePieces raw) : IsPiece piece :=
  ⟨(mem_filter_pieces h).2, (mem_filter_pieces h).1⟩

theorem flatten_namePieces (raw : List Char) :
    (namePieces raw).flatten = raw.filter (· != '.') := flatten_filter_pieces raw

theorem namePieces_joinWith {texts : List (List Char)} (h : ∀ text ∈ texts, IsPiece text) :
    namePieces (joinWith ['.'] texts) = texts :=
  filter_pieces_joinWith fun text member => ⟨(h text member).no_point, (h text member).ne_nil⟩

theorem namePieces_eq_singleton {raw : List Char} {c : Char} :
    namePieces raw = [[c]] ↔ raw.filter (· != '.') = [c] := by
  rw [← flatten_namePieces]
  constructor
  · intro same
    rw [same]
    rfl
  · intro flat
    cases texts : namePieces raw with
    | nil => simp [texts] at flat
    | cons first rest =>
      have full {piece : List Char} (member : piece ∈ first :: rest) : piece ≠ [] :=
        (isPiece_of_mem (texts ▸ member)).ne_nil
      rw [texts, List.flatten_cons] at flat
      cases first with
      | nil => exact absurd rfl (full List.mem_cons_self)
      | cons d more =>
        obtain ⟨rfl, after⟩ := List.cons.inj flat
        obtain ⟨rfl, empty⟩ := List.append_eq_nil_iff.mp after
        cases rest with
        | nil => rfl
        | cons second rest =>
          rw [List.flatten_cons, List.append_eq_nil_iff] at empty
          exact absurd empty.1 (full (List.mem_cons_of_mem _ List.mem_cons_self))

namespace Segment

theorem isPiece_text {piece : List Char} (h : IsPiece piece) :
    IsPiece (parse piece).text.toList := by
  by_cases number : piece.all Char.isDigit = true ∧ digitsValue piece < 0x80000000
  · have digits : (parse piece).text.toList = Nat.toDigits 10 (digitsValue piece) := by
      rw [parse, if_pos number]
      exact Nat.toList_repr
    rw [digits]
    refine ⟨Nat.toDigits_ne_nil, fun point => ?_⟩
    exact absurd (Nat.isDigit_of_mem_toDigits (by decide) (by decide) point) (by decide)
  · rw [parse, if_neg number, text, String.toList_ofList]
    exact h

theorem eq_of_parse_key {piece : List Char} {name : String} (h : parse piece = key name) :
    piece = name.toList := by
  unfold parse at h
  split at h
  · cases h
  · cases h
    exact String.toList_ofList.symm

end Segment

namespace VarName

theorem parse_eq {raw : List Char} (h : raw ≠ ['@']) :
    parse raw = path ((namePieces raw).map Segment.parse) := if_neg h

theorem text_eq {raw : List Char} (h : raw ≠ ['@']) :
    (parse raw).text.toList =
      joinWith ['.'] ((namePieces raw).map fun piece => (Segment.parse piece).text.toList) := by
  rw [parse_eq h, text, String.toList_ofList, List.map_map]
  rfl

theorem parse_text (raw : List Char) :
    parse (parse raw).text.toList =
      if namePieces raw = [['@']] then current else parse raw := by
  by_cases bare : raw = ['@']
  · rw [bare]
    rfl
  · have whole : ∀ text ∈ (namePieces raw).map fun piece => (Segment.parse piece).text.toList,
        IsPiece text := by
      intro text member
      obtain ⟨piece, inside, rfl⟩ := List.mem_map.mp member
      exact Segment.isPiece_text (isPiece_of_mem inside)
    split
    · rename_i sign
      rw [text_eq bare, sign]
      rfl
    · rename_i other
      have named : (parse raw).text.toList ≠ ['@'] := by
        intro sign
        have pieces := namePieces_joinWith whole
        rw [← text_eq bare, sign] at pieces
        obtain ⟨piece, alone, same⟩ := List.map_eq_singleton_iff.mp pieces.symm
        -- The piece is read like its text, as the key of the sign, so it is the sign.
        have key := Segment.parse_text piece
        rw [same] at key
        exact other (by rw [alone, Segment.eq_of_parse_key key.symm]; rfl)
      rw [parse_eq named, text_eq bare, namePieces_joinWith whole, List.map_map, parse_eq bare]
      congr 1
      exact List.map_congr_left fun piece _ => Segment.parse_text piece

/-- A name is the name that is read from its text, except for the sign with points around it, which
is read as the current node. The text itself stays as it is. -/
theorem text_reads_back (raw : List Char) :
    (parse (parse raw).text.toList = parse raw ↔
      ¬(raw ≠ ['@'] ∧ raw.filter (· != '.') = ['@'])) ∧
    (parse (parse raw).text.toList).text = (parse raw).text := by
  rw [parse_text, ← namePieces_eq_singleton]
  by_cases sign : namePieces raw = [['@']]
  · rw [if_pos sign]
    by_cases bare : raw = ['@']
    · rw [bare]
      exact ⟨⟨fun _ pointed => pointed.1 rfl, fun _ => rfl⟩, rfl⟩
    · rw [parse_eq bare, sign]
      exact ⟨⟨nofun, fun pointed => absurd ⟨bare, rfl⟩ pointed⟩, rfl⟩
  · rw [if_neg sign]
    exact ⟨⟨fun _ pointed => sign pointed.2, fun _ => rfl⟩, rfl⟩

/-- A point in front of the sign gets lost in the text of the name. -/
theorem text_drops_points :
    ¬∀ raw : List Char, parse (parse raw).text.toList = parse raw := by
  intro claim
  exact absurd (claim ['.', '@']) (by decide)

end VarName

end JsonTemplate
