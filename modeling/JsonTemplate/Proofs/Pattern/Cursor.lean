import JsonTemplate.Proofs.Pattern.Window

namespace JsonTemplate.Pattern.Cursor

open JsonTemplate.Text

/-- What can be done with a cursor inside a region. -/
inductive Move where
  | tryMatch (r : Recognizer)
  | tryChar (char : Char)
  | consume
  | skip
  | seek (bytes : Nat)
  | peek (ahead : Nat) (char : Char)

/-- The cursor after a move. A failed match leaves it as it is, with the match before. -/
def after (c : Cursor) : Move → Cursor
  | .tryMatch r => (c.tryMatch r).getD c
  | .tryChar char => (c.tryChar char).getD c
  | .consume => c.consume.2
  | .skip => c.skip
  | .seek bytes => c.seek bytes
  | .peek _ _ => c

def afterAll (c : Cursor) (moves : List Move) : Cursor := moves.foldl after c

def matched (c : Cursor) (place : Nat) : Cursor :=
  { c with matchStart := c.pointer, matchEnd := place }

/-- A place a match can stop at: the match takes something, all of it before the end of the region
and between characters. -/
structure Reaches (c : Cursor) (place : Nat) : Prop where
  advances : c.pointer < place
  inside : place ≤ c.stop
  start_cut : isBoundary c.source c.pointer = true
  stop_cut : isBoundary c.source place = true

theorem tryMatch_eq_some {c d : Cursor} {r : Recognizer} (order : c.pointer ≤ c.stop)
    (h : c.tryMatch r = some d) : ∃ place, c.Reaches place ∧ d = c.matched place := by
  unfold tryMatch at h
  split at h
  · rename_i place found
    split at h
    · rename_i advances
      cases h
      have inside := (Recognizer.matchAt_between order found).2
      rcases Recognizer.matchAt_cut found with rfl | cut
      · exact absurd advances (Nat.lt_irrefl _)
      · exact ⟨place, ⟨advances, inside, cut.1, cut.2⟩, rfl⟩
    · cases h
  · cases h

theorem tryChar_eq_some {c d : Cursor} {char : Char} (h : c.tryChar char = some d) :
    ∃ place, c.Reaches place ∧ d = c.matched place := by
  unfold tryChar at h
  split at h
  · rename_i ahead
    cases h
    simp only [peek, Nat.add_zero, Bool.and_eq_true, decide_eq_true_eq] at ahead
    obtain ⟨inside, head⟩ := ahead
    have some' : slice c.source c.pointer (c.pointer + 1) ≠ [] := by
      intro none
      rw [none] at head
      cases head
    have positive := byteLength_pos some'
    have most := byteLength_slice_le c.source c.pointer (c.pointer + 1)
    have single : byteLength (slice c.source c.pointer (c.pointer + 1)) = 1 := by omega
    have cut := isBoundary_slice some' (List.prefix_refl _)
    rw [single] at cut
    exact ⟨c.pointer + 1, ⟨Nat.lt_succ_self _, inside, cut.1, cut.2⟩, rfl⟩
  · cases h

theorem after_cases {c : Cursor} (order : c.pointer ≤ c.stop) (move : Move) :
    c.after move = c ∨ (∃ place, c.Reaches place ∧ c.after move = c.matched place) ∨
      c.after move = c.skip ∨ ∃ bytes, c.after move = c.seek bytes := by
  cases move with
  | tryMatch r =>
    cases tried : c.tryMatch r with
    | none => exact .inl (by simp only [after, tried, Option.getD_none])
    | some d =>
      obtain ⟨place, reaches, rfl⟩ := tryMatch_eq_some order tried
      exact .inr (.inl ⟨place, reaches, by simp only [after, tried, Option.getD_some]⟩)
  | tryChar char =>
    cases tried : c.tryChar char with
    | none => exact .inl (by simp only [after, tried, Option.getD_none])
    | some d =>
      obtain ⟨place, reaches, rfl⟩ := tryChar_eq_some tried
      exact .inr (.inl ⟨place, reaches, by simp only [after, tried, Option.getD_some]⟩)
  | consume => exact .inr (.inr (.inl rfl))
  | skip => exact .inr (.inr (.inl rfl))
  | seek bytes => exact .inr (.inr (.inr ⟨bytes, rfl⟩))
  | peek ahead char => exact .inl rfl

/-- The cursor is in a region of a source, with its pointer and its last match. -/
structure Inside (source : List Char) (start stop : Nat) (c : Cursor) : Prop where
  source_eq : c.source = source
  start_eq : c.start = start
  stop_eq : c.stop = stop
  start_le_match : start ≤ c.matchStart
  match_order : c.matchStart ≤ c.matchEnd
  match_le_stop : c.matchEnd ≤ stop
  start_le_pointer : start ≤ c.pointer
  pointer_le_stop : c.pointer ≤ stop

/-- The last match is a piece of whole characters. -/
structure Cut (c : Cursor) : Prop where
  start_cut : isBoundary c.source c.matchStart = true
  stop_cut : isBoundary c.source c.matchEnd = true

section Moves

variable {source : List Char} {start stop : Nat} {c : Cursor}

theorem inside_region (c : Cursor) (order : start ≤ stop) :
    Inside c.source start stop (c.region start stop) where
  source_eq := rfl
  start_eq := rfl
  stop_eq := rfl
  start_le_match := Nat.le_refl start
  match_order := Nat.le_refl start
  match_le_stop := order
  start_le_pointer := Nat.le_refl start
  pointer_le_stop := order

theorem Inside.order (h : Inside source start stop c) : c.pointer ≤ c.stop := by
  rw [h.stop_eq]
  exact h.pointer_le_stop

theorem Inside.matched (h : Inside source start stop c) {place : Nat} (reaches : c.Reaches place) :
    Inside source start stop (c.matched place) :=
  { h with
    start_le_match := h.start_le_pointer
    match_order := Nat.le_of_lt reaches.advances
    match_le_stop := h.stop_eq ▸ reaches.inside }

theorem Inside.skip (h : Inside source start stop c) : Inside source start stop c.skip :=
  { h with
    start_le_pointer := Nat.le_trans h.start_le_match h.match_order
    pointer_le_stop := h.match_le_stop }

theorem Inside.seek (h : Inside source start stop c) (bytes : Nat) :
    Inside source start stop (c.seek bytes) :=
  { h with
    start_le_pointer :=
      Nat.le_min.mpr ⟨Nat.le_add_right_of_le h.start_le_pointer,
        Nat.le_trans h.start_le_pointer h.order⟩
    pointer_le_stop := h.stop_eq ▸ Nat.min_le_right _ _ }

theorem Inside.after (h : Inside source start stop c) (move : Move) :
    Inside source start stop (c.after move) := by
  rcases after_cases h.order move with same | ⟨place, reaches, found⟩ | skipped | ⟨bytes, sought⟩
  · rwa [same]
  · rw [found]
    exact h.matched reaches
  · rw [skipped]
    exact h.skip
  · rw [sought]
    exact h.seek bytes

theorem Inside.afterAll (h : Inside source start stop c) (moves : List Move) :
    Inside source start stop (c.afterAll moves) := by
  induction moves generalizing c with
  | nil => exact h
  | cons move moves ih => exact ih (h.after move)

theorem Cut.after (cut : c.Cut) (order : c.pointer ≤ c.stop) (move : Move) :
    (c.after move).Cut := by
  rcases after_cases order move with same | ⟨place, reaches, found⟩ | skipped | ⟨bytes, sought⟩
  · rwa [same]
  · rw [found]
    exact ⟨reaches.start_cut, reaches.stop_cut⟩
  · rw [skipped]
    exact ⟨cut.start_cut, cut.stop_cut⟩
  · rw [sought]
    exact ⟨cut.start_cut, cut.stop_cut⟩

theorem Cut.afterAll (cut : c.Cut) (h : Inside source start stop c) (moves : List Move) :
    (c.afterAll moves).Cut := by
  induction moves generalizing c with
  | nil => exact cut
  | cons move moves ih => exact ih (cut.after h.order move) (h.after move)

end Moves

/-- Matching comes to an end and stays inside. Every repetition has a single run, the one that is
computed; no pattern takes more than there is; between two characters of a text a match stops
between characters and not beyond the window; and a cursor is where its region is after any moves.
-/
theorem matching_stays_inside :
    (∀ (p : Recognizer) most text count taken, Runs p.matchLength most 0 text count taken ↔
      rounds p.matchLength most 0 text = (count, taken)) ∧
    (∀ (r : Recognizer) text n, r.matchLength text = some n → n ≤ text.length) ∧
    (∀ (r : Recognizer) text start stop place, start ≤ stop →
      isBoundary text start = true → isBoundary text stop = true →
        r.matchAt text start stop = some place →
          isBoundary text place = true ∧ start ≤ place ∧ place ≤ stop) ∧
    ∀ (c : Cursor) start stop moves, start ≤ stop → stop ≤ byteLength c.source →
      Inside c.source start stop ((c.region start stop).afterAll moves) ∧
        (isBoundary c.source start = true → ((c.region start stop).afterAll moves).Cut) := by
  refine ⟨fun p _ _ _ _ => runs_iff p.matchLength_le, Recognizer.matchLength_le, ?_, ?_⟩
  · intro r text start stop place order first _ found
    exact ⟨Recognizer.matchAt_boundary first found, Recognizer.matchAt_between order found⟩
  · intro c start stop moves order _
    have region := inside_region c order
    exact ⟨region.afterAll moves, fun first => Cut.afterAll ⟨first, first⟩ region moves⟩

/-- The match of a window inside a text with a wide character, and a cursor that is sent into that
character, fails to match there, and takes its last match once more. -/
theorem matching_stays_inside_accent :
    isBoundary "xéaa".toList 5 = true ∧
      Inside "xéaa".toList 1 5 (((Cursor.ofSource "xéaa".toList).region 1 5).afterAll
        [.tryMatch (.char .any), .seek 1, .tryMatch (.char .any), .tryChar 'a', .consume]) := by
  have found : (Recognizer.sequence [.char .any, .oneOrMore (.text "a")]).matchAt
      "xéaa".toList 1 5 = some 5 := by decide +kernel
  exact ⟨(matching_stays_inside.2.2.1 _ _ _ _ _ (by decide) (by decide) (by decide) found).1,
    (matching_stays_inside.2.2.2 (Cursor.ofSource "xéaa".toList) 1 5 _ (by decide)
      (by decide)).1⟩

end JsonTemplate.Pattern.Cursor
