import JsonTemplate.Proofs.Pattern.Window

namespace JsonTemplate.Pattern

open JsonTemplate.Text

def Advances (step : List Char → Option Nat) : Nat → List Char → Prop
  | 0, _ => True
  | 1, text => (step text).isSome
  | n + 2, text => ∃ m, step text = some m ∧ m ≠ 0 ∧ Advances step (n + 1) (text.drop m)

namespace Recognizer

/-- Copies of a pattern, one after the other. -/
def row (p : Recognizer) (n : Nat) : Recognizer := sequence (List.replicate n p)

theorem matchLength_row_zero (p : Recognizer) (text : List Char) :
    (p.row 0).matchLength text = some 0 := rfl

theorem matchLength_row_succ (p : Recognizer) (n : Nat) (text : List Char) :
    (p.row (n + 1)).matchLength text =
      (p.matchLength text).bind fun m =>
        ((p.row n).matchLength (text.drop m)).map (m + ·) := by
  rw [row, matchLength_sequence, List.replicate_succ, matchAll_cons]
  cases p.matchLength text <;> rfl

theorem advances_iff (p : Recognizer) (n : Nat) (text : List Char) :
    Advances p.matchLength n text ↔
      ((p.row n).matchLength text).isSome = true ∧
        ∀ k, k + 1 < n → (p.row k).matchLength text ≠ (p.row (k + 1)).matchLength text := by
  induction n generalizing text with
  | zero => simp [Advances, matchLength_row_zero]
  | succ n ih =>
    cases n with
    | zero =>
      cases one : p.matchLength text <;>
        simp [Advances, matchLength_row_succ, matchLength_row_zero, one]
    | succ n =>
      cases one : p.matchLength text with
      | none => simp [Advances, matchLength_row_succ p, one]
      | some m =>
        -- Behind the first copy both sides speak of the rest of the text.
        have row (k : Nat) : (p.row (k + 1)).matchLength text =
            ((p.row k).matchLength (text.drop m)).map (m + ·) := by
          rw [matchLength_row_succ, one, Option.bind_some]
        have inj {a b : Option Nat} (same : a.map (m + ·) = b.map (m + ·)) : a = b :=
          Option.map_inj_right (fun _ _ => Nat.add_left_cancel) |>.mp same
        constructor
        · rintro ⟨_, same, some', later⟩
          cases one.symm.trans same
          obtain ⟨matched, moves⟩ := (ih _).mp later
          refine ⟨by rwa [row, Option.isSome_map], fun k less => ?_⟩
          cases k with
          | zero =>
            rw [row, matchLength_row_zero, matchLength_row_zero]
            exact fun none => some' (Option.some.inj none).symm
          | succ k =>
            rw [row, row]
            exact fun same => moves k (Nat.lt_of_succ_lt_succ less) (inj same)
        · rintro ⟨matched, moves⟩
          rw [row, Option.isSome_map] at matched
          refine ⟨m, one, fun none => ?_, (ih _).mpr ⟨matched, fun k less same => ?_⟩⟩
          · refine moves 0 (by omega) ?_
            rw [row, matchLength_row_zero, matchLength_row_zero, none]
            rfl
          · refine moves (k + 1) (Nat.succ_lt_succ less) ?_
            rw [row, row, same]

end Recognizer

namespace Runs

variable {step : List Char → Option Nat} {most done count taken n : Nat} {text : List Char}

theorem done_le (run : Runs step most done text count taken) : done ≤ count := by
  induction run with
  | fails => exact Nat.le_refl _
  | last => exact Nat.le_succ _
  | again _ _ _ _ ih => exact Nat.le_of_succ_le ih

theorem le_count_iff (run : Runs step most done text count taken)
    (room : most = 0 ∨ done + (n + 1) ≤ most) :
    done + (n + 1) ≤ count ↔ Advances step (n + 1) text := by
  induction run generalizing n with
  | @fails done text none =>
    have short : ¬done + (n + 1) ≤ done := by omega
    cases n <;> simp [Advances, none, short]
  | @last done m text one stop =>
    cases n with
    | zero => simp [Advances, one]
    | succ n =>
      have short : ¬done + (n + 1 + 1) ≤ done + 1 := by omega
      have ended : m = 0 := by omega
      simp [Advances, one, short, ended]
  | @again done m count taken text one some' less later ih =>
    cases n with
    | zero => simp [Advances, one, later.done_le]
    | succ n =>
      have next := ih (n := n) (by omega)
      rw [show done + (n + 1 + 1) = done + 1 + (n + 1) by omega, next]
      simp [Advances, one, some']

theorem matchLength_row {p : Recognizer} (run : Runs p.matchLength most done text count taken)
    (bound : most = done + (n + 1)) (full : most ≤ count) :
    (p.row (n + 1)).matchLength text = some taken := by
  induction run generalizing n with
  | fails => omega
  | @last done m text one stop =>
    obtain rfl : n = 0 := by omega
    rw [Recognizer.matchLength_row_succ, one]
    rfl
  | @again done m count taken text one some' less later ih =>
    obtain ⟨k, rfl⟩ : ∃ k, n = k + 1 := Nat.exists_eq_add_one.mpr (by omega)
    have rest := ih (n := k) (by omega) full
    rw [Recognizer.matchLength_row_succ, one, Option.bind_some, rest]
    rfl

end Runs

namespace Recognizer

variable {p : Recognizer} {text : List Char} {start stop : Nat}

theorem isSome_matchLength_repeated {n most : Nat} (room : most = 0 ∨ n + 1 ≤ most) :
    ((repeated p (n + 1) most).matchLength text).isSome = true ↔
      Advances p.matchLength (n + 1) text := by
  have run := runs_rounds p.matchLength_le most 0 text
  rw [← run.le_count_iff (by omega), matchLength_repeated, Nat.zero_add]
  split
  · rename_i short
    simpa using short
  · rename_i enough
    simpa using enough

theorem matchLength_repeated_exact {n k : Nat} :
    (repeated p (n + 1) (n + 1)).matchLength text = some k ↔
      (p.row (n + 1)).matchLength text = some k ∧ Advances p.matchLength (n + 1) text := by
  have run := runs_rounds p.matchLength_le (n + 1) 0 text
  rw [← run.le_count_iff (by omega), matchLength_repeated, Nat.zero_add]
  constructor
  · intro matched
    split at matched
    · cases matched
    · rename_i enough
      cases matched
      have full := Nat.le_of_not_lt enough
      exact ⟨run.matchLength_row (Nat.zero_add _).symm full, full⟩
  · rintro ⟨matched, full⟩
    rw [run.matchLength_row (Nat.zero_add _).symm full] at matched
    rw [if_neg (Nat.not_lt.mpr full), matched]

theorem seen_repeated (p : Recognizer) (least most : Nat) :
    (repeated p least most).seen text start stop =
      repeated (p.seen text start stop) least most := by
  simp only [seen, withoutChars]
  split
  · rfl
  · split <;> rfl

theorem seen_row (p : Recognizer) (n : Nat) :
    (p.row n).seen text start stop = (p.seen text start stop).row n := by
  have copies (texts : Bool) : (p.row n).withoutChars texts = (p.withoutChars texts).row n := by
    rw [row, row, withoutChars]
    congr 1
    induction n with
    | zero => rfl
    | succ n ih => rw [List.replicate_succ, List.replicate_succ, withoutCharsAll, ih]
  simp only [seen, copies]
  split
  · rfl
  · split <;> rfl

/-- Each copy in a row but the last moves the end of the match on. -/
def MovesOn (p : Recognizer) (n : Nat) (text : List Char) (start stop : Nat) : Prop :=
  ∀ k, k + 1 < n → (p.row k).matchAt text start stop ≠ (p.row (k + 1)).matchAt text start stop

theorem advances_seen_iff (p : Recognizer) (n : Nat) (text : List Char) (start stop : Nat) :
    Advances (p.seen text start stop).matchLength n (slice text start stop) ↔
      ((p.row n).matchAt text start stop).isSome = true ∧ p.MovesOn n text start stop := by
  have matched : ((p.row n).matchAt text start stop).isSome =
      (((p.seen text start stop).row n).matchLength (slice text start stop)).isSome := by
    rw [matchAt_eq, seen_row, Option.isSome_map]
  simp only [advances_iff, MovesOn, ne_eq, matchAt_inj, seen_row, matched]

/-- A repetition with equal bounds matches where the row of so many copies does and each copy but
the last moves on, and it stops where the row stops. One with a least number of rounds matches where
a row of so many copies does and each but the last moves on. -/
theorem repetition_exact (p : Recognizer) (text : List Char) (start stop : Nat) :
    (∀ n place, 1 ≤ n →
      ((repeated p n n).matchAt text start stop = some place ↔
        (p.row n).matchAt text start stop = some place ∧ p.MovesOn n text start stop)) ∧
    ∀ least most, 1 ≤ least → (least ≤ most ∨ most = 0) →
      (((repeated p least most).matchAt text start stop).isSome = true ↔
        ((p.row least).matchAt text start stop).isSome = true ∧
          p.MovesOn least text start stop) := by
  constructor
  · intro n place positive
    obtain ⟨n, rfl⟩ := Nat.exists_eq_add_one.mpr positive
    have advances := advances_seen_iff p (n + 1) text start stop
    constructor
    · intro matched
      rw [matchAt_eq, seen_repeated] at matched
      obtain ⟨k, taken, rfl⟩ := Option.map_eq_some_iff.mp matched
      obtain ⟨row, moves⟩ := matchLength_repeated_exact.mp taken
      refine ⟨?_, (advances.mp moves).2⟩
      rw [matchAt_eq, seen_row, row]
      rfl
    · rintro ⟨matched, moves⟩
      have all := advances.mpr ⟨by rw [matched]; rfl, moves⟩
      rw [matchAt_eq, seen_row] at matched
      obtain ⟨k, row, rfl⟩ := Option.map_eq_some_iff.mp matched
      rw [matchAt_eq, seen_repeated, matchLength_repeated_exact.mpr ⟨row, all⟩]
      rfl
  · intro least most positive room
    obtain ⟨n, rfl⟩ := Nat.exists_eq_add_one.mpr positive
    rw [← advances_seen_iff, matchAt_eq, seen_repeated, Option.isSome_map]
    exact isSome_matchLength_repeated room.symm

/-- Three digits are three times a digit. -/
theorem repetition_exact_digits :
    1 ≤ 3 ∧ digit.MovesOn 3 "é12345".toList 2 7 ∧
      (repeated digit 3 3).matchAt "é12345".toList 2 7 = some 5 := by
  have moves : digit.MovesOn 3 "é12345".toList 2 7 := by
    intro k less
    obtain rfl | rfl : k = 0 ∨ k = 1 := by omega
    · decide
    · decide
  exact ⟨by decide, moves,
    ((repetition_exact digit "é12345".toList 2 7).1 3 5 (by decide)).mpr ⟨by decide, moves⟩⟩

/-- Looking ahead twice is no repetition with two rounds: the first one takes nothing. -/
theorem repetition_of_nothing_fails :
    ¬∀ (p : Recognizer) n text start stop, 1 ≤ n →
      (repeated p n n).matchAt text start stop = (p.row n).matchAt text start stop := by
  intro claim
  have same := claim (lookAhead (literal ['a'])) 2 ['a'] 0 1 (by decide)
  have row : ((lookAhead (literal ['a'])).row 2).matchAt ['a'] 0 1 = some 0 := by decide
  have repetition : (repeated (lookAhead (literal ['a'])) 2 2).matchAt ['a'] 0 1 = none := by
    decide +kernel
  rw [row, repetition] at same
  cases same

end Recognizer

end JsonTemplate.Pattern
