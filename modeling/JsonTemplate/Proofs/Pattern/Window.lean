import JsonTemplate.Pattern.Cursor
import JsonTemplate.Proofs.Pattern.Split
import JsonTemplate.Proofs.Text.Boundary

namespace JsonTemplate.Pattern

open JsonTemplate.Text

theorem longer_eq_some {m n : Option Nat} {k : Nat} (h : longer m n = some k) :
    m = some k ∨ n = some k := by
  cases m with
  | none => exact .inr h
  | some a =>
    cases n with
    | none => exact .inl h
    | some b =>
      simp only [longer, Option.some.injEq] at h
      rcases Nat.le_total a b with le | le
      · rw [Nat.max_eq_right le] at h
        exact .inr (by rw [h])
      · rw [Nat.max_eq_left le] at h
        exact .inl (by rw [h])

theorem decimalLength_le (pointSeen : Bool) (text : List Char) :
    decimalLength pointSeen text ≤ text.length := by
  fun_induction decimalLength pointSeen text with
  | case1 => exact Nat.le_refl _
  | case2 | case5 => exact Nat.zero_le _
  | case3 _ _ _ ih => exact Nat.succ_le_succ ih
  | case4 _ _ _ _ _ ih => exact Nat.succ_le_succ ih

theorem matchDecimal_le {text : List Char} {n : Nat} (h : matchDecimal text = some n) :
    n ≤ text.length := by
  have le := decimalLength_le false text
  unfold matchDecimal at h
  split at h
  · cases h
  · rename_i one
    split at h
    · cases h
    · cases h
      rwa [one] at le
  · rename_i m more
    cases h
    rwa [more] at le

def Bounded (step : List Char → Option Nat) : Prop :=
  ∀ text n, step text = some n → n ≤ text.length

theorem rounds_taken_le {step : List Char → Option Nat} (h : Bounded step) (most done : Nat)
    (text : List Char) : (rounds step most done text).2 ≤ text.length := by
  fun_induction rounds step most done text with
  | case1 => exact Nat.zero_le _
  | case2 done text n taken => exact h text n taken
  | case3 done text n taken _ count length next ih =>
    have some' := h text n taken
    rw [next, List.length_drop] at ih
    dsimp only at ih ⊢
    omega

namespace Recognizer

mutual

theorem matchLength_le : (r : Recognizer) → Bounded r.matchLength
  | char test, text, n, h => by
    cases text with
    | nil => cases h
    | cons c rest =>
      rw [matchLength_char] at h
      split at h
      · cases h
        exact Nat.succ_le_succ (Nat.zero_le _)
      · cases h
  | literal word, text, n, h => by
    rw [matchLength_literal] at h
    split at h
    · rename_i starts
      cases h
      exact (List.isPrefixOf_iff_prefix.mp starts).length_le
    · cases h
  | decimal, _, _, h => matchDecimal_le h
  | sequence parts, text, n, h => matchAll_le parts text n h
  | choice alternatives, text, n, h => matchLongest_le alternatives text n h
  | repeated part least most, text, n, h => by
    rw [matchLength_repeated] at h
    split at h
    · cases h
    · cases h
      exact rounds_taken_le (matchLength_le part) most 0 text
  | lookAhead part, text, n, h => by
    obtain ⟨_, -, rfl⟩ := Option.map_eq_some_iff.mp h
    exact Nat.zero_le _

theorem matchAll_le : (parts : List Recognizer) → Bounded (matchAll parts)
  | [], text, n, h => by
    cases h
    exact Nat.zero_le _
  | part :: parts, text, n, h => by
    rw [matchAll_cons] at h
    cases first : part.matchLength text with
    | none => simp [first] at h
    | some m =>
      simp only [first] at h
      obtain ⟨k, second, rfl⟩ := Option.map_eq_some_iff.mp h
      have one := matchLength_le part text m first
      have two := matchAll_le parts (text.drop m) k second
      rw [List.length_drop] at two
      omega

theorem matchLongest_le : (alternatives : List Recognizer) → Bounded (matchLongest alternatives)
  | [], _, _, h => by cases h
  | part :: parts, text, n, h => by
    rcases longer_eq_some h with one | other
    · exact matchLength_le part text n one
    · exact matchLongest_le parts text n other

end

end Recognizer

/-- A run of a repetition, with the number of rounds and what they took. It ends where the pattern
does not match, takes nothing or has matched often enough, and goes on behind the match otherwise.
-/
inductive Runs (step : List Char → Option Nat) (most : Nat) :
    Nat → List Char → Nat → Nat → Prop where
  | fails {done : Nat} {text : List Char} : step text = none → Runs step most done text done 0
  | last {done n : Nat} {text : List Char} :
      step text = some n → n = 0 ∨ done + 1 = most → Runs step most done text (done + 1) n
  | again {done n count taken : Nat} {text : List Char} :
      step text = some n → n ≠ 0 → done + 1 ≠ most →
        Runs step most (done + 1) (text.drop n) count taken →
          Runs step most done text count (n + taken)

theorem runs_rounds {step : List Char → Option Nat} (h : Bounded step) (most done : Nat)
    (text : List Char) :
    Runs step most done text (rounds step most done text).1 (rounds step most done text).2 := by
  fun_induction rounds step most done text with
  | case1 done text fails => exact .fails fails
  | case2 done text n taken last =>
    refine .last taken ?_
    rcases last with none | enough | rfl
    · exact .inl none
    · exact .inr enough
    · exact .inl (Nat.le_zero.mp (h [] n taken))
  | case3 done text n taken more count length next ih =>
    simp only [not_or] at more
    rw [next] at ih
    exact .again taken more.1 more.2.1 ih

theorem Runs.unique {step : List Char → Option Nat} {most done count taken other more : Nat}
    {text : List Char} (first : Runs step most done text count taken)
    (second : Runs step most done text other more) : count = other ∧ taken = more := by
  induction first generalizing other more with
  | fails none =>
    cases second with
    | fails => exact ⟨rfl, rfl⟩
    | last one | again one => cases none.symm.trans one
  | last one stop =>
    cases second with
    | fails none => cases none.symm.trans one
    | last two =>
      cases one.symm.trans two
      exact ⟨rfl, rfl⟩
    | again two some' less =>
      cases one.symm.trans two
      exact absurd stop (not_or.mpr ⟨some', less⟩)
  | again one some' less _ ih =>
    cases second with
    | fails none => cases none.symm.trans one
    | last two stop =>
      cases one.symm.trans two
      exact absurd stop (not_or.mpr ⟨some', less⟩)
    | again two _ _ later =>
      cases one.symm.trans two
      obtain ⟨same, rest⟩ := ih later
      exact ⟨same, by rw [rest]⟩

theorem runs_iff {step : List Char → Option Nat} (h : Bounded step) {most done count taken : Nat}
    {text : List Char} :
    Runs step most done text count taken ↔ rounds step most done text = (count, taken) := by
  constructor
  · intro run
    obtain ⟨same, rest⟩ := (runs_rounds h most done text).unique run
    exact Prod.ext same rest
  · intro result
    have run := runs_rounds h most done text
    rwa [result] at run

namespace Recognizer

def seen (r : Recognizer) (text : List Char) (start stop : Nat) : Recognizer :=
  if stop < start then r.withoutChars false
  else if isBoundary text stop then r
  else r.withoutChars true

theorem matchAt_eq (r : Recognizer) (text : List Char) (start stop : Nat) :
    r.matchAt text start stop =
      ((r.seen text start stop).matchLength (slice text start stop)).map fun n =>
        start + byteLength ((slice text start stop).take n) := by
  have window : (if stop < start then [] else slice text start stop) = slice text start stop := by
    split
    · rename_i reversed
      have none := byteLength_slice_le text start stop
      rw [Nat.sub_eq_zero_of_le (Nat.le_of_lt reversed)] at none
      exact (byteLength_eq_zero.mp (Nat.le_zero.mp none)).symm
    · rfl
  simp only [matchAt, window]
  rfl

theorem matchAt_inj {r s : Recognizer} {text : List Char} {start stop : Nat} :
    r.matchAt text start stop = s.matchAt text start stop ↔
      (r.seen text start stop).matchLength (slice text start stop) =
        (s.seen text start stop).matchLength (slice text start stop) := by
  rw [matchAt_eq, matchAt_eq]
  refine ⟨fun same => ?_, fun same => by rw [same]⟩
  cases one : (r.seen text start stop).matchLength (slice text start stop) with
  | none =>
    rw [one, Option.map_none, eq_comm, Option.map_eq_none_iff] at same
    exact same.symm
  | some m =>
    rw [one, Option.map_some, eq_comm] at same
    obtain ⟨n, other, place⟩ := Option.map_eq_some_iff.mp same
    have equal := take_length_inj (matchLength_le _ _ _ other) (matchLength_le _ _ _ one)
      (Nat.add_left_cancel place)
    rw [other, equal]

theorem matchAt_between {r : Recognizer} {text : List Char} {start stop place : Nat}
    (order : start ≤ stop) (h : r.matchAt text start stop = some place) :
    start ≤ place ∧ place ≤ stop := by
  rw [matchAt_eq] at h
  obtain ⟨n, -, rfl⟩ := Option.map_eq_some_iff.mp h
  have front := byteLength_front_le (List.take_prefix n (slice text start stop))
  have inside := byteLength_slice_le text start stop
  omega

theorem matchAt_window (r : Recognizer) (before window after : List Char) :
    r.matchAt (before ++ (window ++ after)) (byteLength before) (byteLength (before ++ window)) =
      (r.split? window).map fun (word, _) => byteLength before + byteLength word := by
  have order : ¬byteLength (before ++ window) < byteLength before := by
    rw [byteLength_append]
    omega
  have boundary : isBoundary (before ++ (window ++ after)) (byteLength (before ++ window)) := by
    rw [← List.append_assoc]
    exact isBoundary_append _ _
  rw [matchAt_eq, slice_window, seen, if_neg order, if_pos boundary, split?, Option.map_map]
  simp only [Function.comp_def, List.splitAt_eq]

theorem matchAt_cut {r : Recognizer} {text : List Char} {start stop place : Nat}
    (h : r.matchAt text start stop = some place) :
    place = start ∨ isBoundary text start = true ∧ isBoundary text place = true := by
  rw [matchAt_eq] at h
  obtain ⟨n, -, rfl⟩ := Option.map_eq_some_iff.mp h
  by_cases empty : slice text start stop = []
  · rw [empty, List.take_nil]
    exact .inl (Nat.add_zero _)
  · exact .inr (isBoundary_slice empty (List.take_prefix n _))

theorem matchAt_boundary {r : Recognizer} {text : List Char} {start stop place : Nat}
    (first : isBoundary text start = true) (h : r.matchAt text start stop = some place) :
    isBoundary text place = true := by
  rcases matchAt_cut h with rfl | cut
  · exact first
  · exact cut.2

end Recognizer

end JsonTemplate.Pattern
