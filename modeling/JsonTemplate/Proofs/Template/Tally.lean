import Mathlib.Data.String.Basic
import JsonTemplate.Template.Report

namespace JsonTemplate

namespace Tally

def Sorted (t : Tally) : Prop := t.Pairwise fun a b => a.1 < b.1

def total : Tally → Nat
  | [] => 0
  | (_, n) :: rest => n + total rest

def bumpAll (names : List String) (t : Tally) : Tally := names.foldl (fun t name => t.bump name) t

theorem mem_bump {name : String} {t : Tally} {entry : String × Nat} (h : entry ∈ t.bump name) :
    entry.1 = name ∨ ∃ n, (entry.1, n) ∈ t := by
  induction t with
  | nil => exact .inl (by simp_all [bump])
  | cons first rest ih =>
    obtain ⟨key, n⟩ := first
    rw [bump] at h
    split at h
    · rcases List.mem_cons.mp h with rfl | later
      · exact .inr ⟨n, List.mem_cons_self⟩
      · exact .inr ⟨entry.2, List.mem_cons_of_mem _ later⟩
    · split at h
      · rcases List.mem_cons.mp h with rfl | later
        · exact .inl rfl
        · exact .inr ⟨entry.2, later⟩
      · rcases List.mem_cons.mp h with rfl | later
        · exact .inr ⟨n, List.mem_cons_self⟩
        · exact (ih later).imp_right fun ⟨m, member⟩ => ⟨m, List.mem_cons_of_mem _ member⟩

theorem Sorted.bump {t : Tally} (name : String) (h : t.Sorted) : (t.bump name).Sorted := by
  induction t with
  | nil => exact List.pairwise_singleton _ _
  | cons first rest ih =>
    obtain ⟨key, n⟩ := first
    obtain ⟨least, later⟩ := List.pairwise_cons.mp h
    rw [Tally.bump]
    split
    · exact List.pairwise_cons.mpr ⟨least, later⟩
    · split
      · rename_i before
        refine List.pairwise_cons.mpr ⟨fun entry member => ?_, h⟩
        rcases List.mem_cons.mp member with rfl | member
        · exact before
        · exact lt_trans before (least entry member)
      · rename_i other notBefore
        have after : key < name := lt_of_le_of_ne (not_lt.mp notBefore) (Ne.symm other)
        refine List.pairwise_cons.mpr ⟨fun entry member => ?_, ih later⟩
        rcases mem_bump member with same | ⟨m, member⟩
        · exact same ▸ after
        · exact least (entry.1, m) member

theorem count_cons (name key : String) (n : Nat) (rest : Tally) :
    count name ((key, n) :: rest) = if key = name then n else count name rest := by
  unfold count
  by_cases same : key = name <;> simp [same]

theorem count_of_forall_lt {name : String} {t : Tally} (h : ∀ entry ∈ t, name < entry.1) :
    t.count name = 0 := by
  have none : t.find? (fun entry => entry.1 = name) = none := by
    refine List.find?_eq_none.mpr fun entry member => ?_
    simpa using (ne_of_gt (h entry member))
  simp [count, none]

theorem Sorted.count_bump {t : Tally} (h : t.Sorted) (name other : String) :
    (t.bump name).count other = t.count other + if name = other then 1 else 0 := by
  induction t with
  | nil => by_cases same : name = other <;> simp [Tally.bump, count, same]
  | cons first rest ih =>
    obtain ⟨key, n⟩ := first
    obtain ⟨least, later⟩ := List.pairwise_cons.mp h
    rw [Tally.bump]
    split
    · rename_i same
      subst same
      by_cases same : name = other <;> simp [count_cons, same]
    · rename_i different
      split
      · rename_i before
        rw [count_cons]
        by_cases same : name = other
        · subst same
          have fresh : count name ((key, n) :: rest) = 0 := by
            refine count_of_forall_lt fun entry member => ?_
            rcases List.mem_cons.mp member with rfl | member
            · exact before
            · exact lt_trans before (least entry member)
          simp [fresh]
        · simp [same]
      · rw [count_cons, count_cons, ih later]
        by_cases same : key = other
        · subst same
          simp [different]
        · simp [same]

theorem count_bumpAll {t : Tally} (names : List String) (h : t.Sorted) (name : String) :
    (t.bumpAll names).count name = t.count name + names.count name := by
  induction names generalizing t with
  | nil => rfl
  | cons first rest ih =>
    have step : (t.bumpAll (first :: rest)) = (t.bump first).bumpAll rest := rfl
    rw [step, ih (h.bump first), h.count_bump, List.count_cons]
    by_cases same : first = name
    · simp [same]
      omega
    · simp [same]

theorem total_bump (name : String) (t : Tally) : (t.bump name).total = t.total + 1 := by
  induction t with
  | nil => rfl
  | cons first rest ih =>
    obtain ⟨key, n⟩ := first
    rw [bump]
    split
    · simp only [total]
      omega
    · split
      · simp only [total]
        omega
      · simp only [total, ih]
        omega

theorem total_bumpAll (names : List String) (t : Tally) :
    (t.bumpAll names).total = t.total + names.length := by
  induction names generalizing t with
  | nil => rfl
  | cons name rest ih =>
    have step : (t.bumpAll (name :: rest)) = (t.bump name).bumpAll rest := rfl
    rw [step, ih, total_bump, List.length_cons]
    omega

end Tally

end JsonTemplate
