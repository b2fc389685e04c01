import JsonTemplate.Plugin.Core
import JsonTemplate.Proofs.Template.Operands

namespace JsonTemplate

namespace Arguments

variable {a b : Arguments}

theorem count_eq (h : a.values = b.values) : a.count = b.count := congrArg List.length h

theorem atLeast_eq (h : a.values = b.values) (n : Nat) : a.atLeast n = b.atLeast n := by
  rw [atLeast, atLeast, count_eq h]

theorem exactly_eq (h : a.values = b.values) (n : Nat) : a.exactly n = b.exactly n := by
  rw [exactly, exactly, count_eq h]

theorem between_eq (h : a.values = b.values) (least most : Nat) :
    a.between least most = b.between least most := by
  rw [between, between, count_eq h]

theorem no_values (h : a.values = []) {n : Nat} (some' : 0 < n) :
    a.atLeast n ≠ .ok () ∧ a.exactly n ≠ .ok () ∧ ∀ most, a.between n most ≠ .ok () := by
  have none : a.count = 0 := by rw [count, h, List.length_nil]
  refine ⟨?_, ?_, fun most => ?_⟩
  · simp [atLeast, none, some']
  · simp [exactly, none, Nat.ne_of_lt some']
  · simp [between, none, some']

end Arguments

theorem Signature.steady_of_values {check : Arguments → Except String Unit}
    (h : ∀ {a b : Arguments}, a.values = b.values → check a = check b) :
    Signature.Steady ⟨false, check⟩ := ⟨h, nofun⟩

namespace CoreFormatter

theorem counting_steady {requires : Bool} {count : Arguments → Except Arguments.CountError Unit}
    (values : ∀ {a b : Arguments}, a.values = b.values → count a = count b)
    (asks : requires = true → ∀ {a : Arguments}, a.values = [] → count a ≠ .ok ()) :
    (counting requires count).Steady where
  values same := by
    simp only [counting, values same]
  asks {a} required empty := by
    have refused := asks required empty
    cases outcome : count a with
    | error e => simp [counting, outcome, Except.mapError]
    | ok u => exact absurd outcome refused

theorem signature_steady (f : CoreFormatter) : f.signature.Steady := by
  cases f with
  | apply | cycle =>
    exact counting_steady (fun same => Arguments.atLeast_eq same 1)
      fun _ _ empty => (Arguments.no_values empty Nat.one_pos).1
  | keyBy | lookup =>
    exact counting_steady (fun same => Arguments.exactly_eq same 1)
      fun _ _ empty => (Arguments.no_values empty Nat.one_pos).2.1
  | pluralize => exact counting_steady (fun same => Arguments.between_eq same 0 2) nofun
  | truncate =>
    refine Signature.steady_of_values fun {a b} same => ?_
    simp only [TruncateOptions.check, Arguments.get?, same]
  | _ => exact Signature.steady_of_values fun _ => rfl

end CoreFormatter

namespace CorePredicate

theorem checkOperands_eq {a b : Arguments} {first second : Except Arguments.CountError Unit}
    (same : a.values = b.values) (counts : first = second) :
    checkOperands first a = checkOperands second b := by
  simp only [checkOperands, counts, same]

theorem signature_steady (p : CorePredicate) : p.signature.Steady := by
  cases p with
  | compare c =>
    refine ⟨fun same => checkOperands_eq same (Arguments.between_eq same 1 2), ?_⟩
    intro a _ empty agreed
    have refused := (Arguments.no_values empty Nat.one_pos).2.2 2
    simp only [signature, checkOperands] at agreed
    cases outcome : a.between 1 2 with
    | error e => simp [outcome] at agreed
    | ok u => exact refused outcome
  | even | odd =>
    exact Signature.steady_of_values fun same =>
      checkOperands_eq same (Arguments.between_eq same 0 1)
  | nth =>
    exact Signature.steady_of_values fun same =>
      checkOperands_eq same (Arguments.between_eq same 1 2)
  | debug | plural | singular => exact Signature.steady_of_values fun _ => rfl

end CorePredicate

theorem exists_of_get? {α β : Type} {name : α → String} {make : α → β} {all : List α}
    {key : String} {found : β}
    (h : Bindings.get? key (all.map fun x => (name x, make x)) = some found) :
    ∃ x, found = make x := by
  obtain ⟨front, back, parts, -⟩ := List.lookup_eq_some_iff.mp h
  have member : (key, found) ∈ all.map fun x => (name x, make x) := by
    rw [parts]
    simp
  obtain ⟨x, -, same⟩ := List.mem_map.mp member
  cases same
  exact ⟨x, rfl⟩

theorem Catalog.core_steady : core.vocabulary.Steady where
  formatter {name s} known := by
    obtain ⟨f, found, rfl⟩ := Option.map_eq_some_iff.mp known
    obtain ⟨core, rfl⟩ := exists_of_get? found
    exact core.signature_steady
  predicate {name s} known := by
    obtain ⟨p, found, rfl⟩ := Option.map_eq_some_iff.mp known
    obtain ⟨core, rfl⟩ := exists_of_get? found
    exact core.signature_steady

end JsonTemplate
