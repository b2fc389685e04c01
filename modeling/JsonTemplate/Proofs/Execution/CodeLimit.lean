import JsonTemplate.Proofs.Execution.Lockstep
import JsonTemplate.Proofs.Execution.Termination
import Mathlib.Order.Bounds.Basic

namespace JsonTemplate

namespace CodeLimits

/-- The first look at the count at which a limit is passed. -/
def firstLook (limits : CodeLimits) (limit : Nat) : Nat :=
  (limit / limits.resolution + 1) * limits.resolution

/-- Whether a limit is passed at a count. Zero is no limit. -/
def isPast (limits : CodeLimits) (limit count : Nat) : Bool :=
  0 < limit && limits.firstLook limit ≤ count

/-- What notice of a limit is given up to a count: none, or one at the first look past it. -/
def notice (limits : CodeLimits) (kind : LimitKind) (limit count : Nat) : List (LimitKind × Nat) :=
  if limits.isPast limit count then [(kind, limits.firstLook limit)] else []

section

variable {limits : CodeLimits} {limit count : Nat}

theorem dvd_firstLook (limits : CodeLimits) (limit : Nat) :
    limits.resolution ∣ limits.firstLook limit := Nat.dvd_mul_left _ _

theorem isPast_iff : limits.isPast limit count = true ↔
    0 < limit ∧ limits.firstLook limit ≤ count := by
  rw [isPast, Bool.and_eq_true, decide_eq_true_eq, decide_eq_true_eq]

theorem isPast_succ (before : limits.isPast limit count = true) :
    limits.isPast limit (count + 1) = true := by
  rw [isPast_iff] at before ⊢
  exact ⟨before.1, Nat.le_succ_of_le before.2⟩

theorem firstLook_eq (before : limits.isPast limit count = false)
    (now : limits.isPast limit (count + 1) = true) : limits.firstLook limit = count + 1 := by
  rw [isPast_iff] at now
  rw [← Bool.not_eq_true, isPast_iff] at before
  have later : ¬ limits.firstLook limit ≤ count := fun past => before ⟨now.1, past⟩
  omega

theorem isPast_between (between : ¬ limits.resolution ∣ count + 1) :
    limits.isPast limit (count + 1) = limits.isPast limit count := by
  cases before : limits.isPast limit count with
  | true => exact isPast_succ before
  | false =>
    rw [← Bool.not_eq_true]
    exact fun now => between (firstLook_eq before now ▸ dvd_firstLook limits limit)

end

section

variable {limits : CodeLimits} {limit count : Nat} (some' : 0 < limits.resolution)

include some'

theorem lt_firstLook (limit : Nat) : limit < limits.firstLook limit := by
  rw [firstLook, Nat.mul_comm]
  exact Nat.lt_mul_div_succ limit some'

theorem firstLook_le_iff (limit : Nat) (look : limits.resolution ∣ count) :
    limits.firstLook limit ≤ count ↔ limit < count := by
  refine ⟨fun passed => Nat.lt_of_lt_of_le (lt_firstLook some' limit) passed, fun past => ?_⟩
  obtain ⟨n, rfl⟩ := look
  rw [firstLook, Nat.mul_comm limits.resolution]
  exact Nat.mul_le_mul_right _ ((Nat.div_lt_iff_lt_mul some').mpr (by rwa [Nat.mul_comm]))

theorem firstLook_isLeast (limit : Nat) :
    IsLeast {n | 0 < n ∧ limits.resolution ∣ n ∧ limit < n} (limits.firstLook limit) := by
  have past := lt_firstLook some' limit
  refine ⟨⟨Nat.zero_lt_of_lt past, dvd_firstLook limits limit, past⟩, ?_⟩
  rintro n ⟨-, look, more⟩
  exact (firstLook_le_iff some' limit look).mpr more

theorem isPast_zero (limit : Nat) : limits.isPast limit 0 = false := by
  rw [← Bool.not_eq_true, isPast_iff]
  have past := lt_firstLook some' limit
  omega

theorem isPast_look (limit : Nat) (look : limits.resolution ∣ count + 1) :
    limits.isPast limit (count + 1) =
      (limits.isPast limit count || Limiter.passes limit (limits.isPast limit count) (count + 1)) := by
  cases before : limits.isPast limit count with
  | true => exact isPast_succ before
  | false =>
    have passed := firstLook_le_iff some' limit look
    rw [isPast, decide_eq_decide.mpr passed, Limiter.passes, Bool.false_or, Bool.not_false,
      Bool.and_true]

theorem notice_look (kind : LimitKind) (look : limits.resolution ∣ count + 1) :
    limits.notice kind limit (count + 1) = limits.notice kind limit count ++
      if Limiter.passes limit (limits.isPast limit count) (count + 1) then [(kind, count + 1)]
      else [] := by
  have passed := isPast_look some' limit look
  cases before : limits.isPast limit count with
  | true =>
    have again : Limiter.passes limit true (count + 1) = false := by
      rw [Limiter.passes, Bool.not_true, Bool.and_false, Bool.false_and]
    rw [notice, notice, isPast_succ before, before, again]
    rfl
  | false =>
    rw [before, Bool.false_or] at passed
    rw [notice, notice, before, ← passed]
    cases now : limits.isPast limit (count + 1) with
    | true =>
      rw [firstLook_eq before now]
      rfl
    | false => rfl

end

end CodeLimits

namespace Limiter

/-- A limiter that has counted up to a number, and whose run has not passed the hard limit before
that. -/
def counted : Option CodeLimits → Nat → Limiter
  | none, n => ⟨none, n, false, false, []⟩
  | some limits, n =>
    ⟨some limits, n, limits.isPast limits.soft n, limits.isPast limits.hard n,
      limits.notice .soft limits.soft n ++ limits.notice .hard limits.hard n⟩

section

variable {limits : CodeLimits} (some' : 0 < limits.resolution)

include some'

theorem start_eq_counted : start (some limits) = counted (some limits) 0 := by
  rw [counted, CodeLimits.notice, CodeLimits.notice, CodeLimits.isPast_zero some',
    CodeLimits.isPast_zero some']
  rfl

theorem passSoft_look {n : Nat} (look : limits.resolution ∣ n + 1) (passed : Bool) :
    passSoft limits ⟨some limits, n + 1, limits.isPast limits.soft n, passed,
        limits.notice .soft limits.soft n⟩ =
      ⟨some limits, n + 1, limits.isPast limits.soft (n + 1), passed,
        limits.notice .soft limits.soft (n + 1)⟩ := by
  rw [CodeLimits.notice_look some' .soft look, CodeLimits.isPast_look some' _ look, passSoft]
  cases passes limits.soft (limits.isPast limits.soft n) (n + 1) <;> simp

theorem passHard_look {n : Nat} (look : limits.resolution ∣ n + 1)
    (before : limits.isPast limits.hard n = false) (passed : Bool)
    (notices : List (LimitKind × Nat)) :
    passHard limits ⟨some limits, n + 1, passed, false, notices⟩ =
      (⟨some limits, n + 1, passed, limits.isPast limits.hard (n + 1),
          notices ++ limits.notice .hard limits.hard (n + 1)⟩,
        if limits.isPast limits.hard (n + 1) then some (exceeded limits.hard (n + 1))
        else none) := by
  have none' : limits.notice .hard limits.hard n = [] := by rw [CodeLimits.notice, before]; rfl
  rw [CodeLimits.notice_look some' .hard look, none', CodeLimits.isPast_look some' _ look, before,
    passHard]
  cases passes limits.hard false (n + 1) <;> simp

theorem counted_check {n : Nat} (before : limits.isPast limits.hard n = false) :
    (counted (some limits) n).check = (counted (some limits) (n + 1),
      if limits.isPast limits.hard (n + 1) then some (exceeded limits.hard (n + 1)) else none) := by
  have none' : limits.notice .hard limits.hard n = [] := by rw [CodeLimits.notice, before]; rfl
  rw [check]
  by_cases look : limits.resolution ∣ n + 1
  · have here : ¬ (n + 1) % limits.resolution ≠ 0 := not_not.mpr (Nat.mod_eq_zero_of_dvd look)
    simp only [counted, before, none', List.append_nil, if_neg here, passSoft_look some' look,
      passHard_look some' look before]
  · have between : (n + 1) % limits.resolution ≠ 0 := fun zero =>
      look (Nat.dvd_of_mod_eq_zero zero)
    simp only [counted, if_pos between, CodeLimits.notice, CodeLimits.isPast_between look, before,
      Bool.false_eq_true, if_false]

end

end Limiter

/-- Two limiters that differ in their soft limits alone. -/
structure Limiter.SameHard (l r : Limiter) : Prop where
  limits : l.limits.map (fun limits => (limits.hard, limits.resolution)) =
    r.limits.map fun limits => (limits.hard, limits.resolution)
  count : l.count = r.count
  passed : l.hardPassed = r.hardPassed

namespace Limiter

theorem SameHard.symm {l r : Limiter} (h : l.SameHard r) : r.SameHard l :=
  ⟨h.limits.symm, h.count.symm, h.passed.symm⟩

theorem SameHard.trans {l m r : Limiter} (first : l.SameHard m) (second : m.SameHard r) :
    l.SameHard r :=
  ⟨first.limits.trans second.limits, first.count.trans second.count,
    first.passed.trans second.passed⟩

theorem passSoft_sameHard (limits : CodeLimits) (l : Limiter) : (l.passSoft limits).SameHard l := by
  unfold passSoft
  split <;> exact ⟨rfl, rfl, rfl⟩

theorem SameHard.passHard {l r : Limiter} (h : l.SameHard r) {limits others : CodeLimits}
    (same : limits.hard = others.hard) :
    (l.passHard limits).2 = (r.passHard others).2 ∧
      (l.passHard limits).1.SameHard (r.passHard others).1 := by
  have once : passes limits.hard l.hardPassed l.count = passes others.hard r.hardPassed r.count := by
    rw [same, h.passed, h.count]
  have told : exceeded limits.hard l.count = exceeded others.hard r.count := by
    rw [same, h.count]
  rw [Limiter.passHard, Limiter.passHard, once]
  split
  · exact ⟨congrArg some told, h.limits, h.count, rfl⟩
  · exact ⟨rfl, h⟩

theorem SameHard.check {l r : Limiter} (h : l.SameHard r) :
    l.check.2 = r.check.2 ∧ l.check.1.SameHard r.check.1 := by
  have counted : SameHard { l with count := l.count + 1 } { r with count := r.count + 1 } :=
    ⟨h.limits, congrArg (· + 1) h.count, h.passed⟩
  have looked (mine others : CodeLimits) := (passSoft_sameHard mine _).trans
    (counted.trans (passSoft_sameHard others _).symm)
  obtain ⟨limits, count, passed⟩ := h
  obtain ⟨_ | mine, n, soft, hard, notices⟩ := l <;>
    obtain ⟨_ | others, m, soft', hard', notices'⟩ := r
  · exact ⟨rfl, counted⟩
  · cases limits
  · cases limits
  · obtain ⟨same, resolution⟩ := Prod.mk.inj (Option.some.inj limits)
    cases (count : n = m)
    unfold Limiter.check
    dsimp only
    rw [resolution]
    split
    · exact ⟨rfl, counted⟩
    · exact (looked mine others).passHard same

end Limiter

namespace Pairing

def limiting (limits : CodeLimits) : Pairing := .ofLimiters
  (fun a b => ∃ n, a = some (.counted none n) ∧ b = some (.counted (some limits) n) ∧
    limits.isPast limits.hard n = false)
  (fun a f b => (∃ n, a = some (.counted none n) ∧ limits.isPast limits.hard n = true) ∧
    b = some (.counted (some limits) (limits.firstLook limits.hard)) ∧
      ∃ place, f = .problem
        { Limiter.exceeded limits.hard (limits.firstLook limits.hard) with place })

theorem limiting_lawful {limits : CodeLimits} (some' : 0 < limits.resolution) (c : Catalog) :
    (limiting limits).Lawful c := by
  refine lawful_ofLimiters (fun {x y} paired => ?_) ?_
  · obtain ⟨n, left, right, before⟩ := paired.records.2
    have checked := Limiter.counted_check some' before
    cases now : limits.isPast limits.hard (n + 1) with
    | false =>
      rw [now] at checked
      refine count_together paired left right ?_ ⟨n + 1, rfl, ?_, now⟩
      · rw [checked]
        rfl
      · rw [checked]
    | true =>
      rw [now] at checked
      rw [Step.count_some left, Step.count_some right, checked]
      have last := CodeLimits.firstLook_eq before now
      refine .parted rfl ⟨⟨n + 1, rfl, now⟩, ?_, y.place, ?_⟩
      · rw [last]
      · rw [last]
  · rintro l f r ⟨⟨n, counted, past⟩, ended⟩
    cases counted
    exact ⟨⟨n + 1, rfl, CodeLimits.isPast_succ past⟩, ended⟩

def softly : Pairing := .ofLimiters
  (fun a b => ∃ l r, a = some l ∧ b = some r ∧ l.SameHard r) fun _ _ _ => False

theorem softly_lawful (c : Catalog) : softly.Lawful c := by
  refine lawful_ofLimiters (fun {x y} paired => ?_) nofun
  obtain ⟨l, r, left, right, same⟩ := paired.records.2
  exact count_together paired left right same.check.1 ⟨_, _, rfl, rfl, same.check.2⟩

end Pairing

namespace Step

variable {R : Option Limiter → Option Limiter → Prop}
  {Parted : Option Limiter → Failure → Option Limiter → Prop}

/-- Two runs from states that differ in their limiters alone come to states that do so too, with the
same outcome, or the second one has ended alone. -/
theorem InStep.of_limiters {s : Step Unit} (h : InStep (.ofLimiters R Parted) s s) (calm : Calm s)
    (ctx : Context) {a b : Option Limiter} (related : R a b) :
    let first := s { ctx with limiter := a }
    let second := s { ctx with limiter := b }
    (second = (first.1, { first.2 with limiter := second.2.limiter }) ∧
        R first.2.limiter second.2.limiter) ∨
      ∃ f, second.1 = .error f ∧ f.unexpected? = none ∧
        Parted first.2.limiter f second.2.limiter := by
  let x : Context := { ctx with limiter := a }
  let y : Context := { ctx with limiter := b }
  have paired : x.Paired (.ofLimiters R Parted) y := ⟨.refl _, rfl, rfl, rfl, rfl, related⟩
  have both := h.together paired
  have kept := (calm x).toKeepsBelow
  have kept' := (calm y).toKeepsBelow
  change (s y = ((s x).1, { (s x).2 with limiter := (s y).2.limiter }) ∧ _) ∨ _
  generalize s x = left at both kept
  generalize s y = right at both kept'
  cases both with
  | @same result x' y' text now printed printed' =>
    rw [rest_eq (Nat.le_of_eq kept.depth), rest_eq (Nat.le_of_eq kept'.depth)] at now
    have frames : y'.frames = x'.frames :=
      (now.frames.eq (kept.below.trans kept'.below.symm)).symm
    have output : y'.output = x'.output := printed'.trans printed.symm
    refine .inl ⟨congrArg (Prod.mk result) ?_, now.records.2⟩
    have same := Pairing.eq_of_ofLimiters now
    rwa [frames, output] at same
  | parted other apart => exact .inr ⟨_, rfl, other, apart⟩

end Step

namespace Context

theorem run_of_limiters {R : Option Limiter → Option Limiter → Prop}
    {Parted : Option Limiter → Failure → Option Limiter → Prop}
    (lawful : (Pairing.ofLimiters R Parted).Lawful .core) (t : Template) (ctx : Context)
    {a b : Option Limiter} (related : R a b) :
    let first := Context.run .core t { ctx with limiter := a }
    let second := Context.run .core t { ctx with limiter := b }
    (second = (first.1, { first.2 with limiter := second.2.limiter }) ∧
        R first.2.limiter second.2.limiter) ∨
      ∃ d, second.1 = .error d ∧ Parted first.2.limiter (.problem d) second.2.limiter := by
  let limit := ctx.nestingLimit .core t.body
  have nesting := Step.calm_nested Catalog.core_tidy limit
  have kept := (Step.calm_trees Catalog.core_tidy nesting t.body).keeps
  have inStep := (Step.inStep_trees lawful limit t.body).whole lawful kept kept
  have body_eq (a : Option Limiter) :
      Step.whole (Step.runTrees .core (Step.runNested .core limit) t.body)
        { ctx with limiter := a } = Step.runBody .core t.body { ctx with limiter := a } := rfl
  have outcome := inStep.of_limiters kept.whole ctx related
  rw [body_eq, body_eq] at outcome
  dsimp only at outcome ⊢
  rw [run_eq_conclude, run_eq_conclude]
  generalize Step.runBody .core t.body { ctx with limiter := a } = left at outcome
  generalize Step.runBody .core t.body { ctx with limiter := b } = right at outcome
  rcases outcome with ⟨same, related⟩ | ⟨f, ended, other, parted⟩
  · rw [same, conclude_state, conclude_state]
    refine .inl ⟨?_, related⟩
    rcases left with ⟨(d | ⟨name, message⟩) | u, after⟩ <;> rfl
  · rw [conclude_state, conclude_state]
    obtain ⟨result, after⟩ := right
    cases (ended : result = .error f)
    cases f with
    | problem d => exact .inr ⟨d, rfl, parted⟩
    | plugin name message => cases other

def withLimits (limits : Option CodeLimits) (ctx : Context) : Context :=
  { ctx with limiter := some (.start limits) }

/-- A limited run does what the run that only counts does, unless that one comes to the first look
past the hard limit: then it ends there, also if it is safe. It gives notice of each limit at most
once, at the first look past it, and the soft limit makes no other difference. -/
theorem limited_run_exact {limits : CodeLimits} (some' : 0 < limits.resolution) (t : Template)
    (ctx : Context) :
    let free := run .core t (ctx.withLimits none)
    let limited := run .core t (ctx.withLimits limits)
    let last := limits.firstLook limits.hard
    IsLeast {n | 0 < n ∧ limits.resolution ∣ n ∧ limits.hard < n} last ∧
      IsLeast {n | 0 < n ∧ limits.resolution ∣ n ∧ limits.soft < n}
        (limits.firstLook limits.soft) ∧
      ∃ total count, free.2.limiter = some (.counted none total) ∧
        limited.2.limiter = some (.counted limits count) ∧
        (limits.hard = 0 ∨ total < last → count = total ∧
          limited = (free.1, { free.2 with limiter := limited.2.limiter })) ∧
        (0 < limits.hard ∧ last ≤ total → count = last ∧ ∃ place,
          limited.1 = .error {
            fault := .run .codeLimitReached
            place
            typeName := none
            name := some "hard"
            data := some s!"after {last} instructions"
            limit := some limits.hard
            source := none
            causes := [] }) ∧
        ∀ soft, let other := run .core t (ctx.withLimits (some { limits with soft }))
          other = (limited.1, { limited.2 with limiter := other.2.limiter }) := by
  intro free limited last
  refine ⟨CodeLimits.firstLook_isLeast some' _, CodeLimits.firstLook_isLeast some' _, ?_⟩
  have soft (soft : Nat) :
      let other := run .core t (ctx.withLimits (some { limits with soft }))
      other = (limited.1, { limited.2 with limiter := other.2.limiter }) := by
    have same : (Limiter.start limits).SameHard (.start (some { limits with soft })) :=
      ⟨rfl, rfl, rfl⟩
    rcases run_of_limiters (Pairing.softly_lawful .core) t ctx ⟨_, _, rfl, rfl, same⟩ with
      ⟨same, -⟩ | ⟨d, -, none'⟩
    · exact same
    · exact none'.elim
  rcases run_of_limiters (Pairing.limiting_lawful some' .core) t ctx
      ⟨0, rfl, congrArg some (Limiter.start_eq_counted some'), CodeLimits.isPast_zero some' _⟩ with
    ⟨same, total, counted, limiter, within⟩ | ⟨d, ended, ⟨total, counted, past⟩, limiter, told⟩
  · -- Both runs have gone on to the end, so the limit is not passed.
    refine ⟨total, total, counted, limiter, fun _ => ⟨rfl, same⟩, fun past => ?_, soft⟩
    rw [CodeLimits.isPast_iff.mpr past] at within
    cases within
  · -- The limited run has ended alone, and the other one has counted on past the limit.
    obtain ⟨some', past⟩ := CodeLimits.isPast_iff.mp past
    refine ⟨total, last, counted, limiter, fun short => ?_, fun _ => ⟨rfl, ?_⟩, soft⟩
    · omega
    · obtain ⟨place, told⟩ := told
      cases told
      exact ⟨place, ended⟩

def twoWords : Template := ⟨[.leaf ⟨1, 1⟩ (.text "one"), .leaf ⟨1, 4⟩ (.text "two")], none⟩

def lenient : Context := start { RunOptions.strict with safe := true } none .missing

theorem limited_run_exact_twoWords :
    let limits : CodeLimits := ⟨1, 1, 2⟩
    let ended := run .core twoWords (lenient.withLimits limits)
    0 < limits.resolution ∧ (∃ place, ended.1 = .error { Limiter.exceeded 1 2 with place }) ∧
      ended.2.limiter = some ⟨some limits, 2, true, true, [(.soft, 2), (.hard, 2)]⟩ := by
  have some' : 0 < (⟨1, 1, 2⟩ : CodeLimits).resolution := by decide
  have three : (run .core twoWords (lenient.withLimits none)).2.limiter =
      some (.counted none 3) := rfl
  obtain ⟨-, -, total, count, counted, limiter, -, fired, -⟩ :=
    limited_run_exact some' twoWords lenient
  have same : Limiter.counted none 3 = .counted none total :=
    Option.some.inj (three.symm.trans counted)
  obtain rfl : 3 = total := congrArg Limiter.count same
  obtain ⟨rfl, told⟩ := fired ⟨by decide, by decide⟩
  exact ⟨some', told, limiter⟩

end Context

end JsonTemplate
