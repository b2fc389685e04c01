import JsonTemplate.Execution.Frame

namespace JsonTemplate

namespace Bindings

variable {α : Type} {b : Bindings α}

theorem get?_set_self (name : String) (value : α) : (b.set name value).get? name = some value :=
  List.lookup_cons_self

theorem get?_set_of_ne {name other : String} (different : other ≠ name) (value : α) :
    (b.set name value).get? other = b.get? other := by
  have miss {key : String} (same : key = name) : (other == key) = false := by
    rw [same]
    exact beq_eq_false_iff_ne.mpr different
  rw [get?, set, List.lookup_cons, miss rfl]
  induction b with
  | nil => rfl
  | cons entry rest ih =>
    by_cases removed : entry.1 = name
    · rw [List.filter_cons_of_neg (by simpa using removed), get?, List.lookup_cons, miss removed]
      exact ih
    · rw [List.filter_cons_of_pos (by simpa using removed), get?, List.lookup_cons,
        List.lookup_cons]
      cases other == entry.1 with
      | true => rfl
      | false => exact ih

theorem mem_of_get? {name : String} {value : α} (h : b.get? name = some value) :
    (name, value) ∈ b := by
  obtain ⟨front, back, parts, -⟩ := List.lookup_eq_some_iff.mp h
  rw [parts]
  exact List.mem_append_right _ List.mem_cons_self

theorem forall_set {P : α → Prop} (all : ∀ name value, b.get? name = some value → P value)
    {name : String} {value : α} (holds : P value) :
    ∀ other found, (b.set name value).get? other = some found → P found := by
  intro other found bound
  by_cases same : other = name
  · rw [same, get?_set_self] at bound
    cases bound
    exact holds
  · rw [get?_set_of_ne same] at bound
    exact all other found bound

end Bindings

namespace FrameStack

def below (s : FrameStack) : List Frame := s.toList.tail

theorem one_le_depth (s : FrameStack) : 1 ≤ s.depth := Nat.le_add_left 1 _

theorem depth_pop_le_of_le {s : FrameStack} {depth : Nat} (h : s.depth ≤ depth + 1)
    (some' : 1 ≤ depth) : s.pop.depth ≤ depth := by
  rw [FrameStack.depth, pop, List.length_drop]
  rw [FrameStack.depth] at h
  omega

theorem below_updateTop (change : Frame → Frame) (s : FrameStack) :
    (s.updateTop change).below = s.below := by
  obtain ⟨_ | ⟨f, inner⟩, root⟩ := s <;> rfl

theorem depth_updateTop (change : Frame → Frame) (s : FrameStack) :
    (s.updateTop change).depth = s.depth := by
  obtain ⟨_ | ⟨f, inner⟩, root⟩ := s <;> rfl

theorem top_updateTop (change : Frame → Frame) (s : FrameStack) :
    (s.updateTop change).top = change s.top := by
  obtain ⟨_ | ⟨f, inner⟩, root⟩ := s <;> rfl

theorem toList_eq (s : FrameStack) : s.toList = s.top :: s.below := by
  obtain ⟨_ | ⟨f, inner⟩, root⟩ := s <;> rfl

theorem toList_updateTop (change : Frame → Frame) (s : FrameStack) :
    (s.updateTop change).toList = change s.top :: s.below := by
  rw [toList_eq, top_updateTop, below_updateTop]

theorem pop_eq {s t : FrameStack} (depth : t.depth = s.depth + 1) (below : t.below = s.toList) :
    t.pop = s := by
  obtain ⟨_ | ⟨f, inner⟩, root⟩ := t
  · cases (Nat.succ.inj depth : 0 = s.inner.length + 1)
  · have frames : inner ++ [root] = s.inner ++ [s.root] := below
    obtain ⟨rfl, last⟩ := List.append_inj' frames rfl
    cases last
    rfl

theorem truncate_of_depth_le {s : FrameStack} {depth : Nat} (h : s.depth ≤ depth) :
    s.truncate depth = s := by
  rw [truncate, Nat.sub_eq_zero_of_le h]
  rfl

theorem depth_truncate_le (s : FrameStack) {depth : Nat} (h : 1 ≤ depth) :
    (s.truncate depth).depth ≤ depth := by
  have size : (s.truncate depth).depth = s.inner.length - (s.depth - depth) + 1 := by
    rw [FrameStack.depth, truncate, List.length_drop]
  have whole : s.depth = s.inner.length + 1 := rfl
  omega

theorem truncate_succ_truncate (s : FrameStack) (depth : Nat) :
    (s.truncate (depth + 1)).truncate depth = s.truncate depth := by
  simp only [truncate, FrameStack.depth, List.drop_drop, List.length_drop]
  congr 2
  omega

theorem truncate_eq_pop {s : FrameStack} {depth : Nat} (h : s.depth = depth + 1) :
    s.truncate depth = s.pop := by
  have one : s.depth - depth = 1 := by omega
  rw [truncate, one]
  rfl

theorem truncate_foldr_push (frames : List Frame) (s : FrameStack) :
    (frames.foldr push s).truncate s.depth = s := by
  have stacked : frames.foldr push s = { s with inner := frames ++ s.inner } := by
    induction frames with
    | nil => rfl
    | cons f rest ih => rw [List.foldr_cons, ih]; rfl
  have surplus : (frames ++ s.inner).length + 1 - s.depth = frames.length := by
    rw [List.length_append, depth]
    omega
  rw [stacked, truncate, depth, surplus, List.drop_left]

def sight : List Frame → List Frame
  | [] => []
  | f :: rest => if f.isolated then [f] else f :: sight rest

theorem lookup_sight (segment : Segment) (frames : List Frame) :
    lookup segment (sight frames) = lookup segment frames := by
  induction frames with
  | nil => rfl
  | cons f rest ih =>
    rw [sight]
    cases isolated : f.isolated with
    | true => simp only [lookup, isolated, if_true]
    | false => simp only [lookup, isolated, Bool.false_eq_true, if_false, ih]

/-- Two stacks that look the same from the innermost frame on and have the same macros. -/
structure Resembles (s t : FrameStack) : Prop where
  sight : sight s.toList = sight t.toList
  macros : s.toList.map Frame.macros = t.toList.map Frame.macros

section

variable {s t : FrameStack}

theorem Resembles.refl (s : FrameStack) : s.Resembles s := ⟨rfl, rfl⟩

theorem Resembles.depth (h : s.Resembles t) : s.depth = t.depth := by
  have size := congrArg List.length h.macros
  rw [List.length_map, List.length_map, toList, toList, List.length_append,
    List.length_append] at size
  exact size

theorem Resembles.lookup (h : s.Resembles t) (segment : Segment) :
    lookup segment s.toList = lookup segment t.toList := by
  rw [← lookup_sight, h.sight, lookup_sight]

theorem Resembles.macro? (h : s.Resembles t) (name : String) : s.macro? name = t.macro? name := by
  have through (u : FrameStack) :
      u.macro? name = (u.toList.map Frame.macros).findSome? (Bindings.get? name) := by
    rw [List.findSome?_map]
    rfl
  rw [through, through, h.macros]

theorem Resembles.innermost (h : s.Resembles t) : s.top = t.top ∧
    (s.top.isolated = false → FrameStack.sight s.below = FrameStack.sight t.below) := by
  have same := h.sight
  rw [toList_eq, toList_eq, FrameStack.sight, FrameStack.sight] at same
  cases left : s.top.isolated <;> cases right : t.top.isolated
  all_goals
    simp only [left, right, Bool.false_eq_true, if_true, if_false, List.cons.injEq] at same
  · exact ⟨same.1, fun _ => same.2⟩
  · rw [same.1, right] at left
    cases left
  · rw [same.1, right] at left
    cases left
  · exact ⟨same.1, nofun⟩

theorem Resembles.eq (h : s.Resembles t) (below : s.below = t.below) : s = t := by
  have frames : s.toList = t.toList := by rw [toList_eq, toList_eq, h.innermost.1, below]
  obtain ⟨inner, root⟩ := s
  obtain ⟨outer, floor⟩ := t
  obtain ⟨rfl, last⟩ := List.append_inj' frames rfl
  cases last
  rfl

theorem Resembles.popped? (h : s.Resembles t) : s.popped? = t.popped? := by
  have size := h.depth
  have top := h.innermost.1
  obtain ⟨_ | ⟨f, inner⟩, root⟩ := s <;> obtain ⟨_ | ⟨g, outer⟩, floor⟩ := t
  · rfl
  · cases size
  · cases size
  · exact congrArg some top

theorem Resembles.push (h : s.Resembles t) (f : Frame) : (s.push f).Resembles (t.push f) where
  sight := by
    change FrameStack.sight (f :: s.toList) = FrameStack.sight (f :: t.toList)
    rw [FrameStack.sight, FrameStack.sight, h.sight]
  macros := congrArg (f.macros :: ·) h.macros

theorem Resembles.push_isolated
    (macros : s.toList.map Frame.macros = t.toList.map Frame.macros) {f : Frame}
    (isolated : f.isolated = true) : (s.push f).Resembles (t.push f) where
  sight := by
    change FrameStack.sight (f :: s.toList) = FrameStack.sight (f :: t.toList)
    rw [FrameStack.sight, FrameStack.sight, if_pos isolated, if_pos isolated]
  macros := congrArg (f.macros :: ·) macros

theorem Resembles.updateTop (h : s.Resembles t) {change : Frame → Frame}
    (same : ∀ f, (change f).isolated = f.isolated) :
    (s.updateTop change).Resembles (t.updateTop change) where
  sight := by
    obtain ⟨top, below⟩ := h.innermost
    rw [toList_updateTop, toList_updateTop, FrameStack.sight, FrameStack.sight, same, same, ← top]
    cases isolated : s.top.isolated with
    | true => rfl
    | false => rw [below isolated]
  macros := by
    have macros := h.macros
    rw [toList_eq, toList_eq, List.map_cons, List.map_cons] at macros
    rw [toList_updateTop, toList_updateTop, List.map_cons, List.map_cons, h.innermost.1,
      (List.cons.inj macros).2]

end

end FrameStack

def Frame.bare (f : Frame) : Frame := { f with macros := [] }

namespace FrameStack

def bare (s : FrameStack) : FrameStack := ⟨s.inner.map Frame.bare, s.root.bare⟩

variable {s t : FrameStack}

theorem bare_toList (s : FrameStack) : s.bare.toList = s.toList.map Frame.bare := by
  simp [bare, toList]

theorem bare_top (s : FrameStack) : s.bare.top = s.top.bare := by
  obtain ⟨_ | ⟨f, inner⟩, root⟩ := s <;> rfl

theorem bare_popped? (s : FrameStack) : s.bare.popped? = s.popped?.map Frame.bare := by
  obtain ⟨_ | ⟨f, inner⟩, root⟩ := s <;> rfl

theorem sight_bare (frames : List Frame) :
    FrameStack.sight (frames.map Frame.bare) = (FrameStack.sight frames).map Frame.bare := by
  induction frames with
  | nil => rfl
  | cons f rest ih =>
    simp only [List.map_cons, FrameStack.sight, ih, Frame.bare]
    split <;> rfl

theorem Resembles.bare (h : s.Resembles t) : s.bare.Resembles t.bare where
  sight := by rw [bare_toList, bare_toList, sight_bare, sight_bare, h.sight]
  macros := by
    have none (frames : List Frame) :
        (frames.map Frame.bare).map Frame.macros = List.replicate frames.length [] := by
      simp [Frame.bare, Function.comp_def, List.map_const']
    have size := congrArg List.length h.macros
    rw [List.length_map, List.length_map] at size
    rw [bare_toList, bare_toList, none, none, size]

theorem Resembles.lookup_bare (h : s.bare.Resembles t.bare) (segment : Segment) :
    FrameStack.lookup segment s.toList = FrameStack.lookup segment t.toList := by
  have through (frames : List Frame) :
      FrameStack.lookup segment (frames.map Frame.bare) = FrameStack.lookup segment frames := by
    induction frames with
    | nil => rfl
    | cons f rest ih =>
      rw [List.map_cons, FrameStack.lookup, FrameStack.lookup, ih]
      rfl
  rw [← through s.toList, ← through t.toList, ← bare_toList, ← bare_toList, h.lookup]

theorem Resembles.top_bare (h : s.bare.Resembles t.bare) : s.top.bare = t.top.bare := by
  rw [← bare_top, ← bare_top, h.innermost.1]

end FrameStack

end JsonTemplate
