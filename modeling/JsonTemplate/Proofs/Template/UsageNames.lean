import JsonTemplate.Template.Report

namespace JsonTemplate

open JsonTemplate.Json

namespace Json.Value

def members : Value → List (String × Value)
  | object found => found
  | _ => []

/-- Whether an object has a member, in the objects that it has under some keys one in another. -/
def Names : List String → String → Value → Prop
  | [], name, v => ∃ member ∈ v.members, member.1 = name
  | outer :: inner, name, v => ∃ child, lookup outer v.members = some child ∧ Names inner name child

instance decidableNames : (sections : List String) → (name : String) → (v : Value) →
    Decidable (v.Names sections name)
  | [], name, v => inferInstanceAs (Decidable (∃ member ∈ v.members, member.1 = name))
  | outer :: inner, name, v =>
    match found : lookup outer v.members with
    | none => isFalse fun ⟨_, known, _⟩ => Option.some_ne_none _ (known.symm.trans found)
    | some child =>
      match decidableNames inner name child with
      | isTrue named => isTrue ⟨child, found, named⟩
      | isFalse unnamed => isFalse fun ⟨_, known, named⟩ =>
        unnamed (Option.some.inj (known.symm.trans found) ▸ named)

end Json.Value

namespace Usage

/-- Whether a name is in the scope of some sections. -/
def Names : List String → String → Usage → Prop
  | [], v, u => ∃ entry ∈ u.entries, entry.1 = v
  | outer :: inner, v, u => ∃ child, u.entries.lookup outer = some child ∧ Names inner v child

def change (f : Usage → Usage) : List String → Usage → Usage
  | [], u => f u
  | outer :: inner, u => scope (update outer (change f inner) u.entries)

theorem add_eq (v : String) (sections : List String) (u : Usage) :
    add v sections u = change (add v []) sections u := by
  induction sections generalizing u with
  | nil => rfl
  | cons outer inner ih => simp only [add, change, funext ih]

theorem openScope_eq (sections : List String) (u : Usage) :
    openScope sections u = change (openScope []) sections u := by
  induction sections generalizing u with
  | nil => rfl
  | cons outer inner ih => simp only [openScope, change, funext ih]

theorem mem_update (key : String) (f : Usage → Usage) (es : List (String × Usage)) (v : String) :
    (∃ entry ∈ update key f es, entry.1 = v) ↔ v = key ∨ ∃ entry ∈ es, entry.1 = v := by
  induction es with
  | nil => simp [update, eq_comm]
  | cons first rest ih =>
    obtain ⟨k, u⟩ := first
    rw [update]
    by_cases same : k = key
    · subst same
      simp [eq_comm]
    · rw [if_neg same]
      simp only [List.mem_cons, exists_eq_or_imp, ih]
      exact or_left_comm

theorem lookup_cons (key k : String) (u : Usage) (rest : List (String × Usage)) :
    List.lookup key ((k, u) :: rest) = if key = k then some u else rest.lookup key := by
  by_cases same : key = k
  · simp [same]
  · rw [List.lookup_cons, beq_false_of_ne same, if_neg same]

theorem lookup_update (key other : String) (f : Usage → Usage) (es : List (String × Usage)) :
    (update key f es).lookup other =
      if other = key then some (f ((es.lookup key).getD name)) else es.lookup other := by
  induction es with
  | nil => rw [update, lookup_cons]; rfl
  | cons first rest ih =>
    obtain ⟨k, u⟩ := first
    rw [update]
    by_cases here : k = key
    · subst here
      by_cases same : other = k <;> simp [lookup_cons, same]
    · by_cases same : other = key
      · subst same
        simp [lookup_cons, here, Ne.symm here, ih]
      · simp [lookup_cons, here, ih, same]

theorem not_names_name {inner : List String} {v : String} : ¬Names inner v name := by
  cases inner with
  | nil => rintro ⟨entry, member, -⟩; cases member
  | cons first others => rintro ⟨child, found, -⟩; cases found

section

variable {f : Usage → Usage} {sections inner : List String} {v : String} {u : Usage}

theorem Names.change (keeps : ∀ inner v u, Names inner v u → Names inner v (f u))
    (h : Names inner v u) : Names inner v (Usage.change f sections u) := by
  induction sections generalizing inner u with
  | nil => exact keeps inner v u h
  | cons outer deeper ih =>
    cases inner with
    | nil => exact (mem_update _ _ _ _).mpr (.inr h)
    | cons first others =>
      obtain ⟨child, found, named⟩ := h
      by_cases same : first = outer
      · subst same
        refine ⟨_, by rw [Usage.change, entries, lookup_update, if_pos rfl, found], ?_⟩
        exact ih named
      · exact ⟨child, by rw [Usage.change, entries, lookup_update, if_neg same, found], named⟩

theorem names_change (gives : ∀ u, Names inner v (f u)) :
    Names (sections ++ inner) v (Usage.change f sections u) := by
  induction sections generalizing u with
  | nil => exact gives u
  | cons outer deeper ih =>
    exact ⟨_, by rw [Usage.change, entries, lookup_update, if_pos rfl], ih⟩

theorem Names.of_change {P : List String → String → Prop}
    (from' : ∀ inner v u, Names inner v (f u) → Names inner v u ∨ P inner v)
    (h : Names inner v (Usage.change f sections u)) :
    Names inner v u ∨ inner ++ [v] <+: sections ∨ ∃ rest, inner = sections ++ rest ∧ P rest v := by
  induction sections generalizing inner u with
  | nil => exact (from' inner v u h).imp_right fun given => .inr ⟨inner, rfl, given⟩
  | cons outer deeper ih =>
    cases inner with
    | nil =>
      rcases (mem_update _ _ _ _).mp h with rfl | before
      · exact .inr (.inl (List.prefix_append [v] deeper))
      · exact .inl before
    | cons first others =>
      obtain ⟨child, found, named⟩ := h
      rw [Usage.change, entries, lookup_update] at found
      by_cases same : first = outer
      · subst same
        rw [if_pos rfl, Option.some_inj] at found
        subst found
        rcases ih named with before | opened | ⟨rest, rfl, given⟩
        · cases known : u.entries.lookup first with
          | none =>
            rw [known] at before
            exact absurd before not_names_name
          | some old =>
            rw [known] at before
            exact .inl ⟨old, known, before⟩
        · exact .inr (.inl (List.cons_prefix_cons.mpr ⟨rfl, opened⟩))
        · exact .inr (.inr ⟨rest, rfl, given⟩)
      · rw [if_neg same] at found
        exact .inl ⟨child, found, named⟩

end

section

variable {sections inner : List String} {v w : String} {u : Usage}

theorem names_scope (u : Usage) : Names inner v (scope u.entries) ↔ Names inner v u := by
  cases inner <;> rfl

theorem names_add_here (v : String) (u : Usage) (inner : List String) (w : String) :
    Names inner w (add v [] u) ↔ Names inner w u ∨ inner = [] ∧ w = v := by
  rw [add]
  split
  · rename_i known
    have there : Names [] v u := by simpa [Names] using known
    constructor
    · exact .inl
    · rintro (before | ⟨rfl, rfl⟩)
      · exact before
      · exact there
  · cases inner with
    | nil => simp [Names, entries, or_and_right, exists_or, eq_comm]
    | cons first others =>
      have plain : ¬∃ child, List.lookup first [(v, name)] = some child ∧ Names others w child := by
        rintro ⟨child, found, named⟩
        rw [lookup_cons] at found
        split at found
        · cases found
          exact not_names_name named
        · cases found
      constructor
      · rintro ⟨child, found, named⟩
        rw [entries, List.lookup_append] at found
        cases known : u.entries.lookup first with
        | none =>
          rw [known, Option.none_or] at found
          exact absurd ⟨child, found, named⟩ plain
        | some old =>
          rw [known, Option.some_or] at found
          exact .inl ⟨child, known.trans found, named⟩
      · rintro (⟨child, found, named⟩ | ⟨none, -⟩)
        · exact ⟨child, by rw [entries, List.lookup_append, found, Option.some_or], named⟩
        · cases none

theorem Names.add (h : Names inner w u) : Names inner w (Usage.add v sections u) := by
  rw [add_eq]
  exact h.change fun inner w u named => (names_add_here v u inner w).mpr (.inl named)

theorem names_add : Names sections v (Usage.add v sections u) := by
  have named : Names (sections ++ []) v (Usage.change (Usage.add v []) sections u) :=
    names_change fun u => (names_add_here v u [] v).mpr (.inr ⟨rfl, rfl⟩)
  rwa [List.append_nil, ← add_eq] at named

theorem Names.of_add (h : Names inner w (Usage.add v sections u)) :
    Names inner w u ∨ inner ++ [w] <+: sections ∨ inner = sections ∧ w = v := by
  rw [add_eq] at h
  rcases h.of_change fun inner w u => (names_add_here v u inner w).mp with
    before | opened | ⟨rest, rfl, rfl, rfl⟩
  · exact .inl before
  · exact .inr (.inl opened)
  · exact .inr (.inr ⟨List.append_nil _, rfl⟩)

theorem names_openScope {name : String} :
    Names sections name (Usage.openScope (sections ++ [name]) u) := by
  induction sections generalizing u with
  | nil => exact (mem_update _ _ _ _).mpr (.inl rfl)
  | cons outer inner ih =>
    exact ⟨_, by rw [List.cons_append, Usage.openScope, entries, lookup_update, if_pos rfl], ih⟩

theorem Names.of_openScope (h : Names inner w (Usage.openScope sections u)) :
    Names inner w u ∨ inner ++ [w] <+: sections := by
  rw [openScope_eq] at h
  rcases h.of_change (P := fun _ _ => False) fun inner w u named =>
    .inl ((names_scope u).mp named) with before | opened | ⟨rest, -, none⟩
  · exact .inl before
  · exact .inr opened
  · exact none.elim

theorem Names.openScope (h : Names inner w u) : Names inner w (Usage.openScope sections u) := by
  rw [openScope_eq]
  exact h.change fun _ _ u => (names_scope u).mpr

end

theorem lookup_toMembers (key : String) (es : List (String × Usage)) :
    Value.lookup key (toMembers es) = (es.lookup key).map toValue := by
  induction es with
  | nil => rfl
  | cons first rest ih =>
    obtain ⟨k, u⟩ := first
    rw [toMembers, Value.lookup, ih, lookup_cons]
    by_cases same : k = key
    · simp [same]
    · simp [same, Ne.symm same]

theorem mem_toMembers (es : List (String × Usage)) (v : String) :
    (∃ member ∈ toMembers es, member.1 = v) ↔ ∃ entry ∈ es, entry.1 = v := by
  induction es with
  | nil => simp [toMembers]
  | cons first rest ih =>
    obtain ⟨k, u⟩ := first
    simp only [toMembers, List.mem_cons, exists_eq_or_imp, ih]

theorem members_toValue (u : Usage) : u.toValue.members = toMembers u.entries := by
  cases u <;> rfl

theorem toValue_names (sections : List String) (v : String) (u : Usage) :
    u.toValue.Names sections v ↔ u.Names sections v := by
  induction sections generalizing u with
  | nil =>
    rw [Value.Names, members_toValue]
    exact mem_toMembers u.entries v
  | cons outer inner ih =>
    rw [Value.Names, members_toValue, lookup_toMembers, Names]
    simp only [Option.map_eq_some_iff]
    constructor
    · rintro ⟨-, ⟨child, found, rfl⟩, named⟩
      exact ⟨child, found, (ih child).mp named⟩
    · rintro ⟨child, found, named⟩
      exact ⟨_, ⟨child, found, rfl⟩, (ih child).mpr named⟩

end Usage

end JsonTemplate
