import JsonTemplate.Plugin.Formatters
import JsonTemplate.Proofs.Escape.ScriptTags
import JsonTemplate.Proofs.Json.Spelling

namespace JsonTemplate.Json

open JsonTemplate.Escape JsonTemplate.Number JsonTemplate.Text

theorem StringBody.of_slash {s more : List Char} (h : StringBody s ('/' :: more)) :
    ∃ s', s = '/' :: s' ∧ StringBody s' more := by
  generalize same : '/' :: more = text at h
  cases h with
  | nil => cases same
  | @char s body c inner =>
    rcases escapeChar_cases c with ⟨plain, -⟩ | ⟨escape, escaped, -⟩
    · rw [plain] at same
      cases same
      exact ⟨s, rfl, inner⟩
    · rw [escaped] at same
      cases same
  | slash => cases same

theorem not_mem_escapeChar {c : Char} (other : c ≠ '<') : '<' ∉ escapeChar c := by
  rcases escapeChar_cases c with ⟨plain, -⟩ | ⟨escape, escaped, none⟩
  · rw [plain]
    simpa using other.symm
  · rw [escaped]
    simpa using none

theorem StringBody.scriptTags {s body : List Char} (h : StringBody s body) :
    StringBody s (Escape.scriptTags body) := by
  induction h with
  | nil => exact .nil
  | @char s body c _ ih =>
    by_cases angle : c = '<'
    · have plain : escapeChar '<' = ['<'] := by decide
      rw [angle, plain, List.singleton_append]
      cases body with
      | nil => exact .char '<' ih
      | cons d more =>
        by_cases slash : d = '/'
        · rw [slash] at ih ⊢
          rw [Escape.scriptTags]
          split
          · -- The slash stands for itself here, so an escaped one may take its place.
            rw [scriptTags_cons (by decide)] at ih
            obtain ⟨s', rfl, inner⟩ := ih.of_slash
            exact .char '<' (.slash inner)
          · exact .char '<' ih
        · rw [Escape.scriptTags]
          · exact .char '<' ih
          · rintro rest - ⟨⟩
            exact slash rfl
    · rw [scriptTags_append (not_mem_escapeChar angle)]
      exact .char c ih
  | slash _ ih =>
    rw [scriptTags_cons (by decide), scriptTags_cons (by decide)]
    exact .slash ih

theorem Blank.not_mem {a : List Char} (h : Blank a) : '<' ∉ a :=
  fun member => absurd (h '<' member) (by decide)

theorem Blank.not_mem_concat {a : List Char} {c : Char} (h : Blank a) (other : '<' ≠ c) :
    '<' ∉ a ++ [c] := by
  rw [List.mem_append, List.mem_singleton, not_or]
  exact ⟨h.not_mem, other⟩

theorem settled_blank {a : List Char} {c : Char} (other : '<' ≠ c) (h : Blank a) :
    Settled (c :: a) :=
  settled_of_none (List.not_mem_cons_of_ne_of_not_mem other h.not_mem)

theorem Spells.unchanged {part : Part} {text : List Char} (h : Spells part text)
    (none : '<' ∉ text) : Settled text ∧ Spells part (Escape.scriptTags text) :=
  ⟨settled_of_none none, by rwa [scriptTags_self none]⟩

theorem Spells.scriptTags {part : Part} {text : List Char} (h : Spells part text) :
    Settled text ∧ Spells part (Escape.scriptTags text) := by
  induction h with
  | null => exact Spells.null.unchanged (by decide)
  | true' => exact Spells.true'.unchanged (by decide)
  | false' => exact Spells.false'.unchanged (by decide)
  | number json => exact (Spells.number json).unchanged (not_mem_json json)
  | @string s body written =>
    have quote : Settled ['"'] := settled_of_none (by decide)
    refine ⟨quote.append (settled_quote body (settled_of_none List.not_mem_nil)), ?_⟩
    rw [scriptTags_cons (by decide), scriptTags_quote, Escape.scriptTags]
    exact .string written.scriptTags
  | emptyArray => exact Spells.emptyArray.unchanged (by decide)
  | array blank _ ih =>
    refine ⟨(settled_blank (by decide) blank).append ih.1, ?_⟩
    rw [scriptTags_cons (by decide), scriptTags_append blank.not_mem]
    exact .array blank ih.2
  | emptyObject => exact Spells.emptyObject.unchanged (by decide)
  | object blank distinct _ ih =>
    refine ⟨(settled_blank (by decide) blank).append (settled_quote [] ih.1), ?_⟩
    rw [scriptTags_cons (by decide), scriptTags_append blank.not_mem, scriptTags_cons (by decide)]
    exact .object blank distinct ih.2
  | lastItem blank _ ih =>
    have last := blank.not_mem_concat (c := ']') (by decide)
    refine ⟨ih.1.append (settled_of_none last), ?_⟩
    rw [ih.1, scriptTags_self last]
    exact .lastItem blank ih.2
  | item blank _ _ ih ihMore =>
    refine ⟨ih.1.append ((settled_blank (by decide) blank).append ihMore.1), ?_⟩
    rw [ih.1, scriptTags_cons (by decide), scriptTags_append blank.not_mem]
    exact .item blank ih.2 ihMore.2
  | lastMember blank blank' written _ ih =>
    have last := blank'.not_mem_concat (c := '}') (by decide)
    refine ⟨settled_quote _ ((settled_blank (by decide) blank).append
      (ih.1.append (settled_of_none last))), ?_⟩
    rw [scriptTags_quote, scriptTags_cons (by decide), scriptTags_append blank.not_mem, ih.1,
      scriptTags_self last]
    exact .lastMember blank blank' written.scriptTags ih.2
  | member blank blank' written _ _ ih ihMore =>
    refine ⟨settled_quote _ ((settled_blank (by decide) blank).append
      (ih.1.append ((settled_blank (by decide) blank').append (settled_quote [] ihMore.1)))), ?_⟩
    rw [scriptTags_quote, scriptTags_cons (by decide), scriptTags_append blank.not_mem, ih.1,
      scriptTags_cons (by decide), scriptTags_append blank'.not_mem, scriptTags_cons (by decide)]
    exact .member blank blank' written.scriptTags ih.2 ihMore.2

namespace Value

mutual

/-- What JSON text can hold: numbers of JSON, and objects whose members have different names. -/
def IsJson : Value → Prop
  | number n => n.IsJson
  | array items => ItemsJson items
  | object members => (members.map Prod.fst).Nodup ∧ MembersJson members
  | _ => True

def ItemsJson : List Value → Prop
  | [] => True
  | item :: rest => item.IsJson ∧ ItemsJson rest

def MembersJson : List (String × Value) → Prop
  | [] => True
  | (_, value) :: rest => value.IsJson ∧ MembersJson rest

end

mutual

theorem spells_compactChars : ∀ v : Value, v.IsJson → Spells (.value v) v.compactChars
  | null, _ => .null
  | bool true, _ => .true'
  | bool false, _ => .false'
  | number _, json => .number json
  | string s, _ => .string (stringBody_flatMap s.toList)
  | array [], _ => .emptyArray
  | array (item :: rest), json =>
    .array (a := []) .nil (spells_compactItems (item :: rest) (List.cons_ne_nil _ _) json)
  | object [], _ => .emptyObject
  | object (member :: rest), json => by
    obtain ⟨text, same, written⟩ :=
      spells_compactMembers (member :: rest) (List.cons_ne_nil _ _) json.2
    rw [compactChars, same]
    exact .object (a := []) .nil json.1 written

theorem spells_compactItems : ∀ items : List Value, items ≠ [] → ItemsJson items →
    Spells (.items items) (compactItems items ++ [']'])
  | [], some', _ => absurd rfl some'
  | [item], _, json => .lastItem .nil (spells_compactChars item json.1)
  | item :: next :: rest, _, json => by
    have more := spells_compactItems (next :: rest) (List.cons_ne_nil _ _) json.2
    rw [compactItems, List.append_assoc]
    · exact .item (a := []) .nil (spells_compactChars item json.1) more
    · exact List.cons_ne_nil _ _

theorem spells_compactMembers : ∀ members : List (String × Value), members ≠ [] →
    MembersJson members → ∃ text, compactMembers members ++ ['}'] = '"' :: text ∧
      Spells (.members members) text
  | [], some', _ => absurd rfl some'
  | [(name, value)], _, json => by
    have body := stringBody_flatMap name.toList
    refine ⟨_, ?_, .lastMember .nil .nil body (spells_compactChars value json.1)⟩
    simp [compactMembers, quote]
  | (name, value) :: next :: rest, _, json => by
    have body := stringBody_flatMap name.toList
    obtain ⟨text, same, more⟩ :=
      spells_compactMembers (next :: rest) (List.cons_ne_nil _ _) json.2
    refine ⟨_, ?_, .member .nil .nil body (spells_compactChars value json.1) more⟩
    rw [compactMembers]
    · simp [quote, same]
    · exact List.cons_ne_nil _ _

end

theorem blank_lineAt (level : ℕ) : Blank (lineAt level) := by
  intro c member
  rcases List.mem_cons.mp member with rfl | member
  · rfl
  · rw [List.eq_of_mem_replicate member]
    rfl

theorem blank_space : Blank [' '] := by
  rintro c (_ | ⟨_, ⟨⟩⟩)
  rfl

mutual

theorem spells_prettyChars (level : ℕ) : ∀ v : Value, v.IsJson →
    Spells (.value v) (prettyChars level v)
  | null, _ => .null
  | bool true, _ => .true'
  | bool false, _ => .false'
  | number _, json => .number json
  | string s, _ => .string (stringBody_flatMap s.toList)
  | array [], _ => .emptyArray
  | array (item :: rest), json => by
    obtain ⟨text, same, written⟩ :=
      spells_prettyItems (level + 1) level (item :: rest) (List.cons_ne_nil _ _) json
    rw [prettyChars, List.append_assoc, same]
    exact .array (blank_lineAt (level + 1)) written
  | object [], _ => .emptyObject
  | object (member :: rest), json => by
    obtain ⟨text, same, written⟩ :=
      spells_prettyMembers (level + 1) level (member :: rest) (List.cons_ne_nil _ _) json.2
    rw [prettyChars, List.append_assoc, same]
    exact .object (blank_lineAt (level + 1)) json.1 written

theorem spells_prettyItems (level outer : ℕ) : ∀ items : List Value, items ≠ [] →
    ItemsJson items → ∃ text,
      prettyItems level items ++ (lineAt outer ++ [']']) = lineAt level ++ text ∧
        Spells (.items items) text
  | [], some', _ => absurd rfl some'
  | [item], _, json => by
    refine ⟨_, ?_, .lastItem (blank_lineAt outer) (spells_prettyChars level item json.1)⟩
    simp [prettyItems]
  | item :: next :: rest, _, json => by
    obtain ⟨text, same, more⟩ :=
      spells_prettyItems level outer (next :: rest) (List.cons_ne_nil _ _) json.2
    refine ⟨_, ?_, .item (blank_lineAt level) (spells_prettyChars level item json.1) more⟩
    rw [prettyItems]
    · simp [same]
    · exact List.cons_ne_nil _ _

theorem spells_prettyMembers (level outer : ℕ) : ∀ members : List (String × Value),
    members ≠ [] → MembersJson members → ∃ text,
      prettyMembers level members ++ (lineAt outer ++ ['}']) = lineAt level ++ '"' :: text ∧
        Spells (.members members) text
  | [], some', _ => absurd rfl some'
  | [(name, value)], _, json => by
    have body := stringBody_flatMap name.toList
    refine ⟨_, ?_, .lastMember blank_space (blank_lineAt outer) body
      (spells_prettyChars level value json.1)⟩
    simp [prettyMembers, quote]
  | (name, value) :: next :: rest, _, json => by
    have body := stringBody_flatMap name.toList
    obtain ⟨text, same, more⟩ :=
      spells_prettyMembers level outer (next :: rest) (List.cons_ne_nil _ _) json.2
    refine ⟨_, ?_, .member blank_space (blank_lineAt level) body
      (spells_prettyChars level value json.1) more⟩
    rw [prettyMembers]
    · simp [quote, same]
    · exact List.cons_ne_nil _ _

end

/-- The JSON formatters are safe and faithful. What they print of a value is its JSON text with the
script tags broken up. It holds no closing script tag in any case, and it reads as the value, with
the same members in the same order and the same integers and doubles. -/
theorem json_text_faithful {v : Value} (json : v.IsJson) (lookup : VarName → Node)
    (args : Arguments) :
    (∃ text, CoreFormatter.json.compute lookup args (.value v) =
          .ok (.text (String.ofList text)) ∧
        text = Escape.scriptTags v.compactChars ∧ Unclosed text ∧
        Value.read .standard text = .ok v) ∧
      ∃ text, CoreFormatter.jsonPretty.compute lookup args (.value v) =
          .ok (.text (String.ofList text)) ∧
        text = Escape.scriptTags v.pretty.toList ∧ Unclosed text ∧
        Value.read .standard text = .ok v := by
  have compact := (spells_compactChars v json).scriptTags.2
  have pretty := (spells_prettyChars 0 v json).scriptTags.2
  refine ⟨⟨_, rfl, rfl, unclosed_scriptTags _, compact.read⟩,
    ⟨_, rfl, rfl, unclosed_scriptTags _, ?_⟩⟩
  rw [Value.pretty, String.toList_ofList]
  exact pretty.read

def tagged : Value :=
  object [("</SCRIPT>", double 0.5), ("</", array [int (-3), text "</script\""])]

theorem json_text_faithful_tagged :
    tagged.IsJson ∧
      Escape.scriptTags tagged.compactChars =
        "\x7b\"<\\/SCRIPT>\":0.5,\"</\":[-3,\"<\\/script\\\"\"]\x7d".toList ∧
      Value.read .standard
        "\x7b\"<\\/SCRIPT>\":0.5,\"</\":[-3,\"<\\/script\\\"\"]\x7d".toList = .ok tagged ∧
      ∃ text, CoreFormatter.jsonPretty.compute (fun _ => .missing) .none (.value tagged) =
          .ok (.text (String.ofList text)) ∧
        Unclosed text ∧ Value.read .standard text = .ok tagged := by
  have json : tagged.IsJson := by
    refine ⟨by decide, ?_, ⟨⟨?_, trivial, trivial⟩, trivial⟩⟩
    · change Num.IsJson (.double 0.5)
      decide +kernel
    · change Num.IsJson (.int (-3))
      decide
  have written : Escape.scriptTags tagged.compactChars =
      "\x7b\"<\\/SCRIPT>\":0.5,\"</\":[-3,\"<\\/script\\\"\"]\x7d".toList := by
    decide +kernel
  obtain ⟨⟨text, -, same, -, read⟩, pretty, printed, -, unclosed, readPretty⟩ :=
    json_text_faithful json (fun _ => .missing) .none
  rw [same, written] at read
  exact ⟨json, written, read, pretty, printed, unclosed, readPretty⟩

end Value

end JsonTemplate.Json
