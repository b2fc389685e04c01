import JsonTemplate.Proofs.Text.Position
import JsonTemplate.Template.Instruction
import JsonTemplate.Template.Piece

namespace JsonTemplate

open JsonTemplate.Text

def Clear (pattern text rest : List Char) : Prop :=
  ∀ before after, text = before ++ after → after ≠ [] → ¬pattern <+: after ++ rest

section Clear

variable {pattern text rest : List Char}

theorem Clear.nil : Clear pattern [] rest := by
  intro before after split some'
  exact absurd (List.append_eq_nil_iff.mp split.symm).2 some'

theorem Clear.push {c : Char} (h : Clear pattern text (c :: rest))
    (here : ¬pattern <+: c :: rest) : Clear pattern (text ++ [c]) rest := by
  intro before after split some'
  rcases List.eq_nil_or_concat after with rfl | ⟨more, d, rfl⟩
  · exact absurd rfl some'
  · rw [List.concat_eq_append, ← List.append_assoc] at split
    obtain ⟨same, last⟩ := List.append_inj' split rfl
    cases last
    rw [List.concat_eq_append, List.append_assoc]
    cases more with
    | nil => exact here
    | cons => exact h before _ same (List.cons_ne_nil _ _)

theorem Clear.not_prefix {c : Char} (h : Clear pattern (c :: text) rest) :
    ¬pattern <+: c :: (text ++ rest) := h [] _ rfl (List.cons_ne_nil _ _)

theorem Clear.tail {c : Char} (h : Clear pattern (c :: text) rest) : Clear pattern text rest := by
  intro before after split some'
  exact h (c :: before) after (congrArg (c :: ·) split) some'

theorem Clear.front {front back : List Char} (h : Clear pattern (front ++ back) rest) :
    Clear pattern front (back ++ rest) := by
  intro before after split some'
  rw [← List.append_assoc]
  refine h before (after ++ back) ?_ ?_
  · rw [split, List.append_assoc]
  · exact List.append_ne_nil_of_left_ne_nil some' _

theorem Clear.shorten (rest : List Char) {more : List Char}
    (h : Clear pattern text (rest ++ more)) : Clear pattern text rest := by
  intro before after split some' starts
  refine h before after split some' ?_
  rw [← List.append_assoc]
  exact starts.trans (List.prefix_append _ _)

theorem Clear.extend (h : Clear pattern text rest) (short : pattern.length ≤ rest.length)
    (more : List Char) : Clear pattern text (rest ++ more) := by
  intro before after split some' starts
  refine h before after split some' ?_
  rw [← List.append_assoc] at starts
  refine List.prefix_of_prefix_length_le starts (List.prefix_append _ _) ?_
  rw [List.length_append]
  omega

theorem Clear.before_brace {c d : Char} (h : Clear ['{', c, d] text []) (cs : c ≠ '{')
    (ds : d ≠ '{') (braced : rest = [] ∨ ∃ more, rest = '{' :: more) :
    Clear ['{', c, d] text rest := by
  rcases braced with rfl | ⟨more, rfl⟩
  · exact h
  · rintro before after split some' ⟨others, same⟩
    have whole := h before after split some'
    -- A pattern that reached into the rest would have a brace in its second or third place.
    match after with
    | [] => exact some' rfl
    | [_] => simp_all
    | [_, _] => simp_all
    | _ :: _ :: _ :: _ => simp_all

end Clear

namespace Piece

def commentStart : List Char := ['{', '#', '#']

def commentEnd : List Char := ['#', '#', '}']

/-- A text between tags, with braces on its left side only. -/
structure IsText (text : List Char) : Prop where
  noRight : '}' ∉ text
  noComment : Clear commentStart text []

/-- What can stand in the braces of a tag. -/
structure IsContent (content : List Char) : Prop where
  noLeft : '{' ∉ content
  noRight : '}' ∉ content
  noComment : ¬['#', '#'] <+: content

/-- The pieces that a source can be cut into, when all its comments end. -/
inductive Cut : List Piece → Prop where
  | done (mark : Position) {before : List Char} : IsText before → Cut (textPiece mark before)
  | tag (mark place same : Position) {before content : List Char} {rest : List Piece} :
      IsText before → IsContent content → Cut rest →
        Cut (textPiece mark before ++ Piece.tag place same content :: rest)
  | comment (mark place : Position) {before content : List Char} {rest : List Piece} :
      IsText before → Clear commentEnd content commentEnd → Cut rest →
        Cut (textPiece mark before ++ Piece.comment place content :: rest)
  | stray (mark : Position) {before : List Char} {rest : List Piece} :
      '{' ∉ before → '}' ∉ before → Cut rest → Cut (Piece.text mark (before ++ ['}']) :: rest)

/-- What is known of what is pending before the rest of a source. -/
structure Pending.Good (p : Pending) (rest : List Char) : Prop where
  noRight : '}' ∉ p.all
  noLeft : match p.brace with
    | none => '{' ∉ p.before
    | some (_, inside) => '{' ∉ inside
  noComment : Clear commentStart p.all rest

def Mode.Good : Mode → List Char → Prop
  | .outside p, rest => p.Good rest
  | .inside _ content, rest => Clear commentEnd content.reverse rest

def Mode.Gives : Mode → List Piece → Prop
  | .outside _, pieces => Cut pieces
  | .inside _ _, pieces => ∃ place content rest, pieces = Piece.comment place content :: rest ∧
      Clear commentEnd content commentEnd ∧ Cut rest

theorem Pending.good_empty (rest : List Char) : Pending.empty.Good rest := by
  refine ⟨by simp [Pending.all, Pending.backward, Pending.empty], ?_, .nil⟩
  simp [Pending.empty]

theorem Pending.push_all (p : Pending) (c : Char) : (p.push c).all = p.all ++ [c] := by
  obtain ⟨before, _ | ⟨place, inside⟩⟩ := p <;> simp [push, all, backward]

theorem Pending.reopen_all (p : Pending) (place : Position) :
    (p.reopen place).all = p.all ++ ['{'] := by
  simp [reopen, all, backward]

theorem Pending.Good.push {p : Pending} {c : Char} {rest : List Char} (h : p.Good (c :: rest))
    (left : c ≠ '{') (right : c ≠ '}') : (p.push c).Good rest := by
  refine ⟨?_, ?_, ?_⟩
  · rw [push_all]
    simp [h.noRight, Ne.symm right]
  · have noLeft := h.noLeft
    obtain ⟨before, _ | ⟨place, inside⟩⟩ := p <;> simpa [Pending.push, Ne.symm left] using noLeft
  · rw [push_all]
    refine h.noComment.push ?_
    simp [commentStart, Ne.symm left]

theorem Pending.Good.reopen {p : Pending} {rest : List Char} (place : Position)
    (h : p.Good ('{' :: rest)) (single : ¬['#', '#'] <+: rest) : (p.reopen place).Good rest := by
  refine ⟨?_, List.not_mem_nil, ?_⟩
  · rw [reopen_all]
    simp [h.noRight]
  · rw [reopen_all]
    refine h.noComment.push ?_
    simpa [commentStart] using single

theorem Pending.Good.isText {p : Pending} {rest : List Char} (h : p.Good rest) : IsText p.all :=
  ⟨h.noRight, h.noComment.shorten []⟩

theorem Pending.Good.pieces {p : Pending} {source : List Char} (mark : Position)
    (h : p.Good ('}' :: source)) {rest : List Piece} (cut : Cut rest) :
    Cut (p.pieces mark ++ rest) := by
  obtain ⟨noRight, noLeft, noComment⟩ := h
  obtain ⟨before, _ | ⟨place, inside⟩⟩ := p
  · have noRight : '}' ∉ before := by simpa [all, backward] using noRight
    exact .stray mark (by simpa using noLeft) (by simpa using noRight) cut
  · have parts : all ⟨before, some (place, inside)⟩ =
        before.reverse ++ '{' :: inside.reverse := by simp [all, backward]
    rw [parts] at noRight noComment
    have isText : IsText before.reverse :=
      ⟨fun member => noRight (List.mem_append_left _ member), noComment.front.shorten []⟩
    have isContent : IsContent inside.reverse := by
      refine ⟨by simpa using noLeft, fun member => noRight (by simp_all), fun starts => ?_⟩
      refine noComment before.reverse ('{' :: inside.reverse) rfl (List.cons_ne_nil _ _) ?_
      exact (List.prefix_cons_inj '{').mpr (starts.trans (List.prefix_append _ _))
    rw [Pending.pieces, List.append_assoc]
    exact .tag mark place mark isText isContent cut

theorem not_prefix_of_ne {rest : List Char} (h : ∀ more, rest ≠ '#' :: '#' :: more) :
    ¬['#', '#'] <+: rest := by
  rintro ⟨more, rfl⟩
  exact h more rfl

theorem scan_gives (mark here : Position) (mode : Mode) (rest : List Char) (h : mode.Good rest)
    (closed : ∀ place mark' content,
      openComment place mark' content ∉ (scan mark here mode rest).1) :
    mode.Gives (scan mark here mode rest).1 := by
  -- Along the cases of the scan; `Good` is what each of them keeps. The second case is the comment
  -- that never ends.
  fun_induction scan mark here mode rest with
  | case1 mark here p => exact .done mark h.isText
  | case2 mark here place content => exact absurd List.mem_cons_self (closed place mark _)
  | case3 mark here p rest pieces stop scanned ih =>
    rw [scanned] at ih
    obtain ⟨place, content, more, rfl, ends, cut⟩ :=
      ih .nil fun place mark' content member => closed place mark' content (by simp [member])
    exact .comment mark place h.isText ends cut
  | case4 mark here place content rest after pieces stop scanned ih =>
    rw [scanned] at ih
    have cut : Cut pieces := ih (Pending.good_empty rest)
      fun place mark' content member => closed place mark' content (by simp [member])
    exact ⟨place, content.reverse, pieces, rfl, h.shorten commentEnd, cut⟩
  | case5 mark here p rest single ih =>
    have single : ¬['#', '#'] <+: rest := not_prefix_of_ne fun more same => single more rfl same
    exact ih (h.reopen here single) closed
  | case6 mark here p rest pieces stop _ _ after scanned ih =>
    rw [scanned] at ih
    have cut : Cut pieces := ih (Pending.good_empty rest)
      fun place mark' content member => closed place mark' content (by simp [member])
    exact h.pieces mark cut
  | case7 mark here p c rest _ left right ih => exact ih (h.push left right) closed
  | case8 mark here place content c rest more ih =>
    refine ih ?_ closed
    change Clear commentEnd (c :: content).reverse rest
    rw [List.reverse_cons]
    refine Clear.push h ?_
    rintro ⟨others, same⟩
    cases same
    exact more _ rfl rfl

theorem ofSource_cut (source : List Char)
    (closed : ∀ place mark content, openComment place mark content ∉ (ofSource source).1) :
    Cut (ofSource source).1 :=
  scan_gives .start .start (.outside .empty) source (Pending.good_empty source) closed

def source : Piece → List Char
  | text _ content => content
  | tag _ _ content => inBraces content
  | comment _ content => commentStart ++ content ++ commentEnd
  | openComment _ _ content => commentStart ++ content

def erase : Piece → Piece
  | text _ content => text .nowhere content
  | tag _ _ content => tag .nowhere .nowhere content
  | comment _ content => comment .nowhere content
  | openComment _ _ content => openComment .nowhere .nowhere content

theorem textPiece_source (mark : Position) (content : List Char) :
    (textPiece mark content).flatMap source = content := by
  cases content with
  | nil => rfl
  | cons => simp [textPiece, source]

def Mode.pending : Mode → List Char
  | .outside p => p.all
  | .inside _ content => commentStart ++ content.reverse

@[simp] theorem Mode.pending_outside (p : Pending) : (outside p).pending = p.all := rfl

@[simp] theorem Mode.pending_inside (place : Position) (content : List Char) :
    (inside place content).pending = commentStart ++ content.reverse := rfl

@[simp] theorem Pending.all_empty : Pending.empty.all = [] := rfl

theorem scan_whole (mark here : Position) (mode : Mode) (rest : List Char) :
    (scan mark here mode rest).1.flatMap source = mode.pending ++ rest := by
  fun_induction scan mark here mode rest with
  | case1 mark here p => simp [textPiece_source]
  | case2 mark here place content => simp [source]
  | case3 mark here p rest pieces stop scanned ih =>
    rw [scanned] at ih
    rw [List.flatMap_append, textPiece_source, ih]
    rfl
  | case4 mark here place content rest after pieces stop scanned ih =>
    rw [scanned] at ih
    rw [List.flatMap_cons, ih, source]
    simp [commentEnd]
  | case5 mark here p rest single ih => simp [ih, Pending.reopen_all]
  | case6 mark here p rest pieces stop _ _ after scanned ih =>
    rw [scanned] at ih
    rw [List.flatMap_append, ih]
    obtain ⟨before, _ | ⟨place, inside⟩⟩ := p <;>
      simp [Pending.pieces, textPiece_source, source, inBraces, Pending.all, Pending.backward,
        Pending.empty]
  | case7 mark here p c rest _ _ _ ih => simp [ih, Pending.push_all]
  | case8 mark here place content c rest _ ih => simp [ih]

theorem ofSource_whole (text : List Char) : (ofSource text).1.flatMap source = text :=
  scan_whole .start .start (.outside .empty) text

theorem textPiece_erase (mark other : Position) (content : List Char) :
    (textPiece mark content).map erase = (textPiece other content).map erase := by
  cases content <;> rfl

section Scan

variable {mark here : Position} {p : Pending} {rest : List Char}

theorem scan_push {c : Char} (left : c ≠ '{') (right : c ≠ '}') :
    scan mark here (.outside p) (c :: rest) =
      scan mark (here.next c) (.outside (p.push c)) rest := by
  rw [scan]
  · simp only [left, right, if_false]
  · exact fun _ same => absurd same left

theorem scan_reopen (single : ¬['#', '#'] <+: rest) :
    scan mark here (.outside p) ('{' :: rest) =
      scan mark (here.next '{') (.outside (p.reopen here)) rest := by
  rw [scan]
  · simp only [if_true]
  · rintro more - rfl
    exact single ⟨more, rfl⟩

theorem scan_close :
    (scan mark here (.outside p) ('}' :: rest)).1 =
      p.pieces mark ++ (scan (here.next '}') (here.next '}') (.outside .empty) rest).1 := by
  rw [scan]
  · rfl
  · exact fun _ same => absurd same (by decide)

theorem scan_comment :
    (scan mark here (.outside p) (commentStart ++ rest)).1 =
      textPiece mark p.all ++ (scan mark (here.forward 3) (.inside here []) rest).1 := rfl

end Scan

theorem scan_text {text : List Char} (mark here : Position) (p : Pending) (rest : List Char)
    (h : IsText text)
    (braced : rest = [] ∨ ∃ more, rest = '{' :: more) :
    ∃ next after, next.all = p.all ++ text ∧
      scan mark here (.outside p) (text ++ rest) = scan mark after (.outside next) rest := by
  obtain ⟨noRight, noComment⟩ := h
  have clear : Clear commentStart text rest :=
    noComment.before_brace (by decide) (by decide) braced
  clear noComment
  induction text generalizing p here with
  | nil => exact ⟨p, here, by simp, rfl⟩
  | cons c text ih =>
    have right : c ≠ '}' := fun same => noRight (same ▸ List.mem_cons_self)
    have later (p : Pending) (here : Position) :=
      ih here p (fun member => noRight (List.mem_cons_of_mem _ member)) clear.tail
    by_cases left : c = '{'
    · subst left
      have single : ¬['#', '#'] <+: text ++ rest := by
        intro starts
        exact clear.not_prefix ((List.prefix_cons_inj '{').mpr starts)
      obtain ⟨next, after, all, same⟩ := later (p.reopen here) (here.next '{')
      refine ⟨next, after, ?_, ?_⟩
      · rw [all, Pending.reopen_all, List.append_assoc]
        rfl
      · rw [List.cons_append, scan_reopen single, same]
    · obtain ⟨next, after, all, same⟩ := later (p.push c) (here.next c)
      refine ⟨next, after, ?_, ?_⟩
      · rw [all, Pending.push_all, List.append_assoc]
        rfl
      · rw [List.cons_append, scan_push left right, same]

theorem scan_content {text : List Char} (mark here : Position) (p : Pending) (rest : List Char)
    (noLeft : '{' ∉ text) (noRight : '}' ∉ text) :
    scan mark here (.outside p) (text ++ rest) =
      scan mark (here.after text) (.outside (text.foldl Pending.push p)) rest := by
  induction text generalizing p here with
  | nil => rfl
  | cons c text ih =>
    obtain ⟨left, noLeft⟩ := List.ne_and_not_mem_of_not_mem_cons noLeft
    obtain ⟨right, noRight⟩ := List.ne_and_not_mem_of_not_mem_cons noRight
    rw [List.cons_append, scan_push left.symm right.symm, ih (here.next c) (p.push c) noLeft noRight]
    rfl

theorem Pending.foldl_push_none (before text : List Char) :
    text.foldl push ⟨before, none⟩ = ⟨text.reverse ++ before, none⟩ := by
  induction text generalizing before with
  | nil => rfl
  | cons c text ih => simp [push, ih]

theorem Pending.foldl_push_some (before inside text : List Char) (place : Position) :
    text.foldl push ⟨before, some (place, inside)⟩ =
      ⟨before, some (place, text.reverse ++ inside)⟩ := by
  induction text generalizing inside with
  | nil => rfl
  | cons c text ih => simp [push, ih]

theorem scan_inside {content rest : List Char} (mark here place : Position) (before : List Char)
    (h : Clear commentEnd content (commentEnd ++ rest)) :
    ∃ after, (scan mark here (.inside place before) (content ++ (commentEnd ++ rest))).1 =
      comment place (before.reverse ++ content) ::
        (scan after after (.outside .empty) rest).1 := by
  induction content generalizing before here with
  | nil => exact ⟨_, by rw [List.append_nil]; rfl⟩
  | cons c content ih =>
    obtain ⟨after, same⟩ := ih (here.next c) (c :: before) h.tail
    refine ⟨after, ?_⟩
    have step : scan mark here (.inside place before) (c :: content ++ (commentEnd ++ rest)) =
        scan mark (here.next c) (.inside place (c :: before))
          (content ++ (commentEnd ++ rest)) := by
      rw [List.cons_append, scan]
      rintro more rfl same
      refine h.not_prefix ?_
      rw [same]
      exact ⟨more, rfl⟩
    rw [step, same]
    simp

theorem IsContent.single {content : List Char} (h : IsContent content) (rest : List Char) :
    ¬['#', '#'] <+: content ++ '}' :: rest := by
  have noComment := h.noComment
  rintro ⟨others, same⟩
  match content with
  | [] => simp at same
  | [_] => simp at same
  | _ :: _ :: _ =>
    cases same
    exact noComment ⟨_, rfl⟩

theorem scan_tag {content : List Char} (mark here : Position) (p : Pending) (rest : List Char)
    (h : IsContent content) :
    ∃ place after, (scan mark here (.outside p) (inBraces content ++ rest)).1 =
      textPiece mark p.all ++ tag place mark content ::
        (scan after after (.outside .empty) rest).1 := by
  have more := scan_content mark (here.next '{') (p.reopen here) ('}' :: rest) h.noLeft h.noRight
  have written : inBraces content ++ rest = '{' :: (content ++ '}' :: rest) := by
    simp [inBraces]
  have pending : content.foldl Pending.push (p.reopen here) =
      ⟨p.backward, some (here, content.reverse)⟩ := by
    rw [Pending.reopen, Pending.foldl_push_some, List.append_nil]
  refine ⟨here, ((here.next '{').after content).next '}', ?_⟩
  rw [written, scan_reopen (h.single rest), more, scan_close, pending]
  simp [Pending.pieces, Pending.all]

theorem ofSource_inBraces {content : List Char} (h : IsContent content) :
    ofSource (inBraces content) =
      ([tag .start .start content], Position.start.after (inBraces content)) := by
  have more := scan_content .start (Position.start.next '{') (.reopen .empty .start) ['}']
    h.noLeft h.noRight
  have pending : content.foldl Pending.push (.reopen .empty .start) =
      ⟨[], some (.start, content.reverse)⟩ := by
    rw [Pending.reopen, Pending.foldl_push_some, List.append_nil]
    rfl
  have ended : Position.start.after (inBraces content) =
      ((Position.start.next '{').after content).next '}' :=
    Position.after_append (Position.start.next '{') content ['}']
  have closed (here : Position) (p : Pending) :
      scan .start here (.outside p) ['}'] = (p.pieces .start ++ [], here.next '}') := rfl
  rw [ofSource, inBraces, scan_reopen (h.single []), more, pending, ← inBraces, ended, closed]
  simp only [Pending.pieces, List.reverse_reverse]
  rfl

theorem scan_whole_comment {content : List Char} (mark here : Position) (p : Pending)
    (rest : List Char) (h : Clear commentEnd content commentEnd) :
    ∃ place after,
      (scan mark here (.outside p) (commentStart ++ content ++ commentEnd ++ rest)).1 =
        textPiece mark p.all ++ comment place content ::
          (scan after after (.outside .empty) rest).1 := by
  obtain ⟨after, same⟩ :=
    scan_inside mark (here.forward 3) here [] (h.extend (Nat.le_refl _) rest)
  refine ⟨here, after, ?_⟩
  rw [List.append_assoc, List.append_assoc, scan_comment, same]
  rfl

theorem scan_stray {before : List Char} (mark here : Position) (rest : List Char)
    (noLeft : '{' ∉ before) (noRight : '}' ∉ before) :
    ∃ after, (scan mark here (.outside .empty) (before ++ ['}'] ++ rest)).1 =
      text mark (before ++ ['}']) :: (scan after after (.outside .empty) rest).1 := by
  have more := scan_content mark here .empty ('}' :: rest) noLeft noRight
  refine ⟨(here.after before).next '}', ?_⟩
  rw [List.append_assoc, List.singleton_append, more, scan_close, Pending.empty,
    Pending.foldl_push_none, Pending.pieces]
  simp

theorem Cut.scan_source {pieces : List Piece} (h : Cut pieces) (mark here : Position) :
    (scan mark here (.outside .empty) (pieces.flatMap source)).1.map erase =
      pieces.map erase := by
  induction h generalizing mark here with
  | @done old before isText =>
    obtain ⟨next, after, all, same⟩ := scan_text mark here .empty [] isText (.inl rfl)
    have all : next.all = before := all
    rw [textPiece_source, ← List.append_nil before, same, scan, all, List.append_nil]
    exact textPiece_erase _ _ _
  | @tag old _ _ before content rest isText isContent cut ih =>
    obtain ⟨next, after, all, same⟩ :=
      scan_text mark here .empty (inBraces content ++ rest.flatMap source) isText (.inr ⟨_, rfl⟩)
    obtain ⟨place, last, more⟩ := scan_tag mark after next (rest.flatMap source) isContent
    have all : next.all = before := all
    rw [List.flatMap_append, textPiece_source, List.flatMap_cons, source, same, more, all]
    simp only [List.map_append, List.map_cons, ih, erase, textPiece_erase mark old]
  | @comment old _ before content rest isText ends cut ih =>
    obtain ⟨next, after, all, same⟩ :=
      scan_text mark here .empty (commentStart ++ content ++ commentEnd ++ rest.flatMap source)
        isText (.inr ⟨_, rfl⟩)
    obtain ⟨place, last, more⟩ := scan_whole_comment mark after next (rest.flatMap source) ends
    have all : next.all = before := all
    rw [List.flatMap_append, textPiece_source, List.flatMap_cons, source, same, more, all]
    simp only [List.map_append, List.map_cons, ih, erase, textPiece_erase mark old]
  | @stray old before rest noLeft noRight cut ih =>
    obtain ⟨last, more⟩ := scan_stray mark here (rest.flatMap source) noLeft noRight
    rw [List.flatMap_cons, source, more]
    simp only [List.map_cons, ih, erase]

def retag (content' : Position → List Char → List Char) : Piece → Piece
  | tag place mark content => tag place mark (content' place content)
  | text place content => text place content
  | comment place content => comment place content
  | openComment place mark content => openComment place mark content

theorem Cut.retag {content' : Position → List Char → List Char} {pieces : List Piece}
    (h : Cut pieces)
    (contents : ∀ place mark content, Piece.tag place mark content ∈ pieces →
      IsContent (content' place content)) : Cut (pieces.map (retag content')) := by
  have texts (mark : Position) (before : List Char) :
      (textPiece mark before).map (Piece.retag content') = textPiece mark before := by
    cases before <;> rfl
  induction h with
  | done mark isText =>
    rw [texts]
    exact .done mark isText
  | tag mark place same isText isContent cut ih =>
    rw [List.map_append, texts, List.map_cons]
    exact .tag mark place same isText (contents place same _ (by simp))
      (ih fun place mark content member => contents place mark content (by simp [member]))
  | comment mark place isText ends cut ih =>
    rw [List.map_append, texts, List.map_cons]
    exact .comment mark place isText ends
      (ih fun place mark content member => contents place mark content (by simp [member]))
  | stray mark noLeft noRight cut ih =>
    rw [List.map_cons]
    exact .stray mark noLeft noRight
      (ih fun place mark content member => contents place mark content (by simp [member]))

theorem Cut.isContent {pieces : List Piece} (h : Cut pieces) {place mark : Position}
    {content : List Char} (member : Piece.tag place mark content ∈ pieces) : IsContent content := by
  have texts (mark' : Position) (before : List Char) :
      Piece.tag place mark content ∉ textPiece mark' before := by
    cases before <;> simp [textPiece]
  induction h with
  | done mark' isText => exact absurd member (texts _ _)
  | tag mark' place' same isText isContent cut ih =>
    rcases List.mem_append.mp member with inside | inside
    · exact absurd inside (texts _ _)
    · rcases List.mem_cons.mp inside with found | inside
      · cases found
        exact isContent
      · exact ih inside
  | comment mark' place' isText ends cut ih =>
    rcases List.mem_append.mp member with inside | inside
    · exact absurd inside (texts _ _)
    · exact ih (by simpa using inside)
  | stray mark' noLeft noRight cut ih => exact ih (by simpa using member)

end Piece

end JsonTemplate
