import JsonTemplate.Proofs.Text.Division

namespace JsonTemplate.Text

theorem byteLength_eq_zero {text : List Char} : byteLength text = 0 ↔ text = [] := by
  refine ⟨fun none => ?_, fun empty => by rw [empty]; rfl⟩
  cases text with
  | nil => rfl
  | cons c rest => exact absurd none (Nat.ne_of_gt (byteLength_pos (List.cons_ne_nil c rest)))

theorem byteLength_front_le {front text : List Char} (h : front <+: text) :
    byteLength front ≤ byteLength text := by
  obtain ⟨back, rfl⟩ := h
  rw [byteLength_append]
  exact Nat.le_add_right _ _

theorem prefix_of_byteLength_le {front other text : List Char} (first : front <+: text)
    (second : other <+: text) (fewer : byteLength front ≤ byteLength other) : front <+: other := by
  rcases List.prefix_or_prefix_of_prefix first second with inside | ⟨more, rfl⟩
  · exact inside
  · rw [byteLength_append] at fewer
    have none : more = [] := byteLength_eq_zero.mp (by omega)
    simp only [none, List.append_nil, List.prefix_refl]

theorem take_length_inj {text : List Char} {m n : Nat} (first : m ≤ text.length)
    (second : n ≤ text.length) (same : byteLength (text.take m) = byteLength (text.take n)) :
    m = n := by
  have one := prefix_of_byteLength_le (List.take_prefix m text) (List.take_prefix n text)
    (Nat.le_of_eq same)
  have other := prefix_of_byteLength_le (List.take_prefix n text) (List.take_prefix m text)
    (Nat.le_of_eq same.symm)
  have length := Nat.le_antisymm one.length_le other.length_le
  rwa [List.length_take_of_le first, List.length_take_of_le second] at length

theorem dropBytes?_eq_some_iff {offset : Nat} {text back : List Char} :
    dropBytes? offset text = some back ↔
      ∃ front, byteLength front = offset ∧ front ++ back = text := by
  constructor
  · intro dropped
    fun_induction dropBytes? offset text with
    | case1 text =>
      cases dropped
      exact ⟨[], rfl, rfl⟩
    | case2 => cases dropped
    | case3 n c rest fits ih =>
      obtain ⟨front, size, rfl⟩ := ih dropped
      refine ⟨c :: front, ?_, rfl⟩
      change c.utf8Size + byteLength front = n + 1
      omega
    | case4 => cases dropped
  · rintro ⟨front, rfl, rfl⟩
    exact dropBytes?_append front back

theorem isBoundary_iff {text : List Char} {offset : Nat} :
    isBoundary text offset = true ↔ ∃ front, front <+: text ∧ byteLength front = offset := by
  rw [isBoundary, Option.isSome_iff_exists]
  simp only [dropBytes?_eq_some_iff]
  constructor
  · rintro ⟨back, front, size, rfl⟩
    exact ⟨front, List.prefix_append front back, size⟩
  · rintro ⟨front, ⟨back, rfl⟩, size⟩
    exact ⟨back, front, size, rfl⟩

theorem takeBytes_prefix (n : Nat) (text : List Char) : takeBytes n text <+: text := by
  fun_induction takeBytes n text with
  | case1 => exact List.nil_prefix
  | case2 n c rest fits ih => exact (List.prefix_cons_inj c).mpr ih
  | case3 => exact List.nil_prefix

theorem byteLength_takeBytes_le (n : Nat) (text : List Char) :
    byteLength (takeBytes n text) ≤ n := by
  fun_induction takeBytes n text with
  | case1 => exact Nat.zero_le _
  | case2 n c rest fits ih =>
    change c.utf8Size + byteLength (takeBytes (n - c.utf8Size) rest) ≤ n
    omega
  | case3 => exact Nat.zero_le _

theorem byteLength_slice_le (text : List Char) (start stop : Nat) :
    byteLength (slice text start stop) ≤ stop - start := by
  unfold slice
  split
  · exact byteLength_takeBytes_le _ _
  · exact Nat.zero_le _

theorem slice_ne_nil {text : List Char} {start stop : Nat} (some' : slice text start stop ≠ []) :
    ∃ front back, byteLength front = start ∧ front ++ (slice text start stop ++ back) = text := by
  unfold slice at some' ⊢
  split at some'
  · rename_i rest dropped
    obtain ⟨front, size, whole⟩ := dropBytes?_eq_some_iff.mp dropped
    obtain ⟨back, parts⟩ := takeBytes_prefix (stop - start) rest
    exact ⟨front, back, size, by rw [parts, whole]⟩
  · exact absurd rfl some'

theorem exists_window {text : List Char} {start stop : Nat} (order : start ≤ stop)
    (first : isBoundary text start = true) (last : isBoundary text stop = true) :
    ∃ before window after, text = before ++ (window ++ after) ∧ byteLength before = start ∧
      byteLength (before ++ window) = stop := by
  obtain ⟨before, front, rfl⟩ := isBoundary_iff.mp first
  obtain ⟨through, whole, rfl⟩ := isBoundary_iff.mp last
  obtain ⟨window, rfl⟩ := prefix_of_byteLength_le front whole order
  obtain ⟨after, rfl⟩ := whole
  exact ⟨before, window, after, List.append_assoc .., rfl, rfl⟩

section Window

variable {before window after word : List Char}

theorem slice_window (before window after : List Char) :
    slice (before ++ (window ++ after)) (byteLength before) (byteLength (before ++ window)) =
      window :=
  View.between_text before window after

theorem slice_front (front : word <+: window) :
    slice (before ++ (window ++ after)) (byteLength before) (byteLength before + byteLength word) =
      word := by
  obtain ⟨more, rfl⟩ := front
  rw [List.append_assoc, ← byteLength_append]
  exact slice_window before word (more ++ after)

theorem isBoundary_front (front : word <+: window) :
    isBoundary (before ++ (window ++ after)) (byteLength before + byteLength word) = true := by
  obtain ⟨more, rfl⟩ := front
  rw [isBoundary_iff]
  exact ⟨before ++ word, ⟨more ++ after, by simp only [List.append_assoc]⟩, byteLength_append ..⟩

theorem isBoundary_slice {text : List Char} {start stop : Nat}
    (some' : slice text start stop ≠ []) (front : word <+: slice text start stop) :
    isBoundary text start = true ∧ isBoundary text (start + byteLength word) = true := by
  obtain ⟨before, after, size, whole⟩ := slice_ne_nil some'
  have first := isBoundary_append before (slice text start stop ++ after)
  have last : isBoundary (before ++ (slice text start stop ++ after))
      (byteLength before + byteLength word) = true := isBoundary_front front
  rw [whole, size] at first last
  exact ⟨first, last⟩

theorem exists_front {place : Nat} (first : byteLength before ≤ place)
    (last : place ≤ byteLength (before ++ window))
    (boundary : isBoundary (before ++ (window ++ after)) place = true) :
    ∃ word, word <+: window ∧ place = byteLength before + byteLength word := by
  obtain ⟨front, whole, rfl⟩ := isBoundary_iff.mp boundary
  have through : before ++ window <+: before ++ (window ++ after) :=
    ⟨after, List.append_assoc ..⟩
  obtain ⟨word, rfl⟩ := prefix_of_byteLength_le (List.prefix_append before _) whole first
  have short := prefix_of_byteLength_le whole through last
  exact ⟨word, (List.prefix_append_right_inj before).mp short, byteLength_append ..⟩

end Window

end JsonTemplate.Text
