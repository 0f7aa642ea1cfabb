/-!
# Cutting text

A text is cut at the first place where a marker stands, or at every place where one character does.
-/
namespace NaturalTemplate.Text

/-- The text before the first occurrence of `marker`, and the text after it. -/
def splitAt? (marker : List Char) : List Char → Option (List Char × List Char)
  | [] => if marker.isEmpty then some ([], []) else none
  | c :: cs =>
    if marker.isPrefixOf (c :: cs) then some ([], (c :: cs).drop marker.length)
    else (splitAt? marker cs).map fun (before, after) => (c :: before, after)

theorem splitAt?_eq_some {marker cs before after : List Char}
    (h : splitAt? marker cs = some (before, after)) : cs = before ++ marker ++ after := by
  induction cs generalizing before with
  | nil =>
    simp only [splitAt?] at h
    split at h
    · simp_all
    · simp at h
  | cons c cs ih =>
    simp only [splitAt?] at h
    split at h
    next hp =>
      obtain ⟨rest, hrest⟩ := List.isPrefixOf_iff_prefix.mp hp
      simp only [Option.some.injEq, Prod.mk.injEq] at h
      obtain ⟨rfl, rfl⟩ := h
      simp [← hrest]
    next =>
      obtain ⟨⟨b, a⟩, hba, heq⟩ := Option.map_eq_some_iff.mp h
      simp only [Prod.mk.injEq] at heq
      obtain ⟨rfl, rfl⟩ := heq
      simp [ih hba]

theorem length_of_splitAt? {marker cs before after : List Char}
    (h : splitAt? marker cs = some (before, after)) : after.length ≤ cs.length := by
  have hlen := congrArg List.length (splitAt?_eq_some h)
  simp only [List.length_append] at hlen
  omega

/-- The pieces between the occurrences of a character. There is always at least one. -/
def pieces (separator : Char) : List Char → List (List Char)
  | [] => [[]]
  | c :: cs =>
    if c = separator then [] :: pieces separator cs
    else
      match pieces separator cs with
      | [] => [[c]]
      | piece :: rest => (c :: piece) :: rest

theorem pieces_ne_nil (separator : Char) (cs : List Char) : pieces separator cs ≠ [] := by
  cases cs with
  | nil => simp [pieces]
  | cons c cs =>
    simp only [pieces]
    split
    · simp
    · split <;> simp

end NaturalTemplate.Text
