/-!
# Cutting a text at a separator

`splitAt? sep cs` is the first occurrence of `sep` in `cs`, as the text before it and the
text after it. `pieces` cuts at every occurrence, from the left, and no character belongs
to two of them. There is always at least one piece.
-/

namespace OpeningHours.Text

/-- The text before the first `sep`, and the text after it. -/
def splitAt? (sep : List Char) : List Char → Option (List Char × List Char)
  | [] => if sep.isEmpty then some ([], []) else none
  | c :: cs =>
    if sep.isPrefixOf (c :: cs) then some ([], (c :: cs).drop sep.length)
    else (splitAt? sep cs).map fun r => (c :: r.1, r.2)

theorem eq_append_of_splitAt? {sep cs before after : List Char}
    (h : splitAt? sep cs = some (before, after)) : cs = before ++ sep ++ after := by
  induction cs generalizing before after with
  | nil =>
    simp only [splitAt?] at h
    split at h <;> simp_all
  | cons c cs ih =>
    simp only [splitAt?] at h
    split at h
    · rename_i hp
      obtain ⟨t, ht⟩ := List.isPrefixOf_iff_prefix.1 hp
      simp only [Option.some.injEq, Prod.mk.injEq] at h
      obtain ⟨rfl, rfl⟩ := h
      simp [← ht]
    · obtain ⟨⟨b, a⟩, hr, he⟩ := Option.map_eq_some_iff.1 h
      simp only [Prod.mk.injEq] at he
      obtain ⟨rfl, rfl⟩ := he
      simp [ih hr]

theorem length_lt_of_splitAt? {sep cs before after : List Char} (hs : sep ≠ [])
    (h : splitAt? sep cs = some (before, after)) : after.length < cs.length := by
  have := List.length_pos_iff.2 hs
  simp [eq_append_of_splitAt? h]
  omega

/-- The texts between the occurrences of a separator. -/
def pieces (sep : List Char) (hs : sep ≠ []) (cs : List Char) : List (List Char) :=
  match _h : splitAt? sep cs with
  | none => [cs]
  | some (before, after) => before :: pieces sep hs after
termination_by cs.length
decreasing_by exact length_lt_of_splitAt? hs (by assumption)

theorem pieces_ne_nil (sep : List Char) (hs : sep ≠ []) (cs : List Char) :
    pieces sep hs cs ≠ [] := by
  rw [pieces]
  split <;> simp

end OpeningHours.Text
