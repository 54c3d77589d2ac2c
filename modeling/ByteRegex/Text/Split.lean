/-! A text cut at the first occurrence of a character. -/

namespace ByteRegex

def splitAt? (close : Char) : List Char → Option (List Char × List Char)
  | [] => none
  | c :: rest =>
    if c = close then some ([], rest)
    else (splitAt? close rest).map fun (before, after) => (c :: before, after)

theorem eq_append_of_splitAt? {close : Char} {cs before after : List Char}
    (h : splitAt? close cs = some (before, after)) : cs = before ++ close :: after := by
  induction cs generalizing before with
  | nil => cases h
  | cons c rest ih =>
    rw [splitAt?] at h
    split at h
    next e => cases h; rw [e]; rfl
    next =>
      obtain ⟨⟨inner, tail⟩, found, eq⟩ := Option.map_eq_some_iff.1 h
      cases eq
      rw [ih found]
      rfl

theorem length_of_splitAt? {close : Char} {cs before after : List Char}
    (h : splitAt? close cs = some (before, after)) : after.length < cs.length := by
  rw [eq_append_of_splitAt? h, List.length_append, List.length_cons]
  omega

theorem splitAt?_eq_some_iff {close : Char} {cs before after : List Char} :
    splitAt? close cs = some (before, after) ↔ cs = before ++ close :: after ∧ close ∉ before := by
  constructor
  · intro h
    refine ⟨eq_append_of_splitAt? h, ?_⟩
    induction cs generalizing before with
    | nil => cases h
    | cons c rest ih =>
      rw [splitAt?] at h
      split at h
      next => cases h; exact List.not_mem_nil
      next other =>
        obtain ⟨⟨inner, tail⟩, found, eq⟩ := Option.map_eq_some_iff.1 h
        cases eq
        simpa [Ne.symm other] using ih found
  · rintro ⟨rfl, absent⟩
    induction before with
    | nil => simp [splitAt?]
    | cons c before ih =>
      simp only [List.mem_cons, not_or] at absent
      simp [splitAt?, Ne.symm absent.1, ih absent.2]

theorem splitAt?_eq_none_iff {close : Char} {cs : List Char} :
    splitAt? close cs = none ↔ close ∉ cs := by
  induction cs with
  | nil => simp [splitAt?]
  | cons c cs ih =>
    rw [splitAt?]
    split
    next same => simp [same]
    next other => simp [ih, Ne.symm other]

end ByteRegex
