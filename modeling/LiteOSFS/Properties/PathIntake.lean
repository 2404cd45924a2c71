import LiteOSFS.FileSystem.Listing

/-! # How path strings are taken in

`fs_create` and `fs_open` copy the path to 65535 bytes, `fs_get_dir` to 200; then
`str_split` copies each token to a buffer of 200 bytes, before any name is checked.
A path without a leading slash makes it return `NULL`, which `fs_get_dir` alone
does not test for.
-/
namespace LiteOSFS
open Memory CString

/-- The part of `fs_get_dir` up to the tokens; `none` is a store outside a buffer or the use of `NULL`. -/
def getDirTokens (path : CStr) : Option (List CStr) :=
  if path.length ≥ 200 then none else (strSplit path).bind id

/-- The rest of `fs_get_dir`. -/
def listTokens (m : Mem) (tokens : List CStr) : Option (Option (List FileRecord)) :=
  let slashOnly := tokens.headD [] = []
  if ¬ slashOnly ∧ tokens.all isValidFileName = false then some none
  else
    let names := if slashOnly then tokens.dropLast else tokens
    let w := walk m names
    if w.indicator = names.length then listDir m w.inodeID else some none

/-- The components fit the token buffers, as far as the path is split at all. -/
def Fits (path : CStr) : Prop := path.head? = some slash → ∀ token ∈ strtok slash path, token.length < 200

section Split
variable {path : CStr}

/-- With a leading slash there are no more tokens than slashes, so each has its buffer. -/
theorem strtok_length_le_count (h : path.head? = some slash) : (strtok slash path).length ≤ path.count slash := by
  obtain ⟨rest,rfl⟩ := List.head?_eq_some_iff.mp h
  rw [strtok_cons, List.count_cons_self]
  exact strtok_length_le rest

theorem strSplit_noSlash (h : path.head? ≠ some slash) : strSplit path = some none := if_pos h

theorem strSplit_slash (h : path.head? = some slash) : strSplit path =
    if ∀ token ∈ strtok slash path, token.length < 200 then
      some (some (strtok slash path ++ List.replicate (path.count slash - (strtok slash path).length) []))
    else none := by
  have hcount := strtok_length_le_count h
  rw [strSplit, if_neg (not_not.mpr h)]
  simp only
  by_cases hfit : ∀ token ∈ strtok slash path, token.length < 200
  · rw [if_pos hfit, if_neg]
    simp only [Bool.or_eq_true, List.any_eq_true, decide_eq_true_eq, not_or, not_exists, not_and]
    exact ⟨fun t ht => by have := hfit t ht; omega,by omega⟩
  · rw [if_neg hfit, if_pos]
    push Not at hfit
    obtain ⟨t,ht,hl⟩ := hfit
    rw [Bool.or_eq_true, List.any_eq_true]
    exact Or.inl ⟨t,ht,decide_eq_true hl⟩

theorem strSplit_ne_none : strSplit path ≠ none ↔ Fits path := by
  by_cases h : path.head? = some slash
  · rw [strSplit_slash h, Fits]
    split_ifs with hfit
    · exact iff_of_true (Option.some_ne_none _) (fun _ => hfit)
    · exact iff_of_false (fun hn => hn rfl) (fun hf => hfit (hf h))
  · rw [strSplit_noSlash h]
    exact iff_of_true (Option.some_ne_none _) (fun hs => absurd hs h)

theorem splitPath_ne_none (hlong : path.length < 65535) : splitPath path ≠ none ↔ Fits path := by
  rw [splitPath, if_neg (by omega)]
  exact strSplit_ne_none

/-- A path that is copied to 200 bytes has no component that does not fit. -/
theorem getDirTokens_isSome : getDirTokens path ≠ none ↔ path.head? = some slash ∧ path.length < 200 := by
  rw [getDirTokens]
  split_ifs with hlong
  · exact iff_of_false (fun hn => hn rfl) (fun hc => by omega)
  by_cases h : path.head? = some slash
  · have hfit : ∀ token ∈ strtok slash path, token.length < 200 := by
      intro token ht
      have hle := length_of_mem_strtok ht
      omega
    rw [strSplit_slash h, if_pos hfit]
    exact iff_of_true (Option.some_ne_none _) ⟨h,by omega⟩
  · rw [strSplit_noSlash h]
    exact iff_of_false (fun hn => hn rfl) (fun hc => h hc.1)

end Split

theorem fsGetDir_tokens (s : F19FS) {path : CStr} (hne : path ≠ []) :
    fsGetDir s (some path) = (getDirTokens path).bind (listTokens s.image) := by
  simp only [fsGetDir, if_neg hne, getDirTokens]
  split_ifs with hlong
  · rfl
  · cases strSplit path with
    | none => rfl
    | some res => cases res <;> rfl

/-- For every state and every path that the copy of `fs_create` and `fs_open` holds: these two are safe when a
path with a leading slash has no component of 200 bytes or more, and `fs_get_dir` when the path has a
leading slash and less than 200 bytes. -/
theorem path_intake (s : F19FS) (path : CStr) (hne : path ≠ []) (hlong : path.length < 65535) :
    (∀ type, type ≠ .invalid → (fsCreate s (some path) type ≠ none ↔ Fits path)) ∧
    (fsOpen s (some path) ≠ none ↔ Fits path) ∧
    (fsGetDir s (some path) = (getDirTokens path).bind (listTokens s.image) ∧
      (getDirTokens path ≠ none ↔ path.head? = some slash ∧ path.length < 200)) ∧
    (path.head? = some slash → (strtok slash path).length ≤ path.count slash) := by
  have hsplit := splitPath_ne_none hlong
  refine ⟨fun type htype => ?_,?_,⟨fsGetDir_tokens s hne,getDirTokens_isSome⟩,strtok_length_le_count⟩
  · have hno : ¬ (path = [] ∨ type = .invalid) := not_or.mpr ⟨hne,htype⟩
    rw [← hsplit]
    simp only [fsCreate, if_neg hno]
    cases splitPath path with
    | none => exact iff_of_false (fun hn => hn rfl) (fun hn => hn rfl)
    | some res =>
      refine iff_of_true (fun hn => ?_) (Option.some_ne_none _)
      cases res with
      | none => cases hn
      | some tokens =>
        simp only at hn
        split_ifs at hn
  · rw [← hsplit]
    simp only [fsOpen, if_neg hne]
    cases splitPath path with
    | none => exact iff_of_false (fun hn => hn rfl) (fun hn => hn rfl)
    | some res =>
      refine iff_of_true (fun hn => ?_) (Option.some_ne_none _)
      cases res with
      | none => cases hn
      | some tokens =>
        simp only at hn
        split_ifs at hn

theorem path_intake_plain : fsOpen fsFormat (some (ofChars ['a'])) ≠ none ∧
    fsCreate fsFormat (some (ofChars ['/','a'])) .regular ≠ none ∧ getDirTokens (ofChars ['/']) ≠ none := by
  have ho := path_intake fsFormat (ofChars ['a']) (by decide) (by decide)
  have hc := path_intake fsFormat (ofChars ['/','a']) (by decide) (by decide)
  have hg := path_intake fsFormat (ofChars ['/']) (by decide) (by decide)
  refine ⟨ho.2.1.mpr (fun h => absurd h (by decide)),(hc.1 _ (by decide)).mpr (fun _ token ht => ?_),
    hg.2.2.1.2.mpr (by decide)⟩
  have hl := length_of_mem_strtok ht
  have h2 : (ofChars ['/','a']).length = 2 := rfl
  omega

/-- `fs_get_dir` reads through `NULL` for a path without a leading slash, and a component of 200 bytes
goes over its buffer. -/
theorem path_intake_fails : (¬ ∀ (s : F19FS) (path : CStr), path ≠ [] → path.length < 65535 →
    fsGetDir s (some path) ≠ none) ∧
    ¬ ∀ (s : F19FS) (path : CStr), path ≠ [] → path.length < 65535 → fsOpen s (some path) ≠ none := by
  constructor
  · intro h
    exact h fsFormat (ofChars ['a']) (by decide) (by decide) rfl
  · intro h
    have hlen : (slash :: List.replicate 200 97).length < 65535 := by
      rw [List.length_cons, List.length_replicate]
      omega
    have hnone : fsOpen fsFormat (some (slash :: List.replicate 200 97)) = none := by decide +kernel
    exact h fsFormat _ (List.cons_ne_nil _ _) hlen hnone

end LiteOSFS
