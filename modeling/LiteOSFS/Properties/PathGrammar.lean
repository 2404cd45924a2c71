import LiteOSFS.Properties.PathIntake

/-! # The grammar of paths

A path is one or more segments, each with a slash before it. `str_split` counts slashes
and takes its tokens from `strtok`, which passes over empty segments: as many strings as
there are empty segments are then left empty at the end, and the check of the names
finds them.
-/
namespace LiteOSFS
open Memory CString

/-- A name of 1 to 31 characters, none of them a slash or one of those that names may not have. -/
structure Segment (name : CStr) : Prop where
  pos : 1 ≤ name.length
  le : name.length ≤ 31
  slash : slash ∉ name
  valid : ∀ c ∈ invalidCharacters, c ∉ name

/-- A string of the grammar and its segments in order. -/
inductive PathOf : CStr → List CStr → Prop where
  | last {name : CStr} (h : Segment name) : PathOf (slash :: name) [name]
  | cons {name rest : CStr} {names : List CStr} (h : Segment name) (hrest : PathOf rest names) :
      PathOf (slash :: (name ++ rest)) (name :: names)

/-- What stands between the slashes behind the first one. -/
def segments (path : CStr) : List CStr := path.tail.splitOn slash

/-- A doubled slash or one at the end. -/
def EmptySegment (path : CStr) : Prop :=
  (∃ u v, path = u ++ slash :: slash :: v) ∨ path.getLast? = some slash

section Grammar
variable {path name : CStr} {names : List CStr}

theorem segment_iff : Segment name ↔ slash ∉ name ∧ isValidFileName name = true := by
  have hchars : (!invalidCharacters.any (fun c => name.contains c)) = true ↔ ∀ c ∈ invalidCharacters, c ∉ name := by
    simp only [Bool.not_eq_true', List.any_eq_false, List.contains_iff_mem]
  unfold isValidFileName
  constructor
  · intro h
    have hpos := h.pos
    have hle := h.le
    rw [if_neg (by omega)]
    exact ⟨h.slash,hchars.mpr h.valid⟩
  · rintro ⟨hslash,h⟩
    split_ifs at h with hlen
    exact ⟨by omega,by omega,hslash,hchars.mp h⟩

theorem Segment.component (h : Segment name) : Component name := by
  refine ⟨?_,h.slash⟩
  rintro rfl
  exact absurd h.pos (by decide)

/-- The grammar's strings are the joined paths. -/
theorem pathOf_iff : PathOf path names ↔ names ≠ [] ∧ (∀ n ∈ names, Segment n) ∧ path = joinPath names := by
  constructor
  · intro h
    induction h with
    | last h =>
      refine ⟨List.cons_ne_nil _ _,?_,by simp [joinPath]⟩
      intro n hn
      rwa [List.mem_singleton.mp hn]
    | cons h _ ih =>
      obtain ⟨_,hseg,rfl⟩ := ih
      refine ⟨List.cons_ne_nil _ _,?_,rfl⟩
      intro n hn
      rcases List.mem_cons.mp hn with rfl | hn
      · exact h
      · exact hseg n hn
  · rintro ⟨hne,hseg,rfl⟩
    induction names with
    | nil => exact absurd rfl hne
    | cons n names ih =>
      have hn : Segment n := hseg n List.mem_cons_self
      by_cases hlast : names = []
      · subst hlast
        have hone : joinPath [n] = slash :: n := by simp [joinPath]
        rw [hone]
        exact PathOf.last hn
      · exact PathOf.cons hn (ih hlast (fun n' hn' => hseg n' (List.mem_cons_of_mem _ hn')))

/-- Every string that begins with a slash is its segments joined. -/
theorem joinPath_splitOn (s : CStr) : joinPath (s.splitOn slash) = slash :: s := by
  induction s using delimited_induction (d := slash) with
  | single s hd =>
    rw [List.splitOn_eq_singleton hd]
    simp [joinPath]
  | split u v hu hv =>
    rw [List.splitOn_append_cons_self, joinPath_append, hu, hv]
    rfl

theorem joinPath_segments (h : path.head? = some slash) : joinPath (segments path) = path := by
  obtain ⟨rest,rfl⟩ := List.head?_eq_some_iff.mp h
  exact joinPath_splitOn rest

theorem length_splitOn (s : CStr) : (s.splitOn slash).length = s.count slash + 1 := by
  induction s using delimited_induction (d := slash) with
  | single s hd => rw [List.splitOn_eq_singleton hd, List.count_eq_zero_of_not_mem hd, List.length_singleton]
  | split u v hu hv =>
    rw [List.splitOn_append_cons_self, List.length_append, hu, hv, List.count_append, List.count_cons_self]
    omega

/-- The tokens are the segments that are not empty, of which there are as many as slashes. -/
theorem strtok_eq_segments (h : path.head? = some slash) : strtok slash path = (segments path).filter (· ≠ []) ∧
    (segments path).length = path.count slash := by
  obtain ⟨rest,rfl⟩ := List.head?_eq_some_iff.mp h
  rw [strtok_cons, List.count_cons_self]
  exact ⟨rfl,length_splitOn rest⟩

/-- No string is left empty just if there is no empty segment. -/
theorem strtok_length_eq_count (h : path.head? = some slash) :
    (strtok slash path).length = path.count slash ↔ [] ∉ segments path := by
  obtain ⟨htok,hlen⟩ := strtok_eq_segments h
  rw [htok, ← hlen, List.length_filter_eq_length_iff]
  constructor
  · intro hall hmem
    exact absurd (hall [] hmem) (by decide)
  · intro hno t ht
    exact decide_eq_true (fun he => hno (he ▸ ht))

theorem emptySegment_mem (h : path.head? = some slash) (he : EmptySegment path) : [] ∈ segments path := by
  have hbefore : ∀ u : CStr, (u = [] ∨ u.head? = some slash) → (strtok slash u).length ≤ u.count slash := by
    rintro u (rfl | hu)
    · rw [strtok_nil]
      exact le_rfl
    · exact strtok_length_le_count hu
  have hhead : ∀ u v : CStr, path = u ++ v → u = [] ∨ u.head? = some slash := by
    rintro u v rfl
    cases u with
    | nil => exact Or.inl rfl
    | cons c u => exact Or.inr h
  by_contra hno
  have hcount := (strtok_length_eq_count h).mpr hno
  rcases he with ⟨u,v,rfl⟩ | hlast
  · have hu := hbefore u (hhead u _ rfl)
    have hv := strtok_length_le (d := slash) v
    rw [strtok_append, strtok_cons, List.length_append, List.count_append, List.count_cons_self,
      List.count_cons_self] at hcount
    omega
  · obtain ⟨u,rfl⟩ := List.getLast?_eq_some_iff.mp hlast
    have hu := hbefore u (hhead u _ rfl)
    rw [strtok_append_self, List.count_append, List.count_singleton_self] at hcount
    omega

end Grammar

section Intake
variable {path : CStr}

/-- What `str_split` returns when the segments fit its buffers. -/
theorem strSplit_segments (h : path.head? = some slash) (hfit : ∀ t ∈ segments path, t.length < 200) :
    strSplit path = some (some (strtok slash path ++
      List.replicate (path.count slash - (strtok slash path).length) [])) := by
  rw [strSplit_slash h, if_pos]
  intro t ht
  rw [(strtok_eq_segments h).1] at ht
  exact hfit t (List.mem_filter.mp ht).1

theorem all_valid_iff (h : path.head? = some slash) :
    (strtok slash path ++ List.replicate (path.count slash - (strtok slash path).length) []).all isValidFileName =
      true ↔ ∃ names, PathOf path names := by
  have hle := strtok_length_le_count h
  constructor
  · intro hall
    have hval := List.all_eq_true.mp hall
    have hno : [] ∉ segments path := by
      intro hmem
      have hlt : (strtok slash path).length ≠ path.count slash := fun he => (strtok_length_eq_count h).mp he hmem
      have hpad : [] ∈ List.replicate (path.count slash - (strtok slash path).length) ([] : CStr) :=
        List.mem_replicate.mpr ⟨by omega,rfl⟩
      exact absurd (hval [] (List.mem_append_right _ hpad)) (by decide)
    have htok : strtok slash path = segments path := by
      rw [(strtok_eq_segments h).1]
      exact List.filter_eq_self.mpr (fun t ht => decide_eq_true (fun he => hno (he ▸ ht)))
    refine ⟨segments path,pathOf_iff.mpr ⟨?_,fun n hn => ?_,(joinPath_segments h).symm⟩⟩
    · exact List.splitOn_ne_nil slash path.tail
    · rw [← htok] at hn
      exact segment_iff.mpr ⟨(mem_strtok hn).2.1,hval n (List.mem_append_left _ hn)⟩
  · rintro ⟨names,hp⟩
    obtain ⟨_,hseg,rfl⟩ := pathOf_iff.mp hp
    have hcomp : ∀ n ∈ names, Component n := fun n hn => (hseg n hn).component
    rw [strtok_joinPath hcomp, count_joinPath hcomp, Nat.sub_self, List.replicate_zero, List.append_nil]
    exact List.all_eq_true.mpr (fun n hn => (segment_iff.mp (hseg n hn)).2)

theorem not_pathOf_of_empty (h : path.head? = some slash) (he : EmptySegment path) (names : List CStr) :
    ¬ PathOf path names := by
  intro hp
  obtain ⟨_,hseg,rfl⟩ := pathOf_iff.mp hp
  have hcomp : ∀ n ∈ names, Component n := fun n hn => (hseg n hn).component
  refine (strtok_length_eq_count h).mp ?_ (emptySegment_mem h he)
  rw [strtok_joinPath hcomp, count_joinPath hcomp]

/-- A path that is split to names of which one fails the check is turned down. -/
theorem turned_down (s : F19FS) (hne : path ≠ []) {tokens : List CStr} (hsplit : splitPath path = some (some tokens))
    (hbad : tokens.all isValidFileName = false) :
    fsOpen s (some path) = some (-1,s) ∧ ∀ type, fsCreate s (some path) type = some (-1,s) := by
  refine ⟨?_,fun type => ?_⟩
  · simp only [fsOpen, if_neg hne, hsplit, hbad, Bool.not_false, if_true]
  · simp only [fsCreate, hsplit, hbad, Bool.not_false, if_true, ite_self]

end Intake

/-- For every string with a leading slash whose segments fit the buffers of `str_split`: it is split into as many
strings as it has slashes, these pass the check if and only if the string is of the grammar, and then they
are its segments. One with an empty segment does not pass, and `fs_open` and `fs_create` turn down what does not. -/
theorem path_grammar {path : CStr} (h : path.head? = some slash) (hfit : ∀ t ∈ segments path, t.length < 200) :
    ∃ tokens, strSplit path = some (some tokens) ∧ tokens.length = path.count slash ∧
      (tokens.all isValidFileName = true ↔ ∃ names, PathOf path names) ∧
      (∀ names, PathOf path names → tokens = names) ∧
      (EmptySegment path → tokens.all isValidFileName = false) ∧
      (tokens.all isValidFileName = false → path.length < 65535 → ∀ s : F19FS,
        fsOpen s (some path) = some (-1,s) ∧ ∀ type, fsCreate s (some path) type = some (-1,s)) := by
  have hle := strtok_length_le_count h
  have hvalid := all_valid_iff h
  refine ⟨_,strSplit_segments h hfit,?_,hvalid,fun names hp => ?_,fun he => ?_,fun hbad hlong s => ?_⟩
  · rw [List.length_append, List.length_replicate]
    omega
  · obtain ⟨_,hseg,rfl⟩ := pathOf_iff.mp hp
    have hcomp : ∀ n ∈ names, Component n := fun n hn => (hseg n hn).component
    rw [strtok_joinPath hcomp, count_joinPath hcomp, Nat.sub_self, List.replicate_zero, List.append_nil]
  · rw [Bool.eq_false_iff]
    intro hall
    obtain ⟨names,hp⟩ := hvalid.mp hall
    exact not_pathOf_of_empty h he names hp
  · refine turned_down s ?_ ?_ hbad
    · rintro rfl
      cases h
    · rw [splitPath, if_neg (by omega)]
      exact strSplit_segments h hfit

theorem path_grammar_two : ∃ tokens, strSplit (ofChars ['/','a','/','b']) = some (some tokens) ∧
    tokens.all isValidFileName = true ∧ tokens = [ofChars ['a'],ofChars ['b']] := by
  have hp : PathOf (ofChars ['/','a','/','b']) [ofChars ['a'],ofChars ['b']] := by
    have hseg : ∀ n ∈ [ofChars ['a'],ofChars ['b']], Segment n := by
      intro n hn
      refine segment_iff.mpr ?_
      fin_cases hn <;> exact ⟨by decide,by decide⟩
    exact pathOf_iff.mpr ⟨List.cons_ne_nil _ _,hseg,by decide⟩
  have hhead : (ofChars ['/','a','/','b']).head? = some slash := by decide
  obtain ⟨tokens,hsplit,_,hvalid,heq,_⟩ := path_grammar hhead (by decide)
  exact ⟨tokens,hsplit,hvalid.mpr ⟨_,hp⟩,heq _ hp⟩

end LiteOSFS
