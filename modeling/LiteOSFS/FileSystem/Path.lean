import LiteOSFS.Library.CString

/-! # Path strings

The validity checks on names and paths and `str_split`. `none` is undefined
behaviour: a store outside the buffers that the code allocates.
-/
namespace LiteOSFS
open CString

def invalidCharacters : CStr := ofChars ['!','@','#','$','%','^','&','*','?','\x22']

def isValidFileName (filename : CStr) : Bool :=
  if filename.length = 0 ∨ filename.length > 31 then false
  else !invalidCharacters.any (fun c => filename.contains c)

def isValidPath (path : CStr) : Bool :=
  !(path.head? ≠ some slash || path.getLast? = some slash)

/-- The result of `str_split`: `some none` is its `NULL`. Each token has a buffer of 200 bytes, and
the buffers that `strtok` does not fill stay empty strings. -/
def strSplit (str : CStr) : Option (Option (List CStr)) :=
  if str.head? ≠ some slash then some none
  else
    let count := str.count slash
    let tokens := strtok slash str
    if tokens.any (fun t => t.length ≥ 200) || tokens.length > count then none
    else some (some (tokens ++ List.replicate (count - tokens.length) []))

/-- The path intake that `fs_create` and `fs_open` share: the copy into a buffer of 65535 bytes and
the split. -/
def splitPath (path : CStr) : Option (Option (List CStr)) :=
  if path.length ≥ 65535 then none else strSplit path

/-- The components of a path that is split, with the empty strings that fill up their number. -/
theorem splitPath_some {path : CStr} {tokens : List CStr} (h : splitPath path = some (some tokens)) :
    path.head? = some slash ∧ tokens = strtok slash path ++
      List.replicate (path.count slash - (strtok slash path).length) [] := by
  unfold splitPath at h
  split_ifs at h with hlong
  unfold strSplit at h
  split_ifs at h with hhead
  · cases h
  simp only at h
  split_ifs at h with hbad
  cases h
  exact ⟨by simpa using hhead,rfl⟩

theorem splitPath_ne_nil {path : CStr} {tokens : List CStr} (h : splitPath path = some (some tokens)) : tokens ≠ [] := by
  obtain ⟨hhead,rfl⟩ := splitPath_some h
  intro hnil
  obtain ⟨htok,hrest⟩ := List.append_eq_nil_iff.mp hnil
  have hzero := congrArg List.length hrest
  rw [htok, List.length_replicate] at hzero
  exact absurd hzero (List.count_pos_iff.mpr (List.mem_of_head? hhead)).ne'

theorem splitPath_nulFree {path : CStr} {tokens : List CStr} (h : splitPath path = some (some tokens)) (hp : 0 ∉ path)
    {name : CStr} (hn : name ∈ tokens) : 0 ∉ name := by
  rw [(splitPath_some h).2] at hn
  rcases List.mem_append.mp hn with hn | hn
  · exact fun h0 => hp ((mem_strtok hn).2.2 h0)
  · rw [List.eq_of_mem_replicate hn]
    exact List.not_mem_nil

theorem isValidFileName_length {name : CStr} (h : isValidFileName name = true) : 0 < name.length ∧ name.length ≤ 31 := by
  unfold isValidFileName at h
  split_ifs at h with hl
  omega

/-- The path of the form `/name/name` with these names. -/
def joinPath (names : List CStr) : CStr := names.flatMap (fun name => slash :: name)

/-- The absolute path with these components. -/
def pathString (names : List CStr) : CStr := if names = [] then [slash] else joinPath names

/-- Components as `strtok` returns them. -/
def Component (name : CStr) : Prop := name ≠ [] ∧ slash ∉ name

section Joined
variable {names : List CStr} {name : CStr}

theorem joinPath_append (names names' : List CStr) : joinPath (names ++ names') = joinPath names ++ joinPath names' :=
  List.flatMap_append

theorem joinPath_concat (names : List CStr) (name : CStr) : joinPath (names ++ [name]) = joinPath names ++ slash :: name := by
  simp [joinPath]

theorem strtok_joinPath (h : ∀ name ∈ names, Component name) : strtok slash (joinPath names) = names := by
  induction names using List.reverseRecOn with
  | nil => exact strtok_nil
  | append_singleton names name ih =>
    obtain ⟨hne,hslash⟩ := h name (by simp)
    rw [joinPath_concat, strtok_append, ih (fun n hn => h n (List.mem_append_left _ hn)), strtok_single hne hslash]

theorem count_joinPath (h : ∀ name ∈ names, Component name) : (joinPath names).count slash = names.length := by
  induction names with
  | nil => rfl
  | cons name names ih =>
    have hz := List.count_eq_zero_of_not_mem (h name (by simp)).2
    have hih := ih (fun n hn => h n (List.mem_cons_of_mem _ hn))
    have hcons : joinPath (name :: names) = slash :: (name ++ joinPath names) := rfl
    rw [hcons, List.count_cons_self, List.count_append, hz, hih, List.length_cons]
    omega

theorem head_joinPath (h : names ≠ []) : (joinPath names).head? = some slash := by
  obtain ⟨name,names,rfl⟩ := List.exists_cons_of_ne_nil h
  rfl

theorem splitPath_joinPath (hne : names ≠ []) (h : ∀ name ∈ names, Component name)
    (hshort : ∀ name ∈ names, name.length < 200) (hlong : (joinPath names).length < 65535) :
    splitPath (joinPath names) = some (some names) := by
  have hbad : (names.any (fun t => t.length ≥ 200) || decide (names.length > names.length)) = false := by
    rw [Bool.or_eq_false_iff, decide_eq_false_iff_not]
    refine ⟨List.any_eq_false.mpr (fun t ht => ?_),lt_irrefl _⟩
    have ht := hshort t ht
    rw [decide_eq_true_eq]
    omega
  rw [splitPath, if_neg (by omega), strSplit, if_neg (by rw [head_joinPath hne]; simp)]
  simp only [strtok_joinPath h, count_joinPath h, hbad, Bool.false_eq_true, if_false, Nat.sub_self, List.replicate_zero,
    List.append_nil]

theorem not_slash_getLast (h : Component name) : ∃ u c, name = u ++ [c] ∧ c ≠ slash := by
  obtain ⟨hne,hslash⟩ := h
  refine ⟨name.dropLast,name.getLast hne,(List.dropLast_concat_getLast hne).symm,fun he => ?_⟩
  exact hslash (he ▸ List.getLast_mem hne)

theorem rtrim_concat {u : CStr} (h : Component name) : rtrim (u ++ slash :: name) = u ++ slash :: name := by
  obtain ⟨v,c,rfl,hc⟩ := not_slash_getLast h
  have he : u ++ slash :: (v ++ [c]) = (u ++ slash :: v) ++ [c] := by simp
  rw [he, rtrim_of_last hc]

theorem not_slash_reverse (h : Component name) : ∀ c ∈ name.reverse, (c != slash) = true := by
  intro c hc
  rw [bne_iff_ne]
  rintro rfl
  exact h.2 (List.mem_reverse.mp hc)

theorem basename_concat {u : CStr} (h : Component name) : basename (u ++ slash :: name) = name := by
  have hne : u ++ slash :: name ≠ [] := by simp
  have hrev : (u ++ slash :: name).reverse = name.reverse ++ slash :: u.reverse := by simp
  simp only [basename, rtrim_concat h, if_neg hne]
  rw [hrev, List.takeWhile_append_of_pos (not_slash_reverse h), List.takeWhile_cons_of_neg (by simp), List.append_nil,
    List.reverse_reverse]

theorem strtok_dirname_concat {u : CStr} (h : Component name) :
    strtok slash (dirname (u ++ slash :: name)) = strtok slash u := by
  have hrev : (u ++ slash :: name).reverse = name.reverse ++ slash :: u.reverse := by simp
  have hu : ((u ++ slash :: name).reverse.dropWhile (· != slash)).reverse = u ++ [slash] := by
    rw [hrev, List.dropWhile_append_of_pos (not_slash_reverse h), List.dropWhile_cons_of_neg (by simp), List.reverse_cons,
      List.reverse_reverse]
  have hv : strtok slash (rtrim (u ++ [slash])) = strtok slash u := by rw [strtok_rtrim, strtok_append_self]
  simp only [dirname, rtrim_concat h, hu]
  split_ifs with h1 h2
  · exact hv
  · rw [not_not.mp h1, strtok_nil] at hv
    rw [← hv]
    exact strtok_cons []
  · exact absurd (Or.inl (by simp)) h2

theorem joinPath_length (h : Component name) : 1 < (joinPath (names ++ [name])).length := by
  have hpos := List.length_pos_iff.mpr h.1
  rw [joinPath_concat, List.length_append, List.length_cons]
  omega

theorem zero_not_mem_joinPath (h : ∀ n ∈ names, 0 ∉ n) : 0 ∉ joinPath names := by
  rw [joinPath, List.mem_flatMap]
  rintro ⟨n,hn,hz⟩
  rcases List.mem_cons.mp hz with he | hz
  · exact absurd he (by decide)
  · exact h n hn hz

theorem basename_joinPath_concat (h : Component name) : basename (joinPath (names ++ [name])) = name := by
  rw [joinPath_concat, basename_concat h]

/-- The components of the parent's path. -/
theorem strtok_dirname_joinPath (h : ∀ n ∈ names, Component n) (hname : Component name) :
    strtok slash (dirname (joinPath (names ++ [name]))) = names := by
  rw [joinPath_concat, strtok_dirname_concat hname, strtok_joinPath h]

/-- A path ends in its last component. -/
theorem isValidPath_split {path : CStr} (h : isValidPath path = true) : ∃ u name, path = u ++ slash :: name ∧
    Component name := by
  simp only [isValidPath, Bool.not_eq_true', Bool.or_eq_false_iff, decide_eq_false_iff_not, not_not] at h
  obtain ⟨hhead,hlast⟩ := h
  have hmem : slash ∈ path.reverse := List.mem_reverse.mpr (List.mem_of_head? hhead)
  obtain ⟨v,u,he,hv⟩ := List.eq_append_cons_of_mem hmem
  have hpath : path = u.reverse ++ slash :: v.reverse := by
    rw [← List.reverse_reverse path, he]
    simp
  refine ⟨u.reverse,v.reverse,hpath,fun hnil => ?_,fun hs => hv (List.mem_reverse.mp hs)⟩
  rw [hpath, hnil] at hlast
  exact hlast List.getLast?_concat

theorem strtok_eq_dirname_basename {path : CStr} (h : isValidPath path = true) :
    strtok slash path = strtok slash (dirname path) ++ [basename path] := by
  obtain ⟨u,name,rfl,hname⟩ := isValidPath_split h
  rw [basename_concat hname, strtok_dirname_concat hname, strtok_append, strtok_single hname.1 hname.2]

theorem isValidPath_joinPath_concat (h : Component name) : isValidPath (joinPath (names ++ [name])) = true := by
  obtain ⟨u,c,rfl,hc⟩ := not_slash_getLast h
  have hhead : (joinPath (names ++ [u ++ [c]])).head? = some slash := head_joinPath (by simp)
  have hlast : (joinPath (names ++ [u ++ [c]])).getLast? = some c := by
    rw [joinPath_concat, show joinPath names ++ slash :: (u ++ [c]) = (joinPath names ++ slash :: u) ++ [c] by simp,
      List.getLast?_concat]
  rw [isValidPath, hhead, hlast]
  simp [hc]

end Joined

end LiteOSFS
