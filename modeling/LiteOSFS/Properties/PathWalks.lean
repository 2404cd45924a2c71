import LiteOSFS.FileSystem.Tidy
import LiteOSFS.FileSystem.Listing

/-! # The path walks agree

One kind of walk counts its matches and goes on after a miss, the other stops at the
first component that is no directory and looks for the last one by itself. Both follow
the path of the names from the root.
-/
namespace LiteOSFS
open Memory CString Ownership EntryGraph Transition

/-- Names in each directory are distinct and end in their slots, each entry refers to a file or a directory
that knows its number, and directories have blocks that can be read. -/
structure Walkable (m : Mem) : Prop where
  root : (inodeAt m 0).fileType = typeDirectory
  distinct : Distinct (entryAt m)
  terminated : Terminated m
  target : ∀ d j a i, entryAt m d j = some (a,i) → i ≠ 0 ∧ (inodeAt m i).inodeNumber.toNat = i ∧
    ((inodeAt m i).fileType = typeDirectory ∨ (inodeAt m i).fileType = typeRegular)
  readable : DirsReadable m

theorem Walkable.searchable {m : Mem} (h : Walkable m) : Searchable m :=
  ⟨h.root,h.distinct,h.readable,fun d j a i he _ => (h.target d j a i he).2.1⟩

/-- The parent search of `fs_create`. -/
def createParent (m : Mem) (tokens : List CStr) : Option ℕ :=
  let w := walk m tokens.dropLast
  if w.indicator = tokens.length - 1 ∧ (inodeAt m w.inodeID).fileType = typeDirectory then some w.inodeID else none

theorem createParent_iff {m : Mem} {tokens : List CStr} {d : ℕ} : createParent m tokens = some d ↔
    (walk m tokens.dropLast).indicator = tokens.length - 1 ∧ (walk m tokens.dropLast).inodeID = d ∧
      (inodeAt m d).fileType = typeDirectory := by
  simp only [createParent, Option.ite_none_right_eq_some, Option.some.injEq]
  constructor
  · rintro ⟨⟨hind,hdir⟩,rfl⟩
    exact ⟨hind,rfl,hdir⟩
  · rintro ⟨hind,rfl,hdir⟩
    exact ⟨⟨hind,hdir⟩,rfl⟩

theorem CreateChecked.createParent_eq {m : Mem} {path name : CStr} {tokens : List CStr} {d : ℕ}
    (h : CreateChecked m path tokens d name) : createParent m tokens = some d :=
  createParent_iff.mpr ⟨h.found,h.parent,h.directory⟩

/-- The parent search of `fs_remove`, `fs_link` and `fs_move`. -/
def findParent (m : Mem) (path : CStr) : Option ℕ := if parentOf m path = sizeMax then none else some (parentOf m path)

/-- `fs_open` once the walk has ended at an inode, or has not matched all components. -/
def openFound (s : F19FS) (found : Option ℕ) : ℤ × F19FS :=
  match found with
  | none => (-1,s)
  | some i =>
    let fd := blockStoreSubAllocate s.fdTable fdStore
    if fd.1 < 256 ∧ (inodeAt s.image i).fileType ≠ typeDirectory then
      (fd.1,{ s with fdTable := (blockStoreFdWrite fd.2 fdStore fd.1 ⟨UInt8.ofNat i,1,0,0⟩).2 })
    else (-1,{ s with fdTable := fd.2 })

/-- `fs_create` once the parent search has ended. -/
def createFound (s : F19FS) (tokens : List CStr) (type : FileT) (found : Option ℕ) : ℤ × F19FS :=
  match found with
  | none => (-1,s)
  | some d =>
    let r := createIn s.image d (inodeAt s.image d) (walk s.image tokens.dropLast).data (tokens.getLastD []) type
    (r.1,{ s with image := r.2 })

/-- A name of a path `/name/name` that `isValidFileName` accepts. -/
def PathName (name : CStr) : Prop := isValidFileName name = true ∧ slash ∉ name ∧ 0 ∉ name

section Names
variable {names : List CStr} {name : CStr}

theorem PathName.component (h : PathName name) : Component name ∧ 0 ∉ name := by
  obtain ⟨hlen,_⟩ := isValidFileName_length h.1
  exact ⟨⟨List.ne_nil_of_length_pos hlen,h.2.1⟩,h.2.2⟩

theorem PathName.length_le (h : PathName name) : name.length ≤ 31 := (isValidFileName_length h.1).2

theorem splitPath_names (hne : names ≠ []) (h : ∀ n ∈ names, PathName n) (hlong : (joinPath names).length < 65535) :
    splitPath (joinPath names) = some (some names) :=
  splitPath_joinPath hne (fun n hn => (h n hn).component.1) (fun n hn => by
    have hl := (h n hn).length_le
    omega) hlong

theorem all_valid (h : ∀ n ∈ names, PathName n) : names.all isValidFileName = true :=
  List.all_eq_true.mpr (fun n hn => (h n hn).1)

theorem joinPath_ne_nil (hne : names ≠ []) : joinPath names ≠ [] := by
  intro he
  have hh := head_joinPath hne
  rw [he] at hh
  cases hh

end Names

section Calls
variable {s : F19FS} {names : List CStr} {name : CStr}

theorem fsOpen_names (hne : names ≠ []) (h : ∀ n ∈ names, PathName n) (hlong : (joinPath names).length < 65535) :
    fsOpen s (some (joinPath names)) = some (openFound s (resolve s.image names)) := by
  simp only [fsOpen, if_neg (joinPath_ne_nil hne), splitPath_names hne h hlong, all_valid h, Bool.not_true,
    Bool.false_eq_true, if_false, resolve, blockStoreInodeRead_table (walk_lt s.image names), Option.getD_some]
  by_cases hind : (walk s.image names).indicator = names.length
  · rw [if_pos hind, if_pos hind]
    simp only [openFound]
    by_cases hfd : (blockStoreSubAllocate s.fdTable fdStore).1 < 256
    · by_cases hdir : (inodeAt s.image (walk s.image names).inodeID).fileType = typeDirectory
      · rw [if_pos hfd, if_pos hdir, if_neg (fun hc => hc.2 hdir)]
      · rw [if_pos hfd, if_neg hdir, if_pos ⟨hfd,hdir⟩]
    · rw [if_neg hfd, if_neg (fun hc => hfd hc.1)]
  · rw [if_neg hind, if_neg hind]
    rfl

/-- `fs_create` once its path is split into valid names. -/
theorem fsCreate_split {path : CStr} {tokens : List CStr} {type : FileT} (hno : ¬ (path = [] ∨ type = .invalid))
    (hsplit : splitPath path = some (some tokens)) (hval : tokens.all isValidFileName = true) :
    fsCreate s (some path) type = some (createFound s tokens type (createParent s.image tokens)) := by
  simp only [fsCreate, if_neg hno, hsplit, hval, Bool.not_true, Bool.false_eq_true, if_false, createParent,
    blockStoreInodeRead_table (walk_lt s.image tokens.dropLast), Option.getD_some]
  by_cases hc : (walk s.image tokens.dropLast).indicator = tokens.length - 1 ∧
      (inodeAt s.image (walk s.image tokens.dropLast).inodeID).fileType = typeDirectory
  · rw [if_pos hc, if_pos hc]
    rfl
  · rw [if_neg hc, if_neg hc]
    rfl

theorem fsCreate_names {type : FileT} (htype : type ≠ .invalid) (hne : names ≠ []) (h : ∀ n ∈ names, PathName n)
    (hlong : (joinPath names).length < 65535) :
    fsCreate s (some (joinPath names)) type = some (createFound s names type (createParent s.image names)) := by
  refine fsCreate_split ?_ (splitPath_names hne h hlong) (all_valid h)
  rintro (he | he)
  · exact joinPath_ne_nil hne he
  · exact htype he

theorem fsGetDir_names (hne : names ≠ []) (h : ∀ n ∈ names, PathName n) (hlong : (joinPath names).length < 200) :
    fsGetDir s (some (joinPath names)) = (resolve s.image names).elim (some none) (listDir s.image) := by
  have hsplit : strSplit (joinPath names) = some (some names) := by
    have hsp := splitPath_names hne h (show (joinPath names).length < 65535 by omega)
    rwa [splitPath, if_neg (by omega)] at hsp
  have hfirst : ¬ names.headD [] = [] := by
    obtain ⟨name,rest,rfl⟩ := List.exists_cons_of_ne_nil hne
    exact (h name List.mem_cons_self).component.1.1
  simp only [fsGetDir, if_neg (joinPath_ne_nil hne), if_neg (show ¬ (joinPath names).length ≥ 200 by omega), hsplit,
    all_valid h, hfirst, if_false, Bool.true_eq_false, and_false, resolve]
  by_cases hind : (walk s.image names).indicator = names.length
  · rw [if_pos hind, if_pos hind]
    rfl
  · rw [if_neg hind, if_neg hind]
    rfl

end Calls

section Agreement
variable {m : Mem} {names : List CStr} {name : CStr}

theorem Searchable.findFile_eq (h : Searchable m) (hc : ∀ n ∈ names, PathName n) (hname : PathName name) :
    findFile m (joinPath (names ++ [name])) = resolve m (names ++ [name]) := by
  ext i
  rw [h.findFile_eq_some (fun n hn => (hc n hn).component) hname.component, resolve_eq_some h.readable h.distinct]

/-- Without an entry for inode 0, its number stands for a missing file. -/
theorem Searchable.removeTarget_eq (h : Searchable m) (h0 : ∀ d a, ¬ Edge (entryAt m) d a 0)
    (hc : ∀ n ∈ names, PathName n) (hname : PathName name) :
    removeTarget m (joinPath (names ++ [name])) = findFile m (joinPath (names ++ [name])) := by
  have hlen := hname.length_le
  obtain ⟨hcomp,hnul⟩ := hname.component
  have hc' : ∀ n ∈ names, Component n ∧ 0 ∉ n := fun n hn => (hc n hn).component
  have hnil := joinPath_ne_nil (show names ++ [name] ≠ [] by simp)
  rw [removeTarget, findFile, basename_joinPath_concat hcomp, isValidPath_joinPath_concat hcomp]
  by_cases hp : parentOf m (joinPath (names ++ [name])) = sizeMax
  · rw [if_pos (by simp [hp]), if_pos (Or.inl hp)]
  obtain ⟨hd,_,hdir⟩ := h.parentOf_path hc' hcomp hp
  cases hex : checkFileExist m (parentOf m (joinPath (names ++ [name]))) name with
  | true =>
    obtain ⟨i,he⟩ := (h.checkFileExist_iff hd hdir hnul).mp hex
    have hi0 : i ≠ 0 := by
      rintro rfl
      exact h0 _ _ he
    rw [h.getFileInodeID_of_edge hnul he, if_neg, if_neg]
    · rintro (hz | hz)
      · exact hp hz
      · cases hz
    · rintro (hz | hz | hz | hz | hz)
      · exact hnil hz
      · cases hz
      · omega
      · exact hp hz
      · exact hi0 hz
  | false =>
    have hno : ∀ i, ¬ Edge (entryAt m) (parentOf m (joinPath (names ++ [name]))) name i := by
      intro i he
      rw [(h.checkFileExist_iff hd hdir hnul).mpr ⟨i,he⟩] at hex
      cases hex
    rw [h.getFileInodeID_of_none hd hdir hnul hno, if_pos (by simp), if_pos (by simp)]

theorem createParent_eq_some (hb : DirsReadable m) (hE : Distinct (entryAt m)) {i : ℕ} :
    createParent m (names ++ [name]) = some i ↔ Path (entryAt m) 0 names i ∧ (inodeAt m i).fileType = typeDirectory := by
  have hlen : (names ++ [name]).length - 1 = names.length := by simp
  rw [createParent, List.dropLast_concat, hlen, ← resolve_eq_some hb hE, resolve]
  by_cases hind : (walk m names).indicator = names.length
  · rw [if_pos hind]
    by_cases hdir : (inodeAt m (walk m names).inodeID).fileType = typeDirectory
    · rw [if_pos ⟨hind,hdir⟩]
      constructor
      · intro he
        exact ⟨he,Option.some.inj he ▸ hdir⟩
      · exact fun he => he.1
    · rw [if_neg (fun hc => hdir hc.2)]
      constructor
      · intro he
        cases he
      · rintro ⟨he,ht⟩
        rw [← Option.some.inj he] at ht
        exact absurd ht hdir
  · rw [if_neg (fun hc => hind hc.1), if_neg hind]
    simp

theorem Searchable.findParent_eq (h : Searchable m) (hc : ∀ n ∈ names, PathName n) (hname : PathName name) :
    findParent m (joinPath (names ++ [name])) = createParent m (names ++ [name]) := by
  have hc' : ∀ n ∈ names, Component n ∧ 0 ∉ n := fun n hn => (hc n hn).component
  have hm : sizeMax = 2 ^ 64 - 1 := rfl
  ext i
  rw [createParent_eq_some h.readable h.distinct, findParent]
  constructor
  · intro hf
    split_ifs at hf with hne
    rw [← Option.some.inj hf]
    exact (h.parentOf_path hc' hname.component.1 hne).2
  · rintro ⟨hp,hdir⟩
    have hi : i < 256 := hp.induct (P := (· < 256)) (by omega) (fun _ _ _ _ he => edge_lt he)
    rw [(h.parentOf_eq hc' hname.component.1 hi).mpr ⟨hp,hdir⟩, if_neg (by omega)]

end Agreement

/-- The walks of `fs_open`, `fs_get_dir` and of the parent search in `fs_create` and the searches of `fs_remove`,
`fs_link` and `fs_move` reach the same inodes. -/
theorem walks_agree {s : F19FS} (h : Walkable s.image) {names : List CStr} (hne : names ≠ [])
    (hc : ∀ n ∈ names, PathName n) :
    findFile s.image (joinPath names) = resolve s.image names ∧
    removeTarget s.image (joinPath names) = resolve s.image names ∧
    findParent s.image (joinPath names) = createParent s.image names ∧
    ((joinPath names).length < 65535 →
      fsOpen s (some (joinPath names)) = some (openFound s (findFile s.image (joinPath names)))) ∧
    ((joinPath names).length < 200 →
      fsGetDir s (some (joinPath names)) = (findFile s.image (joinPath names)).elim (some none) (listDir s.image)) ∧
    ((joinPath names).length < 65535 → ∀ type ≠ FileT.invalid, fsCreate s (some (joinPath names)) type =
      some (createFound s names type (findParent s.image (joinPath names)))) := by
  have hs := h.searchable
  have h0 : ∀ d a, ¬ Edge (entryAt s.image) d a 0 := by
    rintro d a ⟨j,he⟩
    exact (h.target d j a 0 he).1 rfl
  obtain ⟨init,name,rfl⟩ : ∃ init name, names = init ++ [name] :=
    ⟨names.dropLast,names.getLast hne,(List.dropLast_concat_getLast hne).symm⟩
  have hinit : ∀ n ∈ init, PathName n := fun n hn => hc n (List.mem_append_left _ hn)
  have hname : PathName name := hc name (by simp)
  have hfind := hs.findFile_eq hinit hname
  have hparent := hs.findParent_eq hinit hname
  refine ⟨hfind,(hs.removeTarget_eq h0 hinit hname).trans hfind,hparent,fun hlong => ?_,fun hlong => ?_,
    fun hlong type htype => ?_⟩
  · rw [fsOpen_names hne hc hlong, hfind]
  · rw [fsGetDir_names hne hc hlong, hfind]
  · rw [fsCreate_names htype hne hc hlong, hparent]

theorem walkable_fsFormat : Walkable fsFormat.image := by
  have hs := tidy_fsFormat.searchable
  refine ⟨hs.root,hs.distinct,tidy_fsFormat.terminated,fun d j a i he => ?_,hs.readable⟩
  rw [entryAt_fsFormat] at he
  cases he

theorem childInode_inodeNumber {type : FileT} {c : ℕ} (hc : c < 256) : (childInode type c).inodeNumber.toNat = c := by
  rw [childInode, UInt64.toNat_ofNat', Nat.mod_eq_of_lt (by omega)]

theorem childInode_fileType (type : FileT) (c : ℕ) :
    (childInode type c).fileType = typeDirectory ∨ (childInode type c).fileType = typeRegular := by
  rw [childInode]
  dsimp only
  split_ifs
  · exact Or.inr rfl
  · exact Or.inl rfl

/-- A file that is created in a directory in order can be walked to. -/
theorem Walkable.created {m m' : Mem} {p k b c : ℕ} {name : CStr} {type : FileT} (h : Walkable m) (hi : ImageInv m)
    (hp : p < 256) (hdir : (inodeAt m p).fileType = typeDirectory) (hname : FitsSlot name)
    (hfirst : k = 0 → ∀ j < 31, (inodeAt m p).live j = false) (hcr : Created m p name type m' k b c)
    (hi' : ImageInv m') : Walkable m' := by
  have hcp := hcr.child_ne_parent hi hp hdir
  have hc0 : c ≠ 0 := by
    intro he
    have hf := hcr.inodeFree
    rw [he, (hi.record 0 (by omega)).marked h.root] at hf
    cases hf
  have hmap := hcr.entries_eq hi hp hdir hname h.terminated hfirst
  have hsteps := hcr.entrySteps hi hp hdir hname h.terminated hfirst
  refine ⟨hi'.root,hsteps.distinct h.distinct,hsteps.terminated h.terminated,fun d j a i he => ?_,hi'.dirsReadable⟩
  have hchild : inodeAt m' c = childInode type c := hcr.child
  by_cases hic : i = c
  · rw [hic, hchild]
    exact ⟨hc0,childInode_inodeNumber hcr.inodeLt,childInode_fileType type c⟩
  · have hold : entryAt m d j = some (a,i) := by
      rw [hmap] at he
      by_cases hdk : d = p ∧ j = k
      · rw [hdk.1, hdk.2, update_self] at he
        exact absurd (Prod.mk.inj (Option.some.inj he)).2.symm hic
      · rwa [update_of_ne hdk] at he
    obtain ⟨hi0,hnum,htype⟩ := h.target d j a i hold
    refine ⟨hi0,?_⟩
    by_cases hip : i = p
    · rw [hip, hcr.parent]
      rw [hip] at hnum htype
      exact ⟨hnum,htype⟩
    · rw [hcr.others i (entryAt_lt he) (Ne.symm hip) (Ne.symm hic)]
      exact ⟨hnum,htype⟩

theorem walks_agree_create : ∃ s, step fsFormat (.create (pathArg ['/','a']) .directory) = some s ∧
    resolve s.image [ofChars ['a']] = some 1 ∧
    findFile s.image (joinPath [ofChars ['a']]) = resolve s.image [ofChars ['a']] := by
  have hrun : (call fsFormat (.create (pathArg ['/','a']) .directory)).map
      (fun r => decide (r.1 = 0) && decide (resolve r.2.image [ofChars ['a']] = some 1)) = some true := by
    decide +kernel
  obtain ⟨⟨ret,s⟩,hc,hr⟩ := Option.map_eq_some_iff.mp hrun
  simp only [Bool.and_eq_true, decide_eq_true_eq] at hr
  obtain ⟨rfl,hres⟩ := hr
  refine ⟨s,step_of_call hc,hres,?_⟩
  have hi' : ImageInv s.image := (step_inv (c := .create (pathArg ['/','a']) .directory) fsFormat_inv trivial (step_of_call hc)).1
  have hc' : fsCreate fsFormat (pathOf (pathArg ['/','a'])) .directory = some (0,s) := hc
  have hw : Walkable s.image := by
    rcases (fsCreate_effect fsFormat_inv hc').2 with ⟨hr,_⟩ | ⟨q,tokens,d,name,hq,_,hch,⟨hr,_⟩ | ⟨_,k,b,c,hcr⟩⟩
    · cases hr
    · cases hr
    · exact walkable_fsFormat.created fsFormat_inv hch.lt hch.directory (hch.fits hq)
        (fun _ j hj => fsFormat_live hch.lt hch.directory hj) hcr hi'
  refine (walks_agree hw (by simp) (fun n hn => ?_)).1
  rw [List.mem_singleton.mp hn]
  exact ⟨by decide,by decide,by decide⟩

end LiteOSFS
