import LiteOSFS.FileSystem.Tidy

/-! # What fs_move refuses

`fs_move` looks for the moved directory above the destination by comparing each component
of the destination's parent with the last name of the source, as far as that name goes,
and it refuses a destination whose path is as long as the source's and another string.
-/
namespace LiteOSFS
open Memory CString Ownership EntryGraph Transition

/-- A name as directories hold them. -/
def SlotName (name : CStr) : Prop := (Component name ∧ 0 ∉ name) ∧ name.length < 32

/-- A directory is reached along one path only. -/
def TreeDirs (m : Mem) : Prop := ∀ ns ns' d, Path (entryAt m) 0 ns d → Path (entryAt m) 0 ns' d →
  (inodeAt m d).fileType = typeDirectory → ns = ns'

/-- The destination is the source, or below it when the source is a directory. -/
def BadMove (m : Mem) (sn dn : List CStr) (i : ℕ) : Prop :=
  dn = sn ∨ (inodeAt m i).fileType = typeDirectory ∧ sn <+: dn

/-- There is no destination, and its parent, which is neither the source nor below it, has room for one. -/
structure GoodMove (m : Mem) (sn dn : List CStr) : Prop where
  absent : ∀ j, ¬ Path (entryAt m) 0 dn j
  parent : ∃ p, Path (entryAt m) 0 dn.dropLast p ∧ (inodeAt m p).fileType = typeDirectory ∧
    ∃ k < 31, (inodeAt m p).live k = false
  outside : ¬ sn <+: dn.dropLast
  inode : ∃ c < 256, inodeUsed m c = false
  block : ∃ b, DataId b ∧ used m b = false

/-- A component of the destination's parent begins with the last name of the source. -/
def NameClash (sn dn : List CStr) : Prop := ∃ n ∈ dn.dropLast, sn.getLastD [] <+: n

/-- The call fails and leaves everything as it was. -/
def MoveRefused (s : F19FS) (src dst : CStr) (junk : Inode) : Prop :=
  ∃ ret < 0, fsMove s (some src) (some dst) junk = some (ret,s)

section Checks
variable {m : Mem} {src dst : CStr} {junk : Inode}

/-- Without its checks passed, `fs_move` changes nothing. -/
theorem fsMoveImage_refused (h : ¬ MoveChecked m src dst) :
    ∃ ret < 0, fsMoveImage m src dst junk = some (ret,m) := by
  unfold fsMoveImage
  dsimp only
  split_ifs with h1 h2 h3 h4 h5 h6 h7 h8 h9 h10
  iterate 10 exact ⟨_,by decide,rfl⟩
  refine absurd ⟨by omega,by omega,?_,?_,h4,by omega,by omega,?_,h8,?_,h10⟩ h
  · simpa using h2
  · simpa using h3
  · simpa using h7
  · simpa using h9

theorem moveRefused_of_unchecked {s : F19FS} (h : ¬ MoveChecked s.image src dst) : MoveRefused s src dst junk := by
  have hr : ∃ ret < 0, fsMoveImage s.image src dst junk = some (ret,s.image) := fsMoveImage_refused h
  obtain ⟨ret,hneg,he⟩ := hr
  exact ⟨ret,hneg,by simp only [fsMove, he, Option.map_some]⟩

theorem strncmpEq_comm (a b : CStr) (n : ℕ) : strncmpEq a b n = strncmpEq b a n := Bool.beq_comm

theorem moveEntry_of_index {sp f df k : ℕ} {name : CStr} (hv : (inodeOr m df).firstVacant ≠ sizeMax)
    (hk : getFileIndexInDir (inodeOr m sp) (blockOr m (inodeOr m sp).dirBlock) name = some k) :
    ∃ m', moveEntry m sp f df name = some (0,m') := by
  simp only [moveEntry, hk, if_neg hv]
  exact ⟨_,rfl⟩

/-- With an inode and a block left and room in the parent, a move to a name that is not taken succeeds. -/
theorem moveIn_created (h : ImageInv m) (hc : MoveChecked m src dst) (hsnul : 0 ∉ src) (hdnul : 0 ∉ dst)
    (hex : checkFileExist m (parentOf m dst) (basename dst) = false) (hroom : (inodeAt m (parentOf m dst)).entryCount ≠ 31)
    (hi : firstFreeInode m ≠ sizeMax) (hf : firstFree m ≠ sizeMax) :
    ∃ m', moveIn m (parentOf m src) (parentOf m dst) src dst junk = some (0,m') := by
  obtain ⟨hs,hsdir⟩ := parentOf_spec h hc.srcParent
  obtain ⟨hd,_⟩ := parentOf_spec h hc.dstParent
  obtain ⟨hlt,hcfree,_⟩ := firstFreeInode_spec hi
  obtain ⟨hb,hbfree,_⟩ := firstFree_spec h.sound.sys hf
  have hb65 := hb.2
  have hsrc := hc.srcExists
  rw [checkFileExist_eq h hs] at hsrc
  obtain ⟨r,m₁,hcr⟩ : ∃ r m₁, create2In m (parentOf m dst) (inodeAt m (parentOf m dst))
    (blockAt m (inodeAt m (parentOf m dst)).dirBlock) (basename dst) .directory junk = (r,m₁) := ⟨_,_,rfl⟩
  have hmade : r = 0 ∧ m₁ = withDirectory m (parentOf m dst) (firstFreeInode m) (firstFree m) (basename dst) junk := by
    rcases create2In_cases h hd hcr with ⟨_,he,_⟩ | ⟨_,he,_⟩ | ⟨h0,_,_,he⟩
    · exact absurd he hf
    · exact absurd he hi
    · exact ⟨h0,he⟩
  obtain ⟨rfl,hm₁⟩ := hmade
  have hsc : parentOf m src ≠ firstFreeInode m := by
    intro he
    rw [← he, (h.record _ hs).marked hsdir] at hcfree
    cases hcfree
  have hdc : parentOf m dst ≠ firstFreeInode m := by
    intro he
    rw [← he, (h.record _ hd).marked (parentOf_spec h hc.dstParent).2] at hcfree
    cases hcfree
  have hid : getFileInodeID m₁ (parentOf m dst) (basename dst) = firstFreeInode m := by
    rw [hm₁]
    exact getFileInodeID_withDirectory h hd hi hf junk (basename_nulFree hdnul) hc.dstName hex hroom
  have hindex : (firstEntry (inodeAt m₁ (parentOf m src)) (sameName (blockAt m₁ (inodeAt m₁ (parentOf m src)).dirBlock) ·
      (basename src))).isSome = true := by
    rw [hm₁]
    exact firstEntry_withDirectory h hd hs hlt hsc hb hbfree hsdir hroom hc.dstName (basename_nulFree hsnul) hc.srcName hsrc
  obtain ⟨k,hk⟩ := getFileIndexInDir_isSome hindex
  have hnew : inodeAt m₁ (firstFreeInode m) = newInode .directory junk (firstFreeInode m) (firstFree m) := by
    rw [hm₁, inodeAt_withDirectory hlt hb (h.offTable hd) hlt, if_neg hdc, if_pos rfl]
  have hsle : (inodeAt m₁ (parentOf m src)).dirBlock ≤ 65528 := by
    rw [hm₁, inodeAt_withDirectory hlt hb (h.offTable hd) hs]
    split_ifs with he hec
    · exact h.dirBlock_le hd
    · exact absurd hec.symm hsc
    · exact h.dirBlock_le hs
  have hv : (inodeOr m₁ (firstFreeInode m)).firstVacant ≠ sizeMax := by
    rw [inodeOr_eq hlt, hnew]
    intro he
    rcases (newInode .directory junk (firstFreeInode m) (firstFree m)).firstVacant_spec with ⟨_,hall⟩ | ⟨hv31,_⟩
    · have hl := hall 0 (by omega)
      rw [newInode_live _ _ _ (by omega)] at hl
      cases hl
    · rw [he] at hv31
      exact absurd hv31 (by decide)
  rw [moveIn]
  simp only [hex, Bool.false_eq_true, if_false, fsCreate2_eq h hc hex, if_neg hroom, hcr, ne_eq, not_true_eq_false, hid, if_neg hsc]
  exact moveEntry_of_index hv (by rw [inodeOr_eq hs, blockOr_eq hsle]; exact hk)

/-- A move to a name that is taken by another inode than the source's parent is not refused. -/
theorem moveIn_taken (h : ImageInv m) (hc : MoveChecked m src dst)
    (hex : checkFileExist m (parentOf m dst) (basename dst) = true)
    (hne : parentOf m src ≠ getFileInodeID m (parentOf m dst) (basename dst)) {ret : ℤ} {m' : Mem}
    (hr : moveIn m (parentOf m src) (parentOf m dst) src dst junk = some (ret,m')) : ret = 0 := by
  obtain ⟨hs,_⟩ := parentOf_spec h hc.srcParent
  have hsrc := hc.srcExists
  rw [checkFileExist_eq h hs] at hsrc
  obtain ⟨k,hk⟩ := getFileIndexInDir_isSome hsrc
  rw [moveIn] at hr
  simp only [hex, if_true, ne_eq, not_true_eq_false, if_false, if_neg hne] at hr
  rcases moveEntry_cases h hs (getFileInodeID_lt _ _ _) hr with ⟨_,_,hnone⟩ | ⟨_,h0,_⟩
  · rw [hk] at hnone
    cases hnone
  · exact h0

end Checks

section Names
variable {m : Mem} {sn dn sp dp : List CStr} {a b : CStr} {i : ℕ} {junk : Inode}

theorem pathString_concat : pathString (sp ++ [a]) = joinPath (sp ++ [a]) := if_neg (by simp)

/-- The comparison of the components is a search for one that begins with the name. -/
theorem nameClash_iff (ha : 0 ∉ a) (hsa : Component a) (hb : Component b) (hdp : ∀ n ∈ dp, Component n) :
    (strtok slash (dirname (joinPath (dp ++ [b])))).any (fun token =>
      strncmpEq (basename (joinPath (sp ++ [a]))) token (basename (joinPath (sp ++ [a]))).length) = true ↔
    NameClash (sp ++ [a]) (dp ++ [b]) := by
  rw [strtok_dirname_joinPath hdp hb, basename_joinPath_concat hsa, List.any_eq_true, NameClash, List.dropLast_concat,
    List.getLastD_concat]
  constructor
  · rintro ⟨n,hn,he⟩
    rw [strncmpEq_comm, strncmpEq_length ha] at he
    exact ⟨n,hn,he⟩
  · rintro ⟨n,hn,he⟩
    refine ⟨n,hn,?_⟩
    rw [strncmpEq_comm, strncmpEq_length ha]
    exact he

/-- The checks, in terms of the components. -/
theorem moveChecked_names (h : Searchable m) (hs : ∀ n ∈ sp ++ [a], SlotName n) (hd : ∀ n ∈ dp ++ [b], SlotName n)
    (hsrc : Path (entryAt m) 0 (sp ++ [a]) i) {p : ℕ} (hp : Path (entryAt m) 0 dp p)
    (hpdir : (inodeAt m p).fileType = typeDirectory) (hp256 : p < 256)
    (hlen : (joinPath (sp ++ [a])).length = (joinPath (dp ++ [b])).length → joinPath (sp ++ [a]) = joinPath (dp ++ [b]))
    (hno : ¬ NameClash (sp ++ [a]) (dp ++ [b])) : MoveChecked m (joinPath (sp ++ [a])) (joinPath (dp ++ [b])) := by
  have hm : sizeMax = 2 ^ 64 - 1 := rfl
  have hsa := hs a (by simp)
  have hdb := hd b (by simp)
  have hspc : ∀ n ∈ sp, Component n ∧ 0 ∉ n := fun n hn => (hs n (List.mem_append_left _ hn)).1
  have hdpc : ∀ n ∈ dp, Component n ∧ 0 ∉ n := fun n hn => (hd n (List.mem_append_left _ hn)).1
  obtain ⟨q,hq,he⟩ := path_concat.mp hsrc
  obtain ⟨hq256,hqdir⟩ := edge_directory he
  have hsp : parentOf m (joinPath (sp ++ [a])) = q := (h.parentOf_eq hspc hsa.1.1 hq256).mpr ⟨hq,hqdir⟩
  have hdp : parentOf m (joinPath (dp ++ [b])) = p := (h.parentOf_eq hdpc hdb.1.1 hp256).mpr ⟨hp,hpdir⟩
  refine ⟨joinPath_length hsa.1.1,joinPath_length hdb.1.1,isValidPath_joinPath_concat hsa.1.1,
    isValidPath_joinPath_concat hdb.1.1,fun hc => hc.2 (hlen hc.1),?_,?_,?_,?_,?_,?_⟩
  · rw [basename_joinPath_concat hsa.1.1]
    exact hsa.2
  · rw [basename_joinPath_concat hdb.1.1]
    exact hdb.2
  · rw [Bool.eq_false_iff]
    exact fun hc => hno ((nameClash_iff hsa.1.2 hsa.1.1 hdb.1.1 (fun n hn => (hdpc n hn).1)).mp hc)
  · rw [hsp]
    omega
  · rw [hsp, basename_joinPath_concat hsa.1.1]
    exact (h.checkFileExist_iff hq256 hqdir hsa.1.2).mpr ⟨i,he⟩
  · rw [hdp]
    omega

theorem firstFreeInode_of_free (h : ∃ c < 256, inodeUsed m c = false) : firstFreeInode m ≠ sizeMax := by
  obtain ⟨c,hc,hfree⟩ := h
  intro he
  rcases bitmapFfz_spec m inodeStore.fbm with ⟨_,hall⟩ | ⟨hlt,_⟩
  · have hu : inodeUsed m c = true := hall c hc
    rw [hfree] at hu
    cases hu
  · have hlt : firstFreeInode m < 256 := hlt
    rw [he] at hlt
    exact absurd hlt (by decide)

theorem firstFree_of_free (h : ∃ b, DataId b ∧ used m b = false) : firstFree m ≠ sizeMax := by
  obtain ⟨b,hb,hfree⟩ := h
  intro he
  rcases bitmapFfz_spec m wholeStore.fbm with ⟨_,hall⟩ | ⟨hlt,_⟩
  · have hu : used m b = true := hall b hb.2
    rw [hfree] at hu
    cases hu
  · have hlt : firstFree m < 65528 := hlt
    rw [he] at hlt
    exact absurd hlt (by decide)

end Names

section Refusals
variable {s : F19FS} {sn dn sp dp : List CStr} {a b : CStr} {i : ℕ} {junk : Inode}

theorem refused_of_clash (ha : SlotName a) (hb : SlotName b) (hdp : ∀ n ∈ dp, SlotName n)
    (h : NameClash (sp ++ [a]) (dp ++ [b])) : MoveRefused s (joinPath (sp ++ [a])) (joinPath (dp ++ [b])) junk := by
  refine moveRefused_of_unchecked (fun hc => ?_)
  have hout := hc.outside
  rw [(nameClash_iff ha.1.2 ha.1.1 hb.1.1 (fun n hn => (hdp n hn).1.1)).mpr h] at hout
  cases hout

/-- A good move succeeds but for the two comparisons of strings. -/
theorem good_moved (h : TidyImage s.image) (hs : ∀ n ∈ sp ++ [a], SlotName n) (hd : ∀ n ∈ dp ++ [b], SlotName n)
    (hsrc : Path (entryAt s.image) 0 (sp ++ [a]) i) (hgood : GoodMove s.image (sp ++ [a]) (dp ++ [b]))
    (hlen : (joinPath (sp ++ [a])).length ≠ (joinPath (dp ++ [b])).length) (hno : ¬ NameClash (sp ++ [a]) (dp ++ [b])) :
    ∃ s', fsMove s (some (joinPath (sp ++ [a]))) (some (joinPath (dp ++ [b]))) junk = some (0,s') := by
  obtain ⟨p,hp,hpdir,k,hk,hvac⟩ := hgood.parent
  rw [List.dropLast_concat] at hp
  have hi := h.inv
  have hp256 : p < 256 := hp.induct (P := (· < 256)) (by omega) (fun _ _ _ _ he => edge_lt he)
  have hdb := hd b (by simp)
  have hdpc : ∀ n ∈ dp, Component n ∧ 0 ∉ n := fun n hn => (hd n (List.mem_append_left _ hn)).1
  have hc := moveChecked_names h.searchable hs hd hsrc hp hpdir hp256 (fun he => absurd he hlen) hno
  have hdp : parentOf s.image (joinPath (dp ++ [b])) = p := (h.searchable.parentOf_eq hdpc hdb.1.1 hp256).mpr ⟨hp,hpdir⟩
  have hex : checkFileExist s.image p b = false := by
    rw [Bool.eq_false_iff]
    intro he
    obtain ⟨j,hj⟩ := (h.searchable.checkFileExist_iff hp256 hpdir hdb.1.2).mp he
    exact hgood.absent j (path_concat.mpr ⟨p,hp,hj⟩)
  have hmove : ∃ m', moveIn s.image (parentOf s.image (joinPath (sp ++ [a]))) (parentOf s.image (joinPath (dp ++ [b])))
      (joinPath (sp ++ [a])) (joinPath (dp ++ [b])) junk = some (0,m') := moveIn_created hi hc (zero_not_mem_joinPath (fun n hn => (hs n hn).1.2))
    (zero_not_mem_joinPath (fun n hn => (hd n hn).1.2)) (by rw [hdp, basename_joinPath_concat hdb.1.1]; exact hex)
    (fun he => by
      rw [hdp] at he
      have hlive := Inode.entryCount_full.mp he k hk
      rw [hvac] at hlive
      cases hlive) (firstFreeInode_of_free hgood.inode) (firstFree_of_free hgood.block)
  obtain ⟨m',hm⟩ := hmove
  refine ⟨{ s with image := m' },?_⟩
  simp only [fsMove, hc.image_eq junk, hm, Option.map_some]

/-- A file that is moved to itself is lost, but for the comparison of names. -/
theorem self_move (h : TidyImage s.image) (htree : TreeDirs s.image) (hs : ∀ n ∈ sp ++ [a], SlotName n)
    (hsrc : Path (entryAt s.image) 0 (sp ++ [a]) i) (hno : ¬ NameClash (sp ++ [a]) (sp ++ [a])) :
    ¬ MoveRefused s (joinPath (sp ++ [a])) (joinPath (sp ++ [a])) junk := by
  rintro ⟨ret,hneg,he⟩
  obtain ⟨p,hp,hedge⟩ := path_concat.mp hsrc
  obtain ⟨hp256,hpdir⟩ := edge_directory hedge
  have hsa := hs a (by simp)
  have hc := moveChecked_names h.searchable hs hs hsrc hp hpdir hp256 (fun _ => rfl) hno
  have hpar : parentOf s.image (joinPath (sp ++ [a])) = p :=
    (h.searchable.parentOf_eq (fun n hn => (hs n (List.mem_append_left _ hn)).1) hsa.1.1 hp256).mpr ⟨hp,hpdir⟩
  have hfile := h.searchable.getFileInodeID_of_edge hsa.1.2 hedge
  have hne : p ≠ i := by
    rintro rfl
    have hl := congrArg List.length (htree sp (sp ++ [a]) p hp hsrc hpdir)
    rw [List.length_append, List.length_singleton] at hl
    omega
  simp only [fsMove, hc.image_eq junk] at he
  obtain ⟨⟨r,m'⟩,hr,he⟩ := Option.map_eq_some_iff.mp he
  have h0 : r = 0 := by
    refine moveIn_taken h.inv hc hc.srcExists ?_ hr
    rw [hpar, basename_joinPath_concat hsa.1.1, hfile]
    exact hne
  have hret : r = ret := congrArg Prod.fst he
  omega

theorem nameClash_of_isPrefixOf (h : sp ++ [a] <+: dn) (hne : dn ≠ sp ++ [a]) : NameClash (sp ++ [a]) dn := by
  obtain ⟨rest,rfl⟩ := h
  have hrest : rest ≠ [] := by
    rintro rfl
    exact hne (List.append_nil _)
  refine ⟨a,?_,?_⟩
  · rw [List.dropLast_append_of_ne_nil hrest]
    simp
  · rw [List.getLastD_concat]

end Refusals

/-- In a tidy state whose directories form a tree, `fs_move` refuses the bad moves and makes the good ones exactly
when, for a move of a file to itself, a component of its parent begins with its name, and for a good move the paths
differ in length and no component of the destination's parent begins with the source's name. -/
theorem move_refusals {s : F19FS} {sn dn : List CStr} {i : ℕ} (h : TidyReachable s) (htree : TreeDirs s.image)
    (hs : ∀ n ∈ sn, SlotName n) (hd : ∀ n ∈ dn, SlotName n) (hsrc : Path (entryAt s.image) 0 sn i) (junk : Inode) :
    ((BadMove s.image sn dn i → MoveRefused s (pathString sn) (pathString dn) junk) ∧
      (GoodMove s.image sn dn → ∃ s', fsMove s (some (pathString sn)) (some (pathString dn)) junk = some (0,s'))) ↔
    (dn = sn → sn = [] ∨ NameClash sn dn) ∧
      (GoodMove s.image sn dn → (pathString sn).length ≠ (pathString dn).length ∧ ¬ NameClash sn dn) := by
  have ht := h.tidy
  rcases List.eq_nil_or_concat sn with rfl | ⟨sp,a,rfl⟩
  · refine ⟨fun _ => ⟨fun _ => Or.inl rfl,fun hg => absurd List.nil_prefix hg.outside⟩,
      fun _ => ⟨fun _ => moveRefused_of_unchecked (fun hc => ?_),fun hg => absurd List.nil_prefix hg.outside⟩⟩
    exact absurd hc.srcLong (by decide)
  rw [List.concat_eq_append] at *
  rcases List.eq_nil_or_concat dn with rfl | ⟨dp,b,rfl⟩
  · have hbad : ¬ BadMove s.image (sp ++ [a]) [] i := by
      rintro (he | ⟨_,hp⟩)
      · simp at he
      · simp at hp
    exact ⟨fun _ => ⟨fun he => absurd he (by simp),fun hg => absurd (Path.nil 0) (hg.absent 0)⟩,
      fun _ => ⟨fun hb => absurd hb hbad,fun hg => absurd (Path.nil 0) (hg.absent 0)⟩⟩
  rw [List.concat_eq_append] at *
  have ha := hs a (by simp)
  have hb := hd b (by simp)
  have hdp : ∀ n ∈ dp, SlotName n := fun n hn => hd n (List.mem_append_left _ hn)
  rw [pathString_concat, pathString_concat]
  constructor
  · rintro ⟨hbad,hgood⟩
    refine ⟨fun he => Or.inr ?_,fun hg => ?_⟩
    · by_contra hno
      obtain ⟨rfl,he'⟩ := List.append_inj' he rfl
      obtain rfl := List.singleton_inj.mp he'
      exact self_move ht htree hs hsrc hno (hbad (Or.inl rfl))
    · obtain ⟨s',hmove⟩ := hgood hg
      have hno : ¬ MoveRefused s (joinPath (sp ++ [a])) (joinPath (dp ++ [b])) junk := by
        rintro ⟨ret,hneg,he⟩
        rw [hmove] at he
        obtain ⟨rfl,_⟩ := Prod.mk.inj (Option.some.inj he)
        omega
      refine ⟨fun hlen => hno (moveRefused_of_unchecked (fun hc => hc.lengths ⟨hlen,fun he => ?_⟩)),
        fun hcl => hno (refused_of_clash ha hb hdp hcl)⟩
      have hsp := strtok_joinPath (fun n hn => (hs n hn).1.1)
      rw [he, strtok_joinPath (fun n hn => (hd n hn).1.1)] at hsp
      rw [← hsp] at hsrc
      exact hg.absent i hsrc
  · rintro ⟨hself,hgood⟩
    refine ⟨fun hbad => ?_,fun hg => ?_⟩
    · by_cases he : dp ++ [b] = sp ++ [a]
      · exact refused_of_clash ha hb hdp ((hself he).resolve_left (by simp))
      · exact refused_of_clash ha hb hdp (nameClash_of_isPrefixOf ((hbad.resolve_left he).2) he)
    · obtain ⟨hlen,hno⟩ := hgood hg
      exact good_moved ht hs hd hsrc hg hlen hno

theorem treeDirs_single {m : Mem} {k c : ℕ} {name : CStr} (hE : entryAt m = update (entryAt fsFormat.image) 0 k (some (name,c)))
    (hfile : (inodeAt m c).fileType ≠ typeDirectory) : TreeDirs m := by
  have hnil : ∀ ns d, Path (entryAt m) 0 ns d → (inodeAt m d).fileType = typeDirectory → ns = [] := by
    intro ns d hp hdir
    cases hp with
    | nil => rfl
    | @cons _ e _ n ns he hp =>
      have hec : e = c := by
        rw [hE, edge_update_some (entryAt_fsFormat 0 k)] at he
        rcases he with ⟨_,_,he⟩ | ⟨j,he⟩
        · exact he
        · rw [entryAt_fsFormat] at he
          cases he
      subst hec
      cases hp with
      | nil => exact absurd hdir hfile
      | cons he' _ => exact absurd (edge_directory he').2 hfile
  intro ns ns' d hp hp' hdir
  rw [hnil ns d hp hdir, hnil ns' d hp' hdir]

theorem slotName_single {n : CStr} (h : SlotName n) : ∀ k ∈ [n], SlotName k := fun k hk => by
  rw [List.mem_singleton.mp hk]
  exact h

/-- A file `/a`, and the names `/b` and `/bb` that are not taken. -/
theorem move_setting : ∃ s, step fsFormat (.create (pathArg ['/','a']) .regular) = some s ∧ TidyReachable s ∧
    TreeDirs s.image ∧ Path (entryAt s.image) 0 [ofChars ['a']] 1 ∧
    GoodMove s.image [ofChars ['a']] [ofChars ['b']] ∧ GoodMove s.image [ofChars ['a']] [ofChars ['b','b']] := by
  have hrun : (call fsFormat (.create (pathArg ['/','a']) .regular)).map (fun r => decide (r.1 = 0) &&
      decide (resolve r.2.image [ofChars ['a']] = some 1) && decide (resolve r.2.image [ofChars ['b']] = none) &&
      decide (resolve r.2.image [ofChars ['b','b']] = none) && decide ((inodeAt r.2.image 0).live 1 = false) &&
      decide (inodeUsed r.2.image 2 = false) && decide (used r.2.image 20 = false)) = some true := by
    decide +kernel
  obtain ⟨⟨ret,s⟩,hc,hr⟩ := Option.map_eq_some_iff.mp hrun
  simp only [Bool.and_eq_true, decide_eq_true_eq] at hr
  obtain ⟨⟨⟨⟨⟨⟨rfl,ha⟩,hb⟩,hbb⟩,hlive⟩,hinode⟩,hblock⟩ := hr
  have hstep := step_of_call hc
  have htidy : Tidy fsFormat (.create (pathArg ['/','a']) .regular) := tidy_of_plainTidy _ _ (by decide +kernel)
  have ht : TidyReachable s := Reach.refl.tail htidy hstep
  have hsea := ht.tidy.searchable
  have hgood : ∀ n, resolve s.image [n] = none → GoodMove s.image [ofChars ['a']] [n] := by
    intro n hn
    refine ⟨fun j hj => ?_,⟨0,Path.nil 0,hsea.root,1,by decide,hlive⟩,by simp,⟨2,by decide,hinode⟩,20,⟨by decide,by decide⟩,hblock⟩
    rw [(resolve_eq_some hsea.readable hsea.distinct).mpr hj] at hn
    cases hn
  refine ⟨s,hstep,ht,?_,(resolve_eq_some hsea.readable hsea.distinct).mp ha,hgood _ hb,hgood _ hbb⟩
  have hc' : fsCreate fsFormat (pathOf (pathArg ['/','a'])) .regular = some (0,s) := hc
  rcases (fsCreate_effect fsFormat_inv hc').2 with ⟨h0,_⟩ | ⟨q,tokens,d,name,hq,_,hch,⟨h0,_⟩ | ⟨_,k,b,c,hcr⟩⟩
  · cases h0
  · cases h0
  · have hd0 := fsFormat_directory hch.lt hch.directory
    subst hd0
    refine treeDirs_single (hcr.entries_eq fsFormat_inv hch.lt hch.directory (hch.fits hq) tidy_fsFormat.terminated
      (fun _ j hj => fsFormat_live hch.lt hch.directory hj)) (c := c) ?_
    have hreg : (childInode .regular c).fileType = typeRegular := rfl
    rw [hcr.child, hreg]
    decide

theorem move_refusals_file : ∃ s s', step fsFormat (.create (pathArg ['/','a']) .regular) = some s ∧
    fsMove s (some (pathString [ofChars ['a']])) (some (pathString [ofChars ['b','b']])) Inode.cleared = some (0,s') := by
  obtain ⟨s,hstep,ht,htree,hp,_,hgood⟩ := move_setting
  have hno : ¬ NameClash [ofChars ['a']] [ofChars ['b','b']] := by
    rintro ⟨n,hn,_⟩
    cases hn
  have ha : SlotName (ofChars ['a']) := ⟨⟨⟨by decide,by decide⟩,by decide⟩,by decide⟩
  have hb : SlotName (ofChars ['b','b']) := ⟨⟨⟨by decide,by decide⟩,by decide⟩,by decide⟩
  obtain ⟨s',hmove⟩ := ((move_refusals ht htree (slotName_single ha) (slotName_single hb) hp Inode.cleared).mpr
    ⟨fun he => absurd he (by decide),fun _ => ⟨by decide,hno⟩⟩).2 hgood
  exact ⟨s,s',hstep,hmove⟩

/-- The move of `/a` to `/b`, whose paths are of one length, is refused. -/
theorem move_refusals_fail : ¬ ∀ s sn dn (junk : Inode), Reach step (fun _ _ => True) fsFormat s → TreeDirs s.image →
    (∀ n ∈ sn, SlotName n) → (∀ n ∈ dn, SlotName n) → (∃ i, Path (entryAt s.image) 0 sn i) → GoodMove s.image sn dn →
    ∃ s', fsMove s (some (pathString sn)) (some (pathString dn)) junk = some (0,s') := by
  intro hall
  obtain ⟨s,_,ht,htree,hp,hgood,_⟩ := move_setting
  have ha : SlotName (ofChars ['a']) := ⟨⟨⟨by decide,by decide⟩,by decide⟩,by decide⟩
  have hb : SlotName (ofChars ['b']) := ⟨⟨⟨by decide,by decide⟩,by decide⟩,by decide⟩
  obtain ⟨s',hmove⟩ := hall s _ _ Inode.cleared (ht.mono (fun _ _ _ => trivial)) htree (slotName_single ha) (slotName_single hb)
    ⟨1,hp⟩ hgood
  have hlen : ¬ MoveChecked s.image (pathString [ofChars ['a']]) (pathString [ofChars ['b']]) :=
    fun hc => hc.lengths (by decide)
  have hre : MoveRefused s (pathString [ofChars ['a']]) (pathString [ofChars ['b']]) Inode.cleared :=
    moveRefused_of_unchecked hlen
  obtain ⟨ret,hneg,he⟩ := hre
  rw [hmove] at he
  have h0 : (0 : ℤ) = ret := congrArg Prod.fst (Option.some.inj he)
  omega

end LiteOSFS
