import LiteOSFS.Properties.SameNames

/-! # The two ways to make a directory

`fs_create` gives a directory its block when the first file is made in it. `fs_create2`,
which `fs_move` calls, gives it one at once, and writes the entry to the block of the
parent without a look whether there is one: without it, to block 0.
-/
namespace LiteOSFS
open Memory CString Ownership EntryGraph Transition

/-- The same paths lead somewhere, and to the same type. -/
structure SamePaths (m n : Mem) : Prop where
  resolved : ∀ names, resolve m names = resolve n names
  types : ∀ names i, resolve m names = some i → (inodeAt m i).fileType = (inodeAt n i).fileType

theorem Alike.samePaths {m n : Mem} (h : Alike m n) : SamePaths m n := by
  refine ⟨h.resolve_eq,fun names i hi => h.fileType ?_⟩
  have hp := (resolve_eq_some h.tidy.searchable.readable h.tidy.distinct).mp hi
  exact hp.induct (P := (· < 256)) (by omega) (fun _ _ _ _ he => edge_lt he)

section Path
variable {m : Mem} {names : List CStr} {name : CStr} {d : ℕ}

theorem pathName_concat (hinit : ∀ n ∈ names, PathName n) (hname : PathName name) :
    ∀ n ∈ names ++ [name], PathName n := by
  intro n hn
  rcases List.mem_append.mp hn with hn | hn
  · exact hinit n hn
  · rwa [List.mem_singleton.mp hn]

/-- Where the search of `fs_create2` finds the parent and no file of the name, the checks of `fs_create` are
passed. -/
theorem createChecked_of_parentOf (ht : TidyImage m) (hinit : ∀ n ∈ names, PathName n) (hname : PathName name)
    (hlong : (joinPath (names ++ [name])).length < 65535) (hne : parentOf m (joinPath (names ++ [name])) ≠ sizeMax)
    (hex : checkFileExist m (parentOf m (joinPath (names ++ [name]))) name = false) :
    CreateChecked m (joinPath (names ++ [name])) (names ++ [name]) (parentOf m (joinPath (names ++ [name])))
      name := by
  have hall := pathName_concat hinit hname
  obtain ⟨hd,hdir⟩ := parentOf_spec ht.inv hne
  have hpar : createParent m (names ++ [name]) = some (parentOf m (joinPath (names ++ [name]))) := by
    rw [← ht.searchable.findParent_eq hinit hname, findParent, if_neg hne]
  obtain ⟨hind,hend,_⟩ := createParent_iff.mp hpar
  exact ⟨splitPath_names (by simp) hall hlong,all_valid hall,hind,hend,hdir,by simp,
    (no_edge_iff hd hdir).mp (no_edge_of_absent ht.inv hd hname.component.2 hex)⟩

theorem CreateChecked.parentOf_ne {tokens : List CStr} {last : CStr} (ht : TidyImage m)
    (hinit : ∀ n ∈ names, PathName n) (hname : PathName name) (hlong : (joinPath (names ++ [name])).length < 65535)
    (hch : CreateChecked m (joinPath (names ++ [name])) tokens d last) :
    parentOf m (joinPath (names ++ [name])) ≠ sizeMax ∧
      checkFileExist m (parentOf m (joinPath (names ++ [name]))) name = false := by
  have hsplit := splitPath_names (by simp) (pathName_concat hinit hname) hlong
  obtain rfl : names ++ [name] = tokens := Option.some.inj (Option.some.inj (hsplit.symm.trans hch.split))
  obtain rfl : name = last := by simpa using hch.last
  have hfind : findParent m (joinPath (names ++ [name])) = some d :=
    (ht.searchable.findParent_eq hinit hname).trans hch.createParent_eq
  rw [findParent] at hfind
  split_ifs at hfind with hne
  obtain rfl := Option.some.inj hfind
  refine ⟨hne,Bool.eq_false_iff.mpr (fun hex => ?_)⟩
  obtain ⟨i,he⟩ := (ht.searchable.checkFileExist_iff hch.lt hch.directory hname.component.2).mp hex
  exact (no_edge_iff hch.lt hch.directory).mpr hch.absent i he

theorem fsCreate2_refused (junk : Inode) (hname : PathName name)
    (hno : ¬ (parentOf m (joinPath (names ++ [name])) ≠ sizeMax ∧
      checkFileExist m (parentOf m (joinPath (names ++ [name]))) name = false)) :
    (fsCreate2 m (some (joinPath (names ++ [name]))) .directory junk).1 ≠ 0 := by
  have hlen := hname.length_le
  have hcomp := hname.component.1
  have hlong : 1 < (joinPath (names ++ [name])).length := joinPath_length hcomp
  have hbad : ¬ (joinPath (names ++ [name]) = [] ∨ FileT.directory = .invalid) := by
    rintro (he | he)
    · exact joinPath_ne_nil (by simp) he
    · cases he
  rw [fsCreate2, if_neg hbad, if_neg (by omega), if_neg (blockStoreGetFreeBlocks_inode m),
    isValidPath_joinPath_concat hcomp, if_neg (by simp), basename_joinPath_concat hcomp, if_neg (by omega)]
  simp only
  by_cases hne : parentOf m (joinPath (names ++ [name])) = sizeMax
  · rw [if_pos hne]
    exact fun he => absurd he (show (-6 : ℤ) ≠ 0 by decide)
  · rw [if_neg hne, if_pos (by simpa using fun hex => hno ⟨hne,hex⟩)]
    exact fun he => absurd he (show (-7 : ℤ) ≠ 0 by decide)

/-- `fs_create` and `fs_create2` make the same directory when its parent has a block. -/
theorem Created.alike_made {m' : Mem} {k b c : ℕ} (h : Created m d name .directory m' k b c) (ht : TidyImage m)
    (ht' : TidyImage m') (hd : d < 256) (hdir : (inodeAt m d).fileType = typeDirectory)
    (hdb : (inodeAt m d).dirBlock ≠ 0)
    (hfirst : k = 0 → ∀ j < 31, (inodeAt m d).live j = false) (hf : firstFree m ≠ sizeMax) (hname : FitsSlot name)
    (hex : checkFileExist m d name = false) (junk : Inode) :
    Alike m' (withDirectory m d (firstFreeInode m) (firstFree m) name junk) := by
  have hk := h.slot_eq
  have hc := h.inodeFirst
  have hlt := h.inodeLt
  have hif : firstFreeInode m ≠ sizeMax := by
    rw [← hc]
    exact (hlt.trans (by decide)).ne
  have hroom : (inodeAt m d).entryCount ≠ 31 := by
    intro hfull
    have hl := Inode.entryCount_full.mp hfull k h.slot
    rw [h.vacant] at hl
    cases hl
  obtain ⟨hb,_⟩ := firstFree_spec ht.inv.sound.sys hf
  refine ⟨⟨?_,fun i hi j hj => ?_⟩,ht',ht.made hd hdir hdb hif hf hroom hname hex junk⟩
  · rw [h.names ht.inv hd hdir hname ht.terminated hfirst,
      names_withDirectory ht.inv ht.terminated hd hdir hdb hif hf hroom hname junk, ← hk, ← hc]
    rfl
  · rw [← hc, inodeAt_withDirectory hlt hb (ht.inv.offTable hd) hi]
    split_ifs with hdi hci
    · subst hdi
      rw [h.parent, Inode.live_withEntry _ h.slot hj, Inode.live_markEntry _ hj, ← hk, Bool.or_comm]
    · subst hci
      rw [h.child, live_childInode _ _ hj, newInode_live _ _ _ hj]
    · rw [h.others i hi hdi hci]

/-- The directory that gets a new name, when there is an inode for it, has a block, and entries only if slot 0 is in
use. -/
def ParentReady (m : Mem) (path : CStr) : Prop := ∀ tokens d name, CreateChecked m path tokens d name →
  firstFreeInode m ≠ sizeMax → (inodeAt m d).dirBlock ≠ 0 ∧
    ((inodeAt m d).live 0 = false → ∀ j < 31, (inodeAt m d).live j = false)

/-- Once the checks are passed, both calls make the directory or both fail. -/
theorem CreateChecked.creations {s s₁ : F19FS} {tokens : List CStr} {m' : Mem} {ret ret' : ℤ} {junk : Inode}
    (path : PathArg) (hch : CreateChecked s.image path.chars tokens d name) (ht : TidyImage s.image)
    (hlong : 1 < path.chars.length) (hvalid : isValidPath path.chars = true) (hbase : basename path.chars = name)
    (hpar : parentOf s.image path.chars = d)
    (hex : checkFileExist s.image d name = false) (hfree : firstFree s.image ≠ sizeMax)
    (hready : ParentReady s.image path.chars) (hs₁ : fsCreate s (some path.chars) .directory = some (ret,s₁))
    (hm' : fsCreate2 s.image (some path.chars) .directory junk = (ret',m')) :
    (ret = 0 ↔ ret' = 0) ∧ (ret = 0 → Alike s₁.image m') := by
  have hname : FitsSlot name := hch.fits (show pathOf (some path) = some path.chars from rfl)
  have hne : d ≠ sizeMax := (hch.lt.trans (by decide)).ne
  have hret := hch.ret_eq ht.inv (fun _ _ _ _ _ => hfree) (by decide) hs₁
  subst hbase hpar
  rw [fsCreate2_found ht.inv hlong hvalid hname.2 hne hex] at hm'
  have hfail : ret = -1 → ret' ≠ 0 → (ret = 0 ↔ ret' = 0) ∧ (ret = 0 → Alike s₁.image m') := fun h1 h2 =>
    ⟨iff_of_false (by omega) h2,fun h0 => by omega⟩
  by_cases hfull : (inodeAt s.image (parentOf s.image path.chars)).entryCount = 31
  · rw [if_pos hfull] at hm'
    cases hm'
    exact hfail (hret.trans (if_pos (Or.inl hfull))) (by decide)
  rw [if_neg hfull] at hm'
  rcases create2In_cases ht.inv hch.lt hm' with ⟨_,hf,_⟩ | ⟨hr',hif,_⟩ | ⟨rfl,hif,_,rfl⟩
  · exact absurd hf hfree
  · exact hfail (hret.trans (if_pos (Or.inr hif))) hr'
  · rw [if_neg (not_or.mpr ⟨hfull,hif⟩)] at hret
    subst hret
    obtain ⟨hdb,hfirst⟩ := hready _ _ _ hch hif
    refine ⟨Iff.rfl,fun _ => ?_⟩
    have ht₁ : TidyImage s₁.image := by
      refine tidy_after (c := .create (some path) .directory) ht ⟨trivial,fun p hp => ?_⟩ _ hs₁
      cases hp
      intro tokens' d' name' hch' h0
      exact (hready _ _ _ hch' hif).2 h0
    rcases (hch.effect (by decide) ht.inv hs₁).2 with ⟨hr,_⟩ | ⟨hr,_⟩ | ⟨_,k,b,c,hcr⟩
    · cases hr
    · cases hr
    · refine hcr.alike_made ht ht₁ hch.lt hch.directory hdb ?_ hfree hname hex junk
      rintro rfl
      exact hfirst hcr.vacant

end Path

/-- Both calls make the directory or both fail. With a directory made the paths lead to the same, and so do all calls
that follow. -/
def CreationsAgree (s : F19FS) (path : CStr) (junk : Inode) (guard : F19FS → NameCall → Prop) : Prop :=
  ∃ ret s₁, fsCreate s (some path) .directory = some (ret,s₁) ∧ ∃ ret' m',
    fsCreate2 s.image (some path) .directory junk = (ret',m') ∧ (ret = 0 ↔ ret' = 0) ∧
    (ret = 0 → SamePaths s₁.image m' ∧ ∀ cs, Allowed nameCall guard s₁ cs →
      Allowed nameCall guard { s with image := m' } cs → answers nameCall s₁ cs = answers nameCall { s with image := m' } cs)

theorem creations_agree {s : F19FS} {names : List CStr} (h : TidyReachable s) (hc : ∀ n ∈ names, PathName n)
    (hlong : (pathString names).length < 65535) (hfree : firstFree s.image ≠ sizeMax)
    (hready : ParentReady s.image (pathString names)) (junk : Inode) :
    CreationsAgree s (pathString names) junk NameReady := by
  by_cases hnil : names = []
  · subst hnil
    have hsplit : splitPath [slash] = some (some [[]]) := by decide
    refine ⟨-1,s,?_,-2,s.image,?_,by decide,fun h0 => absurd h0 (by decide)⟩
    · simp [fsCreate, pathString, hsplit, isValidFileName]
    · simp [fsCreate2, pathString]
  rw [pathString, if_neg hnil] at hlong hready ⊢
  obtain ⟨⟨ret,s₁⟩,hs₁⟩ : ∃ r, fsCreate s (some (joinPath names)) .directory = some r :=
    ⟨_,fsCreate_names (by decide) hnil hc hlong⟩
  obtain ⟨ret',m',hm'⟩ : ∃ ret' m', fsCreate2 s.image (some (joinPath names)) .directory junk = (ret',m') := ⟨_,_,rfl⟩
  refine ⟨ret,s₁,hs₁,ret',m',hm',?_⟩
  obtain ⟨init,name,rfl⟩ : ∃ init name, names = init ++ [name] :=
    ⟨names.dropLast,names.getLast hnil,(List.dropLast_concat_getLast hnil).symm⟩
  have hinit : ∀ n ∈ init, PathName n := fun n hn => hc n (List.mem_append_left _ hn)
  have hname : PathName name := hc name (by simp)
  have ht := h.tidy
  by_cases hfound : parentOf s.image (joinPath (init ++ [name])) ≠ sizeMax ∧
      checkFileExist s.image (parentOf s.image (joinPath (init ++ [name]))) name = false
  swap
  · have hret : ret ≠ 0 := by
      intro h0
      rcases (fsCreate_effect ht.inv hs₁).2 with ⟨hr,_⟩ | ⟨q,tokens,d,last,hq,_,hch,_⟩
      · omega
      · cases hq
        exact hfound (hch.parentOf_ne ht hinit hname hlong)
    have hret' : ret' ≠ 0 := by
      have hr := fsCreate2_refused junk hname hfound
      rwa [hm'] at hr
    exact ⟨iff_of_false hret hret',fun h0 => absurd h0 hret⟩
  obtain ⟨hne,hex⟩ := hfound
  have hch := createChecked_of_parentOf ht hinit hname hlong hne hex
  obtain ⟨hiff,halike⟩ := CreateChecked.creations ⟨_,zero_not_mem_joinPath (fun n hn => (hc n hn).2.2)⟩ hch ht
    (joinPath_length hname.component.1) (isValidPath_joinPath_concat hname.component.1)
    (basename_joinPath_concat hname.component.1) rfl hex hfree hready hs₁ hm'
  refine ⟨hiff,fun h0 => ⟨(halike h0).samePaths,fun cs hs hs' => ?_⟩⟩
  exact Alike.answers_eq (s := s₁) (t := { s with image := m' }) (halike h0) hs hs'

theorem nameReady_create {s : F19FS} {path : PathArg} {type : FileT}
    (htidy : createTidyCheck s.image path.chars = true)
    (hfree : firstFree s.image ≠ sizeMax) : NameReady s (.create (some path) type) := by
  intro p hp
  cases hp
  exact ⟨createTidy_of_check htidy,fun _ _ _ _ _ => hfree⟩

/-- A file in the directory `/e`. -/
def pathEF : PathArg := ⟨ofChars ['/','e','/','f'],by decide⟩

/-- With `/d` in it the root has a block: both calls make `/e`, and what follows returns the same. -/
theorem creations_agree_second : ∃ s s₁ m', run step fsFormat [.create (pathArg ['/','d']) .directory] = some s ∧
    fsCreate s (some (pathString [ofChars ['e']])) .directory = some (0,s₁) ∧
    fsCreate2 s.image (some (pathString [ofChars ['e']])) .directory Inode.cleared = (0,m') ∧ SamePaths s₁.image m' ∧
    answers nameCall s₁ [.create (some pathEF) .regular] =
      answers nameCall { s with image := m' } [.create (some pathEF) .regular] := by
  have hrun : (run (checked plainTidy step) fsFormat [.create (pathArg ['/','d']) .directory]).bind (fun s =>
      (fsCreate s (some (pathString [ofChars ['e']])) .directory).map (fun r =>
        decide (firstFree s.image ≠ sizeMax) && createTidyCheck s.image (pathString [ofChars ['e']]) &&
        decide ((inodeAt s.image 0).dirBlock ≠ 0) && decide (r.1 = 0) && createTidyCheck r.2.image pathEF.chars &&
        decide (firstFree r.2.image ≠ sizeMax) &&
        createTidyCheck (fsCreate2 s.image (some (pathString [ofChars ['e']])) .directory Inode.cleared).2 pathEF.chars &&
        decide (firstFree (fsCreate2 s.image (some (pathString [ofChars ['e']])) .directory Inode.cleared).2 ≠ sizeMax))) =
      some true := by
    decide +kernel
  obtain ⟨s,hs,hr⟩ := Option.bind_eq_some_iff.mp hrun
  obtain ⟨⟨ret,s₁⟩,hc,hr⟩ := Option.map_eq_some_iff.mp hr
  simp only [Bool.and_eq_true, decide_eq_true_eq] at hr
  obtain ⟨⟨⟨⟨⟨⟨⟨hfree,htidy⟩,hblock⟩,rfl⟩,htidy₁⟩,hfree₁⟩,htidy'⟩,hfree'⟩ := hr
  have hready : ParentReady s.image (pathString [ofChars ['e']]) := by
    intro tokens d name hch _
    have hsplit : splitPath (pathString [ofChars ['e']]) = some (some [ofChars ['e']]) := by decide
    obtain rfl : [ofChars ['e']] = tokens := Option.some.inj (Option.some.inj (hsplit.symm.trans hch.split))
    obtain rfl : 0 = d := hch.parent
    exact ⟨hblock,createTidy_of_check htidy _ _ _ hch⟩
  obtain ⟨ret,s₂,hc₂,ret',m',hc',hiff,hagree⟩ := creations_agree (tidyReachable_of_plain hs) (fun n hn => by
    rw [List.mem_singleton.mp hn]
    exact ⟨by decide,by decide,by decide⟩) (by decide) hfree hready Inode.cleared
  obtain ⟨rfl,rfl⟩ := Prod.mk.inj (Option.some.inj (hc.symm.trans hc₂))
  obtain rfl := hiff.mp rfl
  obtain ⟨hpaths,hanswers⟩ := hagree rfl
  rw [hc'] at htidy' hfree'
  exact ⟨s,s₁,m',run_of_checked hs,hc,hc',hpaths,hanswers _ ⟨nameReady_create htidy₁ hfree₁,fun _ _ => trivial⟩
    ⟨nameReady_create htidy' hfree',fun _ _ => trivial⟩⟩

theorem allowed_trivial (s : F19FS) (cs : List NameCall) : Allowed nameCall (fun _ _ => True) s cs := by
  induction cs generalizing s with
  | nil => trivial
  | cons c cs ih => exact ⟨trivial,fun r _ => ih r.2⟩

/-- A directory and a file below `/a`. -/
def belowA : List NameCall :=
  [.create (pathArg ['/','a','/','b']) .directory,.create (pathArg ['/','a','/','c']) .regular]

/-- Below the root of a formatted image `fs_create2` writes the entry for `/a` over the bitmap of the inodes. The
next `fs_create` marks an inode there, and the name is another one. -/
theorem creations_agree_fail : ¬ ∀ s names junk, Reach step (fun _ _ => True) fsFormat s → (∀ n ∈ names, PathName n) →
    (pathString names).length < 65535 → firstFree s.image ≠ sizeMax →
    CreationsAgree s (pathString names) junk (fun _ _ => True) := by
  intro hall
  have hfree : firstFree fsFormat.image ≠ sizeMax := by decide +kernel
  have hrun : (fsCreate fsFormat (some (pathString [ofChars ['a']])) .directory).map (fun r => decide (r.1 = 0) &&
      decide (answers nameCall r.2 belowA = [some (.code 0),some (.code 0)]) &&
      decide (answers nameCall { fsFormat with image :=
        (fsCreate2 fsFormat.image (some (pathString [ofChars ['a']])) .directory Inode.cleared).2 } belowA =
          [some (.code 0),some (.code (-1))])) = some true := by
    decide +kernel
  obtain ⟨⟨ret,s₁⟩,hc,hr⟩ := Option.map_eq_some_iff.mp hrun
  simp only [Bool.and_eq_true, decide_eq_true_eq] at hr
  obtain ⟨⟨rfl,hfirst⟩,hsecond⟩ := hr
  obtain ⟨ret,s₂,hc₂,ret',m',hc',_,hagree⟩ := hall fsFormat [ofChars ['a']] Inode.cleared Reach.refl (fun n hn => by
    rw [List.mem_singleton.mp hn]
    exact ⟨by decide,by decide,by decide⟩) (by decide) hfree
  obtain ⟨rfl,rfl⟩ := Prod.mk.inj (Option.some.inj (hc.symm.trans hc₂))
  have hsame := (hagree rfl).2 belowA (allowed_trivial _ _) (allowed_trivial _ _)
  rw [hc'] at hsecond
  rw [hfirst, hsecond] at hsame
  exact absurd hsame (by decide)

end LiteOSFS
