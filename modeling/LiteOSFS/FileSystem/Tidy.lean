import LiteOSFS.FileSystem.EntryStep
import LiteOSFS.FileSystem.AppendOnly
import LiteOSFS.FileSystem.Search

/-! # Runs that keep directories in order

`fs_create` takes a directory whose slot 0 is vacant to have no block yet, and gives it
one whose bytes it does not clear. In runs in which this happens to directories without
entries only, the names in each directory stay distinct and end in their slots, and the
searches follow the paths of the entries.
-/
namespace LiteOSFS
open Memory CString Ownership EntryGraph Transition

/-- One change of the entries after another: a vacant slot is filled with a name that the directory does not
have, or a slot is emptied. -/
inductive EntrySteps (E : Entries ℕ ℕ CStr) : Entries ℕ ℕ CStr → Prop where
  | refl : EntrySteps E E
  | fill {E₁ : Entries ℕ ℕ CStr} {d k i : ℕ} {name : CStr} : EntrySteps E E₁ → FitsSlot name → E₁ d k = none →
      (∀ e, ¬ Edge E₁ d name e) → EntrySteps E (update E₁ d k (some (name,i)))
  | drop {E₁ : Entries ℕ ℕ CStr} {d k : ℕ} : EntrySteps E E₁ → EntrySteps E (update E₁ d k none)

theorem EntrySteps.distinct {E E' : Entries ℕ ℕ CStr} (h : EntrySteps E E') (hE : Distinct E) : Distinct E' := by
  induction h with
  | refl => exact hE
  | fill _ _ _ hno ih => exact ih.update_some hno
  | drop _ ih => exact ih.update_none

theorem EntrySteps.terminated {E E' : Entries ℕ ℕ CStr} (h : EntrySteps E E')
    (ht : ∀ d j a i, E d j = some (a,i) → a.length < 32) : ∀ d j a i, E' d j = some (a,i) → a.length < 32 := by
  induction h with
  | refl => exact ht
  | @fill E₁ d k i name _ hname _ _ ih =>
    intro e j a i' he
    by_cases hc : e = d ∧ j = k
    · rw [update, if_pos hc] at he
      cases he
      exact hname.2
    · rw [update_of_ne hc] at he
      exact ih e j a i' he
  | @drop E₁ d k _ ih =>
    intro e j a i' he
    by_cases hc : e = d ∧ j = k
    · rw [update, if_pos hc] at he
      cases he
    · rw [update_of_ne hc] at he
      exact ih e j a i' he

/-- The directory that `fs_create` puts a file in has no entries when its slot 0 is vacant. -/
def CreateTidy (m : Mem) (path : CStr) : Prop := ∀ tokens d name, CreateChecked m path tokens d name →
  (inodeAt m d).live 0 = false → ∀ j < 31, (inodeAt m d).live j = false

/-- Safe calls that give no directory with entries a new block. -/
def Tidy (s : F19FS) (c : Call) : Prop := Safe s c ∧
  match c with
  | .create path _ => ∀ p ∈ path, CreateTidy s.image p.chars
  | _ => True

/-- A run of such calls from a formatted image. -/
abbrev TidyReachable : F19FS → Prop := Reach step Tidy fsFormat

theorem TidyReachable.reachable {s : F19FS} (h : TidyReachable s) : Reachable s := h.mono (fun _ _ hg => hg.1)

section Calls
variable {s s' : F19FS} {m m' : Mem} {ret : ℤ}

theorem no_edge_of_absent (h : ImageInv m) {d : ℕ} {name : CStr} (hd : d < 256) (hname : 0 ∉ name)
    (hex : checkFileExist m d name = false) (e : ℕ) : ¬ Edge (entryAt m) d name e := by
  rintro ⟨j,he⟩
  obtain ⟨⟨_,hj,_,hlive⟩,hn,_⟩ := entryAt_eq_some.mp he
  obtain ⟨k,hk⟩ : ∃ k, firstEntry (inodeAt m d) (sameName (blockAt m (inodeAt m d).dirBlock) · name) = some k :=
    firstEntry_isSome hj hlive ((sameName_iff hname).mpr hn)
  rw [checkFileExist_eq h hd, hk] at hex
  cases hex

theorem entryAt_firstVacant {d : ℕ} (hroom : (inodeAt m d).entryCount ≠ 31) :
    entryAt m d (inodeAt m d).firstVacant = none := by
  obtain ⟨_,hvac,_⟩ := (inodeAt m d).firstVacant_spec.resolve_left (fun he => hroom (Inode.entryCount_full.mpr he.2))
  rw [entryAt_eq_none]
  rintro ⟨_,_,_,hl⟩
  rw [hvac] at hl
  cases hl

/-- A new file is one entry more. -/
theorem Created.entries_eq {p k b c : ℕ} {name : CStr} {type : FileT} (h : Created m p name type m' k b c) (hi : ImageInv m)
    (hp : p < 256) (hdir : (inodeAt m p).fileType = typeDirectory) (hname : FitsSlot name) (hterm : Terminated m)
    (hfirst : k = 0 → ∀ j < 31, (inodeAt m p).live j = false) :
    entryAt m' = update (entryAt m) p k (some (name,c)) := by
  funext e j
  exact h.entryAt_eq hi hp hdir hname hterm hfirst e j

theorem Created.entrySteps {p k b c : ℕ} {name : CStr} {type : FileT} (h : Created m p name type m' k b c)
    (hi : ImageInv m) (hp : p < 256) (hdir : (inodeAt m p).fileType = typeDirectory) (hname : FitsSlot name)
    (hterm : Terminated m) (hfirst : k = 0 → ∀ j < 31, (inodeAt m p).live j = false) :
    EntrySteps (entryAt m) (entryAt m') := by
  rw [h.entries_eq hi hp hdir hname hterm hfirst]
  refine EntrySteps.fill EntrySteps.refl hname ?_ ?_
  · rw [entryAt_eq_none]
    rintro ⟨_,_,_,hl⟩
    rw [h.vacant] at hl
    cases hl
  · exact (no_edge_iff hp hdir).mpr h.absent

theorem fsCreate_entries {path : Option PathArg} {type : FileT} (hi : ImageInv s.image) (hterm : Terminated s.image)
    (htidy : ∀ p ∈ path, CreateTidy s.image p.chars) (h : fsCreate s (pathOf path) type = some (ret,s')) :
    EntrySteps (entryAt s.image) (entryAt s'.image) := by
  rcases (fsCreate_effect hi h).2 with ⟨_,he⟩ | ⟨q,tokens,d,name,hq,_,hch,⟨_,ht⟩ | ⟨_,k,b,c,hcr⟩⟩
  · rw [he]
    exact EntrySteps.refl
  · have hsame : entryAt s'.image = entryAt s.image := by
      funext d j
      by_cases hd : d < 256
      · refine SameInode.entryAt_eq ⟨?_,fun n hn => ?_⟩ hi j
        · rw [ht.image, inodeAt_setUsed hd]
        · rw [ht.image]
          exact blockAt_setUsed (hi.sound.own.dataId (q := (⟨d,hd⟩,n)) hn)
      · rw [entryAt_ge (by omega), entryAt_ge (by omega)]
    rw [hsame]
    exact EntrySteps.refl
  · obtain ⟨p,hp,rfl⟩ := mem_pathOf hq
    have hfirst : k = 0 → ∀ j < 31, (inodeAt s.image d).live j = false := by
      rintro rfl
      exact htidy p hp tokens d name hch hcr.vacant
    exact hcr.entrySteps hi hch.lt hch.directory (hch.fits hq) hterm hfirst

theorem fsWrite_entries {fd : ℤ} {src : Option Mem} {nbyte : UInt64} (hi : ImageInv s.image)
    (hsafe : WriteSafe s fd nbyte) (h : fsWrite s fd src nbyte = some (ret,s')) :
    entryAt s'.image = entryAt s.image := by
  rcases fsWrite_account hi hsafe h with rfl | ⟨_,hfile,m',x',size,hext,_,him⟩
  · rfl
  funext d j
  by_cases hdi : (s.fileOf fd).val = d
  · have htype : (inodeAt s'.image d).fileType ≠ typeDirectory := by
      rw [him, inodeAt_putInode, if_pos hdi]
      show x'.fileType ≠ typeDirectory
      rw [attributes_fileType hext.attrs]
      exact hfile
    rw [entryAt_of_file htype, entryAt_of_file (hdi ▸ hfile)]
  · by_cases hd : d < 256
    · have hsame := hext.sameInode hi hd hdi { x' with fileSize := size }
      rw [← him] at hsame
      exact hsame.entryAt_eq hi j
    · rw [entryAt_ge (by omega), entryAt_ge (by omega)]

theorem fsRemove_entries {path : Option CStr} (hi : ImageInv s.image) (hterm : Terminated s.image)
    (hblock : ∀ p i, path = some p → removeTarget s.image p = some i → (inodeAt s.image i).fileType ≠ typeRegular →
      isDirectoryEmpty (inodeAt s.image i) = true → (inodeAt s.image i).dirBlock ≠ 0)
    (h : fsRemove s path = some (ret,s')) : EntrySteps (entryAt s.image) (entryAt s'.image) := by
  rcases fsRemove_cases h with ⟨_,rfl⟩ | ⟨p,rfl,hp,hid,ht,hr,_⟩
  · exact EntrySteps.refl
  obtain ⟨hd,hdir⟩ := parentOf_spec hi hp
  have hf := getFileInodeID_lt s.image (parentOf s.image p) (basename p)
  rcases removeIn_cases hi hd hid (hblock p _ rfl ht) hr with ⟨_,he⟩ | ⟨_,_,_,he⟩ | ⟨m₁,k,_,_,hempty,hrel,hk,he⟩
  · rw [he]
    exact EntrySteps.refl
  · have hsame : entryAt s'.image = entryAt s.image := by
      funext d j
      rw [he]
      by_cases hdf : d < 256
      · refine entryAt_same ?_ (fun hdd hex => ?_) j
        · rw [inodeAt_putInode]
          split_ifs with hdi
          · rw [hdi]
            exact SameEntries.links _ _
          · exact SameEntries.refl _
        · obtain ⟨j',hj',hl⟩ := hex
          exact blockAt_putInode hf (hi.dirBlock_dataId hdf ((hi.record d hdf).block hdd j' hj' hl)).1
      · rw [entryAt_ge (by omega), entryAt_ge (by omega)]
    rw [hsame]
    exact EntrySteps.refl
  · obtain ⟨hk31,hlive,_⟩ := firstEntry_some hk
    rw [he, entryAt_unlinked hrel hi hterm hf hid hempty hd hdir hk31 hlive]
    exact EntrySteps.drop EntrySteps.refl

theorem MoveResult.entries {src dst : CStr} {junk : Inode} (hi : ImageInv m) (hterm : Terminated m)
    (hchk : MoveChecked m src dst) (hnul : 0 ∉ dst) (hr : MoveResult m src dst junk ret m') :
    EntrySteps (entryAt m) (entryAt m') := by
  obtain ⟨hs,hsdir⟩ := parentOf_spec hi hchk.srcParent
  obtain ⟨hd,hddir⟩ := parentOf_spec hi hchk.dstParent
  have hkeep : (∀ e < 256, inodeAt m' e = inodeAt m e) →
      (∀ b, DataId b → used m b = true → blockAt m' b = blockAt m b) → entryAt m' = entryAt m := by
    intro hrec hblk
    funext e j
    by_cases he : e < 256
    · refine entryAt_same (by rw [hrec e he]; exact SameEntries.refl _) (fun hdir hex => ?_) j
      obtain ⟨j',hj',hl⟩ := hex
      obtain ⟨hid,hu,_⟩ := hi.dirBlock_dataId he ((hi.record e he).block hdir j' hj' hl)
      exact hblk _ hid hu
    · rw [entryAt_ge (by omega), entryAt_ge (by omega)]
  cases hr with
  | stop => exact EntrySteps.refl
  | inodeTaken _ _ _ _ hif =>
    have hlt := (firstFreeInode_spec hif).1
    rw [hkeep (fun e _ => inodeAt_setInodeUsed hlt) (fun b hb _ => blockAt_setInodeUsed hlt hb)]
    exact EntrySteps.refl
  | blockTaken _ _ _ _ hf =>
    obtain ⟨hb,hbfree,_⟩ := firstFree_spec hi.sound.sys hf
    rw [hkeep (fun e he => by rw [inodeAt_putBlock hb he, inodeAt_setUsed he]) (fun b hb' hu => ?_)]
    · exact EntrySteps.refl
    · have hne : firstFree m ≠ b := by
        rintro rfl
        rw [hu] at hbfree
        cases hbfree
      rw [blockAt_putBlock, if_neg hne, blockAt_setUsed hb']
  | moved _ he hne hdb hv hk =>
    subst he
    obtain ⟨hk31,hlive,_⟩ := firstEntry_some hk
    rw [entryAt_moved hi hterm _ hs hsdir hk31 hlive (getFileInodeID_lt _ _ _) hdb hne hv hchk.srcName]
    exact EntrySteps.drop EntrySteps.refl
  | @made m₁ c k hex hpb hroom hif hf hcid hm₁ hne hv hk =>
    obtain ⟨hlt,_⟩ := firstFreeInode_spec hif
    subst hcid
    have hname : FitsSlot (basename dst) := ⟨basename_nulFree hnul,hchk.dstName⟩
    have hfill : EntrySteps (entryAt m) (entryAt m₁) := by
      rw [hm₁, entryAt_withDirectory hi hterm hd hddir hpb hif hf hroom hname junk]
      exact EntrySteps.fill EntrySteps.refl hname (entryAt_firstVacant hroom) (no_edge_of_absent hi hd hname.1 hex)
    have hi₁ : ImageInv m₁ := by
      rw [hm₁]
      exact (withDirectory_inv hi hd hddir hpb hif hf (basename dst) junk).1
    obtain ⟨hk31,hlive,_⟩ := firstEntry_some hk
    rw [entryAt_moved hi₁ (hfill.terminated hterm) _ hs (made_srcParent hi hd hddir hs hsdir hif hf hne hm₁) hk31 hlive hlt
      (made_dirBlock hi hd hddir hif hf hm₁) hne hv hchk.srcName]
    exact EntrySteps.drop hfill

theorem fsLink_entries {src dst : Option PathArg} (hi : ImageInv s.image) (hterm : Terminated s.image)
    (hsafe : ∀ p ∈ src, ∀ q ∈ dst, LinkSafe s.image p.chars q.chars) (h : fsLink s (pathOf src) (pathOf dst) = (ret,s')) :
    EntrySteps (entryAt s.image) (entryAt s'.image) := by
  cases src with
  | none =>
    cases h
    exact EntrySteps.refl
  | some p =>
    cases dst with
    | none =>
      cases h
      exact EntrySteps.refl
    | some q =>
      obtain ⟨r,m',hr⟩ : ∃ r m', fsLinkImage s.image p.chars q.chars = (r,m') := ⟨_,_,rfl⟩
      simp only [fsLink, pathOf, Option.map_some, hr] at h
      cases h
      rcases fsLinkImage_cases hi hr with ⟨_,rfl⟩ | ⟨_,hchk,rfl⟩
      · exact EntrySteps.refl
      · obtain ⟨hs,_⟩ := parentOf_spec hi hchk.srcParent
        obtain ⟨hd,hdir⟩ := parentOf_spec hi hchk.dstParent
        have hname : FitsSlot (basename q.chars) := ⟨basename_nulFree q.nulFree,hchk.dstName⟩
        show EntrySteps (entryAt s.image) (entryAt (linked s.image _ _ _))
        rw [entryAt_linked hi hterm (getFileInodeID_lt _ _ _) hd hdir (hsafe p rfl q rfl hchk) hchk.room hname]
        exact EntrySteps.fill EntrySteps.refl hname (entryAt_firstVacant hchk.room)
          (no_edge_of_absent hi hd hname.1 hchk.dstFree)

theorem step_entries {c : Call} (hi : ImageInv s.image) (hterm : Terminated s.image) (hg : Tidy s c)
    (h : step s c = some s') : EntrySteps (entryAt s.image) (entryAt s'.image) := by
  obtain ⟨hsafe,htidy⟩ := hg
  obtain ⟨ret,h⟩ := step_call h
  have hsame : s'.image = s.image → EntrySteps (entryAt s.image) (entryAt s'.image) := by
    intro he
    rw [he]
    exact EntrySteps.refl
  cases c with
  | create path type => exact fsCreate_entries hi hterm htidy h
  | openFile path => exact hsame (fsOpen_image h)
  | close fd =>
    apply hsame
    rw [← fsClose_image s fd, Option.some.inj h]
  | read fd dstNull nbyte =>
    obtain ⟨⟨ret',bytes,s''⟩,hr,he⟩ := Option.map_eq_some_iff.mp h
    cases he
    exact hsame (fsRead_image hr)
  | write fd src nbyte =>
    rw [fsWrite_entries hi hsafe h]
    exact EntrySteps.refl
  | seek fd offset whence => exact hsame (fsSeek_image h)
  | remove path =>
    refine fsRemove_entries hi hterm (fun p i hp => ?_) h
    obtain ⟨a,ha,rfl⟩ := mem_pathOf hp
    exact hsafe a ha i
  | move src dst junk =>
    have hms : ∀ p ∈ pathOf src, ∀ q ∈ pathOf dst, MoveSafe s.image p q := by
      intro p hp q hq
      obtain ⟨a,ha,rfl⟩ := mem_pathOf hp
      obtain ⟨b,hb,rfl⟩ := mem_pathOf hq
      exact hsafe a ha b hb
    rcases (fsMove_result hi (nulFree_pathOf src) (nulFree_pathOf dst) hms h).2 with ⟨_,he⟩ | ⟨p,q,_,hq,hchk,hr⟩
    · exact hsame he
    · exact hr.entries hi hterm hchk (nulFree_pathOf dst q hq)
  | link src dst => exact fsLink_entries hi hterm hsafe (Option.some.inj h)
  | remount => exact hsame (by cases h; rfl)

end Calls

/-- Directories in order. -/
structure TidyImage (m : Mem) : Prop where
  inv : ImageInv m
  terminated : Terminated m
  distinct : Distinct (entryAt m)

theorem TidyImage.searchable {m : Mem} (h : TidyImage m) : Searchable m := h.inv.searchable h.distinct

/-- Another directory leaves directories in order. -/
theorem TidyImage.made {m : Mem} (h : TidyImage m) {d : ℕ} {name : CStr} (hd : d < 256)
    (hdir : (inodeAt m d).fileType = typeDirectory) (hdb : (inodeAt m d).dirBlock ≠ 0) (hif : firstFreeInode m ≠ sizeMax)
    (hf : firstFree m ≠ sizeMax) (hroom : (inodeAt m d).entryCount ≠ 31) (hname : FitsSlot name)
    (hex : checkFileExist m d name = false) (junk : Inode) :
    TidyImage (withDirectory m d (firstFreeInode m) (firstFree m) name junk) := by
  have hfill : EntrySteps (entryAt m) (entryAt (withDirectory m d (firstFreeInode m) (firstFree m) name junk)) := by
    rw [entryAt_withDirectory h.inv h.terminated hd hdir hdb hif hf hroom hname junk]
    exact EntrySteps.fill EntrySteps.refl hname (entryAt_firstVacant hroom) (no_edge_of_absent h.inv hd hname.1 hex)
  exact ⟨(withDirectory_inv h.inv hd hdir hdb hif hf name junk).1,hfill.terminated h.terminated,hfill.distinct h.distinct⟩

theorem tidy_fsFormat : TidyImage fsFormat.image := by
  refine ⟨fsFormat_inv,fun d j a i he => ?_,fun d j j' a i i' he => ?_⟩
  · rw [entryAt_fsFormat] at he
    cases he
  · rw [entryAt_fsFormat] at he
    cases he

theorem fsFormat_live {d j : ℕ} (hd : d < 256) (hdir : (inodeAt fsFormat.image d).fileType = typeDirectory) (hj : j < 31) :
    (inodeAt fsFormat.image d).live j = false := by
  have hnone := entryAt_fsFormat d j
  rw [entryAt_eq_none] at hnone
  exact Bool.eq_false_iff.mpr (fun hl => hnone ⟨hd,hj,hdir,hl⟩)

theorem fsFormat_directory {d : ℕ} (hd : d < 256) (hdir : (inodeAt fsFormat.image d).fileType = typeDirectory) : d = 0 := by
  by_contra hne
  rw [inodeAt_fsFormat hd, if_neg hne] at hdir
  exact absurd hdir (by decide)

theorem step_tidy {s s' : F19FS} {c : Call} (h : TidyImage s.image) (hg : Tidy s c) (hs : step s c = some s') :
    TidyImage s'.image := by
  have he := step_entries h.inv h.terminated hg hs
  exact ⟨(step_inv h.inv hg.1 hs).1,he.terminated h.terminated,he.distinct h.distinct⟩

theorem TidyReachable.tidy {s : F19FS} (h : TidyReachable s) : TidyImage s.image :=
  h.invariant (P := fun s => TidyImage s.image) tidy_fsFormat (fun hp hg hs => step_tidy hp hg hs)

/-- The check of `CreateTidy` for the directory at which the walk ends. -/
def createTidyCheck (m : Mem) (path : CStr) : Bool :=
  match splitPath path with
  | some (some tokens) =>
    (inodeAt m (walk m tokens.dropLast).inodeID).live 0 ||
      (List.range 31).all (fun j => !(inodeAt m (walk m tokens.dropLast).inodeID).live j)
  | _ => true

theorem createTidy_of_check {m : Mem} {path : CStr} (h : createTidyCheck m path = true) : CreateTidy m path := by
  intro tokens d name hch h0 j hj
  simp only [createTidyCheck, hch.split, hch.parent, h0, Bool.false_or, List.all_eq_true] at h
  have hfree := h j (List.mem_range.mpr hj)
  rwa [Bool.not_eq_true'] at hfree

/-- Calls that are seen to be tidy. -/
def plainTidy (s : F19FS) (c : Call) : Bool := plain s c &&
  match c with
  | .create (some path) _ => createTidyCheck s.image path.chars
  | _ => true

theorem tidy_of_plainTidy (s : F19FS) (c : Call) (h : plainTidy s c = true) : Tidy s c := by
  obtain ⟨hp,hc⟩ := Bool.and_eq_true_iff.mp h
  refine ⟨safe_of_plain s c hp,?_⟩
  cases c with
  | create path type =>
    intro p hmem
    cases Option.mem_def.mp hmem
    exact createTidy_of_check hc
  | _ => trivial

theorem tidyReachable_of_plain {as : List Call} {s : F19FS} (h : run (checked plainTidy step) fsFormat as = some s) :
    TidyReachable s :=
  reach_of_checked_run tidy_of_plainTidy h

/-- Every entry passes the test. -/
def entriesCheck (m : Mem) (test : ℕ → ℕ → CStr → ℕ → Bool) : Bool :=
  (List.range 256).all fun e => !decide ((inodeAt m e).fileType = typeDirectory) ||
    (List.range 31).all fun k => (entryAt m e k).all fun r => test e k r.1 r.2

theorem test_of_entriesCheck {m : Mem} {test : ℕ → ℕ → CStr → ℕ → Bool} (h : entriesCheck m test = true) {e k i : ℕ}
    {a : CStr} (he : entryAt m e k = some (a,i)) : test e k a i = true := by
  obtain ⟨⟨hlt,hk,hdir,_⟩,_⟩ := entryAt_eq_some.mp he
  have hall := List.all_eq_true.mp h e (List.mem_range.mpr hlt)
  rw [decide_eq_true hdir, Bool.not_true, Bool.false_or] at hall
  have hone := List.all_eq_true.mp hall k (List.mem_range.mpr hk)
  rwa [he] at hone

end LiteOSFS
