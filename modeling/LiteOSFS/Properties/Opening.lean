import LiteOSFS.Properties.PathWalks
import LiteOSFS.Properties.DescriptorTable
import Mathlib.Data.Finset.Card

/-! # fs_open

`fs_open` takes a descriptor slot before it looks at what the path names. For a regular
file it fills the slot; for a directory it fails and the slot stays taken.
-/
namespace LiteOSFS
open Memory CString Ownership EntryGraph Transition

/-- What `fs_open` of the path promises. -/
structure OpenContract (s : F19FS) (names : List CStr) (ret : ℤ) (s' : F19FS) : Prop where
  image : s'.image = s.image
  opens : 0 ≤ ret ↔ (∃ i, Path (entryAt s.image) 0 names i ∧ (s.inode i).fileType = typeRegular) ∧
    ∃ k < 256, s.isOpen k = false
  slot : 0 ≤ ret → ∃ k : ℕ, k < 256 ∧ ret = (k : ℤ) ∧ s.isOpen k = false ∧ s'.isOpen k = true ∧
    Path (entryAt s.image) 0 names (s'.descriptor k).inodeNum.toNat ∧ (s'.descriptor k).position = 0 ∧
    ∀ j < 256, j ≠ k → SameSlot s s' j
  failed : ret < 0 → s'.fdTable = s.fdTable

/-- The path leads to something other than a regular file, and there is a slot to take for it. -/
def OpensOther (s : F19FS) (names : List CStr) : Prop :=
  names ≠ [] ∧ (∃ i, Path (entryAt s.image) 0 names i ∧ (s.inode i).fileType ≠ typeRegular) ∧ ∃ k < 256, s.isOpen k = false

section Contract
variable {s s' : F19FS} {names : List CStr} {i : ℕ}

theorem slot_free_iff : (∃ k < 256, s.isOpen k = false) ↔ firstFreeSlot s.fdTable < 256 := by
  constructor
  · rintro ⟨k,hk,hfree⟩
    rcases bitmapFfz_spec s.fdTable fdStore.fbm with ⟨_,hall⟩ | ⟨hlt,_⟩
    · have ho : s.isOpen k = true := hall k hk
      rw [hfree] at ho
      cases ho
    · exact hlt
  · intro hlt
    rcases firstFreeSlot_spec s.image s.fdTable with he | ⟨_,hfree,_⟩
    · rw [he] at hlt
      exact absurd hlt (by decide)
    · exact ⟨_,hlt,hfree⟩

theorem openFound_eq (s : F19FS) (i : ℕ) : openFound s (some i) =
    if firstFreeSlot s.fdTable < 256 then
      if (inodeAt s.image i).fileType = typeDirectory then
        ((-1 : ℤ),{ s with fdTable := setOpen s.fdTable (firstFreeSlot s.fdTable) })
      else (((firstFreeSlot s.fdTable : ℕ) : ℤ),F19FS.mk s.image (putDescriptor (setOpen s.fdTable (firstFreeSlot s.fdTable))
        (firstFreeSlot s.fdTable) ⟨UInt8.ofNat i,1,0,0⟩))
    else ((-1 : ℤ),s) := by
  have hm : sizeMax = 2 ^ 64 - 1 := rfl
  rcases firstFreeSlot_spec s.image s.fdTable with hf | ⟨hlt,_⟩
  · simp only [openFound, blockStoreAllocate_fd, hf, if_true]
    rw [if_neg (show ¬ (sizeMax < 256 ∧ _) from fun hc => by omega), if_neg (by omega)]
  · have hne : firstFreeSlot s.fdTable ≠ sizeMax := by omega
    simp only [openFound, blockStoreAllocate_fd, if_neg hne, if_pos hlt]
    by_cases hdir : (inodeAt s.image i).fileType = typeDirectory
    · rw [if_neg (fun hc => hc.2 hdir), if_pos hdir]
    · rw [if_pos ⟨hlt,hdir⟩, if_neg hdir, blockStoreFdWrite_table hlt]

/-- `fs_open` of a path that leads nowhere. -/
theorem contract_missing (h : ∀ i, Path (entryAt s.image) 0 names i → (s.inode i).fileType ≠ typeRegular) :
    OpenContract s names (-1) s := by
  refine ⟨rfl,⟨fun hc => absurd hc (by decide),?_⟩,fun hc => absurd hc (by decide),fun _ => rfl⟩
  rintro ⟨⟨i,hp,hreg⟩,_⟩
  exact absurd hreg (h i hp)

theorem contract_full (h : ¬ ∃ k < 256, s.isOpen k = false) : OpenContract s names (-1) s :=
  ⟨rfl,⟨fun hc => absurd hc (by decide),fun hc => absurd hc.2 h⟩,fun hc => absurd hc (by decide),fun _ => rfl⟩

/-- The slot that is taken for a directory stays taken. -/
theorem not_contract_directory (hlt : firstFreeSlot s.fdTable < 256) :
    ¬ OpenContract s names (-1) { s with fdTable := setOpen s.fdTable (firstFreeSlot s.fdTable) } := by
  intro hc
  have htab : setOpen s.fdTable (firstFreeSlot s.fdTable) = s.fdTable := hc.failed (by decide)
  obtain ⟨_,hfree,_⟩ := (firstFreeSlot_spec s.image s.fdTable).resolve_left (fun he => by
    rw [he] at hlt
    exact absurd hlt (by decide))
  have ho : (F19FS.mk s.image (setOpen s.fdTable (firstFreeSlot s.fdTable))).isOpen (firstFreeSlot s.fdTable) = true := by
    rw [isOpen_setOpen, decide_eq_true rfl, Bool.true_or]
  have hsame : (F19FS.mk s.image (setOpen s.fdTable (firstFreeSlot s.fdTable))).isOpen (firstFreeSlot s.fdTable) =
      (F19FS.mk s.image s.fdTable).isOpen (firstFreeSlot s.fdTable) := by
    rw [F19FS.isOpen, F19FS.isOpen]
    exact congrArg (fun f => bitmapTest f fdStore.fbm (firstFreeSlot s.fdTable)) htab
  rw [hfree, ho] at hsame
  cases hsame

theorem contract_opened (hp : Path (entryAt s.image) 0 names i) (hi : i < 256) (hreg : (s.inode i).fileType = typeRegular)
    {k : ℕ} (hk : k < 256) (hfree : s.isOpen k = false) :
    OpenContract s names (k : ℤ) (F19FS.mk s.image (putDescriptor (setOpen s.fdTable k) k ⟨UInt8.ofNat i,1,0,0⟩)) := by
  have hdesc : (F19FS.mk s.image (putDescriptor (setOpen s.fdTable k) k ⟨UInt8.ofNat i,1,0,0⟩)).descriptor k =
      ⟨UInt8.ofNat i,1,0,0⟩ := by
    rw [descriptor_putDescriptor, if_pos rfl]
  refine ⟨rfl,⟨fun _ => ⟨⟨i,hp,hreg⟩,k,hk,hfree⟩,fun _ => Int.natCast_nonneg k⟩,
    fun _ => ⟨k,hk,rfl,hfree,?_,?_,?_,fun j hj hne => ?_⟩,fun hneg => absurd hneg (by omega)⟩
  · rw [isOpen_putDescriptor _ hk, isOpen_setOpen, decide_eq_true rfl, Bool.true_or]
  · rw [hdesc]
    show Path (entryAt s.image) 0 names (UInt8.ofNat i).toNat
    rwa [UInt8.toNat_ofNat', Nat.mod_eq_of_lt hi]
  · rw [hdesc]
    exact FileDescriptor.rewound_position ⟨UInt8.ofNat i,1,0,0⟩
  · exact (sameSlot_setOpen hj (Ne.symm hne)).trans (sameSlot_put s.image _ hk (Ne.symm hne))

/-- `fs_open` of a path that leads to an inode meets the contract when the inode is a regular file's, or there
is no slot. -/
theorem contract_found (hE : Distinct (entryAt s.image)) (hp : Path (entryAt s.image) 0 names i) (hi : i < 256) :
    OpenContract s names (openFound s (some i)).1 (openFound s (some i)).2 ↔
      (s.inode i).fileType = typeRegular ∨ ¬ ∃ k < 256, s.isOpen k = false := by
  have hdr : typeDirectory ≠ typeRegular := by decide
  by_cases hlt : firstFreeSlot s.fdTable < 256
  swap
  · rw [openFound_eq, if_neg hlt]
    have hfull : ¬ ∃ k < 256, s.isOpen k = false := fun hc => hlt (slot_free_iff.mp hc)
    exact ⟨fun _ => Or.inr hfull,fun _ => contract_full hfull⟩
  obtain ⟨_,hfree,_⟩ := (firstFreeSlot_spec s.image s.fdTable).resolve_left (fun he => by
    rw [he] at hlt
    exact absurd hlt (by decide))
  rw [openFound_eq, if_pos hlt]
  by_cases hdir : (inodeAt s.image i).fileType = typeDirectory
  · have htype : (s.inode i).fileType = typeDirectory := hdir
    rw [if_pos hdir]
    refine ⟨fun hc => absurd hc (not_contract_directory hlt),?_⟩
    rintro (hreg | hno)
    · rw [htype] at hreg
      exact absurd hreg hdr
    · exact absurd (slot_free_iff.mpr hlt) hno
  · rw [if_neg hdir]
    constructor
    · intro hc
      obtain ⟨⟨j,hj,hreg⟩,_⟩ := hc.opens.mp (Int.natCast_nonneg _)
      rw [hE.path_unique hp hj]
      exact Or.inl hreg
    · rintro (hreg | hno)
      · exact contract_opened hp hi hreg hlt hfree
      · exact absurd (slot_free_iff.mpr hlt) hno

theorem fsOpen_long (h : 65535 ≤ (joinPath names).length) : fsOpen s (some (joinPath names)) = none := by
  have hne : joinPath names ≠ [] := by
    intro he
    rw [he] at h
    exact absurd h (by decide)
  simp only [fsOpen, if_neg hne, splitPath, if_pos h]

/-- `fs_open` meets its contract but for a path that does not fit the buffer, and one that leads to something
other than a regular file while a slot is free. -/
theorem open_law (h : TidyImage s.image) (hn : ∀ n ∈ names, PathName n) :
    (∃ ret s', fsOpen s (some (pathString names)) = some (ret,s') ∧ OpenContract s names ret s') ↔
      (pathString names).length < 65535 ∧ ¬ OpensOther s names := by
  have hs := h.searchable
  by_cases hnil : names = []
  · subst hnil
    have hopen : fsOpen s (some [slash]) = some (-1,s) := rfl
    have hroot : ∀ i, Path (entryAt s.image) 0 [] i → (s.inode i).fileType ≠ typeRegular := by
      intro i hp
      rw [← path_nil.mp hp, show (s.inode 0).fileType = typeDirectory from hs.root]
      decide
    refine ⟨fun _ => ⟨by decide,fun hc => hc.1 rfl⟩,fun _ => ⟨-1,s,hopen,contract_missing hroot⟩⟩
  rw [pathString, if_neg hnil]
  by_cases hlong : (joinPath names).length < 65535
  swap
  · rw [fsOpen_long (by omega)]
    refine ⟨?_,fun hc => absurd hc.1 hlong⟩
    rintro ⟨ret,s',he,_⟩
    cases he
  rw [fsOpen_names hnil hn hlong]
  cases hres : resolve s.image names with
  | none =>
    have hno : ∀ i, ¬ Path (entryAt s.image) 0 names i := by
      intro i hp
      rw [(resolve_eq_some hs.readable hs.distinct).mpr hp] at hres
      cases hres
    refine ⟨fun _ => ⟨hlong,?_⟩,fun _ => ⟨-1,s,rfl,contract_missing (fun i hp => absurd hp (hno i))⟩⟩
    rintro ⟨_,⟨i,hp,_⟩,_⟩
    exact hno i hp
  | some i =>
    have hp := (resolve_eq_some hs.readable hs.distinct).mp hres
    have hi : i < 256 := hp.induct (P := (· < 256)) (by omega) (fun _ _ _ _ he => edge_lt he)
    have hcon := contract_found hs.distinct hp hi
    constructor
    · rintro ⟨ret,s',he,hc⟩
      obtain ⟨rfl,rfl⟩ := Prod.mk.inj (Option.some.inj he)
      refine ⟨hlong,?_⟩
      rintro ⟨_,⟨j,hj,hother⟩,hfree⟩
      rw [← hs.distinct.path_unique hp hj] at hother
      exact (hcon.mp hc).elim hother (fun hno => hno hfree)
    · rintro ⟨_,hno⟩
      refine ⟨_,_,rfl,hcon.mpr ?_⟩
      by_cases hreg : (s.inode i).fileType = typeRegular
      · exact Or.inl hreg
      · exact Or.inr (fun hfree => hno ⟨hnil,⟨i,hp,hreg⟩,hfree⟩)

end Contract

/-- The number of slots in use. -/
def usedSlots (s : F19FS) : ℕ := ((Finset.range 256).filter (fun k => s.isOpen k = true)).card

section Count
variable {s s' : F19FS} {k : ℕ} {ret : ℤ}

theorem usedSlots_congr (h : ∀ k < 256, s'.isOpen k = s.isOpen k) : usedSlots s' = usedSlots s := by
  refine congrArg Finset.card (Finset.filter_congr (fun k hk => ?_))
  rw [h k (Finset.mem_range.mp hk)]

/-- One slot is in use in `s'` that is free in `s`. -/
theorem usedSlots_succ (hk : k < 256) (hfree : s.isOpen k = false) (hset : s'.isOpen k = true)
    (h : ∀ j < 256, j ≠ k → s'.isOpen j = s.isOpen j) : usedSlots s' = usedSlots s + 1 := by
  have hne : k ∉ (Finset.range 256).filter (fun k => s.isOpen k = true) := by
    rw [Finset.mem_filter, hfree]
    exact fun hc => Bool.false_ne_true hc.2
  rw [usedSlots, usedSlots, ← Finset.card_insert_of_notMem hne]
  refine congrArg Finset.card (Finset.ext (fun j => ?_))
  rw [Finset.mem_insert, Finset.mem_filter, Finset.mem_filter, Finset.mem_range]
  by_cases hj : j = k
  · subst hj
    exact ⟨fun _ => Or.inl rfl,fun _ => ⟨hk,hset⟩⟩
  · constructor
    · rintro ⟨hlt,ho⟩
      exact Or.inr ⟨hlt,(h j hlt hj).symm.trans ho⟩
    · rintro (he | ⟨hlt,ho⟩)
      · exact absurd he hj
      · exact ⟨hlt,(h j hlt hj).trans ho⟩

theorem usedSlots_empty (h : ∀ k < 256, s.isOpen k = false) : usedSlots s = 0 := by
  refine Finset.card_eq_zero.mpr (Finset.filter_eq_empty_iff.mpr (fun k hk => ?_))
  rw [h k (Finset.mem_range.mp hk)]
  exact Bool.false_ne_true

theorem usedSlots_mounted (h : s.fdTable = blockStoreFdCreate) : usedSlots s = 0 := by
  refine usedSlots_empty (fun k _ => ?_)
  rw [F19FS.isOpen, h, bitmapTest]
  simp [blockStoreFdCreate, zeros]

/-- The successful `fs_open` less the successful `fs_close` since the image was mounted, after a call. -/
def openCount (s : F19FS) (n : ℤ) (c : Call) : ℤ :=
  match c, call s c with
  | .openFile _, some (ret,_) => if 0 ≤ ret then n + 1 else n
  | .close _, some (ret,_) => if 0 ≤ ret then n - 1 else n
  | .remount, _ => 0
  | _, _ => n

/-- The call is no `fs_open` of a path to a directory while there is a slot to take for it. -/
def OpensFiles (s : F19FS) (c : Call) : Prop :=
  ∀ path names i, c = .openFile (some path) → splitPath path.chars = some (some names) → Path (entryAt s.image) 0 names i →
    (s.inode i).fileType = typeDirectory → ∀ k < 256, s.isOpen k = true

theorem usedSlots_putDescriptor {m : Mem} {fd : ℕ} {d : FileDescriptor} (hfd : fd < 256) :
    usedSlots (F19FS.mk m (putDescriptor s.fdTable fd d)) = usedSlots s :=
  usedSlots_congr (fun _ _ => isOpen_putDescriptor m hfd)

theorem usedSlots_table (h : s'.fdTable = s.fdTable) : usedSlots s' = usedSlots s :=
  usedSlots_congr (fun k _ => by rw [F19FS.isOpen, F19FS.isOpen, h])

theorem fsOpen_usedSlots {path : Option PathArg} (h : TidyImage s.image) (hg : OpensFiles s (.openFile path))
    (ho : fsOpen s (pathOf path) = some (ret,s')) : (usedSlots s' : ℤ) = if 0 ≤ ret then (usedSlots s : ℤ) + 1 else usedSlots s := by
  rcases fsOpen_cases ho with ⟨rfl,rfl⟩ | ⟨p,names,hp,_,hsp,_,hcount,hlt,hcase⟩
  · rw [if_neg (by decide)]
  obtain ⟨path,rfl,rfl⟩ := Option.map_eq_some_iff.mp hp
  obtain ⟨_,hfree,_⟩ := (firstFreeSlot_spec s.image s.fdTable).resolve_left (fun he => by
    rw [he] at hlt
    exact absurd hlt (by decide))
  rcases hcase with ⟨rfl,hdir,rfl⟩ | ⟨rfl,_,rfl⟩
  · have hres : resolve s.image names = some (walk s.image names).inodeID := if_pos hcount
    have hp := (resolve_eq_some h.searchable.readable h.searchable.distinct).mp hres
    have hused : s.isOpen (firstFreeSlot s.fdTable) = true := hg path names _ rfl hsp hp hdir _ hlt
    rw [hfree] at hused
    cases hused
  · have hset : (F19FS.mk s.image (setOpen s.fdTable (firstFreeSlot s.fdTable))).isOpen (firstFreeSlot s.fdTable) = true := by
      rw [isOpen_setOpen, decide_eq_true rfl, Bool.true_or]
    have hsucc := usedSlots_succ hlt hfree hset (fun j _ hj => by
      rw [isOpen_setOpen, decide_eq_false (Ne.symm hj), Bool.false_or])
    have hput := usedSlots_putDescriptor (s := F19FS.mk s.image (setOpen s.fdTable (firstFreeSlot s.fdTable))) (m := s.image)
      (d := ⟨UInt8.ofNat (walk s.image names).inodeID,1,0,0⟩) hlt
    rw [if_pos (Int.natCast_nonneg _)]
    have he := hput.trans hsucc
    exact_mod_cast he

theorem fsClose_usedSlots {fd : ℤ} (h : fsClose s fd = (ret,s')) :
    (usedSlots s' : ℤ) = if 0 ≤ ret then (usedSlots s : ℤ) - 1 else usedSlots s := by
  rcases fsClose_cases s fd with ⟨he,_⟩ | ⟨he,ho⟩
  · cases he.symm.trans h
    rw [if_neg (by decide)]
  · cases he.symm.trans h
    rw [if_pos le_rfl]
    have hclosed : ({ s with fdTable := clearOpen s.fdTable fd.toNat } : F19FS).isOpen fd.toNat = false := by
      rw [isOpen_clearOpen, decide_eq_true rfl]
      rfl
    have hsucc := usedSlots_succ ho.lt hclosed ho.2.2 (fun j _ hj => by
      rw [isOpen_clearOpen, decide_eq_false (Ne.symm hj)]
      rfl)
    omega

/-- One call moves the number of used slots and the count alike. -/
theorem step_usedSlots {n : ℤ} {c : Call} (h : TidyImage s.image) (hg : OpensFiles s c) (hn : (usedSlots s : ℤ) = n)
    (hs : step s c = some s') : (usedSlots s' : ℤ) = openCount s n c := by
  obtain ⟨ret,hc⟩ := step_call hs
  subst hn
  cases c with
  | openFile path =>
    simp only [openCount, hc]
    exact fsOpen_usedSlots h hg hc
  | close fd =>
    simp only [openCount, hc]
    exact fsClose_usedSlots (Option.some.inj hc)
  | remount =>
    cases hc
    exact congrArg Nat.cast (usedSlots_mounted rfl)
  | create path type =>
    refine congrArg Nat.cast ?_
    rcases fsCreate_cases hc with ⟨_,rfl⟩ | ⟨_,_,_,_,_,_,_,_,_,_,ht⟩
    · rfl
    · exact usedSlots_table ht
  | read fd dstNull nbyte =>
    refine congrArg Nat.cast ?_
    obtain ⟨⟨_,bytes,_⟩,hr,he⟩ := Option.map_eq_some_iff.mp hc
    cases he
    rcases fsRead_table hr with rfl | ⟨ho,d,rfl⟩
    · rfl
    · exact usedSlots_putDescriptor ho.lt
  | write fd src nbyte =>
    refine congrArg Nat.cast ?_
    rcases fsWrite_table hc with rfl | ⟨ho,m,d,rfl⟩
    · rfl
    · exact usedSlots_putDescriptor ho.lt
  | seek fd offset whence =>
    refine congrArg Nat.cast ?_
    rcases fsSeek_table hc with rfl | ⟨ho,d,rfl⟩
    · rfl
    · exact usedSlots_putDescriptor ho.lt
  | remove path =>
    refine congrArg Nat.cast ?_
    rcases fsRemove_cases hc with ⟨_,rfl⟩ | ⟨_,_,_,_,_,_,ht⟩
    · rfl
    · exact usedSlots_table ht
  | move src dst junk => exact congrArg Nat.cast (usedSlots_table (fsMove_table hc))
  | link src dst => exact congrArg Nat.cast (usedSlots_table (fsLink_table (Option.some.inj hc)))

theorem fsFormat_fdTable : fsFormat.fdTable = blockStoreFdCreate := rfl

theorem usedSlots_run {n : ℤ} (h : Reach (ghost step openCount) (fun q c => Tidy q.1 c ∧ OpensFiles q.1 c) (fsFormat,0) (s,n)) :
    (usedSlots s : ℤ) = n := by
  have h0 : TidyImage fsFormat.image ∧ (usedSlots fsFormat : ℤ) = 0 :=
    ⟨tidy_fsFormat,congrArg Nat.cast (usedSlots_mounted fsFormat_fdTable)⟩
  have hinv : TidyImage s.image ∧ (usedSlots s : ℤ) = n := by
    refine h.invariant (P := fun q => TidyImage q.1.image ∧ (usedSlots q.1 : ℤ) = q.2) h0
      (fun hp hg hs => ?_)
    obtain ⟨hstep,hn⟩ := of_ghost hs
    exact ⟨step_tidy hp.1 hg.1 hstep,(step_usedSlots hp.1 hg.2 hp.2 hstep).trans hn.symm⟩
  exact hinv.2

end Count

/-- `fs_open` meets its contract in a state reached by tidy calls for every absolute path that fits the buffer, but
for one that leads to something other than a regular file while a slot is free; over a run of tidy calls that opens
no directory while a slot is free, the slots in use are counted by the successful `fs_open` and `fs_close`. -/
theorem open_contract {s : F19FS} (h : TidyReachable s) :
    (∀ names, (∀ n ∈ names, PathName n) →
      ((∃ ret s', fsOpen s (some (pathString names)) = some (ret,s') ∧ OpenContract s names ret s') ↔
        (pathString names).length < 65535 ∧ ¬ OpensOther s names)) ∧
    ∀ n, Reach (ghost step openCount) (fun q c => Tidy q.1 c ∧ OpensFiles q.1 c) (fsFormat,0) (s,n) →
      (usedSlots s : ℤ) = n :=
  ⟨fun _ hn => open_law h.tidy hn,fun _ hr => usedSlots_run hr⟩

/-- A file and a directory at the root. -/
def fileRun : List Call := [.create (pathArg ['/','a']) .regular]
def directoryRun : List Call := [.create (pathArg ['/','a']) .directory]

theorem resolve_names {s : F19FS} {path : Option PathArg} {names : List CStr} {i j : ℕ} (h : TidyImage s.image)
    (hres : resolve s.image names = some i) (hsplit : (pathOf path).map splitPath = some (some (some names)))
    {p : PathArg} {tokens : List CStr} (hc : Call.openFile path = .openFile (some p))
    (hsp : splitPath p.chars = some (some tokens)) (hj : Path (entryAt s.image) 0 tokens j) : j = i := by
  cases hc
  have hn : splitPath p.chars = some (some names) := Option.some.inj hsplit
  cases hn.symm.trans hsp
  exact h.searchable.distinct.path_unique hj
    ((resolve_eq_some h.searchable.readable h.searchable.distinct).mp hres)

theorem open_contract_file : ∃ s s', run step fsFormat fileRun = some s ∧
    step s (.openFile (pathArg ['/','a'])) = some s' ∧
    (∃ ret s', fsOpen s (some (pathString [ofChars ['a']])) = some (ret,s') ∧ OpenContract s [ofChars ['a']] ret s') ∧
    usedSlots s' = 1 := by
  have hrun : ((run (checked plainTidy step) fsFormat fileRun).bind fun s =>
      (call s (.openFile (pathArg ['/','a']))).map fun r => decide (r.1 = 0) &&
        decide (resolve s.image [ofChars ['a']] = some 1) && decide ((s.inode 1).fileType = typeRegular)) = some true := by
    decide +kernel
  obtain ⟨s,hs,ho⟩ := Option.bind_eq_some_iff.mp hrun
  obtain ⟨⟨ret,s'⟩,ho,hr⟩ := Option.map_eq_some_iff.mp ho
  simp only [Bool.and_eq_true, decide_eq_true_eq] at hr
  obtain ⟨⟨rfl,hres⟩,hreg⟩ := hr
  have hsteps := run_of_checked hs
  have ht := tidyReachable_of_plain hs
  have htidy : Tidy s (.openFile (pathArg ['/','a'])) := ⟨trivial,trivial⟩
  have hstep := step_of_call ho
  refine ⟨s,s',hsteps,hstep,?_,?_⟩
  · refine ((open_contract ht).1 [ofChars ['a']] (fun n hn => ?_)).mpr ⟨by decide,?_⟩
    · rw [List.mem_singleton.mp hn]
      exact ⟨by decide,by decide,by decide⟩
    · rintro ⟨_,⟨i,hp,hother⟩,_⟩
      have hone := (resolve_eq_some ht.tidy.searchable.readable ht.tidy.searchable.distinct).mp hres
      rw [ht.tidy.searchable.distinct.path_unique hp hone] at hother
      exact hother hreg
  · obtain ⟨s₁,h₁,he⟩ := run_cons.mp hs
    cases he
    obtain ⟨hcheck,h₁⟩ := of_checked h₁
    have hstart : Reach (ghost step openCount) (fun q c => Tidy q.1 c ∧ OpensFiles q.1 c) (fsFormat,0) (fsFormat,0) :=
      Reach.refl
    have hfirst := hstart.tail_ghost ⟨tidy_of_plainTidy _ _ hcheck,fun path names i hc => by cases hc⟩ h₁
    have hopen := hfirst.tail_ghost ⟨htidy,fun path names i hc hsp hp hdir => by
      rw [resolve_names ht.tidy hres (by decide) hc hsp hp, hreg] at hdir
      exact absurd hdir (by decide)⟩ hstep
    have hcount := (open_contract (ht.tail htidy hstep)).2 _ hopen
    simp only [openCount, ho] at hcount
    exact_mod_cast hcount

/-- A directory cannot be opened, but a slot is taken for it. -/
theorem open_contract_fails : ¬ ∀ s names ret s', Reach step (fun _ _ => True) fsFormat s → (∀ n ∈ names, PathName n) →
    fsOpen s (some (pathString names)) = some (ret,s') → ret < 0 → s'.fdTable = s.fdTable := by
  intro hall
  have hrun : ((run step fsFormat directoryRun).bind fun s =>
      (fsOpen s (some (pathString [ofChars ['a']]))).map fun r => decide (r.1 = -1) &&
        decide (s.isOpen 0 = false) && decide (r.2.isOpen 0 = true)) = some true := by
    decide +kernel
  obtain ⟨s,hs,ho⟩ := Option.bind_eq_some_iff.mp hrun
  obtain ⟨⟨ret,s'⟩,ho,hr⟩ := Option.map_eq_some_iff.mp ho
  simp only [Bool.and_eq_true, decide_eq_true_eq] at hr
  obtain ⟨⟨rfl,hfree⟩,hset⟩ := hr
  have htab := hall s [ofChars ['a']] _ s' (reach_of_run hs) (fun n hn => by
    rw [List.mem_singleton.mp hn]
    exact ⟨by decide,by decide,by decide⟩) ho (by decide)
  rw [F19FS.isOpen, htab] at hset
  exact Bool.false_ne_true (hfree.symm.trans hset)

end LiteOSFS
