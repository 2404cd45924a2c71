import LiteOSFS.Properties.Layout
import LiteOSFS.Properties.PathWalks
import LiteOSFS.Properties.RemoveExact

/-! # A file that is made, used and removed

Between its creation and its removal a file takes an inode, a slot of its directory, a
descriptor and blocks. Afterwards the names, the open descriptors, the sizes of the other
files and their bytes are what they were, and so are the replies to all further calls.
-/
namespace LiteOSFS
open Memory CString Ownership EntryGraph Transition

/-- The call returns `ret`. -/
def Returns (q : F19FS × LastBytes) (c : Call) (ret : ℤ) (q' : F19FS × LastBytes) : Prop :=
  replyStep q (.inl c) = some (.code ret,q')

/-- Reads, writes and seeks through one descriptor. -/
def Through (fd : ℤ) (q : F19FS × LastBytes) : Call → Prop
  | .read a _ _ => a = fd
  | .write a src nbyte => a = fd ∧ HistoryKept q.1 (.write a src nbyte)
  | .seek a _ _ => a = fd
  | _ => False

/-- A file is made, opened, used through its descriptor, closed and removed. -/
def Scratch (path : PathArg) (q q' : F19FS × LastBytes) : Prop := ∃ (q₁ q₂ q₃ q₄ : F19FS × LastBytes) (fd : ℤ),
  Returns q (.create (some path) .regular) 0 q₁ ∧ 0 ≤ fd ∧ Returns q₁ (.openFile (some path)) fd q₂ ∧
  Reach historyStep (Through fd) q₂ q₃ ∧ Returns q₃ (.close fd) 0 q₄ ∧ Returns q₄ (.remove (some path)) 0 q'

/-- The path is one of valid names, the inode that is taken is clear, and no name in the directory begins with the new
one. -/
structure ScratchReady (q : F19FS × LastBytes) (path : PathArg) (dirs : List CStr) (name : CStr) : Prop where
  chars : path.chars = joinPath (dirs ++ [name])
  valid : ∀ n ∈ dirs ++ [name], PathName n
  tidy : TidyImage q.1.image
  remembers : Remembers q
  create : CreateTidy q.1.image path.chars
  clear : inodeAt q.1.image (firstFreeInode q.1.image) = Inode.cleared
  alone : ∀ d, Path (entryAt q.1.image) 0 dirs d → ∀ j a e, entryAt q.1.image d j = some (a,e) → ¬ name <+: a

/-- All but inode `i` and descriptor slot `k` is as it was. -/
structure Aside (i k : ℕ) (p q : F19FS × LastBytes) : Prop where
  marks : ∀ j < 256, j ≠ i → inodeUsed q.1.image j = inodeUsed p.1.image j
  sizes : ∀ j < 256, j ≠ i → (q.1.inode j).fileSize = (p.1.inode j).fileSize
  last : ∀ j < 256, j ≠ i → ∀ o, q.2 j o = p.2 j o
  slots : ∀ j < 256, j ≠ k → SameSlot p.1 q.1 j

section Aside
variable {p q r : F19FS × LastBytes} {s s' : F19FS} {g : LastBytes} {i k : ℕ} {c : Call} {ret fd : ℤ}

theorem Aside.refl (i k : ℕ) (q : F19FS × LastBytes) : Aside i k q q :=
  ⟨fun _ _ _ => rfl,fun _ _ _ => rfl,fun _ _ _ _ => rfl,fun j _ _ => SameSlot.refl q.1 j⟩

theorem Aside.trans (h : Aside i k p q) (h' : Aside i k q r) : Aside i k p r :=
  ⟨fun j hj hne => (h'.marks j hj hne).trans (h.marks j hj hne),
    fun j hj hne => (h'.sizes j hj hne).trans (h.sizes j hj hne),
    fun j hj hne o => (h'.last j hj hne o).trans (h.last j hj hne o),
    fun j hj hne => (h.slots j hj hne).trans (h'.slots j hj hne)⟩

theorem Remembers.unused (h : Remembers q) {j : ℕ} (hj : j < 256) (hu : inodeUsed q.1.image j = false) (o : ℕ) :
    q.2 j o = none := by
  cases hv : q.2 j o with
  | none => rfl
  | some v =>
    rw [(h.byte j hj o v hv).1] at hu
    cases hu

/-- A call that writes nothing keeps the bytes of the inodes whose marks stay. -/
theorem Aside.of_call (hq : Remembers (s,g)) (hw : ∀ fd src n, c ≠ .write fd (some src) n)
    (hm : ∀ j < 256, j ≠ i → inodeUsed s'.image j = inodeUsed s.image j)
    (hs : ∀ j < 256, j ≠ i → (s'.inode j).fileSize = (s.inode j).fileSize)
    (ht : ∀ j < 256, j ≠ k → SameSlot s s' j) : Aside i k (s,g) (s',lastBytes s g ret s' c) := by
  refine ⟨hm,hs,fun j hj hne o => ?_,ht⟩
  show lastBytes s g ret s' c j o = g j o
  rw [lastBytes_other hw, hm j hj hne]
  split_ifs with hu
  · rfl
  · exact (hq.unused hj (Bool.eq_false_iff.mpr (fun h => hu ⟨h,h⟩)) o).symm

/-- A call that changes one descriptor only. -/
theorem Aside.of_image (hq : Remembers (s,g)) (hw : ∀ fd src n, c ≠ .write fd (some src) n) (him : s'.image = s.image)
    (ht : ∀ j < 256, j ≠ k → SameSlot s s' j) : Aside i k (s,g) (s',lastBytes s g ret s' c) :=
  Aside.of_call hq hw (fun _ _ _ => by rw [him]) (fun _ _ _ => by rw [F19FS.inode, F19FS.inode, him]) ht

/-- Reading, writing and seeking keep the inode of an open descriptor. -/
theorem through_slot {q : F19FS × LastBytes} (hg : Through fd q c) (hq : q.1 = s) (ho : s.Opened fd)
    (h : call s c = some (ret,s')) : s'.Opened fd ∧ s'.fileOf fd = s.fileOf fd := by
  have hput : ∀ m d, (F19FS.mk m (putDescriptor s.fdTable fd.toNat d)).isOpen fd.toNat = true := fun m d =>
    (isOpen_putDescriptor m ho.lt).trans ho.2.2
  have hopen : s'.isOpen fd.toNat = true := by
    cases c with
    | read a dstNull nbyte =>
      obtain rfl : a = fd := hg
      obtain ⟨⟨_,bytes,_⟩,hr,he⟩ := Option.map_eq_some_iff.mp h
      cases he
      rcases fsRead_table hr with rfl | ⟨_,d,rfl⟩
      · exact ho.2.2
      · exact hput _ _
    | write a src nbyte =>
      obtain ⟨rfl,_⟩ : a = fd ∧ _ := hg
      rcases fsWrite_table h with rfl | ⟨_,m,d,rfl⟩
      · exact ho.2.2
      · exact hput _ _
    | seek a offset whence =>
      obtain rfl : a = fd := hg
      rcases fsSeek_table h with rfl | ⟨_,d,rfl⟩
      · exact ho.2.2
      · exact hput _ _
    | create | openFile | close | remove | move | link | remount => exact absurd hg id
  refine ⟨⟨ho.1,ho.2.1,hopen⟩,Fin.ext ?_⟩
  have hnum : (s'.descriptor fd.toNat).inodeNum = (s.descriptor fd.toNat).inodeNum := by
    cases call_slot ho.lt h with
    | same hd _ => rw [hd]
    | closed _ hc => exact absurd (hc.symm.trans hopen) Bool.false_ne_true
    | cleared _ hc => exact absurd (hc.symm.trans hopen) Bool.false_ne_true
    | leaked hf _ => exact absurd (hf.symm.trans ho.2.2) Bool.false_ne_true
    | opened _ _ _ _ hf _ => exact absurd (hf.symm.trans ho.2.2) Bool.false_ne_true
    | advanced n _ _ hd _ => rw [hd, updateFD_inodeNum]
    | sought target _ hd _ =>
      rw [hd, updateFD_inodeNum]
      rfl
  exact congrArg UInt8.toNat hnum

theorem through_isData {q : F19FS × LastBytes} (hg : Through fd q c) : c.isData = true ∧ c.slot q.1 = some fd ∧
    HistoryKept q.1 c := by
  cases c with
  | read a dstNull nbyte =>
    obtain rfl : a = fd := hg
    exact ⟨rfl,rfl,trivial,trivial⟩
  | write a src nbyte =>
    obtain ⟨rfl,hg⟩ : a = fd ∧ _ := hg
    exact ⟨rfl,rfl,hg⟩
  | seek a offset whence =>
    obtain rfl : a = fd := hg
    exact ⟨rfl,rfl,trivial,trivial⟩
  | create | openFile | close | remove | move | link | remount => exact absurd hg id

/-- Such a call leaves all but its file and its descriptor alone. -/
theorem Aside.through (hq : Remembers (s,g)) (hg : Through fd (s,g) c) (ho : s.Opened fd)
    (h : call s c = some (ret,s')) : Aside (s.fileOf fd) fd.toNat (s,g) (s',lastBytes s g ret s' c) := by
  obtain ⟨_,hslot,hkept⟩ := through_isData hg
  have hlo := ho.1
  have ht : ∀ j < 256, j ≠ fd.toNat → SameSlot s s' j := fun j hj hne =>
    step_slot hslot hj (fun he => hne (by omega)) (step_of_call h)
  by_cases hw : ∃ a src n, c = .write a (some src) n
  swap
  · have hw : ∀ a src n, c ≠ .write a (some src) n := fun a src n he => hw ⟨a,src,n,he⟩
    refine Aside.of_image hq hw ?_ ht
    cases c with
    | read a dstNull nbyte =>
      obtain ⟨⟨_,bytes,_⟩,hr,he⟩ := Option.map_eq_some_iff.mp h
      cases he
      exact fsRead_image hr
    | write a src nbyte =>
      cases src with
      | none =>
        cases h
        rfl
      | some src => exact absurd rfl (hw a src nbyte)
    | seek a offset whence => exact fsSeek_image h
    | create | openFile | close | remove | move | link | remount => exact absurd hg id
  obtain ⟨a,src,n,rfl⟩ := hw
  obtain ⟨rfl,_⟩ : a = fd ∧ _ := hg
  obtain ⟨_,_,hguard⟩ := hkept.2 ho rfl
  rcases fsWrite_done hq.image hkept.1 hguard.offset h with ⟨_,_,hno⟩ | ⟨r,sum,m',x',rfl,hd⟩
  · exact absurd ho hno
  refine ⟨fun j hj _ => hd.used_eq hj,fun j hj hne => ?_,fun j hj hne o => ?_,ht⟩
  · exact (hd.inode_eq hj).trans (if_neg (Ne.symm hne))
  · show lastBytes s g r s' (.write a (some src) n) j o = g j o
    rw [lastBytes_write, if_neg (fun hc => hne hc.1.symm)]

end Aside

section Undone
variable {m m₁ n n₁ : Mem} {d k b c : ℕ} {name : CStr} {type : FileT}

/-- An entry that is made and taken out again. -/
theorem names_undone {N : Names} {kind : UInt8} (hk : N.entries d k = none) (hc : N.record c = Record.blank) :
    (N.apply (.create d k name c kind)).apply (.unlink d k c) = N := by
  have hentries : update (update N.entries d k (some (name,c))) d k none = N.entries := by
    funext e j
    by_cases hej : e = d ∧ j = k
    · rw [hej.1, hej.2, update_self, hk]
    · rw [update_of_ne hej, update_of_ne hej]
  have hrecord : Function.update (Function.update N.record c ⟨true,kind,UInt64.ofNat c,1⟩) c Record.blank = N.record := by
    rw [Function.update_idem, ← hc, Function.update_eq_self]
  obtain ⟨entries,record⟩ := N
  exact congrArg₂ Names.mk hentries hrecord

/-- The file that was made is removed again, its names having stayed in between. -/
theorem Created.undone (hcr : Created m d name type m₁ k b c) (h : TidyImage m) (hd : d < 256)
    (hdir : (inodeAt m d).fileType = typeDirectory) (hname : FitsSlot name)
    (hfirst : k = 0 → ∀ j < 31, (inodeAt m d).live j = false) (hclear : inodeAt m c = Inode.cleared)
    (hsame : SameNames n m₁) (hn : TidyImage n) (hrel : Released n c n₁)
    (hempty : (inodeAt n c).fileType ≠ typeRegular → isDirectoryEmpty (inodeAt n c) = true)
    (hndir : (inodeAt n d).fileType = typeDirectory) :
    SameNames (unlinked n₁ d c (inodeAt n d) (blockAt n (inodeAt n d).dirBlock) k) m ∧
      inodeUsed (unlinked n₁ d c (inodeAt n d) (blockAt n (inodeAt n d).dirBlock) k) c = false := by
  have hc0 : c ≠ 0 := by
    rintro rfl
    have hf := hcr.inodeFree
    rw [(h.inv.record 0 (by omega)).marked h.inv.root] at hf
    cases hf
  have hlive : (inodeAt n d).live k = true := by
    rw [hsame.live d hd k hcr.slot, hcr.parent, Inode.live_withEntry _ hcr.slot hcr.slot, decide_eq_true rfl, Bool.or_true]
  have hdid := (hn.inv.dirBlock_dataId hd ((hn.inv.record d hd).block hndir k hcr.slot hlive)).1
  refine ⟨⟨?_,fun i hi j hj => ?_⟩,?_⟩
  · rw [hrel.names hn.inv hn.terminated hcr.inodeLt hc0 hempty hd hndir hcr.slot hlive, hsame.names,
      hcr.names h.inv hd hdir hname h.terminated hfirst]
    refine names_undone ?_ ?_
    · refine entryAt_eq_none.mpr ?_
      rintro ⟨_,_,_,hl⟩
      rw [hcr.vacant] at hl
      cases hl
    · show recordOf m c = Record.blank
      rw [recordOf_lt hcr.inodeLt, hcr.inodeFree, hclear]
      rfl
  · rw [hrel.inodeAt_unlinked hcr.inodeLt hdid hi]
    split_ifs with hdi hci
    · subst hdi
      rw [Inode.live_unmarkEntry _ hj, hsame.live d hd j hj, hcr.parent, Inode.live_withEntry _ hcr.slot hj]
      by_cases hkj : k = j
      · rw [← hkj, decide_eq_true rfl, hcr.vacant]
        rfl
      · rw [decide_eq_false hkj, Bool.or_false, Bool.not_false, Bool.true_and]
    · rw [← hci, hclear]
    · rw [hsame.live i hi j hj, hcr.others i hi hdi hci]
  · rw [hrel.inodeUsed_unlinked hdid hcr.inodeLt, decide_eq_true rfl]
    rfl

end Undone

section Steps
variable {q q₁ q₂ q₃ q₄ q' : F19FS × LastBytes} {path : PathArg} {dirs : List CStr} {name : CStr} {c : Call} {ret fd : ℤ}

theorem Returns.eq (h : Returns q c ret q') :
    call q.1 c = some (ret,q'.1) ∧ q' = (q'.1,lastBytes q.1 q.2 ret q'.1 c) := by
  obtain ⟨⟨r,s'⟩,hr,he⟩ := Option.map_eq_some_iff.mp h
  obtain ⟨rfl,rfl⟩ := Prod.mk.inj he
  exact ⟨call_of_reply hr,rfl⟩

theorem Returns.remembers (h : Returns q c ret q') (hq : Remembers q) (hg : HistoryKept q.1 c) : Remembers q' := by
  obtain ⟨hc,he⟩ := h.eq
  refine history_step hq hg ?_
  rw [historyStep, hc, he]
  rfl

theorem Returns.tidy (h : Returns q c ret q') (hq : TidyImage q.1.image) (hg : Tidy q.1 c) : TidyImage q'.1.image :=
  step_tidy hq hg (step_of_call h.eq.1)

/-- What the creation found, and what it did. -/
structure ScratchMade (q q₁ : F19FS × LastBytes) (path : PathArg) (dirs : List CStr) (name : CStr) (d k b c : ℕ) :
    Prop where
  parent : Path (entryAt q.1.image) 0 dirs d
  dirLt : d < 256
  directory : (inodeAt q.1.image d).fileType = typeDirectory
  created : Created q.1.image d name .regular q₁.1.image k b c
  inode : c = firstFreeInode q.1.image
  first : k = 0 → ∀ j < 31, (inodeAt q.1.image d).live j = false
  fits : FitsSlot name
  split : splitPath path.chars = some (some (dirs ++ [name]))
  table : q₁.1.fdTable = q.1.fdTable

theorem ScratchReady.made (hq : ScratchReady q path dirs name) (h : Returns q (.create (some path) .regular) 0 q₁) :
    ∃ d k b c, ScratchMade q q₁ path dirs name d k b c := by
  have hc : fsCreate q.1 (pathOf (some path)) .regular = some (0,q₁.1) := h.eq.1
  obtain ⟨htab,heff⟩ := fsCreate_effect hq.tidy.inv hc
  rcases heff with ⟨hr,_⟩ | ⟨p,tokens,d,last,hp,_,hch,⟨hr,_⟩ | ⟨_,k,b,c,hcr⟩⟩
  · cases hr
  · cases hr
  have hpath : path.chars = p := Option.some.inj hp
  subst hpath
  have hshort : (joinPath (dirs ++ [name])).length < 65535 := by
    by_contra hlong
    have hsplit := hch.split
    rw [hq.chars, splitPath, if_pos (by omega)] at hsplit
    cases hsplit
  have hsplit := splitPath_names (by simp) hq.valid hshort
  rw [← hq.chars] at hsplit
  obtain rfl : tokens = dirs ++ [name] := Option.some.inj (Option.some.inj (hch.split.symm.trans hsplit))
  have hlast : last = name := by
    rw [← hch.last]
    simp
  subst hlast
  have hparent := (createParent_eq_some hq.tidy.searchable.readable hq.tidy.distinct).mp hch.createParent_eq
  refine ⟨d,k,b,c,hparent.1,hch.lt,hch.directory,hcr,hcr.inodeFirst,?_,hch.fits hp,hsplit,htab⟩
  rintro rfl
  exact hq.create _ d last hch hcr.vacant

section Made
variable {d k b i : ℕ}

theorem ScratchMade.entries (h : ScratchMade q q₁ path dirs name d k b i) (hq : TidyImage q.1.image) :
    entryAt q₁.1.image = update (entryAt q.1.image) d k (some (name,i)) :=
  h.created.entries_eq hq.inv h.dirLt h.directory h.fits hq.terminated h.first

theorem ScratchMade.vacant (h : ScratchMade q q₁ path dirs name d k b i) : entryAt q.1.image d k = none := by
  rw [entryAt_eq_none]
  rintro ⟨_,_,_,hl⟩
  rw [h.created.vacant] at hl
  cases hl

theorem ScratchMade.reached (h : ScratchMade q q₁ path dirs name d k b i) (hq : TidyImage q.1.image) :
    Path (entryAt q₁.1.image) 0 dirs d ∧ Edge (entryAt q₁.1.image) d name i := by
  rw [h.entries hq]
  exact ⟨h.parent.mono (fun _ _ _ he => (edge_update_some h.vacant).mpr (Or.inr he)),k,update_self⟩

theorem ScratchMade.aside (h : ScratchMade q q₁ path dirs name d k b i) (hq : Remembers q)
    (hr : Returns q (.create (some path) .regular) 0 q₁) (slot : ℕ) : Aside i slot q q₁ := by
  obtain ⟨s,g⟩ := q
  rw [hr.eq.2]
  refine Aside.of_call hq (fun _ _ _ => Call.noConfusion) (fun j hj hne => ?_) (fun j hj hne => ?_) (fun j _ _ => ?_)
  · rw [h.created.bits j hj, decide_eq_false (Ne.symm hne), Bool.false_or]
  · by_cases hd : d = j
    · subst hd
      show (inodeAt q₁.1.image d).fileSize = _
      rw [h.created.parent]
      rfl
    · exact congrArg Inode.fileSize (h.created.others j hj hd (Ne.symm hne))
  · have ht : q₁.1.fdTable = s.fdTable := h.table
    exact ⟨by rw [F19FS.descriptor, F19FS.descriptor, ht],by rw [F19FS.isOpen, F19FS.isOpen, ht]⟩

/-- `fs_open` finds the new file. -/
theorem ScratchMade.opened (h : ScratchMade q q₁ path dirs name d k b i) (hq : TidyImage q.1.image)
    (hq₁ : TidyImage q₁.1.image) (hrem : Remembers q₁) (hfd : 0 ≤ fd) (hr : Returns q₁ (.openFile (some path)) fd q₂) :
    q₂.1.image = q₁.1.image ∧ q₂.1.Opened fd ∧ (q₂.1.fileOf fd).val = i ∧ q.1.isOpen fd.toNat = false ∧
      Aside i fd.toNat q₁ q₂ := by
  have hc : fsOpen q₁.1 (pathOf (some path)) = some (fd,q₂.1) := hr.eq.1
  have him := fsOpen_image hc
  obtain ⟨hlt,hslot,hfree,hopen⟩ := fsOpen_free hc hfd
  have ho : q₂.1.Opened fd := ⟨hfd,hlt,hopen⟩
  have hnum : (q₂.1.fileOf fd).val = i := by
    rcases fsOpen_cases hc with ⟨hneg,_⟩ | ⟨p,tokens,hp,_,hsp,_,hind,hk,⟨hneg,_⟩ | ⟨_,_,he⟩⟩
    · omega
    · omega
    obtain rfl : path.chars = p := Option.some.inj hp
    obtain rfl : dirs ++ [name] = tokens := Option.some.inj (Option.some.inj (h.split.symm.trans hsp))
    have hwalk : (walk q₁.1.image (dirs ++ [name])).inodeID = i := by
      have hres := (resolve_eq_some hq₁.searchable.readable hq₁.distinct).mpr (path_concat.mpr ⟨d,h.reached hq⟩)
      rw [resolve, if_pos hind] at hres
      exact Option.some.inj hres
    have hd : q₂.1.descriptor fd.toNat = ⟨UInt8.ofNat i,1,0,0⟩ := by
      rw [he, hslot, Int.toNat_natCast, hwalk]
      exact (descriptor_putDescriptor _).trans (if_pos rfl)
    show (q₂.1.descriptor fd.toNat).inodeNum.toNat = i
    rw [hd]
    show (UInt8.ofNat i).toNat = i
    rw [UInt8.toNat_ofNat', Nat.mod_eq_of_lt h.created.inodeLt]
  refine ⟨him,ho,hnum,?_,?_⟩
  · rw [← hfree, F19FS.isOpen, F19FS.isOpen, h.table]
  · obtain ⟨s,g⟩ := q₁
    rw [hr.eq.2]
    refine Aside.of_image hrem (fun _ _ _ => Call.noConfusion) him (fun j hj hne => ?_)
    refine step_slot (a := fd) ?_ hj (fun he => hne (by omega)) (step_of_call (c := .openFile (some path)) hc)
    rw [hslot]
    rfl

/-- While the file is used its name and the rest stay. -/
structure Using (fd : ℤ) (i : ℕ) (q₂ q : F19FS × LastBytes) : Prop where
  aside : Aside i fd.toNat q₂ q
  names : SameNames q.1.image q₂.1.image
  tidy : TidyImage q.1.image
  remembers : Remembers q
  opened : q.1.Opened fd
  file : (q.1.fileOf fd).val = i

theorem Using.step (h : Using fd i q₂ q) (hg : Through fd q c) (hs : historyStep q c = some q') : Using fd i q₂ q' := by
  obtain ⟨s,g⟩ := q
  obtain ⟨⟨ret,s'⟩,hc,rfl⟩ := Option.map_eq_some_iff.mp hs
  obtain ⟨hdata,_,hkept⟩ := through_isData hg
  obtain ⟨ho,hf⟩ := through_slot hg rfl h.opened hc
  have hfile : (s.fileOf fd).val = i := h.file
  have haside := Aside.through h.remembers hg h.opened hc
  rw [hfile] at haside
  refine ⟨h.aside.trans haside,?_,?_,history_step h.remembers hkept hs,ho,?_⟩
  · exact (data_sameNames h.remembers.image hdata hkept.1 hc).trans h.names
  · exact step_tidy h.tidy (tidy_of_data hdata hkept.1) (step_of_call hc)
  · rw [hf]
    exact hfile

theorem Using.close (h : Using fd i q₂ q₃) (hr : Returns q₃ (.close fd) 0 q₄) :
    q₄.1.image = q₃.1.image ∧ q₄.1.isOpen fd.toNat = false ∧ Aside i fd.toNat q₂ q₄ := by
  have hc : call q₃.1 (.close fd) = some (0,q₄.1) := hr.eq.1
  have he : fsClose q₃.1 fd = (0,q₄.1) := Option.some.inj hc
  have him : q₄.1.image = q₃.1.image := by rw [← fsClose_image q₃.1 fd, he]
  refine ⟨him,?_,h.aside.trans ?_⟩
  · rcases fsClose_cases q₃.1 fd with ⟨hf,_⟩ | ⟨hf,_⟩
    · cases hf.symm.trans he
    · rw [← (Prod.mk.inj (hf.symm.trans he)).2, isOpen_clearOpen, decide_eq_true rfl]
      rfl
  · have hlo := h.opened.1
    have hrem := h.remembers
    obtain ⟨s,g⟩ := q₃
    rw [hr.eq.2]
    refine Aside.of_image hrem (fun _ _ _ => Call.noConfusion) him (fun j hj hne => ?_)
    exact step_slot (a := fd) rfl hj (fun he => hne (by omega)) (step_of_call hc)

/-- What `fs_remove` looks for. -/
theorem ScratchMade.target (h : ScratchMade q q₁ path dirs name d k b i) (hq : ScratchReady q path dirs name)
    (ha : Alike q₄.1.image q₁.1.image) : parentOf q₄.1.image path.chars = d ∧ basename path.chars = name ∧
      getFileInodeID q₄.1.image d name = i ∧ (inodeAt q₄.1.image d).fileType = typeDirectory ∧
      (inodeAt q₄.1.image i).fileType = typeRegular := by
  obtain ⟨hpath,hedge⟩ := h.reached hq.tidy
  rw [← ha.entries] at hpath hedge
  have hname : PathName name := hq.valid name (by simp)
  have hdirs : ∀ n ∈ dirs, Component n ∧ 0 ∉ n := fun n hn => (hq.valid n (List.mem_append_left _ hn)).component
  have hdir : (inodeAt q₄.1.image d).fileType = typeDirectory := by
    rw [ha.fileType h.dirLt, h.created.parent]
    exact h.directory
  refine ⟨?_,?_,ha.tidy.searchable.getFileInodeID_of_edge h.fits.1 hedge,hdir,?_⟩
  · rw [hq.chars]
    exact (ha.tidy.searchable.parentOf_eq hdirs hname.component.1 h.dirLt).mpr ⟨hpath,hdir⟩
  · rw [hq.chars, basename_joinPath_concat hname.component.1]
  · rw [ha.fileType h.created.inodeLt, h.created.child]
    rfl

theorem ScratchMade.removeSafe (h : ScratchMade q q₁ path dirs name d k b i) (hq : ScratchReady q path dirs name)
    (ha : Alike q₄.1.image q₁.1.image) : ∀ p ∈ some path, RemoveSafe q₄.1.image p.chars := by
  rintro p hp e he hno
  obtain rfl := Option.some.inj hp
  obtain ⟨hpar,hbase,hid,_,hreg⟩ := h.target hq ha
  have htar := removeTarget_eq_some he
  rw [hpar, hbase, hid] at htar
  exact absurd (htar ▸ hreg) hno

/-- `fs_remove` takes out the entry that was made, and gives the inode back. -/
theorem ScratchMade.removed (h : ScratchMade q q₁ path dirs name d k b i) (hq : ScratchReady q path dirs name)
    (ha : Alike q₄.1.image q₁.1.image) (hrem : Remembers q₄) (hr : Returns q₄ (.remove (some path)) 0 q') (slot : ℕ) :
    SameNames q'.1.image q.1.image ∧ inodeUsed q'.1.image i = false ∧ q'.1.fdTable = q₄.1.fdTable ∧ Aside i slot q₄ q' := by
  have hq₄ := ha.tidy
  obtain ⟨hpar,hbase,hid,hdir,hreg⟩ := h.target hq ha
  have hlinks : (inodeAt q₄.1.image i).linkCount = 1 := by
    rw [ha.linkCount h.created.inodeLt, h.created.child]
    rfl
  have hempty : (inodeAt q₄.1.image i).fileType ≠ typeRegular → isDirectoryEmpty (inodeAt q₄.1.image i) = true :=
    fun hno => absurd hreg hno
  have hc : fsRemove q₄.1 (pathOf (some path)) = some (0,q'.1) := hr.eq.1
  rcases fsRemove_cases hc with ⟨hneg,_⟩ | ⟨p,hp,_,hi0,htar,hrm,htab⟩
  · omega
  obtain rfl : path.chars = p := Option.some.inj hp
  rw [hpar, hbase] at hi0 htar hrm
  have hsafe : (inodeAt q₄.1.image (getFileInodeID q₄.1.image d name)).fileType ≠ typeRegular →
      isDirectoryEmpty (inodeAt q₄.1.image (getFileInodeID q₄.1.image d name)) = true →
      (inodeAt q₄.1.image (getFileInodeID q₄.1.image d name)).dirBlock ≠ 0 := by
    rw [hid]
    exact fun hno => absurd hreg hno
  have hout := removeIn_cases hq₄.inv h.dirLt hi0 hsafe hrm
  rw [hid] at hout
  rcases hout with ⟨⟨hr8,_⟩,_⟩ | ⟨_,_,hmore,_⟩ | ⟨n₁,k',_,_,_,hrel,hk,him⟩
  · cases hr8
  · rw [hlinks] at hmore
    exact absurd hmore (by decide)
  -- no name before the new one begins with it
  have hfirst := firstPrefix_of_index h.dirLt hdir h.fits.1 hk
  have hentry : entryAt q₄.1.image = update (entryAt q.1.image) d k (some (name,i)) := ha.entries.trans (h.entries hq.tidy)
  have hkk : k' = k := by
    by_contra hne
    obtain ⟨a,e,he,hpre⟩ := hfirst.1
    rw [hentry, update_of_ne (fun hc => hne hc.2)] at he
    exact hq.alone d h.parent k' a e he hpre
  subst hkk
  obtain ⟨hback,hfree⟩ := h.created.undone hq.tidy h.dirLt h.directory h.fits h.first (h.inode ▸ hq.clear) ha.toSameNames hq₄ hrel
    hempty hdir
  rw [him]
  refine ⟨hback,hfree,htab,?_⟩
  obtain ⟨_,hlive,_⟩ := firstEntry_some hk
  have hdid := (hq₄.inv.dirBlock_dataId h.dirLt ((hq₄.inv.record d h.dirLt).block hdir k' h.created.slot hlive)).1
  obtain ⟨s,g⟩ := q₄
  rw [hr.eq.2]
  refine Aside.of_call hrem (fun _ _ _ => Call.noConfusion) (fun j hj hne => ?_) (fun j hj hne => ?_) (fun j _ _ => ?_)
  · rw [him, hrel.inodeUsed_unlinked hdid hj, decide_eq_false (Ne.symm hne)]
    rfl
  · rw [F19FS.inode, F19FS.inode, him, hrel.inodeAt_unlinked h.created.inodeLt hdid hj, if_neg (Ne.symm hne)]
    split_ifs with hdj
    · rw [← hdj]
      rfl
    · rfl
  · have ht : q'.1.fdTable = s.fdTable := htab
    exact ⟨by rw [F19FS.descriptor, F19FS.descriptor, ht],by rw [F19FS.isOpen, F19FS.isOpen, ht]⟩

end Made

/-- Between its creation and its removal the file leaves all but its inode and its descriptor alone. -/
theorem ScratchMade.closed {d k b i : ℕ} (h : ScratchMade q q₁ path dirs name d k b i) (hq : ScratchReady q path dirs name)
    (h₁ : Returns q (.create (some path) .regular) 0 q₁) (hfd : 0 ≤ fd) (h₂ : Returns q₁ (.openFile (some path)) fd q₂)
    (h₃ : Reach historyStep (Through fd) q₂ q₃) (h₄ : Returns q₃ (.close fd) 0 q₄) :
    Alike q₄.1.image q₁.1.image ∧ Remembers q₄ ∧ q.1.isOpen fd.toNat = false ∧ q₄.1.isOpen fd.toNat = false ∧
      Aside i fd.toNat q q₄ := by
  have hcreate : ∀ p ∈ some path, CreateTidy q.1.image p.chars := fun p hp => Option.some.inj hp ▸ hq.create
  have hq₁ := h₁.tidy hq.tidy ⟨trivial,hcreate⟩
  have hrem₁ := h₁.remembers hq.remembers ⟨trivial,trivial⟩
  obtain ⟨him₂,ho₂,hfile,hclosed,haside₂⟩ := h.opened hq.tidy hq₁ hrem₁ hfd h₂
  have huse : Using fd i q₂ q₃ := by
    refine h₃.invariant ⟨Aside.refl _ _ _,SameNames.of_records rfl (fun _ _ => rfl),him₂ ▸ hq₁,?_,ho₂,hfile⟩
      (fun h hg hs => h.step hg hs)
    exact h₂.remembers hrem₁ ⟨trivial,trivial⟩
  obtain ⟨him₄,hshut,haside₄⟩ := huse.close h₄
  have hsame : SameNames q₄.1.image q₁.1.image := by
    rw [him₄, ← him₂]
    exact huse.names
  exact ⟨⟨hsame,him₄ ▸ huse.tidy,hq₁⟩,h₄.remembers huse.remembers ⟨trivial,trivial⟩,hclosed,hshut,
    ((h.aside hq.remembers h₁ fd.toNat).trans haside₂).trans haside₄⟩

/-- Nothing is left of the file but which blocks are in use. -/
theorem Scratch.indistinct (h : Scratch path q q') (hq : ScratchReady q path dirs name) : Indistinct q' q := by
  obtain ⟨q₁,q₂,q₃,q₄,fd,h₁,hfd,h₂,h₃,h₄,h₅⟩ := h
  obtain ⟨d,k,b,i,hmade⟩ := hq.made h₁
  obtain ⟨ha,hrem₄,hclosed,hshut,haside₄⟩ := hmade.closed hq h₁ hfd h₂ h₃ h₄
  have hsafe := hmade.removeSafe hq ha
  obtain ⟨hback,hfree,htab,haside₅⟩ := hmade.removed hq ha hrem₄ h₅ fd.toNat
  have htidy : TidyImage q'.1.image := h₅.tidy ha.tidy ⟨hsafe,trivial⟩
  have hrem : Remembers q' := h₅.remembers hrem₄ ⟨hsafe,trivial⟩
  have hall := haside₄.trans haside₅
  have hslot : q'.1.isOpen fd.toNat = false := by
    rw [← hshut, F19FS.isOpen, F19FS.isOpen, htab]
  refine ⟨⟨⟨hback,htidy,hq.tidy⟩,⟨fun j hj => ?_,fun j hj ho => ?_⟩,fun j hj hu => ?_⟩,fun j hj o => ?_,hrem,hq.remembers⟩
  · by_cases hjk : j = fd.toNat
    · rw [hjk, hslot, hclosed]
    · exact (hall.slots j hj hjk).2
  · refine (hall.slots j hj ?_).1
    rintro rfl
    rw [hslot] at ho
    cases ho
  · refine hall.sizes j hj ?_
    rintro rfl
    rw [hfree] at hu
    cases hu
  · by_cases hji : j = i
    · rw [hji, hrem.unused hmade.created.inodeLt hfree, hq.remembers.unused hmade.created.inodeLt hmade.created.inodeFree]
    · exact hall.last j hj hji o

/-- After it every run of calls gets the replies that it would have got before. -/
theorem scratch_unseen {cs : List (Call ⊕ Option PathArg)} (hq : ScratchReady q path dirs name) (h : Scratch path q q')
    (hcs' : Allowed replyStep Served q' cs) (hcs : Allowed replyStep Served q cs) :
    answers replyStep q' cs = answers replyStep q cs :=
  answers_eq (fun _ _ _ h hp hq => h.step hp hq) (h.indistinct hq) hcs' hcs

theorem returns_of_step (hc : ∀ fd dstNull n, c ≠ .read fd dstNull n)
    (h : checked (fun q c => decide ((call q.1 c).map Prod.fst = some ret)) historyStep q c = some q') : Returns q c ret q' := by
  obtain ⟨hret,hs⟩ := of_checked h
  obtain ⟨r,hr,rfl⟩ := Option.map_eq_some_iff.mp hs
  have hret := of_decide_eq_true hret
  rw [hr] at hret
  obtain rfl : r.1 = ret := Option.some.inj hret
  show (reply q.1 (.inl c)).map _ = _
  rw [reply_eq hc, hr]
  rfl

end Steps

/-- The calls on the scratch file. -/
def scratchCalls : List Call := [.create (some fileA) .regular,.openFile (some fileA),.write 0 (some (startsWith 7)) 2,.close 0,
  .remove (some fileA)]

/-- Another file is made and written, and the root is listed. -/
def laterCalls : List (Call ⊕ Option PathArg) := [.inl (.create (pathArg ['/','b']) .regular),.inl (.openFile (pathArg ['/','b'])),
  .inl (.write 0 (some (startsWith 9)) 2),.inl (.seek 0 0 .set),.inl (.read 0 false 2),.inr (pathArg ['/'])]

theorem scratchReady_fsFormat : ScratchReady (fsFormat,fun _ _ => none) fileA [] (ofChars ['a']) where
  chars := rfl
  valid n hn := by
    obtain rfl : n = ofChars ['a'] := List.mem_singleton.mp hn
    exact ⟨by decide,by decide,by decide⟩
  tidy := tidy_fsFormat
  remembers := HistoryReach.remembers Reach.refl
  create := createTidy_of_check (by decide +kernel)
  clear := by
    have hfree : firstFreeInode fsFormat.image = 1 := by decide +kernel
    show inodeAt fsFormat.image (firstFreeInode fsFormat.image) = _
    rw [hfree, inodeAt_fsFormat (by decide), if_neg (by decide)]
  alone d _ j a e he := by
    have he : entryAt fsFormat.image d j = some (a,e) := he
    rw [entryAt_fsFormat] at he
    cases he

/-- The run of these calls. -/
structure ScratchRun (q₁ q₂ q₃ q₄ q' : F19FS × LastBytes) : Prop where
  create : Returns (fsFormat,fun _ _ => none) (.create (some fileA) .regular) 0 q₁
  opened : Returns q₁ (.openFile (some fileA)) 0 q₂
  written : historyStep q₂ (.write 0 (some (startsWith 7)) 2) = some q₃
  kept : HistoryKept q₂.1 (.write 0 (some (startsWith 7)) 2)
  close : Returns q₃ (.close 0) 0 q₄
  remove : Returns q₄ (.remove (some fileA)) 0 q'
  lost : firstFree q'.1.image ≠ firstFree fsFormat.image
  empty : isDirectoryEmpty (q'.1.inode 0) = true
  allowed' : allowedBy replyStep servedCheck q' laterCalls = true
  allowed : allowedBy replyStep servedCheck (fsFormat,fun _ _ => none) laterCalls = true

theorem scratchRun : ∃ q₁ q₂ q₃ q₄ q', ScratchRun q₁ q₂ q₃ q₄ q' := by
  have hrun : (checked (fun q c => decide ((call q.1 c).map Prod.fst = some 0)) historyStep (fsFormat,fun _ _ => none)
        (.create (some fileA) .regular)).bind (fun q₁ =>
      (checked (fun q c => decide ((call q.1 c).map Prod.fst = some 0)) historyStep q₁ (.openFile (some fileA))).bind (fun q₂ =>
      (checked historyCheck historyStep q₂ (.write 0 (some (startsWith 7)) 2)).bind (fun q₃ =>
      (checked (fun q c => decide ((call q.1 c).map Prod.fst = some 0)) historyStep q₃ (.close 0)).bind (fun q₄ =>
      (checked (fun q c => decide ((call q.1 c).map Prod.fst = some 0)) historyStep q₄ (.remove (some fileA))).map (fun q' =>
        decide (firstFree q'.1.image ≠ firstFree fsFormat.image) && isDirectoryEmpty (q'.1.inode 0) &&
        allowedBy replyStep servedCheck q' laterCalls &&
        allowedBy replyStep servedCheck (fsFormat,fun _ _ => none) laterCalls))))) = some true := by
    decide +kernel
  obtain ⟨q₁,h₁,hr⟩ := Option.bind_eq_some_iff.mp hrun
  obtain ⟨q₂,h₂,hr⟩ := Option.bind_eq_some_iff.mp hr
  obtain ⟨q₃,h₃,hr⟩ := Option.bind_eq_some_iff.mp hr
  obtain ⟨q₄,h₄,hr⟩ := Option.bind_eq_some_iff.mp hr
  obtain ⟨q',h₅,hr⟩ := Option.map_eq_some_iff.mp hr
  simp only [Bool.and_eq_true, decide_eq_true_eq] at hr
  obtain ⟨⟨⟨hlost,hempty⟩,hallowed'⟩,hallowed⟩ := hr
  obtain ⟨hc₃,hs₃⟩ := of_checked h₃
  exact ⟨q₁,q₂,q₃,q₄,q',returns_of_step (fun _ _ _ => Call.noConfusion) h₁,
    returns_of_step (fun _ _ _ => Call.noConfusion) h₂,hs₃,historyKept_of_check q₂ _ hc₃,
    returns_of_step (fun _ _ _ => Call.noConfusion) h₄,returns_of_step (fun _ _ _ => Call.noConfusion) h₅,hlost,hempty,
    hallowed',hallowed⟩

theorem Returns.historyStep {q q' : F19FS × LastBytes} {c : Call} {ret : ℤ} (h : Returns q c ret q') :
    LiteOSFS.historyStep q c = some q' := by
  rw [LiteOSFS.historyStep, h.eq.1, h.eq.2]
  rfl

/-- The directory keeps the block that it got, and no call tells. -/
theorem scratch_unseen_once : ∃ q', run historyStep (fsFormat,fun _ _ => none) scratchCalls = some q' ∧
    firstFree q'.1.image ≠ firstFree fsFormat.image ∧
    answers replyStep q' laterCalls = answers replyStep (fsFormat,fun _ _ => none) laterCalls := by
  obtain ⟨q₁,q₂,q₃,q₄,q',h⟩ := scratchRun
  have hthrough : Through 0 q₂ (.write 0 (some (startsWith 7)) 2) := ⟨rfl,h.kept⟩
  have hscratch : Scratch fileA (fsFormat,fun _ _ => none) q' :=
    ⟨q₁,q₂,q₃,q₄,0,h.create,le_rfl,h.opened,Reach.refl.tail hthrough h.written,h.close,h.remove⟩
  have hready := scratchReady_fsFormat
  refine ⟨q',?_,h.lost,scratch_unseen hready hscratch ?_ (allowed_of_served hready.remembers h.allowed)⟩
  · exact run_cons.mpr ⟨q₁,h.create.historyStep,run_cons.mpr ⟨q₂,h.opened.historyStep,run_cons.mpr ⟨q₃,h.written,
      run_cons.mpr ⟨q₄,h.close.historyStep,run_cons.mpr ⟨q',h.remove.historyStep,rfl⟩⟩⟩⟩⟩
  · exact allowed_of_served (hscratch.indistinct hready).remembers h.allowed'

end LiteOSFS
