import LiteOSFS.Properties.MoveExact
import LiteOSFS.Properties.Reading
import LiteOSFS.Properties.Storing

/-! # Reading what was written last

Beside a run stands, for each file, the byte that was written last at each offset since the
file came into use. Every byte that a read returns is that one, whatever was done to this
and other files in between.
-/
namespace LiteOSFS
open Memory CString Ownership EntryGraph Transition

/-- The byte written last at an offset of an inode. -/
abbrev LastBytes := ℕ → ℕ → Option UInt8

/-- A write that returns `ret` covers that many bytes from the position on; an inode that comes into use or goes out
of use has none. -/
def lastBytes (s : F19FS) (g : LastBytes) (ret : ℤ) (s' : F19FS) : Call → LastBytes
  | .write fd (some src) _ => fun i o =>
    if (s.fileOf fd).val = i ∧ (s.descriptor fd.toNat).position ≤ o ∧ o < (s.descriptor fd.toNat).position + ret.toNat then
      some (src (o - (s.descriptor fd.toNat).position))
    else g i o
  | _ => fun i o => if inodeUsed s.image i = true ∧ inodeUsed s'.image i = true then g i o else none

/-- A call with the bytes written last on the side. -/
def historyStep (q : F19FS × LastBytes) (c : Call) : Option (F19FS × LastBytes) :=
  (call q.1 c).map (fun r => (r.2,lastBytes q.1 q.2 r.1 r.2 c))

/-- Safe calls; what is written goes to a regular file in use where the cursor is, and what is moved into is a
directory. -/
def HistoryKept (s : F19FS) (c : Call) : Prop := Safe s c ∧
  match c with
  | .write fd src nbyte => s.Opened fd → src.isSome = true → inodeUsed s.image (s.fileOf fd) = true ∧
      (s.inode (s.fileOf fd)).fileType = typeRegular ∧ StoreGuard s fd nbyte
  | .move src dst _ => ∀ p ∈ src, ∀ q ∈ dst, MoveChecked s.image p.chars q.chars →
      checkFileExist s.image (parentOf s.image q.chars) (basename q.chars) = true →
      (inodeAt s.image (getFileInodeID s.image (parentOf s.image q.chars) (basename q.chars))).fileType = typeDirectory
  | _ => True

/-- The bytes of inode `i` are as they were. -/
def BytesKept (m m' : Mem) (i : ℕ) : Prop := ∀ o, fileByte m' (inodeAt m' i) o = fileByte m (inodeAt m i) o

section Kept
variable {s s' : F19FS} {m m' m₁ : Mem} {i d k f : ℕ} {ret : ℤ}

theorem BytesKept.refl (m : Mem) (i : ℕ) : BytesKept m m i := fun _ => rfl

theorem BytesKept.trans (h : BytesKept m m₁ i) (h' : BytesKept m₁ m' i) : BytesKept m m' i := fun o => (h' o).trans (h o)

theorem SameInode.bytesKept (h : SameInode m m' i) (hreg : (inodeAt m i).fileType = typeRegular) : BytesKept m m' i :=
  h.fileByte_eq (by rw [hreg]; decide)

/-- The record has the same pointers, and the blocks of the file have the same bytes. -/
theorem bytesKept_of_tops (htop : ∀ n, (inodeAt m' i).top n = (inodeAt m i).top n)
    (hb : ∀ n, nodePtr m (inodeAt m i) n ≠ 0 →
      blockAt m' (nodePtr m (inodeAt m i) n) = blockAt m (nodePtr m (inodeAt m i) n)) : BytesKept m m' i := by
  intro o
  rw [← fileByte_congr (fun n hn => (hb n hn).symm) o]
  unfold fileByte
  simp only [nodePtr_top_congr htop]

theorem Inode.top_links (x : Inode) (links : UInt64) (n : Node) : ({ x with linkCount := links } : Inode).top n = x.top n := by
  cases n <;> rfl

/-- A file whose link count alone changes. -/
theorem bytesKept_links (h : ImageInv m) (hi : i < 256) (hreg : (inodeAt m i).fileType = typeRegular) (hf : f < 256)
    (links : UInt64) : BytesKept m (putInode m f { inodeAt m f with linkCount := links }) i := by
  have hfile : (inodeAt m i).fileType ≠ typeDirectory := by rw [hreg]; decide
  refine bytesKept_of_tops (fun n => ?_) (fun n hn => blockAt_putInode hf ?_)
  · rw [inodeAt_putInode]
    split_ifs with hfi
    · rw [hfi]
      exact Inode.top_links _ _ n
    · rfl
  · exact (dataId_of_node (i := ⟨i,hi⟩) h.sound hfile hn).1

theorem setUsed_sameInode (h : ImageInv m) (hi : i < 256) (b : ℕ) : SameInode m (setUsed m b) i :=
  ⟨inodeAt_setUsed hi,fun n hn => blockAt_setUsed (h.sound.own.dataId (q := (⟨i,hi⟩,n)) hn)⟩

theorem fsCreate_bytes {path : Option CStr} {type : FileT} (hi : ImageInv s.image) (hi' : i < 256)
    (hu : inodeUsed s.image i = true) (hreg : (inodeAt s.image i).fileType = typeRegular)
    (h : fsCreate s path type = some (ret,s')) : BytesKept s.image s'.image i := by
  rcases (fsCreate_effect hi h).2 with ⟨_,he⟩ | ⟨q,tokens,d,name,_,_,hch,⟨_,ht⟩ | ⟨_,k,b,c,hcr⟩⟩
  · rw [he]
    exact BytesKept.refl _ _
  · rw [ht.image]
    exact (setUsed_sameInode hi hi' _).bytesKept hreg
  · exact (hcr.sameInode hi hch.lt hi' (ne_of_regular hreg hch.directory) (ne_of_used hu hcr.inodeFree)).bytesKept hreg

/-- Taking out an entry leaves the files alone that are not freed. -/
theorem Released.sameInode (hr : Released m f m₁) (h : ImageInv m) (hf : f < 256) (hd : d < 256)
    (hdb : (inodeAt m d).dirBlock ≠ 0) (hi : i < 256) (hid : i ≠ d) (hif : i ≠ f) :
    SameInode m (unlinked m₁ d f (inodeAt m d) (blockAt m (inodeAt m d).dirBlock) k) i := by
  have hdid := (h.dirBlock_dataId hd hdb).1
  refine h.sameInode hi ?_ (S := fun b => b = (inodeAt m d).dirBlock ∨ ∃ n, owns m (inodeAt m f) n = b)
    (fun b hb hno => ?_) (fun n hn hc => ?_)
  · rw [hr.inodeAt_unlinked hf hdid hi, if_neg hid.symm, if_neg hif.symm]
  · obtain ⟨hbd,hbf⟩ := not_or.mp hno
    rw [unlinked, blockAt_putInode hd hb, blockAt_putBlock, if_neg (Ne.symm hbd), blockAt_freeInode hf hb,
      blockAt_putInode hf hb]
    exact hr.blocks b hb (fun n hn => hbf ⟨n,hn⟩)
  · rcases hc with he | ⟨n',he⟩
    · exact dirBlock_ne_owns h hd hi hid n hn he
    · have hpl := h.sound.own.inj (⟨i,hi⟩,n) (⟨f,hf⟩,n') hn he.symm
      exact hif (congrArg (fun p : Place => p.1.val) hpl)

/-- A file that is in use after a removal was not the one removed. -/
theorem fsRemove_bytes {path : Option CStr} (hi : ImageInv s.image) (hi' : i < 256)
    (hreg : (inodeAt s.image i).fileType = typeRegular) (hblock : ∀ p ∈ path, RemoveSafe s.image p)
    (h : fsRemove s path = some (ret,s')) (hu' : inodeUsed s'.image i = true) :
    (inodeAt s'.image i).fileType = typeRegular ∧ BytesKept s.image s'.image i := by
  rcases fsRemove_cases h with ⟨_,rfl⟩ | ⟨p,rfl,hp,hid,ht,hr,_⟩
  · exact ⟨hreg,BytesKept.refl _ _⟩
  obtain ⟨hd,hdir⟩ := parentOf_spec hi hp
  have hf := getFileInodeID_lt s.image (parentOf s.image p) (basename p)
  rcases removeIn_cases hi hd hid (hblock p rfl _ ht) hr with ⟨_,he⟩ | ⟨_,hfreg,_,he⟩ | ⟨m₁,k,_,_,_,hrel,hk,he⟩
  · rw [he]
    exact ⟨hreg,BytesKept.refl _ _⟩
  · rw [he]
    refine ⟨?_,bytesKept_links hi hi' hreg hf _⟩
    rw [inodeAt_putInode]
    split_ifs
    · exact hfreg
    · exact hreg
  · obtain ⟨hk31,hlive,_⟩ := firstEntry_some hk
    have hdb := (hi.record _ hd).block hdir k hk31 hlive
    have hif : i ≠ getFileInodeID s.image (parentOf s.image p) (basename p) := by
      rintro rfl
      rw [he, hrel.inodeUsed_unlinked (hi.dirBlock_dataId hd hdb).1 hf, decide_eq_true rfl] at hu'
      cases hu'
    have hsame := hrel.sameInode (k := k) hi hf hd hdb hi' (Ne.symm (ne_of_regular hreg hdir)) hif
    rw [he]
    exact ⟨by rw [hsame.record, hreg],hsame.bytesKept hreg⟩

theorem linked_bytes {name : CStr} (h : ImageInv m) (hf : f < 256) (hd : d < 256)
    (hdir : (inodeAt m d).fileType = typeDirectory) (hdb : (inodeAt m d).dirBlock ≠ 0) (hi : i < 256)
    (hreg : (inodeAt m i).fileType = typeRegular) : BytesKept m (linked m f d name) i := by
  have hdid := (h.dirBlock_dataId hd hdb).1
  have hfile : (inodeAt m i).fileType ≠ typeDirectory := by rw [hreg]; decide
  have hdi := ne_of_regular hreg hdir
  refine bytesKept_of_tops (fun n => ?_) (fun n hn => ?_)
  · rw [inodeAt_linked (Or.inr hdid) hi, if_neg hdi]
    split_ifs with hfi
    · rw [hfi]
      exact Inode.top_links _ _ n
    · rfl
  · have hown : owns m (inodeAt m i) n = nodePtr m (inodeAt m i) n := owns_of_file hfile
    have hid : DataId (nodePtr m (inodeAt m i) n) := (dataId_of_node (i := ⟨i,hi⟩) h.sound hfile hn).1
    rw [blockAt_linked hf hd (Or.inr hid), if_neg]
    rw [← hown] at hn ⊢
    exact fun he => dirBlock_ne_owns h hd hi (Ne.symm hdi) n hn he.symm

theorem fsLink_bytes {src dst : Option CStr} (hi : ImageInv s.image)
    (hsafe : ∀ p ∈ src, ∀ q ∈ dst, LinkSafe s.image p q) (hi' : i < 256)
    (hreg : (inodeAt s.image i).fileType = typeRegular) (h : fsLink s src dst = (ret,s')) :
    BytesKept s.image s'.image i := by
  cases src with
  | none =>
    cases h
    exact BytesKept.refl _ _
  | some p =>
    cases dst with
    | none =>
      cases h
      exact BytesKept.refl _ _
    | some q =>
      obtain ⟨r,m',hr⟩ : ∃ r m', fsLinkImage s.image p q = (r,m') := ⟨_,_,rfl⟩
      simp only [fsLink, hr] at h
      cases h
      rcases fsLinkImage_cases hi hr with ⟨_,rfl⟩ | ⟨_,hchk,rfl⟩
      · exact BytesKept.refl _ _
      · obtain ⟨hd,hdir⟩ := parentOf_spec hi hchk.dstParent
        exact linked_bytes hi (getFileInodeID_lt _ _ _) hd hdir (hsafe p rfl q rfl hchk) hi' hreg

/-- The directory that `fs_create2` makes takes no block of another file. -/
theorem withDirectory_sameInode {p : ℕ} {name : CStr} {junk : Inode} (h : ImageInv m) (hp : p < 256)
    (hif : firstFreeInode m ≠ sizeMax) (hf : firstFree m ≠ sizeMax) (hi : i < 256) (hip : i ≠ p)
     (hic : i ≠ firstFreeInode m) :
    SameInode m (withDirectory m p (firstFreeInode m) (firstFree m) name junk) i := by
  obtain ⟨hlt,_⟩ := firstFreeInode_spec hif
  obtain ⟨hb,hbfree,_⟩ := firstFree_spec h.sound.sys hf
  refine h.sameInode hi ?_ (S := fun b => b = (inodeAt m p).dirBlock ∨ b = firstFree m) (fun b hb' hno => ?_)
    (fun n hn hc => ?_)
  · rw [inodeAt_withDirectory hlt hb (h.offTable hp) hi, if_neg hip.symm, if_neg hic.symm]
  · obtain ⟨hbp,hbf⟩ := not_or.mp hno
    rw [blockAt_withDirectory hp hlt hb', if_neg (Ne.symm hbp), if_neg (Ne.symm hbf)]
  · rcases hc with he | he
    · exact dirBlock_ne_owns h hp hi hip n hn he
    · exact h.sound.own.fresh hb.ne_zero hbfree (⟨i,hi⟩,n) he

/-- A move into a directory, or to a new one, leaves the files alone. -/
theorem MoveResult.bytes {src dst : CStr} {junk : Inode} (hi : ImageInv m) (hchk : MoveChecked m src dst) (hi' : i < 256)
    (hu : inodeUsed m i = true) (hreg : (inodeAt m i).fileType = typeRegular)
    (hinto : checkFileExist m (parentOf m dst) (basename dst) = true →
      (inodeAt m (getFileInodeID m (parentOf m dst) (basename dst))).fileType = typeDirectory)
    (hr : MoveResult m src dst junk ret m') : BytesKept m m' i := by
  obtain ⟨hs,hsdir⟩ := parentOf_spec hi hchk.srcParent
  obtain ⟨hd,hddir⟩ := parentOf_spec hi hchk.dstParent
  cases hr with
  | stop => exact BytesKept.refl _ _
  | inodeTaken _ _ _ _ hif =>
    have hlt := (firstFreeInode_spec hif).1
    refine SameInode.bytesKept ⟨inodeAt_setInodeUsed hlt,fun n hn => blockAt_setInodeUsed hlt ?_⟩ hreg
    exact hi.sound.own.dataId (q := (⟨i,hi'⟩,n)) hn
  | blockTaken _ _ _ _ hf =>
    obtain ⟨hb,hbfree,_⟩ := firstFree_spec hi.sound.sys hf
    refine SameInode.bytesKept (hi.sameInode hi' ?_ (S := (firstFree m = ·)) (fun b hb' hno => ?_) (fun n hn he => ?_)) hreg
    · rw [inodeAt_putBlock hb hi', inodeAt_setUsed hi']
    · rw [blockAt_putBlock, if_neg hno, blockAt_setUsed hb']
    · exact hi.sound.own.fresh hb.ne_zero hbfree (⟨i,hi'⟩,n) he.symm
  | moved hex he hne hdb _ hk =>
    subst he
    obtain ⟨hk31,hlive,_⟩ := firstEntry_some hk
    exact (moved_sameInode hi hs ((hi.record _ hs).block hsdir _ hk31 hlive) (getFileInodeID_lt _ _ _) hdb _ hi'
      (Ne.symm (ne_of_regular hreg hsdir)) (Ne.symm (ne_of_regular hreg (hinto hex)))).bytesKept hreg
  | @made m₁ c k hex hpb hroom hif hf hcid hm₁ hne hv hk =>
    obtain ⟨hlt,hfree,_⟩ := firstFreeInode_spec hif
    subst hcid
    have hic := Ne.symm (ne_of_used hu hfree)
    have hsame : SameInode m m₁ i := by
      rw [hm₁]
      exact withDirectory_sameInode hi hd hif hf hi' (Ne.symm (ne_of_regular hreg hddir)) hic
    have hi₁ : ImageInv m₁ := by
      rw [hm₁]
      exact (withDirectory_inv hi hd hddir hpb hif hf (basename dst) junk).1
    have hreg₁ : (inodeAt m₁ i).fileType = typeRegular := by rw [hsame.record, hreg]
    have hsdir₁ := made_srcParent hi hd hddir hs hsdir hif hf hne hm₁
    obtain ⟨hk31,hlive,_⟩ := firstEntry_some hk
    refine (hsame.bytesKept hreg).trans ?_
    exact (moved_sameInode hi₁ hs ((hi₁.record _ hs).block hsdir₁ _ hk31 hlive) hlt
      (made_dirBlock hi hd hddir hif hf hm₁) _ hi' (Ne.symm (ne_of_regular hreg₁ hsdir₁)) hic).bytesKept hreg₁

/-- What a call other than a write leaves of a file that stays in use. -/
theorem call_bytes {c : Call} (hi : ImageInv s.image) (hg : HistoryKept s c) (hw : ∀ fd src n, c ≠ .write fd (some src) n)
    (hi' : i < 256) (hu : inodeUsed s.image i = true) (hreg : (inodeAt s.image i).fileType = typeRegular)
    (h : call s c = some (ret,s')) (hu' : inodeUsed s'.image i = true) :
    (inodeAt s'.image i).fileType = typeRegular ∧ BytesKept s.image s'.image i := by
  obtain ⟨hsafe,hg⟩ := hg
  have hsame : s'.image = s.image → (inodeAt s'.image i).fileType = typeRegular ∧ BytesKept s.image s'.image i := by
    intro he
    rw [he]
    exact ⟨hreg,BytesKept.refl _ _⟩
  cases c with
  | create path type => exact ⟨(fsCreate_stays hi hi' hu hreg h).fileType,fsCreate_bytes hi hi' hu hreg h⟩
  | openFile path => exact hsame (fsOpen_image h)
  | close fd =>
    apply hsame
    rw [← fsClose_image s fd, Option.some.inj h]
  | read fd dstNull nbyte =>
    obtain ⟨⟨ret',bytes,s''⟩,hr,he⟩ := Option.map_eq_some_iff.mp h
    cases he
    exact hsame (fsRead_image hr)
  | write fd src nbyte =>
    cases src with
    | none =>
      cases h
      exact hsame rfl
    | some src => exact absurd rfl (hw fd src nbyte)
  | seek fd offset whence => exact hsame (fsSeek_image h)
  | remove path =>
    have hblock : ∀ p ∈ pathOf path, RemoveSafe s.image p := by
      intro p hp
      obtain ⟨a,ha,rfl⟩ := mem_pathOf hp
      exact hsafe a ha
    exact fsRemove_bytes hi hi' hreg hblock h hu'
  | move src dst junk =>
    have hms : ∀ p ∈ pathOf src, ∀ q ∈ pathOf dst, MoveSafe s.image p q := by
      intro p hp q hq
      obtain ⟨a,ha,rfl⟩ := mem_pathOf hp
      obtain ⟨b,hb,rfl⟩ := mem_pathOf hq
      exact hsafe a ha b hb
    refine ⟨(fsMove_stays hi (nulFree_pathOf src) (nulFree_pathOf dst) hms hi' hu hreg h).fileType,?_⟩
    rcases (fsMove_result hi (nulFree_pathOf src) (nulFree_pathOf dst) hms h).2 with ⟨_,he⟩ | ⟨p,q,hp,hq,hchk,hr⟩
    · exact (hsame he).2
    · obtain ⟨a,ha,rfl⟩ := mem_pathOf hp
      obtain ⟨b,hb,rfl⟩ := mem_pathOf hq
      exact hr.bytes hi hchk hi' hu hreg (hg a ha b hb hchk)
  | link src dst =>
    have hls : ∀ p ∈ pathOf src, ∀ q ∈ pathOf dst, LinkSafe s.image p q := by
      intro p hp q hq
      obtain ⟨a,ha,rfl⟩ := mem_pathOf hp
      obtain ⟨b,hb,rfl⟩ := mem_pathOf hq
      exact hsafe a ha b hb
    exact ⟨(fsLink_stays hi hls hi' hu hreg (Option.some.inj h)).fileType,fsLink_bytes hi hls hi' hreg (Option.some.inj h)⟩
  | remount => exact hsame (by cases h; rfl)

end Kept

/-- The file has at each offset the byte that was written last. -/
structure Remembers (q : F19FS × LastBytes) : Prop where
  image : ImageInv q.1.image
  byte : ∀ i < 256, ∀ o v, q.2 i o = some v → inodeUsed q.1.image i = true ∧
    (inodeAt q.1.image i).fileType = typeRegular ∧ fileByte q.1.image (inodeAt q.1.image i) o = some v

section Step
variable {s s' : F19FS} {g : LastBytes} {c : Call} {ret : ℤ}

/-- The files other than the one that is written. -/
theorem WriteDone.other {fd : ℤ} {src : Mem} {nbyte : UInt64} {r sum : ℕ} {m' : Mem} {x' : Inode}
    (h : WriteDone s fd src nbyte r sum m' x' s') (hi : ImageInv s.image) {i : ℕ} (hi' : i < 256)
    (hne : (s.fileOf fd).val ≠ i) : SameInode s.image s'.image i := by
  rw [h.image]
  exact h.effect.ext.sameInode hi hi' hne _

theorem WriteDone.used_eq {fd : ℤ} {src : Mem} {nbyte : UInt64} {r sum : ℕ} {m' : Mem} {x' : Inode}
    (h : WriteDone s fd src nbyte r sum m' x' s') {i : ℕ} (hi' : i < 256) :
    inodeUsed s'.image i = inodeUsed s.image i := by
  rw [h.image, inodeUsed_putInode hi', h.effect.ext.inodeBits i hi']

theorem WriteDone.fileType_eq {fd : ℤ} {src : Mem} {nbyte : UInt64} {r sum : ℕ} {m' : Mem} {x' : Inode}
    (h : WriteDone s fd src nbyte r sum m' x' s') :
    (s'.inode (s.fileOf fd)).fileType = (s.inode (s.fileOf fd)).fileType := by
  rw [h.inode]
  show x'.fileType = _
  exact attributes_fileType h.effect.ext.attrs

theorem lastBytes_write (fd : ℤ) (src : Mem) (nbyte : UInt64) (i o : ℕ) :
    lastBytes s g ret s' (.write fd (some src) nbyte) i o = if (s.fileOf fd).val = i ∧
        (s.descriptor fd.toNat).position ≤ o ∧ o < (s.descriptor fd.toNat).position + ret.toNat then
      some (src (o - (s.descriptor fd.toNat).position)) else g i o := rfl

theorem lastBytes_other (hw : ∀ fd src n, c ≠ .write fd (some src) n) (i o : ℕ) : lastBytes s g ret s' c i o =
    if inodeUsed s.image i = true ∧ inodeUsed s'.image i = true then g i o else none := by
  cases c with
  | write fd src nbyte =>
    cases src with
    | none => rfl
    | some src => exact absurd rfl (hw fd src nbyte)
  | _ => rfl

theorem Remembers.write {fd : ℤ} {src : Mem} {nbyte : UInt64} (h : Remembers (s,g))
    (hg : HistoryKept s (.write fd (some src) nbyte)) (hc : fsWrite s fd (some src) nbyte = some (ret,s')) :
    ∀ i < 256, ∀ o v, lastBytes s g ret s' (.write fd (some src) nbyte) i o = some v → inodeUsed s'.image i = true ∧
      (inodeAt s'.image i).fileType = typeRegular ∧ fileByte s'.image (inodeAt s'.image i) o = some v := by
  obtain ⟨hsafe,hg⟩ := hg
  intro i hi o v hv
  by_cases ho : s.Opened fd
  swap
  · obtain ⟨r,hr,he⟩ := fsWrite_closed ho (some src) nbyte
    rw [he] at hc
    cases hc
    rw [lastBytes_write, if_neg (by omega)] at hv
    exact h.byte i hi o v hv
  obtain ⟨hused,hreg,hguard⟩ := hg ho rfl
  have hfile : (s.inode (s.fileOf fd)).fileType ≠ typeDirectory := by rw [hreg]; decide
  rcases fsWrite_done h.image hsafe hguard.offset hc with ⟨_,_,hno⟩ | ⟨r,sum,m',x',rfl,hd⟩
  · exact absurd ho hno
  have hsum : r = sum := hd.counted.resolve_right (fun hd => hguard.counted hd.1)
  rw [lastBytes_write, Int.toNat_natCast] at hv
  by_cases hif : (s.fileOf fd).val = i
  · subst hif
    refine ⟨(hd.used_eq hi).trans hused,hd.fileType_eq.trans hreg,(hd.fileByte_eq hfile o).trans ?_⟩
    split_ifs at hv with hin
    · obtain ⟨_,hlo,hhi⟩ := hin
      cases hv
      have hk : o = (s.descriptor fd.toNat).position + (o - (s.descriptor fd.toNat).position) := by omega
      conv_lhs => rw [hk]
      refine hd.effect.inside ?_ _ (by omega)
      rcases hguard.aligned with h0 | hal | hroom
      · have hle := hd.effect.sumLe
        rw [h0] at hle
        have hz : (0 : UInt64).toNat = 0 := rfl
        omega
      · exact hal
      · have h0 := hd.wrote.sum_of_noRoom hroom
        omega
    · refine hd.effect.outside o v (h.byte _ hi o v hv).2.2 ?_
      rintro ⟨hlo,hhi⟩
      exact hin ⟨rfl,hlo,hsum ▸ hhi⟩
  · rw [if_neg (fun hin => hif hin.1)] at hv
    obtain ⟨hu,hr,hb⟩ := h.byte i hi o v hv
    have hsame := hd.other h.image hi hif
    exact ⟨(hd.used_eq hi).trans hu,by rw [hsame.record, hr],(hsame.bytesKept hr o).trans hb⟩

/-- Every call keeps to what was written last. -/
theorem history_step {q q' : F19FS × LastBytes} (h : Remembers q) (hg : HistoryKept q.1 c)
    (hs : historyStep q c = some q') : Remembers q' := by
  obtain ⟨s,g⟩ := q
  obtain ⟨⟨ret,s'⟩,hc,rfl⟩ := Option.map_eq_some_iff.mp hs
  refine ⟨(step_inv h.image hg.1 (step_of_call hc)).1,?_⟩
  by_cases hw : ∃ fd src n, c = .write fd (some src) n
  · obtain ⟨fd,src,nbyte,rfl⟩ := hw
    exact h.write hg hc
  · intro i hi o v hv
    have hw : ∀ fd src n, c ≠ .write fd (some src) n := fun fd src n he => hw ⟨fd,src,n,he⟩
    have hv : lastBytes s g ret s' c i o = some v := hv
    rw [lastBytes_other hw] at hv
    split_ifs at hv with hu
    obtain ⟨_,hreg,hb⟩ := h.byte i hi o v hv
    obtain ⟨hreg',hkept⟩ := call_bytes h.image hg hw hi hu.1 hreg hc hu.2
    exact ⟨hu.2,hreg',(hkept o).trans hb⟩

end Step

/-- A run from a formatted image, with the bytes written last on the side. -/
abbrev HistoryReach : F19FS × LastBytes → Prop := Reach historyStep (fun q => HistoryKept q.1) (fsFormat,fun _ _ => none)

theorem HistoryReach.remembers {q : F19FS × LastBytes} (h : HistoryReach q) : Remembers q :=
  h.invariant ⟨fsFormat_inv,fun _ _ _ _ hv => absurd hv (Option.some_ne_none _).symm⟩
    (fun hq hg hs => history_step hq hg hs)

/-- The bytes that a read returns are those of the file, whatever the count. -/
theorem fsRead_bytes {s s' : F19FS} {fd : ℤ} {n : UInt64} {ret : ℤ} {bytes : List UInt8}
    (hid : ∀ l, nodePtr s.image (s.inode (s.fileOf fd)) l ≤ 65528)
    (hoff : (s.descriptor fd.toNat).locateOffset.toNat ≤ 1024) (hr : fsRead s fd false n = some (ret,bytes,s')) {k : ℕ}
    (hk : k < bytes.length) :
    fileByte s.image (s.inode (s.fileOf fd)) ((s.descriptor fd.toNat).position + k) = some bytes[k] := by
  have hno : bytes ≠ [] := List.ne_nil_of_length_pos (Nat.zero_lt_of_lt hk)
  have ho : s.Opened fd := by
    by_contra ho
    obtain ⟨r,_,he⟩ := fsRead_closed ho false n
    rw [he] at hr
    cases hr
    exact hno rfl
  have hn : n ≠ 0 := by
    rintro rfl
    rw [fsRead_nothing ho] at hr
    cases hr
    exact hno rfl
  rw [fsRead_opened ho hn] at hr
  obtain ⟨bs,hbs,he⟩ := Option.map_eq_some_iff.mp hr
  cases he
  have hcount : readCount (s.descriptor fd.toNat) (s.inode (s.descriptor fd.toNat).inodeNum.toNat).fileSize.toNat n.toNat <
      2 ^ 64 := readCount_lt n.toNat_lt
  have hout := readFrom_outcome hid (UInt16.toNat_lt (s.descriptor fd.toNat).locateOrder) hoff hcount
  have hbs : readFrom s.image (s.inode (s.fileOf fd)) _ _ _ = some bytes := hbs
  rw [hbs] at hout
  cases hout with
  | read hreads => exact hreads.byte hoff hk

/-- After every such run each byte that a read returns is the one that was written last at its offset, if one was. -/
theorem read_latest {s s' : F19FS} {g : LastBytes} {fd : ℤ} {n : UInt64} {ret : ℤ} {bytes : List UInt8}
    (h : HistoryReach (s,g)) (hoff : (s.descriptor fd.toNat).locateOffset.toNat ≤ 1024)
    (hr : fsRead s fd false n = some (ret,bytes,s')) {k : ℕ} (hk : k < bytes.length) {v : UInt8}
    (hv : g (s.fileOf fd) ((s.descriptor fd.toNat).position + k) = some v) : bytes[k] = v := by
  obtain ⟨_,hreg,hb⟩ := h.remembers.byte _ (s.fileOf fd).isLt _ v hv
  have hi : ImageInv s.image := h.remembers.image
  have hfile : (tableOf s.image (s.fileOf fd)).fileType ≠ typeDirectory := by
    show (inodeAt s.image (s.fileOf fd)).fileType ≠ typeDirectory
    rw [hreg]
    decide
  have hbyte := fsRead_bytes (hi.sound.nodePtr_le hfile) hoff hr hk
  exact Option.some.inj (hbyte.symm.trans hb)

/-- Calls that are seen to keep the history: what is written goes to the start of a file. -/
def historyCheck (q : F19FS × LastBytes) (c : Call) : Bool := plain q.1 c &&
  match c with
  | .write fd _ nbyte => decide ((q.1.descriptor fd.toNat).locateOrder = 0 ∧ (q.1.descriptor fd.toNat).locateOffset = 0 ∧
      nbyte ≤ 1024 ∧ (q.1.inode (q.1.fileOf fd)).fileType = typeRegular) && inodeUsed q.1.image (q.1.fileOf fd)
  | _ => true

theorem historyKept_of_check (q : F19FS × LastBytes) (c : Call) (h : historyCheck q c = true) : HistoryKept q.1 c := by
  obtain ⟨hplain,hc⟩ := Bool.and_eq_true_iff.mp h
  refine ⟨safe_of_plain q.1 c hplain,?_⟩
  cases c with
  | write fd src nbyte =>
    simp only [Bool.and_eq_true, decide_eq_true_eq] at hc
    obtain ⟨⟨horder,hoffset,hle,hreg⟩,hused⟩ := hc
    have hn : nbyte.toNat ≤ 1024 := UInt64.le_iff_toNat_le.mp hle
    have ho : (q.1.descriptor fd.toNat).locateOrder.toNat = 0 := congrArg UInt16.toNat horder
    have hf : (q.1.descriptor fd.toNat).locateOffset.toNat = 0 := congrArg UInt16.toNat hoffset
    refine fun _ _ => ⟨hused,hreg,safe_of_plain q.1 (.write fd src nbyte) hplain,by omega,Or.inr (Or.inl (Or.inl hf)),?_⟩
    rintro ⟨_,hlong,_⟩
    omega
  | move => cases hplain
  | _ => trivial

/-- The first of two bytes is written again. -/
theorem read_latest_twice : ∃ q s' bytes, run historyStep (fsFormat,fun _ _ => none)
      [.create (pathArg ['/','a']) .regular,.openFile (pathArg ['/','a']),.write 0 (some (startsWith 7)) 2,.seek 0 0 .set,
        .write 0 (some (startsWith 9)) 1,.seek 0 0 .set] = some q ∧
    fsRead q.1 0 false 2 = some (2,bytes,s') ∧ ∃ hk : 0 < bytes.length, bytes[0] = 9 := by
  have hrun : (run (checked historyCheck historyStep) (fsFormat,fun _ _ => none)
      [.create (pathArg ['/','a']) .regular,.openFile (pathArg ['/','a']),.write 0 (some (startsWith 7)) 2,.seek 0 0 .set,
        .write 0 (some (startsWith 9)) 1,.seek 0 0 .set]).bind (fun q => (fsRead q.1 0 false 2).map (fun r =>
      decide (r.1 = 2 ∧ r.2.1.length = 2) && decide ((q.1.descriptor (0 : ℤ).toNat).locateOffset.toNat ≤ 1024) &&
        decide (q.2 (q.1.fileOf 0) ((q.1.descriptor (0 : ℤ).toNat).position + 0) = some 9))) = some true := by
    decide +kernel
  obtain ⟨⟨s,g⟩,hs,hr⟩ := Option.bind_eq_some_iff.mp hrun
  obtain ⟨⟨ret,bytes,s'⟩,hread,hr⟩ := Option.map_eq_some_iff.mp hr
  simp only [Bool.and_eq_true, decide_eq_true_eq] at hr
  obtain ⟨⟨⟨rfl,hlen⟩,hoff⟩,hv⟩ := hr
  exact ⟨(s,g),s',bytes,run_of_checked hs,hread,by omega,
    read_latest (reach_of_checked_run historyKept_of_check hs) hoff hread (by omega) hv⟩

end LiteOSFS
