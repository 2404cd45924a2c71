import LiteOSFS.FileSystem.NameModel
import LiteOSFS.FileSystem.RecordStep
import LiteOSFS.FileSystem.Tidy

/-! # The calls as changes of the name space

Every safe call that keeps directories in order makes one of a few lists of changes, each
enabled where it is made; which ones, the checks of the call tell.
-/
namespace LiteOSFS
open Memory CString Ownership EntryGraph Transition

def recordOf (m : Mem) (i : ℕ) : Record :=
  if i < 256 then ⟨inodeUsed m i,(inodeAt m i).fileType,(inodeAt m i).inodeNumber,(inodeAt m i).linkCount⟩ else Record.blank

/-- The name space of an image. -/
def namesOf (m : Mem) : Names := ⟨entryAt m,recordOf m⟩

theorem namesOf_entries (m : Mem) : (namesOf m).entries = entryAt m := rfl

section Record
variable {m m' : Mem} {i c : ℕ}

theorem recordOf_lt (hi : i < 256) : recordOf m i =
    ⟨inodeUsed m i,(inodeAt m i).fileType,(inodeAt m i).inodeNumber,(inodeAt m i).linkCount⟩ := if_pos hi

theorem recordOf_ge (hi : 256 ≤ i) : recordOf m i = Record.blank := if_neg (by omega)

theorem recordOf_congr (hu : i < 256 → inodeUsed m' i = inodeUsed m i) (hx : i < 256 → inodeAt m' i = inodeAt m i) :
    recordOf m' i = recordOf m i := by
  by_cases hi : i < 256
  · rw [recordOf_lt hi, recordOf_lt hi, hu hi, hx hi]
  · rw [recordOf_ge (by omega), recordOf_ge (by omega)]

/-- One record is another one. -/
theorem recordOf_update {x : Record} (hx : recordOf m' c = x)
    (hother : ∀ i < 256, i ≠ c → recordOf m' i = recordOf m i) : recordOf m' = Function.update (recordOf m) c x := by
  funext i
  by_cases hic : i = c
  · rw [hic, hx, Function.update_self]
  · rw [Function.update_of_ne hic]
    by_cases hi : i < 256
    · exact hother i hi hic
    · rw [recordOf_ge (by omega), recordOf_ge (by omega)]

theorem recordOf_same (hu : ∀ i < 256, inodeUsed m' i = inodeUsed m i) (hx : ∀ i < 256, inodeAt m' i = inodeAt m i) :
    recordOf m' = recordOf m := by
  funext i
  exact recordOf_congr (hu i) (hx i)

theorem namesOf_same (he : entryAt m' = entryAt m) (hr : recordOf m' = recordOf m) : namesOf m' = namesOf m := by
  rw [namesOf, namesOf, he, hr]

theorem namesOf_setRecord {x : Record} (he : entryAt m' = entryAt m) (hr : recordOf m' = Function.update (recordOf m) c x) :
    namesOf m' = (namesOf m).setRecord c x := by
  rw [namesOf, he, hr]
  rfl

/-- The entries of an image in which no record and no block in use changed. -/
theorem entryAt_keep (h : ImageInv m) (hx : ∀ e < 256, SameEntries (inodeAt m' e) (inodeAt m e))
    (hb : ∀ b, DataId b → used m b = true → blockAt m' b = blockAt m b) : entryAt m' = entryAt m := by
  funext e j
  by_cases he : e < 256
  · refine entryAt_same (hx e he) (fun hdir hex => ?_) j
    obtain ⟨j',hj',hl⟩ := hex
    obtain ⟨hid,hu,_⟩ := h.dirBlock_dataId he ((h.record e he).block hdir j' hj' hl)
    exact hb _ hid hu
  · rw [entryAt_ge (by omega), entryAt_ge (by omega)]

end Record

section Changes
variable {m m' : Mem} {d i k c : ℕ} {name : CStr}

theorem Created.names {b : ℕ} {type : FileT} (h : Created m d name type m' k b c) (hi : ImageInv m) (hd : d < 256)
    (hdir : (inodeAt m d).fileType = typeDirectory) (hname : FitsSlot name) (hterm : Terminated m)
    (hfirst : k = 0 → ∀ j < 31, (inodeAt m d).live j = false) :
    namesOf m' = (namesOf m).apply (.create d k name c (childInode type c).fileType) := by
  have hdc := h.child_ne_parent hi hd hdir
  have hrec : recordOf m' = Function.update (recordOf m) c ⟨true,(childInode type c).fileType,UInt64.ofNat c,1⟩ := by
    refine recordOf_update ?_ (fun i hi' hic => ?_)
    · rw [recordOf_lt h.inodeLt, h.bits c h.inodeLt, h.child, decide_eq_true rfl, Bool.true_or]
      rfl
    · rw [recordOf_lt hi', recordOf_lt hi', h.bits i hi', decide_eq_false (Ne.symm hic), Bool.false_or]
      by_cases hid : i = d
      · rw [hid, h.parent]
        rfl
      · rw [h.others i hi' (Ne.symm hid) (Ne.symm hic)]
  rw [namesOf, h.entries_eq hi hd hdir hname hterm hfirst, hrec]
  rfl

theorem BlockTaken.names (h : BlockTaken m d m') (hi : ImageInv m) : namesOf m' = namesOf m := by
  rw [h.image]
  refine namesOf_same (entryAt_keep hi (fun e he => ?_) (fun b hb _ => blockAt_setUsed hb))
    (recordOf_same (fun i hi => inodeUsed_setUsed hi) (fun i hi => inodeAt_setUsed hi))
  rw [inodeAt_setUsed he]
  exact SameEntries.refl _

theorem names_take (h : ImageInv m) (hc : c < 256) : namesOf (setInodeUsed m c) = (namesOf m).apply (.take c) := by
  refine namesOf_setRecord (entryAt_keep h (fun e _ => ?_) (fun b hb _ => blockAt_setInodeUsed hc hb))
    (recordOf_update ?_ (fun i hi hic => ?_))
  · rw [inodeAt_setInodeUsed hc]
    exact SameEntries.refl _
  · rw [recordOf_lt hc, inodeUsed_setInodeUsed, decide_eq_true rfl, Bool.true_or, inodeAt_setInodeUsed hc]
    show _ = { recordOf m c with used := true }
    rw [recordOf_lt hc]
  · rw [recordOf_lt hi, recordOf_lt hi, inodeUsed_setInodeUsed, decide_eq_false (Ne.symm hic), Bool.false_or,
      inodeAt_setInodeUsed hc]

/-- The link count of an inode is lowered. -/
theorem names_lower (h : ImageInv m) (hi : i < 256) :
    namesOf (putInode m i { inodeAt m i with linkCount := (inodeAt m i).linkCount - 1 }) = (namesOf m).apply (.lower i) := by
  refine namesOf_setRecord (entryAt_keep h (fun e _ => ?_) (fun b hb _ => blockAt_putInode hi hb))
    (recordOf_update ?_ (fun j hj hji => ?_))
  · rw [inodeAt_putInode]
    split_ifs with hie
    · rw [hie]
      exact SameEntries.links _ _
    · exact SameEntries.refl _
  · show _ = { recordOf m i with links := (recordOf m i).links - 1 }
    rw [recordOf_lt hi, recordOf_lt hi, inodeUsed_putInode hi, inodeAt_putInode, if_pos rfl]
  · rw [recordOf_lt hj, recordOf_lt hj, inodeUsed_putInode hj, inodeAt_putInode, if_neg (Ne.symm hji)]

theorem Released.names {m₁ : Mem} (hr : Released m i m₁) (h : ImageInv m) (hterm : Terminated m) (hi : i < 256)
    (h0 : i ≠ 0) (hempty : (inodeAt m i).fileType ≠ typeRegular → isDirectoryEmpty (inodeAt m i) = true) (hd : d < 256)
    (hdir : (inodeAt m d).fileType = typeDirectory) (hk : k < 31) (hlive : (inodeAt m d).live k = true) :
    namesOf (unlinked m₁ d i (inodeAt m d) (blockAt m (inodeAt m d).dirBlock) k) = (namesOf m).apply (.unlink d k i) := by
  have hdi := parent_ne_target hdir hk hlive hempty
  have hid := (h.dirBlock_dataId hd ((h.record d hd).block hdir k hk hlive)).1
  have hrec : recordOf (unlinked m₁ d i (inodeAt m d) (blockAt m (inodeAt m d).dirBlock) k) =
      Function.update (recordOf m) i Record.blank := by
    refine recordOf_update ?_ (fun j hj hji => ?_)
    · rw [recordOf_lt hi, hr.inodeUsed_unlinked hid hi, hr.inodeAt_unlinked hi hid hi, if_neg hdi, if_pos rfl, decide_eq_true rfl]
      rfl
    · rw [recordOf_lt hj, recordOf_lt hj, hr.inodeUsed_unlinked hid hj, hr.inodeAt_unlinked hi hid hj, if_neg (Ne.symm hji),
        decide_eq_false (Ne.symm hji), Bool.not_false, Bool.true_and]
      split_ifs with hdj
      · rw [← hdj]
        rfl
      · rfl
  rw [namesOf, entryAt_unlinked hr h hterm hi h0 hempty hd hdir hk hlive, hrec]
  rfl

theorem names_linked (h : ImageInv m) (hterm : Terminated m) (hi : i < 256) (hd : d < 256)
    (hdir : (inodeAt m d).fileType = typeDirectory) (hne : (inodeAt m d).dirBlock ≠ 0)
    (hroom : (inodeAt m d).entryCount ≠ 31) (hname : FitsSlot name) :
    namesOf (linked m i d name) = (namesOf m).apply (.link d (inodeAt m d).firstVacant name i) := by
  have hoff : OffTable (inodeAt m d).dirBlock := h.offTable hd
  have hdid := (h.dirBlock_dataId hd hne).1
  have hrec : recordOf (linked m i d name) = if i = d then recordOf m
      else Function.update (recordOf m) i { recordOf m i with links := (recordOf m i).links + 1 } := by
    split_ifs with hid
    · funext j
      by_cases hj : j < 256
      · rw [recordOf_lt hj, recordOf_lt hj, inodeUsed_linked hdid hj, inodeAt_linked hoff hj, hid]
        split_ifs with hdj
        · rw [← hdj]
          rfl
        · rfl
      · rw [recordOf_ge (by omega), recordOf_ge (by omega)]
    · refine recordOf_update ?_ (fun j hj hji => ?_)
      · rw [recordOf_lt hi, recordOf_lt hi, inodeUsed_linked hdid hi, inodeAt_linked hoff hi, if_neg (Ne.symm hid), if_pos rfl]
      · rw [recordOf_lt hj, recordOf_lt hj, inodeUsed_linked hdid hj, inodeAt_linked hoff hj, if_neg (Ne.symm hji)]
        split_ifs with hdj
        · rw [← hdj]
          rfl
        · rfl
  rw [namesOf, entryAt_linked h hterm hi hd hdir hne hroom hname, hrec]
  show _ = ite _ _ _
  split_ifs <;> rfl

theorem names_withDirectory (h : ImageInv m) (hterm : Terminated m) (hd : d < 256)
    (hdir : (inodeAt m d).fileType = typeDirectory) (hdb : (inodeAt m d).dirBlock ≠ 0) (hif : firstFreeInode m ≠ sizeMax)
    (hf : firstFree m ≠ sizeMax) (hroom : (inodeAt m d).entryCount ≠ 31) (hname : FitsSlot name) (junk : Inode) :
    namesOf (withDirectory m d (firstFreeInode m) (firstFree m) name junk) =
      (namesOf m).apply (.create d (inodeAt m d).firstVacant name (firstFreeInode m) typeDirectory) := by
  obtain ⟨hc,hcfree,_⟩ := firstFreeInode_spec hif
  obtain ⟨hb,_⟩ := firstFree_spec h.sound.sys hf
  have hoff : OffTable (inodeAt m d).dirBlock := h.offTable hd
  have hdc : d ≠ firstFreeInode m := by
    intro he
    rw [← he, (h.record d hd).marked hdir] at hcfree
    cases hcfree
  have hid := (h.dirBlock_dataId hd hdb).1
  have hrec : recordOf (withDirectory m d (firstFreeInode m) (firstFree m) name junk) = Function.update (recordOf m)
      (firstFreeInode m) ⟨true,typeDirectory,UInt64.ofNat (firstFreeInode m),1⟩ := by
    refine recordOf_update ?_ (fun j hj hjc => ?_)
    · rw [recordOf_lt hc, inodeUsed_withDirectory hb hid hc, decide_eq_true rfl, Bool.true_or, inodeAt_withDirectory hc hb hoff hc, if_neg hdc,
        if_pos rfl]
      rfl
    · rw [recordOf_lt hj, recordOf_lt hj, inodeUsed_withDirectory hb hid hj, decide_eq_false (Ne.symm hjc), Bool.false_or,
        inodeAt_withDirectory hc hb hoff hj, if_neg (Ne.symm hjc)]
      split_ifs with hdj
      · rw [← hdj]
        rfl
      · rfl
  rw [namesOf, entryAt_withDirectory h hterm hd hdir hdb hif hf hroom hname junk, hrec]
  rfl

theorem names_moved (h : ImageInv m) (hterm : Terminated m) {sp dstFile : ℕ} (srcFile : ℕ) (hs : sp < 256)
    (hdir : (inodeAt m sp).fileType = typeDirectory) (hk : k < 31) (hlive : (inodeAt m sp).live k = true)
    (hd : dstFile < 256) (hdb : (inodeAt m dstFile).dirBlock ≠ 0) (hsd : sp ≠ dstFile)
    (hv : (inodeAt m dstFile).firstVacant < 31) (hname : name.length < 32) :
    namesOf (moved m sp k (inodeAt m dstFile).dirBlock (inodeAt m dstFile).firstVacant srcFile name) =
      (namesOf m).apply (.drop sp k) := by
  have hsid := (h.dirBlock_dataId hs ((h.record sp hs).block hdir k hk hlive)).1
  have hdid := (h.dirBlock_dataId hd hdb).1
  have hrec : recordOf (moved m sp k (inodeAt m dstFile).dirBlock (inodeAt m dstFile).firstVacant srcFile name) =
      recordOf m := by
    funext j
    by_cases hj : j < 256
    · rw [recordOf_lt hj, recordOf_lt hj, inodeUsed_moved hsid hdid _ hj, inodeAt_moved hsid hdid _ hj]
      split_ifs with hsj
      · rw [← hsj]
        rfl
      · rfl
    · rw [recordOf_ge (by omega), recordOf_ge (by omega)]
  rw [namesOf, entryAt_moved h hterm srcFile hs hdir hk hlive hd hdb hsd hv hname, hrec]
  rfl

end Changes

section Enabled
variable {m : Mem} {d k i : ℕ} {name : CStr}

theorem record_kind (hi : i < 256) : ((namesOf m).record i).kind = (inodeAt m i).fileType := by
  show (recordOf m i).kind = _
  rw [recordOf_lt hi]

theorem record_used (hi : i < 256) : ((namesOf m).record i).used = inodeUsed m i := by
  show (recordOf m i).used = _
  rw [recordOf_lt hi]

theorem record_links (hi : i < 256) : ((namesOf m).record i).links = (inodeAt m i).linkCount := by
  show (recordOf m i).links = _
  rw [recordOf_lt hi]

/-- The search of `fs_remove` and `fs_move` for the slot of a name. -/
theorem firstPrefix_of_index (hd : d < 256) (hdir : (inodeAt m d).fileType = typeDirectory) (hname : 0 ∉ name)
    (h : getFileIndexInDir (inodeAt m d) (blockAt m (inodeAt m d).dirBlock) name = some k) :
    Names.FirstPrefix (entryAt m) d name k := by
  obtain ⟨hk,hlive,htest,hmin⟩ := firstEntry_some h
  refine ⟨⟨_,_,entryAt_live hd hk hdir hlive,(strncmpEq_length hname).mp htest⟩,fun j hj a i he hpre => ?_⟩
  obtain ⟨⟨_,_,_,hl⟩,hn,_⟩ := entryAt_eq_some.mp he
  refine hmin j hj ⟨hl,?_⟩
  rw [hn]
  exact (strncmpEq_length hname).mpr hpre

theorem room_firstVacant (h : ImageInv m) (hd : d < 256) (hdir : (inodeAt m d).fileType = typeDirectory)
    (hroom : (inodeAt m d).entryCount ≠ 31) (hname : FitsSlot name) (hex : checkFileExist m d name = false) :
    (namesOf m).Room d (inodeAt m d).firstVacant name := by
  obtain ⟨hv,_⟩ := (inodeAt m d).firstVacant_spec.resolve_left (fun he => hroom (Inode.entryCount_full.mpr he.2))
  exact ⟨hd,hv,(record_used hd).trans ((h.record d hd).marked hdir),(record_kind hd).trans hdir,hname,
    entryAt_firstVacant hroom,no_edge_of_absent h hd hname.1 hex⟩

/-- The inode that a search has found is that of an entry. -/
theorem TidyImage.edge_of_exists (h : TidyImage m) (hd : d < 256) (hdir : (inodeAt m d).fileType = typeDirectory)
    (hname : 0 ∉ name) (hex : checkFileExist m d name = true) : Edge (entryAt m) d name (getFileInodeID m d name) := by
  obtain ⟨i,he⟩ := (h.searchable.checkFileExist_iff hd hdir hname).mp hex
  rwa [h.searchable.getFileInodeID_of_edge hname he]

theorem no_edge_of_empty (h : (inodeAt m i).fileType ≠ typeRegular → isDirectoryEmpty (inodeAt m i) = true) (a : CStr)
    (e : ℕ) : ¬ Edge (entryAt m) i a e := by
  rintro ⟨j,he⟩
  obtain ⟨⟨_,hj,hdir,hlive⟩,_⟩ := entryAt_eq_some.mp he
  have hall := (isDirectoryEmpty_iff _).mp (h (by rw [hdir]; decide)) j hj
  rw [hlive] at hall
  cases hall

end Enabled

/-- The calls that change directories. -/
def Naming : Call → Prop
  | .create _ _ => True
  | .remove _ => True
  | .move _ _ _ => True
  | .link _ _ => True
  | _ => False

/-- `fs_move` makes a directory at the destination. -/
structure MoveMakes (m : Mem) (src dst : CStr) : Prop where
  checked : MoveChecked m src dst
  absent : checkFileExist m (parentOf m dst) (basename dst) = false
  room : (inodeAt m (parentOf m dst)).entryCount ≠ 31
  inode : firstFreeInode m ≠ sizeMax
  block : firstFree m ≠ sizeMax

/-- `fs_move` finds the destination, and it is not the parent of the source. -/
structure MoveFinds (m : Mem) (src dst : CStr) : Prop where
  checked : MoveChecked m src dst
  found : checkFileExist m (parentOf m dst) (basename dst) = true
  apart : parentOf m src ≠ getFileInodeID m (parentOf m dst) (basename dst)

/-- `fs_move` marks an inode for a directory that it has no block for. -/
structure MoveTakes (m : Mem) (src dst : CStr) : Prop where
  checked : MoveChecked m src dst
  absent : checkFileExist m (parentOf m dst) (basename dst) = false
  room : (inodeAt m (parentOf m dst)).entryCount ≠ 31
  inode : firstFreeInode m ≠ sizeMax
  full : firstFree m = sizeMax

/-- `fs_remove` has found an inode, and gives it back unless it has further links. -/
structure RemoveFinds (m : Mem) (path : CStr) (i : ℕ) : Prop where
  target : removeTarget m path = some i
  empty : (inodeAt m i).fileType ≠ typeRegular → isDirectoryEmpty (inodeAt m i) = true

/-- The directory that `fs_move` makes. -/
def moveDirectory (m : Mem) (dst : CStr) : Change :=
  .create (parentOf m dst) (inodeAt m (parentOf m dst)).firstVacant (basename dst) (firstFreeInode m) typeDirectory

/-- The changes that a call with this return value makes. -/
inductive CallChanges (m : Mem) : Call → ℤ → List Change → Prop where
  | refused {c : Call} {ret : ℤ} : Naming c → ret ≠ 0 → CallChanges m c ret []
  | other {c : Call} {ret : ℤ} : ¬ Naming c → CallChanges m c ret []
  | create {p : PathArg} {type : FileT} {tokens : List CStr} {d k c : ℕ} {name : CStr} :
      CreateChecked m p.chars tokens d name → CallChanges m (.create (some p) type) 0
        [.create d k name c (childInode type c).fileType]
  | lower {p : PathArg} {i : ℕ} : RemoveFinds m p.chars i → (inodeAt m i).fileType = typeRegular →
      (inodeAt m i).linkCount > 1 → Edge (entryAt m) (parentOf m p.chars) (basename p.chars) i →
      CallChanges m (.remove (some p)) 0 [.lower i]
  | unlink {p : PathArg} {i k : ℕ} : RemoveFinds m p.chars i →
      ((inodeAt m i).fileType = typeRegular → ¬ (inodeAt m i).linkCount > 1) →
      Edge (entryAt m) (parentOf m p.chars) (basename p.chars) i →
      Names.FirstPrefix (entryAt m) (parentOf m p.chars) (basename p.chars) k →
      CallChanges m (.remove (some p)) 0 [.unlink (parentOf m p.chars) k i]
  | link {p q : PathArg} {k i : ℕ} : LinkChecked m p.chars q.chars →
      Edge (entryAt m) (parentOf m p.chars) (basename p.chars) i →
      CallChanges m (.link (some p) (some q)) 0 [.link (parentOf m q.chars) k (basename q.chars) i]
  | take {p q : PathArg} {junk : Inode} {ret : ℤ} {c : ℕ} : MoveTakes m p.chars q.chars → ret ≠ 0 →
      CallChanges m (.move (some p) (some q) junk) ret [.take c]
  | drop {p q : PathArg} {junk : Inode} {k : ℕ} : MoveFinds m p.chars q.chars →
      Names.FirstPrefix (entryAt m) (parentOf m p.chars) (basename p.chars) k →
      CallChanges m (.move (some p) (some q) junk) 0 [.drop (parentOf m p.chars) k]
  | replace {p q : PathArg} {junk : Inode} {k : ℕ} : MoveMakes m p.chars q.chars →
      Names.FirstPrefix ((namesOf m).apply (moveDirectory m q.chars)).entries (parentOf m p.chars) (basename p.chars) k →
      CallChanges m (.move (some p) (some q) junk) 0 [moveDirectory m q.chars,.drop (parentOf m p.chars) k]

section Calls
variable {s s' : F19FS} {m m' : Mem} {ret : ℤ}

/-- The changes are those of the call, each can be made, and they lead to the name space after it. -/
def Refines (m : Mem) (c : Call) (ret : ℤ) (m' : Mem) : Prop :=
  ∃ l, CallChanges m c ret l ∧ Names.Along Names.Enabled (namesOf m) l ∧ namesOf m' = (namesOf m).applyAll l

theorem Refines.refused {c : Call} (hc : Naming c) (hret : ret ≠ 0) (he : namesOf m' = namesOf m) : Refines m c ret m' :=
  ⟨[],.refused hc hret,trivial,he⟩

theorem Refines.single {c : Call} {ch : Change} (hc : CallChanges m c ret [ch]) (hen : (namesOf m).Enabled ch)
    (he : namesOf m' = (namesOf m).apply ch) : Refines m c ret m' := ⟨[ch],hc,⟨hen,trivial⟩,he⟩

theorem fsCreate_refines {path : Option PathArg} {type : FileT} (ht : TidyImage s.image)
    (htidy : ∀ p ∈ path, CreateTidy s.image p.chars) (h : fsCreate s (pathOf path) type = some (ret,s')) :
    Refines s.image (.create path type) ret s'.image := by
  rcases (fsCreate_effect ht.inv h).2 with ⟨hr,he⟩ | ⟨q,tokens,d,name,hq,_,hch,⟨hr,hb⟩ | ⟨hr,k,b,c,hcr⟩⟩
  · exact Refines.refused trivial (by omega) (by rw [he])
  · exact Refines.refused trivial (by omega) (hb.names ht.inv)
  · obtain ⟨p,hp,rfl⟩ := mem_pathOf hq
    obtain rfl := Option.mem_def.mp hp
    subst hr
    have hname := hch.fits hq
    have hfirst : k = 0 → ∀ j < 31, (inodeAt s.image d).live j = false := by
      rintro rfl
      exact htidy p hp tokens d name hch hcr.vacant
    refine Refines.single (.create hch) (.create ?_ hcr.inodeLt ((record_used hcr.inodeLt).trans hcr.inodeFree) ?_)
      (hcr.names ht.inv hch.lt hch.directory hname ht.terminated hfirst)
    · refine ⟨hch.lt,hcr.slot,(record_used hch.lt).trans ((ht.inv.record d hch.lt).marked hch.directory),
        (record_kind hch.lt).trans hch.directory,hname,?_,?_⟩
      · refine entryAt_eq_none.mpr (fun hc => ?_)
        have hl := hc.2.2.2
        rw [hcr.vacant] at hl
        cases hl
      · exact (no_edge_iff hch.lt hch.directory).mpr hcr.absent
    · rw [childInode]
      dsimp only
      split_ifs
      · exact Or.inr rfl
      · exact Or.inl rfl

theorem fsRemove_refines {path : Option PathArg} (ht : TidyImage s.image)
    (hblock : ∀ p ∈ path, RemoveSafe s.image p.chars) (h : fsRemove s (pathOf path) = some (ret,s')) :
    Refines s.image (.remove path) ret s'.image := by
  have hi := ht.inv
  rcases fsRemove_cases h with ⟨hr,rfl⟩ | ⟨q,hq,hp,hid,htar,hr,_⟩
  · exact Refines.refused trivial hr.ne rfl
  obtain ⟨p,hmem,rfl⟩ := mem_pathOf hq
  obtain rfl := Option.mem_def.mp hmem
  obtain ⟨hd,hdir⟩ := parentOf_spec hi hp
  have hf := getFileInodeID_lt s.image (parentOf s.image p.chars) (basename p.chars)
  have hnul := basename_nulFree p.nulFree
  have hedge : Edge (entryAt s.image) (parentOf s.image p.chars) (basename p.chars)
      (getFileInodeID s.image (parentOf s.image p.chars) (basename p.chars)) :=
    ht.edge_of_exists hd hdir hnul (by
      by_contra hex
      exact hid (ht.searchable.getFileInodeID_of_none hd hdir hnul
        (no_edge_of_absent hi hd hnul (Bool.eq_false_iff.mpr hex))))
  rcases removeIn_cases hi hd hid (hblock p rfl _ htar) hr with
    ⟨⟨hret,_⟩,he⟩ | ⟨rfl,hreg,hlinks,he⟩ | ⟨m₁,k,rfl,hlinks,hempty,hrel,hk,he⟩
  · exact Refines.refused trivial (by omega) (by rw [he])
  · refine Refines.single (.lower ⟨htar,fun hn => absurd hreg hn⟩ hreg hlinks hedge)
      (.lower hedge ((record_kind hf).trans hreg) (by rw [record_links hf]; exact hlinks)) ?_
    rw [he]
    exact names_lower hi hf
  · obtain ⟨hk31,hlive,_⟩ := firstEntry_some hk
    have hfirst := firstPrefix_of_index hd hdir hnul hk
    refine Refines.single (.unlink ⟨htar,hempty⟩ hlinks hedge hfirst) (.unlink hedge hfirst hid ?_ (no_edge_of_empty hempty)) ?_
    · rw [record_kind hf, record_links hf]
      exact hlinks
    · rw [he]
      exact hrel.names hi ht.terminated hf hid hempty hd hdir hk31 hlive

theorem fsLink_refines {src dst : Option PathArg} (ht : TidyImage s.image)
    (hsafe : ∀ p ∈ src, ∀ q ∈ dst, LinkSafe s.image p.chars q.chars) (h : fsLink s (pathOf src) (pathOf dst) = (ret,s')) :
    Refines s.image (.link src dst) ret s'.image := by
  have hi := ht.inv
  have hnull : ∀ {src dst : Option PathArg}, fsLink s (pathOf src) (pathOf dst) = (-1,s) →
      fsLink s (pathOf src) (pathOf dst) = (ret,s') → Refines s.image (.link src dst) ret s'.image := by
    intro src dst hn h
    rw [hn] at h
    cases h
    exact Refines.refused trivial (by decide) rfl
  cases src with
  | none => exact hnull rfl h
  | some p =>
    cases dst with
    | none => exact hnull rfl h
    | some q =>
      obtain ⟨r,m',hr⟩ : ∃ r m', fsLinkImage s.image p.chars q.chars = (r,m') := ⟨_,_,rfl⟩
      simp only [fsLink, pathOf, Option.map_some, hr] at h
      cases h
      rcases fsLinkImage_cases hi hr with ⟨hneg,he⟩ | ⟨rfl,hchk,he⟩
      · exact Refines.refused trivial hneg.ne (by rw [← he])
      · obtain ⟨hs,hsdir⟩ := parentOf_spec hi hchk.srcParent
        obtain ⟨hd,hdir⟩ := parentOf_spec hi hchk.dstParent
        have hlt := getFileInodeID_lt s.image (parentOf s.image p.chars) (basename p.chars)
        have hname : FitsSlot (basename q.chars) := ⟨basename_nulFree q.nulFree,hchk.dstName⟩
        have hedge := ht.edge_of_exists hs hsdir (basename_nulFree p.nulFree) hchk.srcExists
        refine Refines.single (.link hchk hedge) (.link (room_firstVacant hi hd hdir hchk.room hname hchk.dstFree) hedge ?_) ?_
        · rw [record_links hlt]
          exact hchk.links
        · show namesOf m' = _
          rw [he]
          exact names_linked hi ht.terminated hlt hd hdir (hsafe p rfl q rfl hchk) hchk.room hname

/-- The entry of the source is taken out. -/
theorem drop_refines {sp dstFile k : ℕ} (srcFile : ℕ) {name : CStr} (ht : TidyImage m) (hs : sp < 256)
    (hdir : (inodeAt m sp).fileType = typeDirectory) (hname : FitsSlot name)
    (hk : getFileIndexInDir (inodeAt m sp) (blockAt m (inodeAt m sp).dirBlock) name = some k) (hd : dstFile < 256)
    (hdb : (inodeAt m dstFile).dirBlock ≠ 0) (hsd : sp ≠ dstFile) (hv : (inodeAt m dstFile).firstVacant < 31) {i : ℕ}
    (hedge : Edge (entryAt m) sp name i) : Names.FirstPrefix (entryAt m) sp name k ∧
      (namesOf m).Enabled (.drop sp k) ∧
      namesOf (moved m sp k (inodeAt m dstFile).dirBlock (inodeAt m dstFile).firstVacant srcFile name) =
        (namesOf m).apply (.drop sp k) := by
  obtain ⟨hk31,hlive,_⟩ := firstEntry_some hk
  have hfirst := firstPrefix_of_index hs hdir hname.1 hk
  exact ⟨hfirst,.drop hedge hfirst,names_moved ht.inv ht.terminated srcFile hs hdir hk31 hlive hd hdb hsd hv hname.2⟩

theorem MoveResult.refines {p q : PathArg} {junk : Inode} (ht : TidyImage m) (hchk : MoveChecked m p.chars q.chars)
    (hr : MoveResult m p.chars q.chars junk ret m') : Refines m (.move (some p) (some q) junk) ret m' := by
  have hi := ht.inv
  obtain ⟨hs,hsdir⟩ := parentOf_spec hi hchk.srcParent
  obtain ⟨hd,hddir⟩ := parentOf_spec hi hchk.dstParent
  have hsname : FitsSlot (basename p.chars) := ⟨basename_nulFree p.nulFree,hchk.srcName⟩
  have hdname : FitsSlot (basename q.chars) := ⟨basename_nulFree q.nulFree,hchk.dstName⟩
  have hedge := ht.edge_of_exists hs hsdir hsname.1 hchk.srcExists
  cases hr with
  | stop hneg => exact Refines.refused trivial hneg.ne rfl
  | inodeTaken hneg hex hroom hfull hif =>
    obtain ⟨hlt,hfree,_⟩ := firstFreeInode_spec hif
    exact Refines.single (.take ⟨hchk,hex,hroom,hif,hfull⟩ hneg.ne) (.take hlt ((record_used hlt).trans hfree))
      (names_take hi hlt)
  | blockTaken hneg _ _ _ hf =>
    obtain ⟨hb,hbfree,_⟩ := firstFree_spec hi.sound.sys hf
    refine Refines.refused trivial hneg.ne (namesOf_same ?_ (recordOf_same (fun i hi' => ?_) (fun i hi' => ?_)))
    · refine entryAt_keep hi (fun e he => ?_) (fun b hb' hu => ?_)
      · rw [inodeAt_putBlock hb he, inodeAt_setUsed he]
        exact SameEntries.refl _
      · have hne : firstFree m ≠ b := by
          rintro rfl
          rw [hu] at hbfree
          cases hbfree
        rw [blockAt_putBlock, if_neg hne, blockAt_setUsed hb']
    · rw [inodeUsed_putBlock hb hi', inodeUsed_setUsed hi']
    · rw [inodeAt_putBlock hb hi', inodeAt_setUsed hi']
  | moved hex he hne hdb hv hk =>
    subst he
    obtain ⟨hfirst,hen,hnames⟩ := drop_refines _ ht hs hsdir hsname hk (getFileInodeID_lt _ _ _) hdb hne hv hedge
    exact Refines.single (.drop ⟨hchk,hex,hne⟩ hfirst) hen hnames
  | @made m₁ c k hex hpb hroom hif hf hcid hm₁ hne hv hk =>
    obtain ⟨hlt,hfree,_⟩ := firstFreeInode_spec hif
    subst hcid
    have hnames₁ : namesOf m₁ = (namesOf m).apply (moveDirectory m q.chars) := by
      rw [hm₁]
      exact names_withDirectory hi ht.terminated hd hddir hpb hif hf hroom hdname junk
    have hvac := entryAt_firstVacant hroom
    have hmap : entryAt m₁ = update (entryAt m) (parentOf m q.chars) (inodeAt m (parentOf m q.chars)).firstVacant
        (some (basename q.chars,firstFreeInode m)) := congrArg Names.entries hnames₁
    have ht₁ : TidyImage m₁ := by
      rw [hm₁]
      exact ht.made hd hddir hpb hif hf hroom hdname hex junk
    have hedge₁ : Edge (entryAt m₁) (parentOf m p.chars) (basename p.chars)
        (getFileInodeID m (parentOf m p.chars) (basename p.chars)) := by
      rw [hmap]
      exact (edge_update_some hvac).mpr (Or.inr hedge)
    obtain ⟨hfirst,hen,hnames⟩ := drop_refines (getFileInodeID m₁ (parentOf m p.chars) (basename p.chars)) ht₁ hs
      (made_srcParent hi hd hddir hs hsdir hif hf hne hm₁) hsname hk hlt (made_dirBlock hi hd hddir hif hf hm₁) hne hv hedge₁
    rw [hnames₁] at hen hnames
    refine ⟨_,.replace ⟨hchk,hex,hroom,hif,hf⟩ (hnames₁ ▸ hfirst),⟨?_,hen,trivial⟩,hnames⟩
    exact .create (room_firstVacant hi hd hddir hroom hdname hex) hlt ((record_used hlt).trans hfree) (Or.inl rfl)

theorem fsMove_refines {src dst : Option PathArg} {junk : Inode} (ht : TidyImage s.image)
    (hsafe : ∀ p ∈ src, ∀ q ∈ dst, MoveSafe s.image p.chars q.chars)
    (h : fsMove s (pathOf src) (pathOf dst) junk = some (ret,s')) : Refines s.image (.move src dst junk) ret s'.image := by
  have hms : ∀ p ∈ pathOf src, ∀ q ∈ pathOf dst, MoveSafe s.image p q := by
    intro p hp q hq
    obtain ⟨a,ha,rfl⟩ := mem_pathOf hp
    obtain ⟨b,hb,rfl⟩ := mem_pathOf hq
    exact hsafe a ha b hb
  rcases (fsMove_result ht.inv (nulFree_pathOf src) (nulFree_pathOf dst) hms h).2 with ⟨hneg,he⟩ | ⟨p,q,hp,hq,hchk,hr⟩
  · exact Refines.refused trivial hneg.ne (by rw [he])
  · obtain ⟨p,hsrc,rfl⟩ := mem_pathOf hp
    obtain ⟨q,hdst,rfl⟩ := mem_pathOf hq
    obtain rfl := Option.mem_def.mp hsrc
    obtain rfl := Option.mem_def.mp hdst
    exact hr.refines ht hchk

theorem fsWrite_names {fd : ℤ} {src : Option Mem} {nbyte : UInt64} (hi : ImageInv s.image) (hsafe : WriteSafe s fd nbyte)
    (h : fsWrite s fd src nbyte = some (ret,s')) : namesOf s'.image = namesOf s.image := by
  refine namesOf_same (fsWrite_entries hi hsafe h) ?_
  rcases fsWrite_account hi hsafe h with rfl | ⟨_,_,m',x',size,hext,_,him⟩
  · rfl
  · funext j
    by_cases hj : j < 256
    · have hf := (s.fileOf fd).isLt
      rw [recordOf_lt hj, recordOf_lt hj, him, inodeUsed_putInode hj, hext.inodeBits j hj, inodeAt_putInode]
      split_ifs with hfj
      · rw [← hfj]
        have hattrs : x'.attributes = (inodeAt s.image (s.fileOf fd)).attributes := hext.attrs
        have hk := congrArg Inode.fileType hattrs
        have hn := congrArg Inode.inodeNumber hattrs
        have hl := congrArg Inode.linkCount hattrs
        show Record.mk _ x'.fileType x'.inodeNumber x'.linkCount = _
        rw [show x'.fileType = _ from hk, show x'.inodeNumber = _ from hn, show x'.linkCount = _ from hl]
        rfl
      · rw [hext.inodes j hj]
    · rw [recordOf_ge (by omega), recordOf_ge (by omega)]

end Calls

/-- Every tidy call makes changes of its list. -/
theorem call_refines {s s' : F19FS} {c : Call} {ret : ℤ} (ht : TidyImage s.image) (hg : Tidy s c)
    (h : call s c = some (ret,s')) : Refines s.image c ret s'.image := by
  obtain ⟨hsafe,htidy⟩ := hg
  have hsame : ¬ Naming c → namesOf s'.image = namesOf s.image → Refines s.image c ret s'.image :=
    fun hn he => ⟨[],.other hn,trivial,he⟩
  cases c with
  | create path type => exact fsCreate_refines ht htidy h
  | openFile path => exact hsame id (by rw [fsOpen_image h])
  | close fd =>
    have hc : fsClose s fd = (ret,s') := Option.some.inj h
    refine hsame id ?_
    rw [← fsClose_image s fd, hc]
  | read fd dstNull nbyte =>
    obtain ⟨⟨ret',bytes,s''⟩,hr,he⟩ := Option.map_eq_some_iff.mp h
    cases he
    exact hsame id (by rw [fsRead_image hr])
  | write fd src nbyte => exact hsame id (fsWrite_names ht.inv hsafe h)
  | seek fd offset whence => exact hsame id (by rw [fsSeek_image h])
  | remove path => exact fsRemove_refines ht hsafe h
  | move src dst junk => exact fsMove_refines ht hsafe h
  | link src dst => exact fsLink_refines ht hsafe (Option.some.inj h)
  | remount =>
    refine hsame id ?_
    cases h
    rfl

/-- What holds of the name space at first, and is kept by the changes that allowed calls make, holds after every run. -/
theorem names_invariant {I : Names → Prop} {ok : Names → Change → Prop} {guard : F19FS → Call → Prop}
    (h0 : I (namesOf fsFormat.image))
    (hok : ∀ {s c ret l}, TidyImage s.image → I (namesOf s.image) → guard s c → CallChanges s.image c ret l →
      Names.Along ok (namesOf s.image) l)
    (hstep : ∀ n ch, I n → n.Enabled ch ∧ ok n ch → I (n.apply ch)) {s : F19FS}
    (h : Reach step (fun s c => Tidy s c ∧ guard s c) fsFormat s) : TidyImage s.image ∧ I (namesOf s.image) := by
  have hboth : TidyImage fsFormat.image ∧ I (namesOf fsFormat.image) := ⟨tidy_fsFormat,h0⟩
  refine h.invariant (P := fun s => TidyImage s.image ∧ I (namesOf s.image)) hboth ?_
  rintro s s' c ⟨ht,hI⟩ ⟨htidy,hg⟩ hs
  obtain ⟨ret,hc⟩ := step_call hs
  obtain ⟨l,hl,hen,hn⟩ := call_refines ht htidy hc
  refine ⟨step_tidy ht htidy hs,?_⟩
  rw [hn]
  exact Names.Along.invariant hstep (hen.and (hok ht hI hg hl)) hI

theorem recordOf_fsFormat (i : ℕ) : recordOf fsFormat.image i = if i = 0 then ⟨true,typeDirectory,0,1⟩ else Record.blank := by
  by_cases hi : i < 256
  · rw [recordOf_lt hi, inodeUsed_fsFormat hi, inodeAt_fsFormat hi]
    split_ifs with h0
    · rw [decide_eq_true h0]
      rfl
    · rw [decide_eq_false h0]
      rfl
  · rw [recordOf_ge (by omega), if_neg (by omega)]

theorem TidyImage.placed {m : Mem} (h : TidyImage m) : (namesOf m).Placed := by
  refine ⟨fun d k r hr => ?_,fun d k a i he => entryAt_lt he⟩
  obtain ⟨a,i⟩ := r
  obtain ⟨⟨hd,hk,hdir,_⟩,_⟩ := entryAt_eq_some.mp hr
  exact ⟨hd,hk,(record_used hd).trans ((h.inv.record d hd).marked hdir),(record_kind hd).trans hdir⟩

end LiteOSFS
