import LiteOSFS.FileSystem.Sessions
import LiteOSFS.Properties.CursorSteps
import LiteOSFS.Properties.LatestWrite
import LiteOSFS.Properties.SameViews
import LiteOSFS.Properties.ShortWrite

/-! # Which blocks hold what

Two file systems may have the same names, descriptors, sizes and bytes, and keep them in
different blocks with different blocks lost. While what is written fits, what is read was
written and the directories have the blocks that they need, every call gives back the same
in both.
-/
namespace LiteOSFS
open Memory CString Ownership EntryGraph Transition

/-- The return code in a reply. -/
def Reply.ret : Reply → ℤ
  | .code ret => ret
  | .bytes ret _ => ret
  | _ => 0

/-- A call with what it gives back, and the bytes written last on the side. -/
def replyStep (q : F19FS × LastBytes) : Call ⊕ Option PathArg → Option (Reply × F19FS × LastBytes)
  | .inl c => (reply q.1 (.inl c)).map (fun r => (r.1,r.2,lastBytes q.1 q.2 r.1.ret r.2 c))
  | .inr path => (reply q.1 (.inr path)).map (fun r => (r.1,r.2,q.2))

/-- The free blocks pay for all that is to be written, and the cursor comes to no end. -/
structure WriteFits (s : F19FS) (fd : ℤ) (nbyte : UInt64) : Prop where
  offset : (s.descriptor fd.toNat).locateOffset.toNat < 1024
  affordable : nbyte.toNat ∈ affordableCounts s fd nbyte
  inRange : (s.descriptor fd.toNat).position + nbyte.toNat < 65536 * 1024

/-- The file is a regular one in use, and all that `fs_read` asks for was written. -/
structure ReadKnown (q : F19FS × LastBytes) (fd : ℤ) (nbyte : UInt64) : Prop where
  used : inodeUsed q.1.image (q.1.fileOf fd) = true
  regular : (q.1.inode (q.1.fileOf fd)).fileType = typeRegular
  offset : (q.1.descriptor fd.toNat).locateOffset.toNat < 1024
  known : ∀ k < readCount (q.1.descriptor fd.toNat) (q.1.inode (q.1.fileOf fd)).fileSize.toNat nbyte.toNat,
    (q.2 (q.1.fileOf fd) ((q.1.descriptor fd.toNat).position + k)).isSome = true
  inRange : (q.1.descriptor fd.toNat).position +
    readCount (q.1.descriptor fd.toNat) (q.1.inode (q.1.fileOf fd)).fileSize.toNat nbyte.toNat < 65536 * 1024

/-- What a call needs for its reply not to depend on the blocks. -/
def Served (q : F19FS × LastBytes) : Call ⊕ Option PathArg → Prop
  | .inl (.openFile path) => OpensFile q.1.image path
  | .inl (.read fd dstNull nbyte) => q.1.Opened fd → dstNull = false → ReadKnown q fd nbyte
  | .inl (.write fd src nbyte) => HistoryKept q.1 (.write fd src nbyte) ∧
      (q.1.Opened fd → src.isSome = true → WriteFits q.1 fd nbyte)
  | .inl (.seek fd _ _) => q.1.Opened fd → inodeUsed q.1.image (q.1.fileOf fd) = true
  | .inl c => c.Ready q.1.image ∧ HistoryKept q.1 c
  | .inr _ => True

/-- The same to every call: names, descriptors, sizes and the bytes written last. -/
structure Indistinct (p q : F19FS × LastBytes) : Prop where
  view : SameView p.1 q.1
  last : ∀ i < 256, ∀ o, p.2 i o = q.2 i o
  remembers : Remembers p
  remembers' : Remembers q

section Reply
variable {s s' t t' : F19FS} {c : Call} {r : Reply} {fd : ℤ} {nbyte : UInt64} {src : Mem} {g g' : LastBytes}

theorem reply_eq (hc : ∀ fd dstNull n, c ≠ .read fd dstNull n) (s : F19FS) :
    reply s (.inl c) = (call s c).map (fun r => (.code r.1,r.2)) := by
  cases c with
  | read fd dstNull nbyte => exact absurd rfl (hc fd dstNull nbyte)
  | _ => rfl

theorem call_of_reply (h : reply s (.inl c) = some (r,s')) : call s c = some (r.ret,s') := by
  by_cases hc : ∃ fd dstNull n, c = .read fd dstNull n
  · obtain ⟨fd,dstNull,n,rfl⟩ := hc
    obtain ⟨x,hx,he⟩ := Option.map_eq_some_iff.mp h
    cases he
    rw [call, hx]
    rfl
  · rw [reply_eq (fun fd dstNull n he => hc ⟨fd,dstNull,n,he⟩)] at h
    obtain ⟨x,hx,he⟩ := Option.map_eq_some_iff.mp h
    cases he
    exact hx

theorem putDescriptor_self (s : F19FS) (fd : ℕ) : putDescriptor s.fdTable fd (s.descriptor fd) = s.fdTable := by
  rw [putDescriptor]
  refine copyIn_eq_self (fun i hi => ?_)
  rw [F19FS.descriptor, FileDescriptor.toBytes_ofBytes _ hi, window_apply_lt hi]

/-- A write that fits writes all, and what it leaves of the sizes and descriptors does not depend on the blocks. -/
theorem WriteFits.write (h : WriteFits s fd nbyte) (src : Mem) (hi : ImageInv s.image) (ho : s.Opened fd)
    (hsafe : WriteSafe s fd nbyte) (hcount : ¬ SpillDrops s.image (s.inode (s.fileOf fd))
      (s.descriptor fd.toNat).locateOrder.toNat (s.descriptor fd.toNat).locateOffset.toNat nbyte.toNat) :
    ∃ s', fsWrite s fd (some src) nbyte = some ((nbyte.toNat : ℤ),s') ∧
      s'.fdTable = putDescriptor s.fdTable fd.toNat (updateFD (s.descriptor fd.toNat) nbyte.toNat) ∧
      (∀ j < 256, (s'.inode j).fileSize = if (s.fileOf fd).val = j then (s.inode j).fileSize + nbyte
        else (s.inode j).fileSize) ∧ ∀ j < 256, inodeUsed s'.image j = inodeUsed s.image j := by
  obtain ⟨r,s',hw⟩ := fsWrite_isSome src hi ho hsafe h.offset (fun k hk =>
    (Nat.add_le_add_left hk.1 _).trans_lt h.inRange)
  rcases fsWrite_done hi hsafe h.offset.le hw with ⟨hneg,_⟩ | ⟨r',sum,m',x',he,hd⟩
  · omega
  obtain rfl : r = r' := by exact_mod_cast he
  obtain rfl : r = sum := hd.counted.resolve_right (fun hc => hcount hc.1)
  have hmax := (hd.greatest hi hsafe h.offset).1
  obtain rfl : r = nbyte.toNat := le_antisymm hmax.1.1 (hmax.2 h.affordable)
  refine ⟨s',hw,?_,fun j hj => ?_,fun j hj => hd.used_eq hj⟩
  · rcases hd.table with ht | ⟨h0,ht⟩
    · exact ht
    · rw [ht, h0, updateFD_none h.offset, putDescriptor_self]
  · rw [hd.inode_eq hj, UInt64.ofNat_toNat]

theorem SameView.fsWrite (h : SameView s t) (hs : HistoryKept s (.write fd (some src) nbyte))
    (hsf : s.Opened fd → WriteFits s fd nbyte) (ht : HistoryKept t (.write fd (some src) nbyte))
    (htf : t.Opened fd → WriteFits t fd nbyte) : Option.Rel (Matched SameView)
      (LiteOSFS.fsWrite s fd (some src) nbyte) (LiteOSFS.fsWrite t fd (some src) nbyte) := by
  have hi := h.names.tidy.inv
  have hi' := h.names.tidy'.inv
  by_cases ho : s.Opened fd
  · have ho' := h.table.opened_iff.mp ho
    obtain ⟨_,_,hguard⟩ := hs.2 ho rfl
    obtain ⟨_,_,hguard'⟩ := ht.2 ho' rfl
    obtain ⟨s',hw,htab,hsize,hused⟩ := (hsf ho).write src hi ho hs.1 hguard.counted
    obtain ⟨t',hw',htab',hsize',hused'⟩ := (htf ho').write src hi' ho' ht.1 hguard'.counted
    rw [hw, hw']
    refine Option.Rel.some ⟨rfl,⟨⟨?_,?_,?_⟩,?_,fun j hj hu => ?_⟩⟩
    · exact ((fsWrite_sameNames hi hs.1 hw).trans h.names.toSameNames).trans (fsWrite_sameNames hi' ht.1 hw').symm
    · exact step_tidy h.names.tidy (c := .write fd (some src) nbyte) ⟨hs.1,trivial⟩ (step_of_call hw)
    · exact step_tidy h.names.tidy' (c := .write fd (some src) nbyte) ⟨ht.1,trivial⟩ (step_of_call hw')
    · obtain ⟨m,a⟩ := s'
      obtain ⟨n,b⟩ := t'
      obtain rfl : a = _ := htab
      obtain rfl : b = _ := htab'
      rw [← h.table.descriptor_eq ho]
      exact h.table.put ho.lt _ m n
    · have hj' := h.sizes j hj ((hused j hj) ▸ hu)
      have hsz := hsize j hj
      have hsz' := hsize' j hj
      rw [← h.table.fileOf_eq ho] at hsz'
      have hold : (s.inode j).fileSize = (t.inode j).fileSize := hj'
      rw [← hold] at hsz'
      exact hsz.trans hsz'.symm
  · have ho' : ¬ t.Opened fd := fun hc => ho (h.table.opened_iff.mpr hc)
    have hstop : ∀ r : ℤ, Option.Rel (Matched SameView) (some (r,s)) (some (r,t)) := fun r => Option.Rel.some ⟨rfl,h⟩
    simp only [LiteOSFS.fsWrite]
    refine rel_ite Iff.rfl (fun _ => hstop _) (fun hr => ?_)
    have hclosed : s.isOpen fd.toNat = false := by
      by_contra hc
      exact ho ⟨by omega,by omega,by simpa using hc⟩
    have hclosed' : t.isOpen fd.toNat = false := by
      by_contra hc
      exact ho' ⟨by omega,by omega,by simpa using hc⟩
    rw [hclosed, hclosed']
    exact hstop _

/-- The bytes that a read returns are then those written last. -/
theorem ReadKnown.read (h : ReadKnown (s,g) fd nbyte) (hq : Remembers (s,g)) (ho : s.Opened fd) (hn : nbyte ≠ 0) :
    ∃ bytes : List UInt8, bytes.length = readCount (s.descriptor fd.toNat) (s.inode (s.fileOf fd)).fileSize.toNat nbyte.toNat ∧
      (∀ k (hk : k < bytes.length), g (s.fileOf fd) ((s.descriptor fd.toNat).position + k) = some bytes[k]) ∧
      fsRead s fd false nbyte = some ((bytes.length : ℤ),bytes,
        F19FS.mk s.image (putDescriptor s.fdTable fd.toNat (updateFD (s.descriptor fd.toNat) bytes.length))) := by
  have hi : ImageInv s.image := hq.image
  have hfile : (tableOf s.image (s.fileOf fd)).fileType ≠ typeDirectory := by
    have hreg : (tableOf s.image (s.fileOf fd)).fileType = typeRegular := h.regular
    rw [hreg]
    decide
  have hbyte : ∀ k < readCount (s.descriptor fd.toNat) (s.inode (s.fileOf fd)).fileSize.toNat nbyte.toNat, ∃ v,
      g (s.fileOf fd) ((s.descriptor fd.toNat).position + k) = some v ∧
        fileByte s.image (s.inode (s.fileOf fd)) ((s.descriptor fd.toNat).position + k) = some v := by
    intro k hk
    obtain ⟨v,hv⟩ := Option.isSome_iff_exists.mp (h.known k hk)
    exact ⟨v,hv,(hq.byte _ (s.fileOf fd).isLt _ v hv).2.2⟩
  have hoff : (s.descriptor fd.toNat).locateOffset.toNat < 1024 := h.offset
  have hcount : readCount (s.descriptor fd.toNat) (s.inode (s.fileOf fd)).fileSize.toNat nbyte.toNat < 2 ^ 64 :=
    readCount_lt nbyte.toNat_lt
  have hout := readFrom_outcome (hi.sound.nodePtr_le hfile) (UInt16.toNat_lt (s.descriptor fd.toNat).locateOrder) hoff.le hcount
  have hrange : (s.descriptor fd.toNat).position +
    readCount (s.descriptor fd.toNat) (s.inode (s.fileOf fd)).fileSize.toNat nbyte.toNat < 65536 * 1024 := h.inRange
  have hpos : (s.descriptor fd.toNat).position = (s.descriptor fd.toNat).locateOrder.toNat * 1024 +
    (s.descriptor fd.toNat).locateOffset.toNat := rfl
  generalize hr : readFrom _ _ _ _ _ = res at hout
  cases hout with
  | overrun hover =>
    have hpast := hover.past
    omega
  | @read bytes hreads =>
    have hlen : bytes.length = readCount (s.descriptor fd.toNat) (s.inode (s.fileOf fd)).fileSize.toNat nbyte.toNat := by
      rcases Nat.eq_zero_or_pos (readCount (s.descriptor fd.toNat) (s.inode (s.fileOf fd)).fileSize.toNat nbyte.toNat)
        with h0 | hpos'
      · have hle := hreads.length_le
        omega
      refine hreads.full hoff.le (fun c hc hlt => ?_)
      -- the first byte of the block that is asked for
      obtain ⟨v,_,hv⟩ := hbyte (c * 1024 - (s.descriptor fd.toNat).position) (by omega)
      have hdiv : ((s.descriptor fd.toNat).position + (c * 1024 - (s.descriptor fd.toNat).position)) / 1024 = c := by
        omega
      have hp := (fileByte_eq_some.mp hv).1
      rwa [hdiv] at hp
    refine ⟨bytes,hlen,fun k hk => ?_,?_⟩
    · obtain ⟨v,hv,hb⟩ := hbyte k (hlen ▸ hk)
      have hread := hreads.byte hoff.le hk
      rw [hv]
      exact hb.symm.trans hread
    · have hr : readFrom s.image (s.inode (s.descriptor fd.toNat).inodeNum.toNat) _ _ (readCount _
        (s.inode (s.descriptor fd.toNat).inodeNum.toNat).fileSize.toNat _) = some bytes := hr
      rw [fsRead_opened ho hn, hr, Option.map_some, storeDescriptor_eq ho.lt]

theorem Indistinct.read {p q : F19FS × LastBytes} {dstNull : Bool} (h : Indistinct p q)
    (hp : p.1.Opened fd → dstNull = false → ReadKnown p fd nbyte) (hq : q.1.Opened fd → dstNull = false → ReadKnown q fd nbyte) :
    Option.Rel (Matched SameView) (reply p.1 (.inl (.read fd dstNull nbyte))) (reply q.1 (.inl (.read fd dstNull nbyte))) := by
  obtain ⟨s,g⟩ := p
  obtain ⟨t,g'⟩ := q
  have hv : SameView s t := h.view
  refine rel_map ?_
  have hstop : ∀ r : ℤ, Option.Rel (fun a b : ℤ × List UInt8 × F19FS =>
      Matched SameView (Reply.bytes a.1 a.2.1,a.2.2) (Reply.bytes b.1 b.2.1,b.2.2)) (some (r,[],s)) (some (r,[],t)) :=
    fun r => Option.Rel.some ⟨rfl,hv⟩
  by_cases ho : s.Opened fd
  swap
  · have ho' : ¬ t.Opened fd := fun hc => ho (hv.table.opened_iff.mpr hc)
    rw [fsRead, fsRead]
    refine rel_ite Iff.rfl (fun _ => hstop _) (fun hr => ?_)
    have hclosed : s.isOpen fd.toNat = false := by
      by_contra hc
      exact ho ⟨by omega,by omega,by simpa using hc⟩
    have hclosed' : t.isOpen fd.toNat = false := by
      by_contra hc
      exact ho' ⟨by omega,by omega,by simpa using hc⟩
    rw [hclosed, hclosed']
    exact hstop _
  have ho' := hv.table.opened_iff.mp ho
  cases dstNull with
  | true =>
    rw [fsRead_null, fsRead_null]
    exact hstop _
  | false =>
    by_cases hn : nbyte = 0
    · rw [hn, fsRead_nothing ho, fsRead_nothing ho']
      exact hstop _
    have hk := hp ho rfl
    obtain ⟨bytes,hlen,hbyte,hr⟩ := hk.read h.remembers ho hn
    obtain ⟨bytes',hlen',hbyte',hr'⟩ := (hq ho' rfl).read h.remembers' ho' hn
    have hdesc := hv.table.descriptor_eq ho
    have hfile := hv.table.fileOf_eq ho
    have hsize : (s.inode (s.fileOf fd)).fileSize = (t.inode (s.fileOf fd)).fileSize := hv.sizes _ (s.fileOf fd).isLt hk.used
    rw [← hdesc, ← hfile] at hlen' hbyte'
    rw [← hsize, ← hlen] at hlen'
    -- both bytes are the one written last
    have hsame : bytes = bytes' := List.ext_getElem hlen'.symm (fun k hk hk' => by
      have hlast : g (s.fileOf fd) _ = g' (s.fileOf fd) _ := h.last _ (s.fileOf fd).isLt ((s.descriptor fd.toNat).position + k)
      exact Option.some.inj ((hbyte k hk).symm.trans (hlast.trans (hbyte' k hk'))))
    rw [hr, hr', ← hsame, ← hdesc]
    exact Option.Rel.some ⟨rfl,hv.of_table rfl rfl (hv.table.put ho.lt _ _ _)⟩

/-- The bytes written last are kept on the side in the same way. -/
theorem SameView.lastBytes_eq {ret : ℤ} (h : SameView s t) (h' : SameView s' t') (hs : call s c = some (ret,s'))
    (hg : ∀ i < 256, ∀ o, g i o = g' i o) {i : ℕ} (hi : i < 256) (o : ℕ) :
    lastBytes s g ret s' c i o = lastBytes t g' ret t' c i o := by
  by_cases hw : ∃ fd src n, c = .write fd (some src) n
  · obtain ⟨fd,src,n,rfl⟩ := hw
    rw [lastBytes_write, lastBytes_write]
    by_cases ho : s.Opened fd
    · rw [← h.table.fileOf_eq ho, ← h.table.descriptor_eq ho, hg i hi o]
    · obtain ⟨r,hr,he⟩ := fsWrite_closed ho (some src) n
      have hs : LiteOSFS.fsWrite s fd (some src) n = some (ret,s') := hs
      rw [he] at hs
      cases hs
      rw [if_neg (by omega), if_neg (by omega), hg i hi o]
  · have hw : ∀ fd src n, c ≠ .write fd (some src) n := fun fd src n he => hw ⟨fd,src,n,he⟩
    rw [lastBytes_other hw, lastBytes_other hw, h.names.used_eq hi, h'.names.used_eq hi, hg i hi o]

end Reply

section Run
variable {p q : F19FS × LastBytes}

/-- A call gives back the same in both, and what is left looks the same. -/
theorem Indistinct.reply {c : Call} (h : Indistinct p q) (hp : Served p (.inl c)) (hq : Served q (.inl c)) :
    Option.Rel (Matched SameView) (LiteOSFS.reply p.1 (.inl c)) (LiteOSFS.reply q.1 (.inl c)) := by
  have hcall : (∀ fd dstNull n, c ≠ .read fd dstNull n) → Option.Rel (Matched SameView) (call p.1 c) (call q.1 c) →
      Option.Rel (Matched SameView) (LiteOSFS.reply p.1 (.inl c)) (LiteOSFS.reply q.1 (.inl c)) := by
    intro hc hrel
    rw [reply_eq hc, reply_eq hc]
    exact rel_map (rel_imp hrel (fun a _ b _ hm => ⟨congrArg Reply.code hm.1,hm.2⟩))
  cases c with
  | openFile path => exact hcall (fun _ _ _ => Call.noConfusion) (h.view.fsOpen hp)
  | close fd => exact hcall (fun _ _ _ => Call.noConfusion) (Option.Rel.some h.view.fsClose)
  | read fd dstNull nbyte => exact h.read hp hq
  | write fd src nbyte =>
    refine hcall (fun _ _ _ => Call.noConfusion) ?_
    cases src with
    | none => exact Option.Rel.some ⟨rfl,h.view⟩
    | some src => exact h.view.fsWrite hp.1 (fun ho => hp.2 ho rfl) hq.1 (fun ho => hq.2 ho rfl)
  | seek fd offset whence => exact hcall (fun _ _ _ => Call.noConfusion) (h.view.fsSeek hp)
  | remount => exact hcall (fun _ _ _ => Call.noConfusion) (Option.Rel.some ⟨rfl,h.view.fsMount⟩)
  | create path type => exact hcall (fun _ _ _ => Call.noConfusion) (h.view.nameCall rfl hp.1 hq.1)
  | remove path => exact hcall (fun _ _ _ => Call.noConfusion) (h.view.nameCall rfl hp.1 hq.1)
  | move src dst junk => exact hcall (fun _ _ _ => Call.noConfusion) (h.view.nameCall rfl hp.1 hq.1)
  | link src dst => exact hcall (fun _ _ _ => Call.noConfusion) (h.view.nameCall rfl hp.1 hq.1)

theorem Served.historyKept {c : Call} (h : Served p (.inl c)) : HistoryKept p.1 c := by
  cases c with
  | openFile | close | read | seek | remount => exact ⟨trivial,trivial⟩
  | write fd src nbyte => exact h.1
  | create | remove | move | link => exact h.2

theorem Remembers.reply {c : Call} {r : Reply × F19FS} (h : Remembers p) (hp : Served p (.inl c))
    (hr : LiteOSFS.reply p.1 (.inl c) = some r) : Remembers (r.2,lastBytes p.1 p.2 r.1.ret r.2 c) := by
  refine history_step h hp.historyKept ?_
  rw [historyStep, call_of_reply hr]
  rfl

theorem Indistinct.step {c : Call ⊕ Option PathArg} (h : Indistinct p q) (hp : Served p c) (hq : Served q c) :
    Option.Rel (Matched Indistinct) (replyStep p c) (replyStep q c) := by
  cases c with
  | inl c =>
    refine rel_map (rel_imp (h.reply hp hq) (fun r hr r' hr' hm => ⟨hm.1,hm.2,fun i hi o => ?_,?_,?_⟩))
    · have he : r'.1.ret = r.1.ret := congrArg Reply.ret hm.1.symm
      rw [he]
      exact h.view.lastBytes_eq hm.2 (call_of_reply hr) h.last hi o
    · exact h.remembers.reply hp hr
    · exact h.remembers'.reply hq hr'
  | inr path =>
    have hsame : fsGetDir p.1 (pathOf path) = fsGetDir q.1 (pathOf path) := fsGetDir_same h.view.names
    simp only [replyStep, LiteOSFS.reply, hsame]
    cases fsGetDir q.1 (pathOf path) with
    | none => exact Option.Rel.none
    | some list => exact Option.Rel.some ⟨rfl,h⟩

end Run

/-- Calls that are seen to be served. -/
def servedCheck (q : F19FS × LastBytes) : Call ⊕ Option PathArg → Bool
  | .inl (.create (some path) _) => createTidyCheck q.1.image path.chars && decide (firstFree q.1.image ≠ sizeMax)
  | .inl (.openFile (some path)) => ((splitPath path.chars).getD none).all (fun tokens =>
      (resolve q.1.image tokens).all (fun i => decide ((inodeAt q.1.image i).fileType ≠ typeDirectory)))
  | .inl (.read fd _ nbyte) => inodeUsed q.1.image (q.1.fileOf fd) &&
      decide ((q.1.inode (q.1.fileOf fd)).fileType = typeRegular ∧ (q.1.descriptor fd.toNat).locateOffset.toNat < 1024) &&
      decide (∀ k < readCount (q.1.descriptor fd.toNat) (q.1.inode (q.1.fileOf fd)).fileSize.toNat nbyte.toNat,
        (q.2 (q.1.fileOf fd) ((q.1.descriptor fd.toNat).position + k)).isSome = true) &&
      decide ((q.1.descriptor fd.toNat).position + readCount (q.1.descriptor fd.toNat)
        (q.1.inode (q.1.fileOf fd)).fileSize.toNat nbyte.toNat < 65536 * 1024)
  | .inl (.write fd (some src) nbyte) => historyCheck q (.write fd (some src) nbyte) &&
      decide ((fsWrite q.1 fd (some src) nbyte).map Prod.fst = some (nbyte.toNat : ℤ))
  | .inl (.seek fd _ _) => inodeUsed q.1.image (q.1.fileOf fd)
  | .inr _ => true
  | _ => false

/-- A write that has written all was paid for. -/
theorem writeFits_of_ret {s s' : F19FS} {fd : ℤ} {src : Mem} {nbyte : UInt64} (hi : ImageInv s.image)
    (hg : HistoryKept s (.write fd (some src) nbyte)) (ho : s.Opened fd)
    (hoff : (s.descriptor fd.toNat).locateOffset.toNat < 1024)
    (hrange : (s.descriptor fd.toNat).position + nbyte.toNat < 65536 * 1024)
    (hw : fsWrite s fd (some src) nbyte = some ((nbyte.toNat : ℤ),s')) : WriteFits s fd nbyte := by
  obtain ⟨_,_,hguard⟩ := hg.2 ho rfl
  rcases fsWrite_done hi hg.1 hoff.le hw with ⟨hneg,_⟩ | ⟨r,sum,m',x',he,hd⟩
  · omega
  obtain rfl : nbyte.toNat = r := by exact_mod_cast he
  obtain rfl : nbyte.toNat = sum := hd.counted.resolve_right (fun hc => hguard.counted hc.1)
  exact ⟨hoff,(hd.greatest hi hg.1 hoff).1.1,hrange⟩

theorem served_of_check {q : F19FS × LastBytes} (hi : ImageInv q.1.image) {c : Call ⊕ Option PathArg}
    (h : servedCheck q c = true) : Served q c := by
  rcases c with c | path
  swap
  · trivial
  cases c with
  | create path type =>
    cases path with
    | none => cases h
    | some p =>
      obtain ⟨htidy,hfree⟩ := Bool.and_eq_true_iff.mp h
      refine ⟨?_,trivial,trivial⟩
      rintro p' hp
      obtain rfl := Option.some.inj hp
      exact ⟨createTidy_of_check htidy,fun _ _ _ _ _ => of_decide_eq_true hfree⟩
  | openFile path =>
    cases path with
    | none => cases h
    | some p =>
      rintro p' hp tokens i hsp hres
      obtain rfl := Option.some.inj hp
      simpa [servedCheck, hsp, hres] using h
  | read fd dstNull nbyte =>
    simp only [servedCheck, Bool.and_eq_true, decide_eq_true_eq] at h
    obtain ⟨⟨⟨hu,hreg,hoff⟩,hknown⟩,hrange⟩ := h
    exact fun _ _ => ⟨hu,hreg,hoff,hknown,hrange⟩
  | write fd src nbyte =>
    cases src with
    | none => cases h
    | some src =>
      obtain ⟨hkept,hret⟩ := Bool.and_eq_true_iff.mp h
      have hk := historyKept_of_check q _ hkept
      obtain ⟨⟨ret,s'⟩,hw,hret⟩ := Option.map_eq_some_iff.mp (of_decide_eq_true hret)
      obtain rfl : ret = (nbyte.toNat : ℤ) := hret
      obtain ⟨_,hc⟩ := Bool.and_eq_true_iff.mp hkept
      simp only [Bool.and_eq_true, decide_eq_true_eq] at hc
      obtain ⟨⟨horder,hoffset,hle,_⟩,_⟩ := hc
      have hn : nbyte.toNat ≤ 1024 := UInt64.le_iff_toNat_le.mp hle
      have h0 : (q.1.descriptor fd.toNat).locateOrder.toNat = 0 := congrArg UInt16.toNat horder
      have hf : (q.1.descriptor fd.toNat).locateOffset.toNat = 0 := congrArg UInt16.toNat hoffset
      refine ⟨hk,fun ho _ => writeFits_of_ret hi hk ho (by omega) ?_ hw⟩
      rw [FileDescriptor.position]
      omega
  | seek fd offset whence => exact fun _ => h
  | close | remove | move | link | remount => cases h

/-- The executable counterpart of `Allowed`, for the states that keep to what was written. -/
theorem allowed_of_served {q : F19FS × LastBytes} {cs : List (Call ⊕ Option PathArg)} (hq : Remembers q)
    (h : allowedBy replyStep servedCheck q cs = true) : Allowed replyStep Served q cs := by
  induction cs generalizing q with
  | nil => trivial
  | cons c cs ih =>
    obtain ⟨hc,hcs⟩ := Bool.and_eq_true_iff.mp h
    have hserved := served_of_check hq.image hc
    refine ⟨hserved,fun r hr => ih ?_ ?_⟩
    · cases c with
      | inl c =>
        obtain ⟨x,hx,rfl⟩ := Option.map_eq_some_iff.mp hr
        exact hq.reply hserved hx
      | inr path =>
        obtain ⟨x,hx,rfl⟩ := Option.map_eq_some_iff.mp hr
        have he : x.2 = q.1 := reply_getDir hx
        show Remembers (x.2,q.2)
        rw [he]
        exact hq
    · rwa [Option.mem_def.mp hr] at hcs

/-- No run of calls tells two such file systems apart. -/
theorem layout_unseen {p q : F19FS × LastBytes} {cs : List (Call ⊕ Option PathArg)} (h : Indistinct p q)
    (hp : Allowed replyStep Served p cs) (hq : Allowed replyStep Served q cs) :
    answers replyStep p cs = answers replyStep q cs :=
  answers_eq (fun _ _ _ h hp hq => h.step hp hq) h hp hq

/-- Field by field, as numbers. -/
def sameDescriptor (a b : FileDescriptor) : Bool := a.inodeNum.toNat == b.inodeNum.toNat && a.usage.toNat == b.usage.toNat &&
  a.locateOrder.toNat == b.locateOrder.toNat && a.locateOffset.toNat == b.locateOffset.toNat

/-- The executable counterpart of `SameTable` and `SameSizes`. -/
def viewCheck (s t : F19FS) : Bool :=
  (List.range 256).all (fun k => s.isOpen k == t.isOpen k &&
    (!s.isOpen k || sameDescriptor (s.descriptor k) (t.descriptor k)) &&
    (!inodeUsed s.image k || (inodeAt s.image k).fileSize.toNat == (inodeAt t.image k).fileSize.toNat))

theorem descriptor_of_same {a b : FileDescriptor} (h : sameDescriptor a b = true) : a = b := by
  simp only [sameDescriptor, Bool.and_eq_true, beq_iff_eq] at h
  obtain ⟨⟨⟨hnum,husage⟩,horder⟩,hoffset⟩ := h
  exact FileDescriptor.ext (UInt8.toNat_inj.mp hnum) (UInt8.toNat_inj.mp husage) (UInt16.toNat_inj.mp horder)
    (UInt16.toNat_inj.mp hoffset)

theorem view_of_check {s t : F19FS} (h : Alike s.image t.image) (hc : viewCheck s t = true) : SameView s t := by
  have hall : ∀ k < 256, s.isOpen k = t.isOpen k ∧ (s.isOpen k = true → s.descriptor k = t.descriptor k) ∧
      (inodeUsed s.image k = true → (inodeAt s.image k).fileSize = (inodeAt t.image k).fileSize) := by
    intro k hk
    have hk := List.all_eq_true.mp hc k (List.mem_range.mpr hk)
    simp only [Bool.and_eq_true, Bool.or_eq_true, Bool.not_eq_true', beq_iff_eq] at hk
    obtain ⟨⟨hopen,hdesc⟩,hsize⟩ := hk
    refine ⟨hopen,fun ho => descriptor_of_same (hdesc.resolve_left ?_),fun hu => UInt64.toNat_inj.mp (hsize.resolve_left ?_)⟩
    · rw [ho]
      decide
    · rw [hu]
      decide
  exact ⟨h,⟨fun k hk => (hall k hk).1,fun k hk => (hall k hk).2.1⟩,fun i hi => (hall i hi).2.2⟩

/-- Two files, each with a descriptor. -/
def twoOpened : List Call := [.create (pathArg ['/','a']) .regular,.create (pathArg ['/','b']) .regular,
  .openFile (pathArg ['/','a']),.openFile (pathArg ['/','b'])]

def writeFirst : Call := .write 0 (some (startsWith 7)) 2
def writeSecond : Call := .write 1 (some (startsWith 9)) 2

/-- Both files are read from their start, and the root is listed. -/
def lookedAt : List (Call ⊕ Option PathArg) := [.inl (.seek 0 0 .set),.inl (.read 0 false 2),.inl (.seek 1 0 .set),
  .inl (.read 1 false 2),.inr (pathArg ['/'])]

/-- A write of `n` bytes at the start of file `i`. -/
def startWrite (q : F19FS × LastBytes) (i n : ℕ) : Call → Bool
  | .write fd src nbyte => (q.1.fileOf fd).val == i && (q.1.descriptor fd.toNat).position == 0 &&
      decide ((call q.1 (.write fd src nbyte)).map Prod.fst = some (n : ℤ))
  | _ => false

theorem last_startWrite {q q' : F19FS × LastBytes} {fd : ℤ} {src : Mem} {nbyte : UInt64} {i n : ℕ}
    (h : historyStep q (.write fd (some src) nbyte) = some q') (hc : startWrite q i n (.write fd (some src) nbyte) = true)
    (j o : ℕ) : q'.2 j o = if i = j ∧ o < n then some (src o) else q.2 j o := by
  simp only [startWrite, Bool.and_eq_true, beq_iff_eq, decide_eq_true_eq] at hc
  obtain ⟨⟨hi,hpos⟩,hret⟩ := hc
  obtain ⟨⟨ret,s'⟩,hr,rfl⟩ := Option.map_eq_some_iff.mp h
  rw [hr] at hret
  obtain rfl : ret = (n : ℤ) := Option.some.inj hret
  show lastBytes q.1 q.2 n s' (.write fd (some src) nbyte) j o = _
  rw [lastBytes_write, hi, hpos, Nat.zero_add, Nat.sub_zero, Int.toNat_natCast]
  simp only [Nat.zero_le, true_and]

def historyTidyCheck (q : F19FS × LastBytes) (c : Call) : Bool := historyCheck q c && plainTidy q.1 c

theorem settled_of_run {cs : List Call} {q : F19FS × LastBytes}
    (h : run (checked historyTidyCheck historyStep) (fsFormat,fun _ _ => none) cs = some q) :
    run historyStep (fsFormat,fun _ _ => none) cs = some q ∧ Remembers q ∧ TidyImage q.1.image := by
  have hreach : Reach historyStep (fun q c => HistoryKept q.1 c ∧ Tidy q.1 c) (fsFormat,fun _ _ => none) q := by
    refine reach_of_checked_run (fun q c hc => ?_) h
    obtain ⟨hkept,htidy⟩ := Bool.and_eq_true_iff.mp hc
    exact ⟨historyKept_of_check q c hkept,tidy_of_plainTidy q.1 c htidy⟩
  refine ⟨run_of_checked h,?_,?_⟩
  · exact HistoryReach.remembers (hreach.mono (fun _ _ hg => hg.1))
  · refine hreach.invariant (P := fun q => TidyImage q.1.image) tidy_fsFormat (fun {q c q'} ht hg hs => ?_)
    obtain ⟨r,hr,rfl⟩ := Option.map_eq_some_iff.mp hs
    exact step_tidy ht hg.2 (step_of_call hr)

theorem settled_sameNames {c : Call} {q q' : F19FS × LastBytes} (hi : ImageInv q.1.image) (hd : c.isData = true)
    (h : checked historyTidyCheck historyStep q c = some q') : SameNames q'.1.image q.1.image := by
  obtain ⟨hc,hs⟩ := of_checked h
  obtain ⟨hkept,_⟩ := Bool.and_eq_true_iff.mp hc
  obtain ⟨r,hr,rfl⟩ := Option.map_eq_some_iff.mp hs
  exact data_sameNames hi hd (historyKept_of_check q c hkept).1 hr

/-- The first writes to two files in either order: the files have their blocks the other way round. -/
theorem layout_unseen_swapped : ∃ p q, run historyStep (fsFormat,fun _ _ => none) (twoOpened ++ [writeFirst,writeSecond]) = some p ∧
    run historyStep (fsFormat,fun _ _ => none) (twoOpened ++ [writeSecond,writeFirst]) = some q ∧
    (p.1.inode 1).directPointer 0 ≠ (q.1.inode 1).directPointer 0 ∧
    answers replyStep p lookedAt = answers replyStep q lookedAt := by
  have hrun : (run (checked historyTidyCheck historyStep) (fsFormat,fun _ _ => none) twoOpened).bind (fun q₀ =>
      (checked historyTidyCheck historyStep q₀ writeFirst).bind (fun p₁ =>
      (checked historyTidyCheck historyStep p₁ writeSecond).bind (fun p =>
      (checked historyTidyCheck historyStep q₀ writeSecond).bind (fun q₁ =>
      (checked historyTidyCheck historyStep q₁ writeFirst).map (fun q =>
        startWrite q₀ 1 2 writeFirst && startWrite p₁ 2 2 writeSecond && startWrite q₀ 2 2 writeSecond &&
        startWrite q₁ 1 2 writeFirst && viewCheck p.1 q.1 &&
        decide ((p.1.inode 1).directPointer 0 ≠ (q.1.inode 1).directPointer 0) &&
        allowedBy replyStep servedCheck p lookedAt && allowedBy replyStep servedCheck q lookedAt))))) = some true := by
    decide +kernel
  obtain ⟨q₀,h₀,hr⟩ := Option.bind_eq_some_iff.mp hrun
  obtain ⟨p₁,hp₁,hr⟩ := Option.bind_eq_some_iff.mp hr
  obtain ⟨p,hp,hr⟩ := Option.bind_eq_some_iff.mp hr
  obtain ⟨q₁,hq₁,hr⟩ := Option.bind_eq_some_iff.mp hr
  obtain ⟨q,hq,hr⟩ := Option.map_eq_some_iff.mp hr
  simp only [Bool.and_eq_true, decide_eq_true_eq] at hr
  obtain ⟨⟨⟨⟨⟨⟨⟨hw₁,hw₂⟩,hv₁⟩,hv₂⟩,hview⟩,hblocks⟩,hallowed⟩,hallowed'⟩ := hr
  have hc₁ := run_concat h₀ hp₁
  have hd₁ := run_concat h₀ hq₁
  obtain ⟨hrunp,hrem,htidy⟩ := settled_of_run (run_concat hc₁ hp)
  obtain ⟨hrunq,hrem',htidy'⟩ := settled_of_run (run_concat hd₁ hq)
  have hi₀ := (settled_of_run h₀).2.2.inv
  have hi₁ := (settled_of_run hc₁).2.2.inv
  have hi₁' := (settled_of_run hd₁).2.2.inv
  have hsame : SameNames p.1.image q₀.1.image := (settled_sameNames hi₁ rfl hp).trans (settled_sameNames hi₀ rfl hp₁)
  have hsame' : SameNames q.1.image q₀.1.image := (settled_sameNames hi₁' rfl hq).trans (settled_sameNames hi₀ rfl hq₁)
  have hlast : ∀ i o, p.2 i o = q.2 i o := by
    intro i o
    rw [last_startWrite (of_checked hp).2 hw₂, last_startWrite (of_checked hp₁).2 hw₁,
      last_startWrite (of_checked hq).2 hv₂, last_startWrite (of_checked hq₁).2 hv₁]
    split_ifs
    · omega
    all_goals rfl
  rw [List.append_assoc] at hrunp hrunq
  refine ⟨p,q,hrunp,hrunq,hblocks,layout_unseen ⟨?_,fun i _ o => hlast i o,hrem,hrem'⟩ ?_ ?_⟩
  · exact view_of_check ⟨hsame.trans hsame'.symm,htidy,htidy'⟩ hview
  · exact allowed_of_served hrem hallowed
  · exact allowed_of_served hrem' hallowed'

end LiteOSFS
