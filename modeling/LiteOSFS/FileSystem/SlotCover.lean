import LiteOSFS.FileSystem.SlotTrace
import LiteOSFS.FileSystem.WriteRefinement
import LiteOSFS.FileSystem.ReadRefinement

/-! # A lookup for each block

The readers and the writers look up a slot for every block that they move bytes of: the
list of the lookups is as long as the bytes that were moved need it. A writer may look
further, when the block it comes to next cannot be had.
-/
namespace LiteOSFS
open Memory

abbrev TracedWriter := Option ℕ → Mem → Inode → ℕ → ℕ → Mem → ℕ → ℕ → Traced WriteResult

abbrev TracedReader := Option ℕ → ℕ → ℕ → ℕ → ℕ → Traced ReadResult

/-- As many lookups as there are blocks in which `moved` bytes from offset `off` of the first one on lie. -/
def Looked (off moved : ℕ) (cs : List Consult) : Prop := moved ≤ 1024 * cs.length - off

section Looked
variable {off off' n moved moved' len : ℕ} {c : Consult} {cs cs' : List Consult}

theorem blankSpace_le_block (hoff : off ≤ 1024) (hn : n < 2 ^ 64) : blankSpace off n ≤ 1024 - off := by
  rw [blankSpace_eq hoff hn]
  exact min_le_left _ _

theorem looked_none (h : moved = 0) : Looked off moved cs := h ▸ Nat.zero_le _

theorem Looked.mono (h : Looked off moved cs) (hle : moved' ≤ moved) : Looked off moved' cs := hle.trans h

/-- The byte `k` of those that were moved lies in a block that was looked up. -/
theorem Looked.isSome (h : Looked off moved cs) {k : ℕ} (hk : k < moved) : (cs[(off + k) / 1024]?).isSome = true := by
  unfold Looked at h
  rw [List.getElem?_eq_getElem (show (off + k) / 1024 < cs.length by omega)]
  rfl

theorem Looked.cons (hoff : off ≤ 1024) (hn : n < 2 ^ 64) (h : Looked 0 moved cs) :
    Looked off (blankSpace off n + moved) (c :: cs) := by
  have hblank := blankSpace_le_block hoff hn
  unfold Looked at *
  rw [List.length_cons]
  omega

/-- A loop has moved nothing yet, or goes on at the start of a block. -/
def LoopMoved (off off' moved len : ℕ) : Prop := moved = 0 ∧ off' = off ∨ off' = 0 ∧ off + moved ≤ 1024 * len

theorem LoopMoved.next (hoff : off ≤ 1024) (hn : n < 2 ^ 64) (h : LoopMoved 0 off' moved len) :
    LoopMoved off off' (blankSpace off n + moved) (len + 1) := by
  have hblank := blankSpace_le_block hoff hn
  unfold LoopMoved at *
  omega

theorem LoopMoved.looked (h : LoopMoved off off' moved len) (hlen : cs.length = len) : Looked off moved cs := by
  unfold LoopMoved at h
  unfold Looked
  omega

theorem LoopMoved.append (h : LoopMoved off off' moved len) (hlen : cs.length = len) (h' : Looked off' moved' cs') :
    Looked off (moved + moved') (cs ++ cs') := by
  unfold LoopMoved at h
  unfold Looked at *
  rw [List.length_append]
  omega

end Looked

/-- The number of bytes that a writer returns. -/
def wrote (r : WriteResult) : ℕ := r.elim 0 Prod.fst

theorem wrote_addSum (k : ℕ) (r : WriteResult) : wrote (addSum k r) ≤ k + wrote r := by
  cases r with
  | none => exact Nat.zero_le _
  | some r => exact le_rfl

section Writers
variable {m : Mem} {x : Inode} {a off n : ℕ}

theorem writeLoop_moved {fuel : ℕ} {done : Bool} {st st' : IndirectWrite} (hoff : st.fdOffset ≤ 1024)
    (hn : st.nbyte < 2 ^ 64) (h : (writeIndirectLoopTraced fuel st).1 = some (done,st')) : ∃ moved,
    st'.sum = st.sum + moved ∧ st'.nbyte < 2 ^ 64 ∧ st'.fdOffset ≤ 1024 ∧
      LoopMoved st.fdOffset st'.fdOffset moved (writeIndirectLoopTraced fuel st).2.length := by
  induction fuel generalizing st with
  | zero =>
    cases h
    exact ⟨0,rfl,hn,hoff,Or.inl ⟨rfl,rfl⟩⟩
  | succ fuel ih =>
    rw [writeIndirectLoopTraced] at h ⊢
    split_ifs at h ⊢ with hgo
    · dsimp only at h ⊢
      rw [before_fst] at h
      cases htarget : (slotTargetTraced st).1 with
      | none =>
        rw [htarget] at h
        cases h
        exact ⟨0,rfl,hn,hoff,Or.inl ⟨rfl,rfl⟩⟩
      | some r =>
        obtain ⟨blockID,image,ptrs⟩ := r
        rw [htarget] at h
        dsimp only at h ⊢
        cases hblock : memcpyInto ((blockStoreRead image wholeStore blockID).getD zeros) st.fdOffset st.src
            (blankSpace st.fdOffset st.nbyte) with
        | none =>
          rw [hblock] at h
          cases h
        | some block =>
          rw [hblock] at h
          obtain ⟨moved,hsum,hn',hoff',hmoved⟩ := ih (Nat.zero_le _) ((Nat.sub_le _ _).trans_lt hn) h
          exact ⟨blankSpace st.fdOffset st.nbyte + moved,by rw [hsum, Nat.add_assoc],hn',hoff',hmoved.next hoff hn⟩
    · cases h
      exact ⟨0,rfl,hn,hoff,Or.inl ⟨rfl,rfl⟩⟩

def TracedWriter.Looks (w : TracedWriter) : Prop := ∀ level m x a off src n id, off ≤ 1024 → n < 2 ^ 64 →
  Looked off (wrote (w level m x a off src n id).1) (w level m x a off src n id).2

theorem writeDouble_looked {w : TracedWriter} (hw : w.Looks) (m : Mem) (x : Inode) (a : ℕ) (src : Mem) (hoff : off ≤ 1024)
    (hn : n < 2 ^ 64) : Looked off (wrote (writeDoubleDirectTraced (fun k => w (some k)) m x a off src n).1)
      (writeDoubleDirectTraced (fun k => w (some k)) m x a off src n).2 := by
  rw [writeDoubleDirectTraced]
  cases doubleTarget m x with
  | none => exact looked_none rfl
  | some r =>
    obtain ⟨doubleID,m',x'⟩ := r
    dsimp only
    cases blockStoreRead m' wholeStore doubleID with
    | none => exact looked_none rfl
    | some buffer =>
      dsimp only
      split_ifs
      · exact looked_none rfl
      · exact looked_none rfl
      · exact hw _ _ _ _ _ _ _ _ hoff hn
      · exact hw _ _ _ _ _ _ _ _ hoff hn

theorem writeIndirect_looked (fuel : ℕ) : TracedWriter.Looks (writeIndirectTraced fuel) := by
  induction fuel with
  | zero => exact fun _ _ _ _ _ _ _ _ _ _ => looked_none rfl
  | succ fuel ih =>
    intro level m x a off src n id hoff hn
    rw [writeIndirectTraced]
    cases blockStoreRead m wholeStore id with
    | none =>
      dsimp only
      split_ifs <;> exact looked_none rfl
    | some buffer =>
      dsimp only
      cases hloop : (writeIndirectLoopTraced 512 ⟨m,pointersOf buffer,indirectIndex a,a,off,src,n,0⟩).1 with
      | none => exact looked_none rfl
      | some r =>
        obtain ⟨done,st⟩ := r
        obtain ⟨moved,hsum,hn',hoff',hmoved⟩ := writeLoop_moved hoff hn hloop
        have hsum : st.sum = moved := hsum.trans (Nat.zero_add moved)
        dsimp only
        split_ifs
        · exact (hmoved.looked (List.length_map _)).mono hsum.le
        · refine Looked.mono (hmoved.append (List.length_map _) (writeDouble_looked ih _ _ _ _ hoff' hn')) ?_
          exact (wrote_addSum _ _).trans_eq (by rw [hsum])

theorem writeDirect_looked (fuel : ℕ) (m : Mem) (x : Inode) (a : ℕ) (src : Mem) (hoff : off ≤ 1024) (hn : n < 2 ^ 64) :
    Looked off (wrote (writeDirectTraced fuel m x a off src n).1) (writeDirectTraced fuel m x a off src n).2 := by
  induction fuel generalizing a m x off src n with
  | zero => exact looked_none rfl
  | succ fuel ih =>
    have hrest : n - blankSpace off n < 2 ^ 64 := (Nat.sub_le _ _).trans_lt hn
    rw [writeDirectTraced]
    by_cases ha : a < 6
    · rw [dif_pos ha]
      dsimp only
      cases (directTargetTraced m x ⟨a,ha⟩ off src (blankSpace off n)).1 with
      | none => exact looked_none rfl
      | some r =>
        cases r with
        | none => exact looked_none rfl
        | some r =>
          obtain ⟨blockID,block,m',x'⟩ := r
          dsimp only
          split_ifs
          · exact Looked.cons hoff hn (Nat.zero_le _)
          · exact (Looked.cons hoff hn (ih _ _ _ _ (Nat.zero_le _) hrest)).mono (wrote_addSum _ _)
          · cases indirectTarget (blockStoreWrite m' wholeStore blockID block).2 x' with
            | none => exact looked_none rfl
            | some r =>
              obtain ⟨id,m₂,x₂⟩ := r
              exact (Looked.cons hoff hn (writeIndirect_looked indexRounds _ _ _ _ _ _ _ _ (Nat.zero_le _) hrest)).mono
                (wrote_addSum _ _)
    · rw [dif_neg ha]
      exact looked_none rfl

/-- The number of bytes that `writeFrom` comes back with. -/
def wroteFrom (r : Option (Option (ℕ × Mem × Inode))) : ℕ := r.elim 0 wrote

theorem writeFrom_looked (m : Mem) (x : Inode) (a : ℕ) (src : Mem) (hoff : off ≤ 1024) (hn : n < 2 ^ 64) :
    Looked off (wroteFrom (writeFrom m x a off src n)) (writeFromTraced m x a off src n).2 := by
  have hmap : ∀ r : WriteResult, wroteFrom (r.map some) = wrote r := by
    intro r
    cases r <;> rfl
  rw [← writeFromTraced_fst, writeFromTraced]
  split_ifs
  · dsimp only
    rw [hmap]
    exact writeDirect_looked 6 m x a src hoff hn
  · cases indirectTarget m x with
    | none => exact looked_none rfl
    | some r =>
      dsimp only
      rw [hmap]
      exact writeIndirect_looked indexRounds _ _ _ _ _ _ _ _ hoff hn
  · dsimp only
    rw [hmap]
    exact writeDouble_looked (writeIndirect_looked indexRounds) m x a src hoff hn

end Writers

/-- The number of bytes that a reader returns. -/
def took (r : ReadResult) : ℕ := r.elim 0 List.length

theorem took_addBytes (bytes : List UInt8) (r : ReadResult) : took (addBytes bytes r) ≤ bytes.length + took r := by
  cases r with
  | none => exact Nat.zero_le _
  | some r => exact List.length_append.le

theorem memcpyFrom_length {block : Mem} {off len : ℕ} {bytes : List UInt8} (h : memcpyFrom block off len = some bytes) :
    bytes.length = len := by
  rw [memcpyFrom, Option.ite_none_right_eq_some] at h
  rw [← Option.some.inj h.2, List.length_map, List.length_range]

section Readers
variable {m : Mem} {x : Inode} {off n : ℕ}

theorem readLoop_moved {ptrs : ℕ → UInt16} {fuel : ℕ} {done : Bool} {st st' : IndirectRead} (hoff : st.fdOffset ≤ 1024)
    (hn : st.nbyte < 2 ^ 64) (h : (readIndirectLoopTraced m ptrs fuel st).1 = some (done,st')) : ∃ moved,
    st'.bytes.length = st.bytes.length + moved ∧ st'.nbyte < 2 ^ 64 ∧ st'.fdOffset ≤ 1024 ∧
      LoopMoved st.fdOffset st'.fdOffset moved (readIndirectLoopTraced m ptrs fuel st).2.length := by
  induction fuel generalizing st with
  | zero =>
    cases h
    exact ⟨0,rfl,hn,hoff,Or.inl ⟨rfl,rfl⟩⟩
  | succ fuel ih =>
    rw [readIndirectLoopTraced] at h ⊢
    by_cases hgo : st.indirectPtrID < 512 ∧ st.nbyte > 0
    · rw [if_pos hgo] at h ⊢
      dsimp only at h ⊢
      by_cases hz : (fetch ptrs st.indirectPtrID).pointer = 0
      · rw [if_pos hz] at h ⊢
        cases h
        exact ⟨0,rfl,hn,hoff,Or.inl ⟨rfl,rfl⟩⟩
      rw [if_neg hz] at h ⊢
      rw [before_fst] at h
      cases hread : (blockStoreRead m wholeStore (fetch ptrs st.indirectPtrID).pointer.toNat).bind
          (fun block => memcpyFrom block st.fdOffset (blankSpace st.fdOffset st.nbyte)) with
      | none =>
        rw [hread] at h
        cases h
      | some bytes =>
        obtain ⟨block,_,hbytes⟩ := Option.bind_eq_some_iff.mp hread
        rw [hread] at h
        obtain ⟨moved,hlen,hn',hoff',hmoved⟩ := ih (Nat.zero_le _) ((Nat.sub_le _ _).trans_lt hn) h
        refine ⟨blankSpace st.fdOffset st.nbyte + moved,?_,hn',hoff',hmoved.next hoff hn⟩
        rw [hlen, List.length_append, memcpyFrom_length hbytes, Nat.add_assoc]
    · rw [if_neg hgo] at h ⊢
      cases h
      exact ⟨0,rfl,hn,hoff,Or.inl ⟨rfl,rfl⟩⟩

def TracedReader.Looks (r : TracedReader) : Prop := ∀ level a off n id, off ≤ 1024 → n < 2 ^ 64 →
  Looked off (took (r level a off n id).1) (r level a off n id).2

theorem readDouble_looked {r : TracedReader} (hr : r.Looks) (m : Mem) (x : Inode) (a : ℕ) (hoff : off ≤ 1024)
    (hn : n < 2 ^ 64) : Looked off (took (readDoubleDirectTraced (fun k => r (some k)) m x a off n).1)
      (readDoubleDirectTraced (fun k => r (some k)) m x a off n).2 := by
  rw [readDoubleDirectTraced]
  split_ifs
  · exact looked_none rfl
  · cases blockStoreRead m wholeStore x.doubleIndirectPointer.toNat with
    | none => exact looked_none rfl
    | some buffer =>
      dsimp only
      split_ifs
      · exact looked_none rfl
      · exact looked_none rfl
      · exact hr _ _ _ _ _ hoff hn

theorem readIndirect_looked (m : Mem) (x : Inode) (fuel : ℕ) : TracedReader.Looks (readIndirectTraced m x fuel) := by
  induction fuel with
  | zero => exact fun _ _ _ _ _ _ _ => looked_none rfl
  | succ fuel ih =>
    intro level a off n id hoff hn
    rw [readIndirectTraced]
    by_cases hzero : id = 0
    · rw [if_pos hzero]
      exact looked_none rfl
    rw [if_neg hzero]
    cases blockStoreRead m wholeStore id with
    | none =>
      dsimp only
      split_ifs <;> exact looked_none rfl
    | some buffer =>
      dsimp only
      cases hloop : (readIndirectLoopTraced m (pointersOf buffer) 512 ⟨indirectIndex a,a,off,n,[]⟩).1 with
      | none => exact looked_none rfl
      | some r =>
        obtain ⟨done,st⟩ := r
        obtain ⟨moved,hlen,hn',hoff',hmoved⟩ := readLoop_moved hoff hn hloop
        have hlen : st.bytes.length = moved := hlen.trans (Nat.zero_add moved)
        dsimp only
        split_ifs
        · exact (hmoved.looked (List.length_map _)).mono hlen.le
        · refine Looked.mono (hmoved.append (List.length_map _) (readDouble_looked ih m x _ hoff' hn')) ?_
          exact (took_addBytes _ _).trans_eq (by rw [hlen])

theorem readDirect_looked (m : Mem) (x : Inode) (fuel a : ℕ) (hoff : off ≤ 1024) (hn : n < 2 ^ 64) :
    Looked off (took (readDirectTraced m x fuel a off n).1) (readDirectTraced m x fuel a off n).2 := by
  induction fuel generalizing a off n with
  | zero => exact looked_none rfl
  | succ fuel ih =>
    have hrest : n - blankSpace off n < 2 ^ 64 := (Nat.sub_le _ _).trans_lt hn
    rw [readDirectTraced]
    by_cases ha : a < 6
    · rw [if_pos ha]
      dsimp only
      by_cases hz : (fetch (fun c => if h : c < 6 then x.directPointer ⟨c,h⟩ else 0) a).pointer.toNat = 0
      · rw [if_pos hz]
        exact looked_none rfl
      rw [if_neg hz]
      cases hread : (blockStoreRead m wholeStore
          (fetch (fun c => if h : c < 6 then x.directPointer ⟨c,h⟩ else 0) a).pointer.toNat).bind
          (fun block => memcpyFrom block off (blankSpace off n)) with
      | none => exact looked_none rfl
      | some bytes =>
        obtain ⟨block,_,hbytes⟩ := Option.bind_eq_some_iff.mp hread
        have hlen := memcpyFrom_length hbytes
        dsimp only
        split_ifs
        · exact (Looked.cons hoff hn (Nat.zero_le _)).mono hlen.le
        · exact (Looked.cons hoff hn (ih (a + 1) (Nat.zero_le _) hrest)).mono
            ((took_addBytes _ _).trans_eq (by rw [hlen]))
        · exact (Looked.cons hoff hn (readIndirect_looked m x indexRounds _ _ _ _ _ (Nat.zero_le _) hrest)).mono
            ((took_addBytes _ _).trans_eq (by rw [hlen]))
    · rw [if_neg ha]
      exact looked_none rfl

theorem readFrom_looked (m : Mem) (x : Inode) (a : ℕ) (hoff : off ≤ 1024) (hn : n < 2 ^ 64) :
    Looked off (took (readFrom m x a off n)) (readFromTraced m x a off n).2 := by
  rw [← readFromTraced_fst, readFromTraced]
  split_ifs
  · exact readDirect_looked m x 6 a hoff hn
  · exact readIndirect_looked m x indexRounds _ _ _ _ _ hoff hn
  · exact readDouble_looked (readIndirect_looked m x indexRounds) m x a hoff hn

end Readers

end LiteOSFS
