import LiteOSFS.FileSystem.Listing
import LiteOSFS.Containers.DynGrowth

/-! # fs_get_dir and its array

`fs_get_dir` as in `fsGetDir`, with the records as the bytes that it pushes to the front
of a dynamic array. With memory granted the array holds the records of `fsGetDir`, from
none up to one for each of the 31 slots.
-/
namespace LiteOSFS
open Memory CString

/-- The `file_record_t` for slot `j`, from `calloc`; `none` where the name does not fit it. -/
def recordBytes (m : Mem) (dir : Mem) (j : ℕ) : Option Mem :=
  let member := (blockStoreInodeRead m inodeStore (entryInode dir j)).getD Inode.cleared
  if (entryName dir j).length ≥ 32 then none
  else
    let named := strcpy zeros 0 (entryName dir j)
    if member.fileType = typeDirectory then some (copyIn named 32 4 (leByte 1))
    else if member.fileType = 102 then some (copyIn named 32 4 (leByte 0))
    else some named

/-- `dynArray` is `NULL` when the memory for it was refused. -/
def pushRecord (m : Mem) (dir : Mem) (heap : Heap) (dynArray : Option DynArray) (j : ℕ) : Option (Option DynArray) :=
  (recordBytes m dir j).bind fun fileRec =>
    match dynArray with
    | none => some none
    | some a => (dynArrayPushFront a (some fileRec) heap).map fun out => some out.array

/-- `listDir` with the array. -/
def listDirArray (m : Mem) (inodeID : ℕ) (heap : Heap) : Option (Option DynArray) :=
  let inode := (blockStoreInodeRead m inodeStore inodeID).getD Inode.cleared
  if inode.fileType = typeDirectory then
    let dir := (blockStoreRead m wholeStore inode.dirBlock).getD zeros
    (dynArrayCreate 15 36 false true heap).bind fun dynArray =>
      ((List.range 31).filter inode.vacantBit).foldlM (pushRecord m dir heap) dynArray
  else some none

def fsGetDirArray (s : F19FS) (path : Option CStr) (heap : Heap) : Option (Option DynArray) :=
  match path with
  | none => some none
  | some path =>
    if path = [] then some none
    else if path.length ≥ 200 then none
    else match strSplit path with
      | none => none
      | some none => none
      | some (some tokens) =>
        let slashOnly := tokens.headD [] = []
        if ¬ slashOnly ∧ tokens.all isValidFileName = false then some none
        else
          let names := if slashOnly then tokens.dropLast else tokens
          let w := walk s.image names
          if w.indicator = names.length then listDirArray s.image w.inodeID heap else some none

/-- A record read back. -/
def readRecord (b : Mem) : FileRecord :=
  ⟨read b 32 0,if leNat b 32 4 = 0 then .regular else if leNat b 32 4 = 1 then .directory else .invalid⟩

def records (a : DynArray) : List FileRecord := a.contents.map readRecord

/-- Every request for memory is granted, with any contents. -/
def granting (junk : ℕ → Mem) : Heap := fun bytes => some (junk bytes)

section Records
variable {m dir : Mem} {j : ℕ} {junk : ℕ → Mem} {a : DynArray}

theorem recordBytes_eq_none : recordBytes m dir j = none ↔ (entryName dir j).length ≥ 32 := by
  unfold recordBytes
  simp only
  split_ifs <;> simp_all

theorem readRecord_typed {name : CStr} {code : ℕ} {b : Mem} (h0 : 0 ∉ name) (hl : name.length < 32) (hc : code < 2)
    (hb : b = copyIn (strcpy zeros 0 name) 32 4 (leByte code)) :
    readRecord (window b 0 36) = ⟨name,if code = 0 then .regular else .directory⟩ := by
  have hname : read (window b 0 36) 32 0 = name := by
    refine read_of_bytes h0 hl fun k hk => ?_
    rw [window_apply_lt (by omega), hb, copyIn_outside (by omega), strcpy, copyIn_inside (by omega) (by omega)]
    congr 1
    omega
  have htype : leNat (window b 0 36) 32 4 = code := by
    rw [leNat_of_leByte (v := code), Nat.mod_eq_of_lt (by omega)]
    intro k hk
    rw [window_apply_lt (by omega), hb, copyIn_inside (by omega) (by omega)]
    congr 1
    omega
  rw [readRecord, hname, htype]
  interval_cases code <;> rfl

theorem recordBytes_some (m : Mem) (hl : (entryName dir j).length < 32) :
    ∃ b, recordBytes m dir j = some b ∧ readRecord (window b 0 36) = fileRecord m dir j := by
  have h0 : 0 ∉ entryName dir j := zero_not_mem_read _ _ _
  have hzero : strcpy zeros 0 (entryName dir j) = copyIn (strcpy zeros 0 (entryName dir j)) 32 4 (leByte 0) := by
    refine (copyIn_eq_self fun i hi => ?_).symm
    rw [strcpy, copyIn_outside (by omega), leByte, Nat.zero_div]
    rfl
  unfold recordBytes fileRecord
  simp only [if_neg (show ¬ (entryName dir j).length ≥ 32 by omega)]
  split_ifs with hdir hf
  · exact ⟨_,rfl,readRecord_typed h0 hl (by omega) rfl⟩
  · exact ⟨_,rfl,readRecord_typed h0 hl (by omega) rfl⟩
  · exact ⟨_,rfl,readRecord_typed h0 hl (by omega) hzero⟩

/-- What the pushes keep of the array. -/
structure RecordArray (a : DynArray) : Prop where
  inv : a.Inv
  dataSize : a.dataSize = 36

theorem pushFront_granted (h : RecordArray a) (hsize : a.size < dynMaxCapacity) (o : Mem) (junk : ℕ → Mem) :
    ∃ out, dynArrayPushFront a (some o) (granting junk) = some out ∧ RecordArray out.array ∧
      out.array.size = a.size + 1 ∧ out.array.contents = window o 0 36 :: a.contents := by
  have hcap := h.inv.capacity_le
  have hbound : dynMaxCapacity = 2 ^ 56 := rfl
  rcases shiftInsert_cases h.inv (Nat.zero_le _) o (granting junk) with
    ⟨hw,_⟩ | ⟨_,⟨hm,_⟩ | ⟨_,b,hb,hs,hroom,hd,hc,hout⟩⟩
  · have hbytes := hw.2.2.1
    rw [h.dataSize] at hbytes
    omega
  · rcases hm.2 with hge | hnone
    · omega
    · cases hnone
  · refine ⟨_,hout,⟨hb.inserted hroom,hd.trans h.dataSize⟩,congrArg (· + 1) hs,?_⟩
    rw [contents_inserted_one (Nat.zero_le _), List.insertIdx_zero, hd, h.dataSize, hc]

theorem pushRecord_granted (m : Mem) (junk : ℕ → Mem) (h : RecordArray a) (hsize : a.size < dynMaxCapacity)
    (hl : (entryName dir j).length < 32) :
    ∃ b, pushRecord m dir (granting junk) (some a) j = some (some b) ∧ RecordArray b ∧ b.size = a.size + 1 ∧
      records b = fileRecord m dir j :: records a := by
  obtain ⟨o,ho,hread⟩ := recordBytes_some m hl
  obtain ⟨out,hout,hb,hs,hc⟩ := pushFront_granted h hsize o junk
  refine ⟨out.array,?_,hb,hs,?_⟩
  · rw [pushRecord, ho, Option.bind_some]
    simp only [hout, Option.map_some]
  · rw [records, hc, List.map_cons, hread]
    rfl

/-- The loop of pushes stops where a name does not fit its record. -/
theorem foldlM_pushRecord (m dir : Mem) (junk : ℕ → Mem) (slots : List ℕ) (h : RecordArray a)
    (hsize : a.size + slots.length < dynMaxCapacity) :
    ((∃ j ∈ slots, (entryName dir j).length ≥ 32) →
      slots.foldlM (pushRecord m dir (granting junk)) (some a) = none) ∧
    ((∀ j ∈ slots, (entryName dir j).length < 32) → ∃ b,
      slots.foldlM (pushRecord m dir (granting junk)) (some a) = some (some b) ∧ RecordArray b ∧
        records b = (slots.map (fileRecord m dir)).reverse ++ records a) := by
  induction slots generalizing a with
  | nil => exact ⟨fun hno => absurd hno (by simp),fun _ => ⟨a,rfl,h,rfl⟩⟩
  | cons j slots ih =>
    rw [List.length_cons] at hsize
    rw [List.foldlM_cons]
    by_cases hl : (entryName dir j).length < 32
    · obtain ⟨b,hpush,hb,hs,hr⟩ := pushRecord_granted m junk h (by omega) hl
      obtain ⟨hbad,hgood⟩ := ih hb (by omega)
      rw [hpush]
      refine ⟨?_,fun hall => ?_⟩
      · rintro ⟨k,hk,hlong⟩
        rcases List.mem_cons.mp hk with rfl | hk
        · omega
        · exact hbad ⟨k,hk,hlong⟩
      · obtain ⟨c,hfold,hc,hrec⟩ := hgood fun k hk => hall k (List.mem_cons_of_mem j hk)
        refine ⟨c,hfold,hc,?_⟩
        rw [hrec, hr, List.map_cons, List.reverse_cons, List.append_assoc]
        rfl
    · have hnone : pushRecord m dir (granting junk) (some a) j = none := by
        rw [pushRecord, recordBytes_eq_none.mpr (by omega)]
        rfl
      rw [hnone]
      exact ⟨fun _ => rfl,fun hall => absurd (hall j List.mem_cons_self) hl⟩

theorem create_granted (junk : ℕ → Mem) : ∃ a,
    dynArrayCreate 15 36 false true (granting junk) = some (some a) ∧ RecordArray a ∧ a.size = 0 ∧ records a = [] := by
  have hc : dynArrayCreate 15 36 false true (granting junk) = some (some ⟨16,0,36,junk 576,576,false⟩) := rfl
  obtain ⟨h,hnil,hd⟩ := inv_of_create hc (show 16 * 36 < 2 ^ 64 by decide)
  exact ⟨_,hc,⟨h,hd⟩,rfl,congrArg (List.map readRecord) hnil⟩

theorem length_slots (p : ℕ → Bool) : 0 + ((List.range 31).filter p).length < dynMaxCapacity := by
  have hlen := List.length_filter_le p (List.range 31)
  rw [List.length_range] at hlen
  rw [dynMaxCapacity]
  omega

theorem listDirArray_records (m : Mem) (inodeID : ℕ) :
    (listDirArray m inodeID (granting junk)).map (Option.map records) = listDir m inodeID := by
  unfold listDirArray listDir
  simp only
  split_ifs with hdir hany
  · obtain ⟨a,hc,ha,hs,_⟩ := create_granted junk
    simp only [List.any_eq_true, decide_eq_true_eq] at hany
    have hfold := (foldlM_pushRecord m _ junk _ ha (hs ▸ length_slots _)).1 hany
    rw [hc, Option.bind_some, hfold]
    rfl
  · obtain ⟨a,hc,ha,hs,hr⟩ := create_granted junk
    simp only [List.any_eq_true, decide_eq_true_eq, not_exists, not_and, ge_iff_le, Nat.not_le] at hany
    obtain ⟨b,hb,_,hrec⟩ := (foldlM_pushRecord m _ junk _ ha (hs ▸ length_slots _)).2 hany
    rw [hc, Option.bind_some, hb]
    simp only [Option.map_some, hrec, hr, List.append_nil]
  · rfl

/-- With memory granted the array of `fs_get_dir` holds the records, for every state and path. -/
theorem fsGetDirArray_records (s : F19FS) (path : Option CStr) (junk : ℕ → Mem) :
    (fsGetDirArray s path (granting junk)).map (Option.map records) = fsGetDir s path := by
  cases path with
  | none => rfl
  | some path =>
    simp only [fsGetDirArray, fsGetDir]
    split_ifs with hnil hlong
    · rfl
    · rfl
    cases strSplit path with
    | none => rfl
    | some res =>
      cases res with
      | none => rfl
      | some tokens =>
        simp only
        split_ifs
        · rfl
        · exact listDirArray_records _ _
        · rfl
        · exact listDirArray_records _ _
        · rfl

end Records

end LiteOSFS
