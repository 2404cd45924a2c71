import LiteOSFS.FileSystem.RecordArray
import LiteOSFS.Properties.PathIntake
import LiteOSFS.Properties.PathWalks

/-! # What fs_get_dir lists

The entries of a directory are the slots of the entry map that are in use, in slot
order. The records are pushed to the front, so the array has them in the other order.
-/
namespace LiteOSFS
open Memory CString Ownership EntryGraph Transition

/-- The names in each directory are distinct and valid, and directories have blocks that can be read. -/
structure Listable (m : Mem) : Prop where
  distinct : Distinct (entryAt m)
  valid : ∀ d j a i, entryAt m d j = some (a,i) → isValidFileName a = true
  readable : DirsReadable m

/-- The record that belongs to an entry. -/
def entryRecord (m : Mem) (entry : CStr × ℕ) : FileRecord :=
  ⟨entry.1,if (inodeAt m entry.2).fileType = typeDirectory then .directory else .regular⟩

section Listing
variable {m : Mem} {d : ℕ} {names : List CStr}

theorem fileRecord_entry (m : Mem) (d : ℕ) :
    ((List.range 31).filter (inodeAt m d).vacantBit).map (fileRecord m (blockAt m (inodeAt m d).dirBlock)) =
      (liveEntries m d).map (entryRecord m) := by
  have hbits : (List.range 31).filter (inodeAt m d).vacantBit = (List.range 31).filter (inodeAt m d).live :=
    List.filter_congr fun j hj => Inode.vacantBit_eq _ (List.mem_range.mp hj)
  rw [hbits, liveEntries, List.map_map]
  refine List.map_congr_left fun j _ => ?_
  rw [fileRecord, blockStoreInodeRead_table (entryInode_lt _ _)]
  rfl

theorem listDir_entries (hb : DirsReadable m) (hlen : ∀ j a i, entryAt m d j = some (a,i) → a.length < 32)
    (hd : d < 256) (hdir : (inodeAt m d).fileType = typeDirectory) :
    listDir m d = some (some ((liveEntries m d).reverse.map (entryRecord m))) := by
  have hfits : ((List.range 31).filter (inodeAt m d).vacantBit).any
      (fun j => (entryName (blockAt m (inodeAt m d).dirBlock) j).length ≥ 32) = false := by
    refine List.any_eq_false.mpr fun j hj => ?_
    obtain ⟨hj,hbit⟩ := List.mem_filter.mp hj
    have hlt := List.mem_range.mp hj
    rw [Inode.vacantBit_eq _ hlt] at hbit
    have hfit := hlen j _ _ (entryAt_live hd hlt hdir hbit)
    rw [decide_eq_true_eq]
    omega
  unfold listDir
  simp only [blockStoreInodeRead_table hd, Option.getD_some, if_pos hdir, blockStoreRead_data (hb d hd hdir), hfits,
    Bool.false_eq_true, if_false]
  rw [fileRecord_entry, List.map_reverse]

theorem listDir_file (hd : d < 256) (hfile : (inodeAt m d).fileType ≠ typeDirectory) : listDir m d = some none := by
  unfold listDir
  simp only [blockStoreInodeRead_table hd, Option.getD_some, if_neg hfile]

/-- The names along a path are names of entries. -/
theorem Listable.path_valid (h : Listable m) {e : ℕ} (hp : Path (entryAt m) e names d) :
    names.all isValidFileName = true := by
  induction hp with
  | nil => rfl
  | cons he _ ih =>
    obtain ⟨j,hj⟩ := he
    rw [List.all_cons, h.valid _ _ _ _ hj, ih]
    rfl

theorem strSplit_joinPath (hne : names ≠ []) (hc : ∀ n ∈ names, Component n) (hlong : (joinPath names).length < 200) :
    strSplit (joinPath names) = some (some names) := by
  have hfit : ∀ token ∈ strtok slash (joinPath names), token.length < 200 := fun token ht => by
    have hle := length_of_mem_strtok ht
    omega
  rw [strSplit_slash (head_joinPath hne), if_pos hfit, strtok_joinPath hc, count_joinPath hc, Nat.sub_self,
    List.replicate_zero, List.append_nil]

/-- `fs_get_dir` lists what the path resolves to. -/
theorem fsGetDir_path {s : F19FS} (h : Listable s.image) (hc : ∀ n ∈ names, Component n)
    (hlong : (pathString names).length < 200) :
    fsGetDir s (some (pathString names)) = (resolve s.image names).elim (some none) (listDir s.image) := by
  rw [pathString] at hlong ⊢
  split_ifs at hlong ⊢ with hnil
  · rw [hnil]
    have hsplit : strSplit [slash] = some (some [[]]) := by decide
    simp [fsGetDir, hsplit, resolve, walk]
  · have hfirst : ¬ names.headD [] = [] := by
      obtain ⟨name,rest,rfl⟩ := List.exists_cons_of_ne_nil hnil
      exact (hc name List.mem_cons_self).1
    simp only [fsGetDir, if_neg (joinPath_ne_nil hnil), if_neg (show ¬ (joinPath names).length ≥ 200 by omega),
      strSplit_joinPath hnil hc hlong, hfirst, not_false_eq_true, true_and, if_false]
    cases hval : names.all isValidFileName with
    | false =>
      have hnone : resolve s.image names = none := by
        cases hr : resolve s.image names with
        | none => rfl
        | some i =>
          rw [h.path_valid ((resolve_eq_some h.readable h.distinct).mp hr)] at hval
          cases hval
      rw [if_pos rfl, hnone]
      rfl
    | true =>
      rw [if_neg (by simp), resolve]
      split_ifs <;> rfl

/-- For every path `/` or `/name/name` of less than 200 bytes: the array holds one record for each live entry
of the directory that the path leads to, the last slot first, and is `NULL` when it leads to none. -/
theorem directory_listing {s : F19FS} (h : Listable s.image) (hc : ∀ n ∈ names, Component n)
    (hlong : (pathString names).length < 200) (junk : ℕ → Mem) :
    (∀ d, Path (entryAt s.image) 0 names d → (inodeAt s.image d).fileType = typeDirectory →
      ∃ a, fsGetDirArray s (some (pathString names)) (granting junk) = some (some a) ∧
        records a = (liveEntries s.image d).reverse.map (entryRecord s.image)) ∧
    ((∀ d, Path (entryAt s.image) 0 names d → (inodeAt s.image d).fileType ≠ typeDirectory) →
      fsGetDirArray s (some (pathString names)) (granting junk) = some none) := by
  have hrec := fsGetDirArray_records s (some (pathString names)) junk
  rw [fsGetDir_path h hc hlong] at hrec
  have hres : ∀ d, resolve s.image names = some d ↔ Path (entryAt s.image) 0 names d := fun d =>
    resolve_eq_some h.readable h.distinct
  have hlt : ∀ d, resolve s.image names = some d → d < 256 := fun d hd => by
    unfold resolve at hd
    split_ifs at hd
    cases hd
    exact walk_lt s.image names
  constructor
  · intro d hp hdir
    have hd := (hres d).mpr hp
    have hlist : listDir s.image d = _ := listDir_entries h.readable (fun j a i he => by
      have hle := (isValidFileName_length (h.valid d j a i he)).2
      omega) (hlt d hd) hdir
    rw [hd, Option.elim_some, hlist] at hrec
    obtain ⟨res,ha,hr⟩ := Option.map_eq_some_iff.mp hrec
    obtain ⟨a,rfl,hrecords⟩ := Option.map_eq_some_iff.mp hr
    exact ⟨a,ha,hrecords⟩
  · intro hno
    have hnull : (resolve s.image names).elim (some none) (listDir s.image) = some none := by
      cases hr : resolve s.image names with
      | none => rfl
      | some d => exact listDir_file (hlt d hr) (hno d ((hres d).mp hr))
    rw [hnull] at hrec
    obtain ⟨res,ha,hr⟩ := Option.map_eq_some_iff.mp hrec
    rwa [Option.map_eq_none_iff.mp hr] at ha

end Listing

/-- Six entries of the root, the first and the fourth of them directories. -/
def sixCreates : List Call := (List.range 6).map fun i =>
  .create (pathArg ['/',Char.ofNat (97 + i)]) (if i % 3 = 0 then .directory else .regular)

/-- The name in slot `k`: a capital, and after 26 of them a small letter. -/
def crowdedName (k : ℕ) : CStr := [UInt8.ofNat (65 + k + 6 * (k / 26))]

/-- A root directory with an entry in each of its slots, every third one a directory. -/
def crowdedImage : Mem :=
  let block := (List.range 31).foldl (fun dir k => putEntry dir k (crowdedName k) (k + 1)) zeros
  let root := { inodeAt fsFormat.image 0 with vacantFile := 2147483647, directPointer := fun _ => 17 }
  (List.range 31).foldl (fun m k => putInode m (k + 1)
    { Inode.cleared with fileType := if k % 3 = 0 then typeDirectory else typeRegular })
    (putInode (putBlock fsFormat.image 17 block) 0 root)

theorem crowdedImage_listable : Listable crowdedImage := by
  have hentries : entriesCheck crowdedImage (fun e k a _ => isValidFileName a &&
      (List.range 31).all fun j => (entryAt crowdedImage e j).all fun r => r.1 != a || j == k) = true := by
    decide +kernel
  have hblocks : ((List.range 256).all fun i => !decide ((inodeAt crowdedImage i).fileType = typeDirectory) ||
      decide ((inodeAt crowdedImage i).dirBlock ≤ 65528)) = true := by
    decide +kernel
  refine ⟨fun d j k a i i' hj hk => ?_,fun d j a i he => ?_,fun d hd hdir => ?_⟩
  · have hall := (Bool.and_eq_true_iff.mp (test_of_entriesCheck hentries hj)).2
    have hone := List.all_eq_true.mp hall k (List.mem_range.mpr (entryAt_eq_some.mp hk).1.2.1)
    rw [hk, Option.all_some, bne_self_eq_false, Bool.false_or, beq_iff_eq] at hone
    exact hone.symm
  · exact (Bool.and_eq_true_iff.mp (test_of_entriesCheck hentries he)).1
  · have hone := List.all_eq_true.mp hblocks d (List.mem_range.mpr hd)
    rw [decide_eq_true hdir, Bool.not_true, Bool.false_or] at hone
    exact of_decide_eq_true hone

def kindOf (r : FileRecord) : CStr × Bool := (r.name,decide (r.type = .directory))

def entryKinds (m : Mem) : List (CStr × Bool) :=
  (liveEntries m 0).map fun r => (r.1,decide ((inodeAt m r.2).fileType = typeDirectory))

theorem map_kindOf (m : Mem) : ((liveEntries m 0).reverse.map (entryRecord m)).map kindOf = (entryKinds m).reverse := by
  have hkind : kindOf ∘ entryRecord m = fun r => (r.1,decide ((inodeAt m r.2).fileType = typeDirectory)) := by
    funext r
    rw [Function.comp_apply, entryRecord, kindOf]
    split_ifs with h <;> simp [h]
  rw [List.map_map, hkind, List.map_reverse, entryKinds]

/-- The root after six files were made in it; and one that is full, for which the array grows at the seventeenth
record. -/
theorem directory_listing_many :
    (∃ s a, run step fsFormat sixCreates = some s ∧
      fsGetDirArray s (some (pathString [])) (granting fun _ => zeros) = some (some a) ∧
      (records a).map kindOf = [([102],false),([101],false),([100],true),([99],false),([98],false),([97],true)]) ∧
    ∃ a, fsGetDirArray ⟨crowdedImage,zeros⟩ (some (pathString [])) (granting fun _ => zeros) = some (some a) ∧
      (records a).map kindOf = (List.range 31).reverse.map (fun k => (crowdedName k,decide (k % 3 = 0))) := by
  have hnone : ∀ n ∈ ([] : List CStr), Component n := fun _ hn => nomatch hn
  constructor
  · have hrun : (run (checked plainTidy step) fsFormat sixCreates).map (fun s =>
        decide (entryKinds s.image = [([97],true),([98],false),([99],false),([100],true),([101],false),([102],false)]) &&
        entriesCheck s.image (fun _ _ a _ => isValidFileName a)) = some true := by
      decide +kernel
    obtain ⟨s,hs,hr⟩ := Option.map_eq_some_iff.mp hrun
    obtain ⟨hkinds,hvalid⟩ := Bool.and_eq_true_iff.mp hr
    have ht := tidyReachable_of_plain hs
    have hl : Listable s.image :=
      ⟨ht.tidy.distinct,fun d j a i he => test_of_entriesCheck hvalid he,ht.reachable.inv.dirsReadable⟩
    obtain ⟨a,ha,hrec⟩ := (directory_listing hl hnone (by decide) (fun _ => zeros)).1 0 (Path.nil 0) ht.reachable.inv.root
    exact ⟨s,a,run_of_checked hs,ha,by rw [hrec, map_kindOf, of_decide_eq_true hkinds]; rfl⟩
  · have hkinds : entryKinds crowdedImage = (List.range 31).map (fun k => (crowdedName k,decide (k % 3 = 0))) := by
      decide +kernel
    have hroot : (inodeAt crowdedImage 0).fileType = typeDirectory := by decide +kernel
    obtain ⟨a,ha,hrec⟩ := (directory_listing (s := ⟨crowdedImage,zeros⟩) crowdedImage_listable hnone (by decide)
      (fun _ => zeros)).1 0 (Path.nil 0) hroot
    exact ⟨a,ha,by rw [hrec, map_kindOf, hkinds, List.map_reverse]⟩

end LiteOSFS
