import LiteOSFS.Library.EntryTree
import LiteOSFS.Properties.InodeUse

/-! # The directories form a tree

Links of directories apart, and in runs that keep the inode bitmap, every directory in use
has one entry, the root has none, and one path leads to each.
-/
namespace LiteOSFS
open Memory CString Ownership EntryGraph Transition

/-- The directories in use hang together as a tree below the root, and the files in use on them. -/
structure DirectoryTree (m : Mem) : Prop where
  root : inodeUsed m 0 = true ∧ (inodeAt m 0).fileType = typeDirectory ∧ ∀ d name, ¬ Edge (entryAt m) d name 0
  path : ∀ i < 256, inodeUsed m i = true → (inodeAt m i).fileType = typeDirectory → ∃! ns, Path (entryAt m) 0 ns i
  entry : ∀ i < 256, inodeUsed m i = true → (inodeAt m i).fileType = typeDirectory → i ≠ 0 →
    ∃! q : ℕ × ℕ, ∃ name, entryAt m q.1 q.2 = some (name,i)
  acyclic : ∀ i < 256, inodeUsed m i = true → ∀ ns, Path (entryAt m) i ns i → ns = []
  files : ∀ i < 256, inodeUsed m i = true → (inodeAt m i).fileType ≠ typeDirectory → ∃ d name, inodeUsed m d = true ∧
    (inodeAt m d).fileType = typeDirectory ∧ Edge (entryAt m) d name i

/-- Calls that keep the bitmap and link no directory. -/
def TreeKept (s : F19FS) (c : Call) : Prop := BitmapKept s c ∧
  match c with
  | .link src _ => ∀ p ∈ src, ∀ i, Edge (entryAt s.image) (parentOf s.image p.chars) (basename p.chars) i →
      (inodeAt s.image i).fileType ≠ typeDirectory
  | _ => True

namespace Names

def IsDirectory (n : Names) (i : ℕ) : Prop := (n.record i).used = true ∧ (n.record i).kind = typeDirectory

def TreeOk (n : Names) (ch : Change) : Prop := n.RootedOk ch ∧
  match ch with
  | .link _ _ _ i => (n.record i).kind ≠ typeDirectory
  | _ => True

structure Treed (n : Names) : Prop where
  rooted : n.Rooted
  rootKind : (n.record 0).kind = typeDirectory
  tree : TreeOn n.IsDirectory n.entries 0

section Treed
variable {n : Names} {d k c i : ℕ} {name : CStr} {kind : UInt8}

/-- Entries refer to no inode that is not in use. -/
theorem Rooted.not_target (h : n.Rooted) (hfree : (n.record c).used = false) (d k : ℕ) (a : CStr) :
    n.entries d k ≠ some (a,c) := by
  intro he
  have hu := h.used d k a c he
  rw [hfree] at hu
  cases hu

theorem isDirectory_setRecord_of_ne {x : Record} {j : ℕ} (h : j ≠ i) : (n.setRecord i x).IsDirectory j ↔ n.IsDirectory j := by
  rw [IsDirectory, setRecord_of_ne h, IsDirectory]

theorem isDirectory_links (j : ℕ) (links : UInt64) :
    (n.setRecord i { n.record i with links := links }).IsDirectory j ↔ n.IsDirectory j := by
  by_cases hji : j = i
  · rw [hji, IsDirectory, setRecord_self, IsDirectory]
  · exact isDirectory_setRecord_of_ne hji

/-- The tree after a change of link counts only. -/
theorem tree_links (h : TreeOn n.IsDirectory n.entries 0) (i : ℕ) (links : UInt64) :
    TreeOn (n.setRecord i { n.record i with links := links }).IsDirectory n.entries 0 :=
  h.mono (fun j hj => Or.inl ((isDirectory_links j links).mp hj)) (fun d s q hq => (isDirectory_links d links).mpr (h.source d s q hq))

theorem Treed.create (h : n.Treed) (he : n.Enabled (.create d k name c kind)) : (n.apply (.create d k name c kind)).Treed := by
  have hrooted := h.rooted.create he
  obtain _ | ⟨hroom,_,hfree,_⟩ := he
  have hother : ∀ j, (n.record j).used = true → j ≠ c := by
    rintro j hu rfl
    rw [hfree] at hu
    cases hu
  have hmade : TreeOn (n.setRecord c ⟨true,kind,UInt64.ofNat c,1⟩).IsDirectory n.entries 0 := by
    refine h.tree.mono (fun j hj => ?_) (fun e s q hq => ?_)
    · by_cases hjc : j = c
      · exact Or.inr (hjc ▸ h.rooted.not_target hfree)
      · exact Or.inl ((isDirectory_setRecord_of_ne hjc).mp hj)
    · have hdir := h.tree.source e s q hq
      exact (isDirectory_setRecord_of_ne (hother e hdir.1)).mpr hdir
  refine ⟨hrooted,?_,hmade.fill ?_ (hother 0 h.rooted.root).symm (fun _ => h.rooted.not_target hfree)⟩
  · rw [Names.apply, setRecord_of_ne (hother 0 h.rooted.root)]
    exact h.rootKind
  · exact (isDirectory_setRecord_of_ne (hother d hroom.dirUsed)).mpr ⟨hroom.dirUsed,hroom.directory⟩

theorem Treed.link (h : n.Treed) (he : n.Enabled (.link d k name i)) (hi : (n.record i).kind ≠ typeDirectory) :
    (n.apply (.link d k name i)).Treed := by
  have hrooted := h.rooted.link he
  obtain _ | _ | ⟨hroom,hedge,_⟩ := he
  obtain ⟨j,hj⟩ := hedge
  have hi0 : i ≠ 0 := by
    rintro rfl
    exact hi h.rootKind
  have hfill : TreeOn n.IsDirectory (n.setEntry d k (some (name,i))).entries 0 :=
    h.tree.fill ⟨hroom.dirUsed,hroom.directory⟩ hi0 (fun hdir => absurd hdir.2 hi)
  rw [Names.apply] at hrooted ⊢
  split_ifs at hrooted ⊢
  · exact ⟨hrooted,h.rootKind,hfill⟩
  · refine ⟨hrooted,?_,tree_links (n := n.setEntry d k (some (name,i))) hfill i _⟩
    rw [setRecord_of_ne hi0.symm]
    exact h.rootKind

theorem Treed.unlink (h : n.Treed) (he : n.Enabled (.unlink d k i))
    (hslot : ∀ e j, (∃ a, n.entries e j = some (a,i)) ↔ e = d ∧ j = k) : (n.apply (.unlink d k i)).Treed := by
  have hrooted := h.rooted.unlink he hslot
  obtain _ | _ | _ | _ | ⟨_,_,h0,_,hno⟩ := he
  refine ⟨hrooted,?_,h.tree.empty.mono (fun j hj => ?_) (fun e s q hq => ?_)⟩
  · rw [Names.apply, setRecord_of_ne (Ne.symm h0)]
    exact h.rootKind
  · have hji : j ≠ i := by
      rintro rfl
      have hu := hj.1
      rw [Names.apply, setRecord_self] at hu
      cases hu
    exact Or.inl ((isDirectory_setRecord_of_ne (n := n.setEntry d k none) hji).mp hj)
  · have hold := edge_of_update_none (⟨s,hq⟩ : Edge (update n.entries d k none) e q.1 q.2)
    have hei : e ≠ i := by
      rintro rfl
      exact hno _ _ hold
    obtain ⟨t,ht⟩ := hold
    exact (isDirectory_setRecord_of_ne (n := n.setEntry d k none) hei).mpr (h.tree.source e t _ ht)

theorem Treed.apply {ch : Change} (h : n.Treed) (he : n.Enabled ch) (hok : n.TreeOk ch) : (n.apply ch).Treed := by
  obtain ⟨hrok,hlink⟩ := hok
  cases ch with
  | take => exact absurd hrok id
  | create => exact h.create he
  | link => exact h.link he hlink
  | lower i =>
    refine ⟨h.rooted.setLinks i _,?_,tree_links h.tree i _⟩
    exact ((isDirectory_links 0 _).mpr ⟨h.rooted.root,h.rootKind⟩).2
  | unlink => exact h.unlink he hrok
  | drop => exact ⟨h.rooted.drop he hrok,h.rootKind,h.tree.empty⟩

end Treed

end Names

section Runs
variable {s : F19FS} {c : Call} {ret : ℤ} {l : List Change}

theorem treed_fsFormat : (namesOf fsFormat.image).Treed := by
  have hnone : ∀ d k, (namesOf fsFormat.image).entries d k = none := entryAt_fsFormat
  refine ⟨rooted_fsFormat,?_,⟨fun d _ s _ a _ i _ he _ => ?_,fun d s a he => ?_,fun d s q he => ?_⟩⟩
  · rw [show (namesOf fsFormat.image).record 0 = _ from recordOf_fsFormat 0, if_pos rfl]
  · rw [hnone] at he
    cases he
  · rw [hnone] at he
    cases he
  · rw [hnone] at he
    cases he

/-- The calls that keep the tree make changes that do. -/
theorem TreeKept.along (ht : TidyImage s.image) (hg : TreeKept s c) (hl : CallChanges s.image c ret l) :
    Names.Along Names.TreeOk (namesOf s.image) l := by
  have hrooted := hg.1.along ht hl
  cases hl with
  | refused | other => trivial
  | create | lower | unlink | drop => exact ⟨⟨hrooted.1,trivial⟩,trivial⟩
  | @link p q k i _ hedge =>
    refine ⟨⟨hrooted.1,?_⟩,trivial⟩
    show ((namesOf s.image).record i).kind ≠ typeDirectory
    obtain ⟨j,hj⟩ := hedge
    rw [record_kind (entryAt_lt hj)]
    exact hg.2 p rfl i ⟨j,hj⟩
  | take => exact absurd hrooted.1 id
  | replace => exact ⟨⟨hrooted.1,trivial⟩,⟨hrooted.2.1,trivial⟩,trivial⟩

end Runs

/-- Inodes in use that are no directories have an entry in one. -/
theorem Names.Treed.of_image {m : Mem} (h : (namesOf m).Treed) : DirectoryTree m := by
  have hdir : ∀ i < 256, inodeUsed m i = true → (inodeAt m i).fileType = typeDirectory → (namesOf m).IsDirectory i :=
    fun i hi hu hk => ⟨(record_used hi).trans hu,(record_kind hi).trans hk⟩
  have hparent : ∀ i < 256, inodeUsed m i = true → i ≠ 0 → ∃ d name, (namesOf m).IsDirectory d ∧ Edge (entryAt m) d name i := by
    intro i hi hu h0
    obtain ⟨ns,hp⟩ := h.rooted.reached i ((record_used hi).trans hu)
    rcases List.eq_nil_or_concat ns with rfl | ⟨ns,a,rfl⟩
    · exact absurd (path_nil.mp hp).symm h0
    · rw [List.concat_eq_append] at hp
      obtain ⟨d,_,k,hk⟩ := path_concat.mp hp
      exact ⟨d,a,h.tree.source d k _ hk,k,hk⟩
  refine ⟨⟨?_,?_,fun d a he => ?_⟩,fun i hi hu hk => ?_,fun i hi hu hk h0 => ?_,fun i hi hu ns hp => ?_,fun i hi hu hk => ?_⟩
  · exact (record_used (by decide)).symm.trans h.rooted.root
  · exact (record_kind (by decide)).symm.trans h.rootKind
  · obtain ⟨k,hk⟩ := he
    exact h.tree.root d k a hk
  · obtain ⟨ns,hp⟩ := h.rooted.reached i ((record_used hi).trans hu)
    exact ⟨ns,hp,fun ns' hq => h.tree.path_unique (hdir i hi hu hk) hq hp⟩
  · obtain ⟨d,a,_,k,he⟩ := hparent i hi hu h0
    refine ⟨(d,k),⟨a,he⟩,?_⟩
    rintro ⟨d',k'⟩ ⟨a',he'⟩
    obtain ⟨rfl,rfl⟩ := h.tree.single _ _ _ _ _ _ _ (hdir i hi hu hk) he he'
    rfl
  · rcases ns with _ | ⟨a,ns⟩
    · rfl
    · obtain ⟨e,⟨k,hk⟩,_⟩ := path_cons.mp hp
      exact h.tree.not_below_self (h.tree.source i k _ hk) (h.rooted.reached i ((record_used hi).trans hu)) hp
  · have h0 : i ≠ 0 := by
      rintro rfl
      exact hk ((record_kind (by decide)).symm.trans h.rootKind)
    obtain ⟨d,a,hd,k,he⟩ := hparent i hi hu h0
    have hlt := (h.rooted.placed.source _ _ _ he).1
    exact ⟨d,a,(record_used hlt).symm.trans hd.1,(record_kind hlt).symm.trans hd.2,k,he⟩

/-- In runs of such calls the directories in use form a tree. -/
theorem directory_tree {s : F19FS} (h : Reach step (fun s c => Tidy s c ∧ TreeKept s c) fsFormat s) :
    DirectoryTree s.image := by
  obtain ⟨_,hn⟩ := names_invariant (I := Names.Treed) treed_fsFormat (fun ht _ hg hl => hg.along ht hl)
    (fun n ch hI hok => hI.apply hok.1 hok.2) h
  exact hn.of_image

theorem treeKept_of_plain {s : F19FS} {c : Call} (h : plainTidy s c = true) : TreeKept s c := by
  refine ⟨bitmapKept_of_plain h,?_⟩
  have hp := (Bool.and_eq_true_iff.mp h).1
  cases c with
  | link => cases hp
  | _ => trivial

theorem directory_tree_nested : ∃ s, run step fsFormat [.create (pathArg ['/','d']) .directory,
      .create (pathArg ['/','d','/','e']) .directory,.create (pathArg ['/','d','/','e','/','a']) .regular] = some s ∧
    DirectoryTree s.image ∧ resolve s.image [ofChars ['d'],ofChars ['e'],ofChars ['a']] = some 3 := by
  have hrun : (run (checked plainTidy step) fsFormat [.create (pathArg ['/','d']) .directory,
      .create (pathArg ['/','d','/','e']) .directory,.create (pathArg ['/','d','/','e','/','a']) .regular]).map
      (fun s => resolve s.image [ofChars ['d'],ofChars ['e'],ofChars ['a']]) = some (some 3) := by
    decide +kernel
  obtain ⟨s,hs,hr⟩ := Option.map_eq_some_iff.mp hrun
  have hreach : Reach step (fun s c => Tidy s c ∧ TreeKept s c) fsFormat s :=
    reach_of_checked_run (fun s c hc => ⟨tidy_of_plainTidy s c hc,treeKept_of_plain hc⟩) hs
  exact ⟨s,run_of_checked hs,directory_tree hreach,hr⟩

/-- `fs_link` takes a directory: then two paths lead to it. -/
theorem directory_tree_fails : ¬ ∀ s, Reach step (fun _ _ => True) fsFormat s → DirectoryTree s.image := by
  intro hall
  have hrun : (run step fsFormat [.create (pathArg ['/','d']) .directory,
      .link (pathArg ['/','d']) (pathArg ['/','e'])]).map (fun s => decide (entryAt s.image 0 0 = some (ofChars ['d'],1)) &&
      decide (entryAt s.image 0 1 = some (ofChars ['e'],1)) && decide (inodeUsed s.image 1 = true) &&
      decide ((inodeAt s.image 1).fileType = typeDirectory)) = some true := by
    decide +kernel
  obtain ⟨s,hs,hr⟩ := Option.map_eq_some_iff.mp hrun
  simp only [Bool.and_eq_true, decide_eq_true_eq] at hr
  obtain ⟨⟨⟨hd,he⟩,hu⟩,hk⟩ := hr
  obtain ⟨q,_,honly⟩ := (hall s (reach_of_run hs)).entry 1 (by decide) hu hk (by decide)
  have hq := (honly (0,0) ⟨_,hd⟩).trans (honly (0,1) ⟨_,he⟩).symm
  exact absurd (congrArg Prod.snd hq) (by decide)

end LiteOSFS
